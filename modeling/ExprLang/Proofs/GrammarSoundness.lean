import ExprLang.Proofs.PhraseGrammar

namespace ExprLang

open Parse

variable {reader : Reader} {levels : Nat} {closer : Kind} {token : Token} {c : Cursor}

/-- Whatever is read above a floor without a diagnostic is an expression of the layer above the
floor, and the next token does not go on with it. -/
def Reader.Sound (reader : Reader) (levels : Nat) : Prop :=
  ∀ floor c, (reader.read floor c).Clean →
    Grammar.standard.joins floor (reader.read floor c).cursor.peek.kind = false ∧
      ∃ n ≤ levels, Derives (.expression (.above floor) (reader.read floor c).value) c
        (reader.read floor c).cursor.tail n

/-- An operand read without a diagnostic is an expression of the grammar. -/
def SoundOperand (p : Parse Expression) (levels : Nat) (c : Cursor) : Prop :=
  (p c).Clean → ∃ l n, .unary ≤ l ∧ n ≤ levels + 1 ∧
    Derives (.expression l (p c).value) c (p c).cursor.tail n

theorem soundOperand_identifier (hname : token.kind = .identifier) :
    SoundOperand (.identifier <$> identifier) levels (token :: c) :=
  fun _ => ⟨.primary, 1, by decide, Nat.le_add_left .., .identifier hname⟩

theorem soundOperand_integer (hnumeral : token.kind = .integer) :
    SoundOperand integer levels (token :: c) := by
  intro h
  rw [integer, current_bind, Cursor.current_cons] at h ⊢
  cases hv : Numeral.read? token.literal with
  | none =>
    simp only [hv, clean_bind] at h
    exact absurd h.1 (not_clean_report _ _ _)
  | some value =>
    have hdenotes := Numeral.read?_eq_some_iff.1 hv
    exact ⟨.primary, 1, by decide, Nat.le_add_left .., .integer hnumeral hdenotes⟩

theorem soundOperand_boolean (hword : token.kind = .trueWord ∨ token.kind = .falseWord) :
    SoundOperand boolean levels (token :: c) := by
  intro _
  rw [boolean, current_bind, Cursor.current_cons]
  refine ⟨.primary, 1, by decide, Nat.le_add_left .., ?_⟩
  rcases hword with hword | hword
  · rw [Token.is_iff.2 hword]
    exact .yes hword
  · rw [Token.is_eq_false_iff.2 (by rw [hword]; decide)]
    exact .no hword

theorem soundOperand_unary (hR : reader.Sound levels)
    (hoperator : token.kind = .bang ∨ token.kind = .minus) :
    SoundOperand (unary reader) levels (token :: c) := by
  intro h
  rw [unary, current_bind, advance_bind, Outcome.clean_after_advanced, clean_bind] at h
  obtain ⟨-, n, hn, he⟩ := hR .unary c h.1
  exact ⟨.unary, n + 1, by decide, Nat.succ_le_succ hn, .unary hoperator he⟩

theorem soundOperand_group (hR : reader.Sound levels) (hopening : token.kind = .lParen) :
    SoundOperand (group reader) levels (token :: c) := by
  intro h
  rw [group, advance_bind, List.tail_cons] at h ⊢
  rw [Outcome.clean_after_advanced, clean_bind, clean_past_iff] at h
  obtain ⟨hread, hclosing, -⟩ := h
  obtain ⟨-, n, hn, he⟩ := hR .lowest c hread
  rw [Outcome.value_after, Outcome.cursor_after, value_bind, cursor_bind, past_of_peek hclosing]
  obtain ⟨last, closing, rest, hd⟩ := Cursor.exists_of_peek_eq hclosing
  rw [hd] at he hclosing ⊢
  exact ⟨.primary, n + 1, by decide, Nat.succ_le_succ hn, .group hopening he hclosing⟩

theorem names_of_clean (h : (names c).Clean) :
    ∃ ids, (names c).value = some ids ∧ Names c.tail ids (names c).cursor.tail := by
  induction hlength : c.length using Nat.strongRecOn generalizing c with
  | ind n ih =>
    rw [names_eq] at h ⊢
    obtain ⟨hname, h⟩ := clean_past_iff.1 h
    obtain ⟨before, name, c, rfl⟩ := Cursor.exists_of_peek_eq hname
    rw [past_of_peek hname]
    simp only [identifier_bind, peek_bind, List.tail_cons, Cursor.peek_cons,
      Cursor.current_cons] at h hname ⊢
    by_cases hcomma : c.current.kind = .comma
    · obtain ⟨comma, c, rfl⟩ := Cursor.exists_of_current_eq hcomma
      simp only [Token.is_iff.2 hcomma, ↓reduceIte, advance_bind, List.tail_cons] at h ⊢
      rw [Outcome.clean_after_advanced, clean_bind] at h
      have hlt : (comma :: c).length < n := by
        simp only [List.length_cons] at hlength ⊢
        omega
      obtain ⟨ids, hids, hnames⟩ := ih _ hlt h.1 rfl
      exact ⟨.ofToken name :: ids, by simp [hids], .more hname hcomma hnames⟩
    · simp only [Token.is_eq_false_iff.2 hcomma, Bool.false_eq_true, ↓reduceIte] at h ⊢
      obtain ⟨hclosing, -⟩ := clean_past_iff.1 h
      rw [past_of_peek hclosing]
      obtain ⟨last, closing, rest, hc⟩ := Cursor.exists_of_peek_eq hclosing
      cases hc
      exact ⟨[.ofToken name], rfl, .last hname hclosing⟩

theorem parameters_of_clean (h : (parameters c).Clean) :
    ∃ ids, (parameters c).value = some ids ∧
      Parameters c.tail ids (parameters c).cursor.tail := by
  rw [parameters, peek_bind] at h ⊢
  by_cases hclosing : c.peek.kind = .rParen
  · obtain ⟨before, closing, rest, rfl⟩ := Cursor.exists_of_peek_eq hclosing
    rw [if_pos (Token.is_iff.2 hclosing)]
    exact ⟨[], rfl, .none hclosing⟩
  · rw [if_neg (by simpa using hclosing)] at h ⊢
    obtain ⟨ids, hids, hnames⟩ := names_of_clean h
    exact ⟨ids, hids, .some hnames⟩

/-- The tokens passed over hold no semicolon, and one follows them unless the input ends. -/
theorem skipValue_passes (c : Cursor) : ∃ skipped : List Token,
    c = skipped ++ (skipValue c).cursor ∧
      (∀ token ∈ skipped, token.kind ≠ .semicolon ∧ token.kind ≠ .endOfInput) ∧
      ((skipValue c).cursor.current.kind = .semicolon ∨
        (skipValue c).cursor.current.kind = .endOfInput) := by
  change ∃ skipped : List Token, c = skipped ++ (repeatUntil .semicolon advance .advance c).cursor ∧
    _ ∧ ((repeatUntil .semicolon advance .advance c).cursor.current.kind = _ ∨
      (repeatUntil .semicolon advance .advance c).cursor.current.kind = _)
  induction c with
  | nil =>
    rw [repeatUntil]
    exact ⟨[], rfl, by simp, .inr rfl⟩
  | cons token c ih =>
    rw [repeatUntil]
    split
    · next hstop =>
      refine ⟨[], rfl, by simp, ?_⟩
      simpa using hstop
    · next hstop =>
      obtain ⟨skipped, hc, hskipped, hrest⟩ := ih
      have htoken : token.kind ≠ .semicolon ∧ token.kind ≠ .endOfInput := by simpa using hstop
      exact ⟨token :: skipped, congrArg (token :: ·) hc, by simpa [htoken] using hskipped, hrest⟩

theorem binding_of_clean (hword : token.kind = .letWord) (h : (binding (token :: c)).Clean) :
    ∃ s, (binding (token :: c)).value = some s ∧
      Derives (.statement s) (token :: c) (binding (token :: c)).cursor.tail 0 := by
  rw [binding, current_bind] at h ⊢
  rw [clean_bind, clean_past_iff] at h
  obtain ⟨⟨hname, h⟩, -⟩ := h
  obtain ⟨before, name, c, hc⟩ := Cursor.exists_of_peek_eq hname
  cases hc
  rw [List.tail_cons, identifier_bind, clean_past_iff] at h
  obtain ⟨hassign, -⟩ := h
  obtain ⟨before, assign, c, hc⟩ := Cursor.exists_of_peek_eq hassign
  cases hc
  obtain ⟨skipped, hskip, hskipped, hrest⟩ := skipValue_passes c
  simp only [value_bind, cursor_bind, past_of_peek hname, List.tail_cons, identifier_bind,
    past_of_peek hassign, advance_bind]
  refine ⟨_, rfl, ?_⟩
  have hd := Derives.binding hword hname hassign hskipped hrest
  rw [← hskip] at hd
  exact hd

theorem derives_result (hword : token.kind = .returnWord) :
    Derives (.statement (result (token :: c)).value) (token :: c)
      (result (token :: c)).cursor.tail 0 := by
  rw [result, current_bind, advance_bind, current_bind, List.tail_cons]
  by_cases hsemicolon : c.current.kind = .semicolon
  · simp only [Token.is_iff.2 hsemicolon, ↓reduceIte]
    exact .result hword hsemicolon
  · simp only [Token.is_eq_false_iff.2 hsemicolon, Bool.false_eq_true, ↓reduceIte]
    exact .resultValue hword hsemicolon

theorem expressionStatement_of_clean (hR : reader.Sound levels)
    (h : (expressionStatement reader c).Clean) :
    ∃ n ≤ levels, Derives (.statement (expressionStatement reader c).value) c
      (expressionStatement reader c).cursor.tail n := by
  rw [expressionStatement, current_bind] at h ⊢
  obtain ⟨hread, -⟩ := clean_bind.1 h
  obtain ⟨hjoins, n, hn, he⟩ := hR .lowest c hread
  refine ⟨n, hn, ?_⟩
  rw [value_bind, cursor_bind, peek_bind]
  by_cases hsemicolon : (reader.read .lowest c).cursor.peek.kind = .semicolon
  · obtain ⟨last, semicolon, rest, hd⟩ := Cursor.exists_of_peek_eq hsemicolon
    simp only [Token.is_iff.2 hsemicolon, ↓reduceIte]
    rw [hd] at he hsemicolon ⊢
    exact .terminated he hsemicolon
  · simp only [Token.is_eq_false_iff.2 hsemicolon, Bool.false_eq_true, ↓reduceIte]
    exact .unterminated he hsemicolon (Layer.ofOperator?_eq_none_of_joins hjoins)

theorem statement_of_clean (hR : reader.Sound levels) (h : (statement reader c).Clean) :
    ∃ s, (statement reader c).value = some s ∧
      ∃ n ≤ levels, Derives (.statement s) c (statement reader c).cursor.tail n := by
  rw [statement_apply] at h ⊢
  by_cases hlet : c.current.kind = .letWord
  · obtain ⟨word, c, rfl⟩ := Cursor.exists_of_current_eq hlet
    rw [if_pos hlet] at h ⊢
    obtain ⟨s, hs, hd⟩ := binding_of_clean hlet h
    exact ⟨s, hs, 0, Nat.zero_le _, hd⟩
  · rw [if_neg hlet] at h ⊢
    by_cases hreturn : c.current.kind = .returnWord
    · obtain ⟨word, c, rfl⟩ := Cursor.exists_of_current_eq hreturn
      rw [if_pos hreturn, map_apply]
      exact ⟨_, rfl, 0, Nat.zero_le _, derives_result hreturn⟩
    · rw [if_neg hreturn] at h ⊢
      rw [map_apply]
      exact ⟨_, rfl, expressionStatement_of_clean hR (clean_map.1 h)⟩

/-- Statements are read one after the other, up to the closer or the end of the input. -/
theorem statements_of_clean (hR : reader.Sound levels) (h : (statements reader closer c).Clean) :
    ((statements reader closer c).cursor.current.kind = closer ∨
        (statements reader closer c).cursor.current.kind = .endOfInput) ∧
      ∃ n ≤ levels, Derives (.body (statements reader closer c).value) c
        (statements reader closer c).cursor n := by
  rw [statements, clean_map] at h
  rw [statements, map_apply]
  induction hlength : c.length using Nat.strongRecOn generalizing c with
  | ind n ih =>
    rw [repeatUntil_apply] at h ⊢
    split at h
    · next hstop =>
      rw [if_pos hstop]
      exact ⟨by simpa using hstop, 0, Nat.zero_le _, .nil⟩
    · next hstop =>
      rw [if_neg hstop]
      obtain ⟨hstep, hrest⟩ := clean_bind.1 h
      obtain ⟨hstatement, -⟩ := clean_bind.1 hstep
      obtain ⟨s, hs, m, hm, hd⟩ := statement_of_clean hR hstatement
      have hlt := hlength ▸ length_statementStep_lt reader (ne_endOfInput_of_not_stop hstop)
      obtain ⟨hcloser, k, hk, hbody⟩ := ih _ hlt (clean_bind.1 hrest).1 rfl
      have hvalue : (statementStep reader c).value = some s := hs
      refine ⟨hcloser, max m k, Nat.max_le.2 ⟨hm, hk⟩, ?_⟩
      simp only [value_bind, cursor_bind, pure_apply, hvalue]
      exact .cons hd hbody

theorem block_of_clean (hR : reader.Sound levels) (hopening : token.kind = .lBrace)
    (h : (block reader (token :: c)).Clean) :
    ∃ n ≤ levels, Derives (.block (block reader (token :: c)).value) (token :: c)
      (block reader (token :: c)).cursor.tail n := by
  rw [block, current_bind, advance_bind, List.tail_cons] at h ⊢
  rw [Outcome.clean_after_advanced, clean_bind] at h
  obtain ⟨hcloser, n, hn, hbody⟩ := statements_of_clean hR h.1
  exact ⟨n, hn, .block hopening hbody hcloser⟩

theorem soundOperand_conditional (hR : reader.Sound levels) (hword : token.kind = .ifWord) :
    SoundOperand (conditional reader) levels (token :: c) := by
  intro h
  rw [conditional, current_bind] at h ⊢
  obtain ⟨hopening, h⟩ := clean_past_iff.1 h
  rw [past_of_peek hopening]
  obtain ⟨before, opening, c, hc⟩ := Cursor.exists_of_peek_eq hopening
  cases hc
  rw [List.tail_cons, advance_bind, List.tail_cons] at h ⊢
  rw [Outcome.clean_after_advanced, clean_bind, clean_past_iff, clean_past_iff] at h
  obtain ⟨hread, hclosing, hbrace, h⟩ := h
  obtain ⟨-, m, hm, he⟩ := hR .lowest c hread
  simp only [Outcome.value_after, Outcome.cursor_after, value_bind, cursor_bind,
    past_of_peek hclosing, past_of_peek hbrace]
  generalize reader.read .lowest c = condition at *
  obtain ⟨e, d, events⟩ := condition
  obtain ⟨last, closing, d, hd⟩ := Cursor.exists_of_peek_eq hclosing
  cases hd
  obtain ⟨_, brace, d, hd⟩ := Cursor.exists_of_peek_eq hbrace
  cases hd
  simp only [List.tail_cons, peek_bind, clean_bind, peek_apply] at h ⊢
  obtain ⟨hblock, h⟩ := h
  obtain ⟨n, hn, hb⟩ := block_of_clean hR hbrace hblock
  by_cases hother : (block reader (brace :: d)).cursor.peek.kind = .elseWord
  · simp only [Token.is_iff.2 hother, ↓reduceIte, advance_bind] at h ⊢
    rw [Outcome.clean_after_advanced, clean_past_iff] at h
    obtain ⟨hbrace', h⟩ := h
    simp only [Outcome.value_after, Outcome.cursor_after, past_of_peek hbrace']
    obtain ⟨_, other, d', hd'⟩ := Cursor.exists_of_peek_eq hother
    simp only [hd', List.tail_cons, Cursor.peek_cons, Cursor.current_cons] at hb hother hbrace' h ⊢
    obtain ⟨brace', d', rfl⟩ := Cursor.exists_of_current_eq hbrace'
    obtain ⟨k, hk, hb'⟩ := block_of_clean hR hbrace' (clean_bind.1 h).1
    refine ⟨.primary, _, by decide, ?_, .alternative hword hopening he hclosing hb hother hb'⟩
    omega
  · simp only [Token.is_eq_false_iff.2 hother, Bool.false_eq_true, ↓reduceIte] at h ⊢
    refine ⟨.primary, _, by decide, ?_, .conditional hword hopening he hclosing hb hother⟩
    omega

theorem soundOperand_function (hR : reader.Sound levels) (hword : token.kind = .fnWord) :
    SoundOperand (function reader) levels (token :: c) := by
  intro h
  rw [function, current_bind] at h ⊢
  obtain ⟨hopening, h⟩ := clean_past_iff.1 h
  rw [past_of_peek hopening]
  obtain ⟨before, opening, c, hc⟩ := Cursor.exists_of_peek_eq hopening
  cases hc
  rw [List.tail_cons, clean_bind] at h
  obtain ⟨hparameters, h⟩ := h
  obtain ⟨ids, hids, hnames⟩ := parameters_of_clean hparameters
  simp only [List.tail_cons, Outcome.value_after, Outcome.cursor_after, value_bind, cursor_bind,
    hids] at h ⊢
  obtain ⟨hbrace, h⟩ := clean_past_iff.1 h
  rw [past_of_peek hbrace]
  obtain ⟨last, brace, d, hd⟩ := Cursor.exists_of_peek_eq hbrace
  simp only [hd, List.tail_cons, Cursor.peek_cons, Cursor.current_cons] at hnames hbrace h ⊢
  obtain ⟨n, hn, hb⟩ := block_of_clean hR hbrace (clean_bind.1 h).1
  exact ⟨.primary, n + 1, by decide, Nat.succ_le_succ hn, .function hword hopening hnames hb⟩

/-- Every way to begin an expression of the standard grammar begins a phrase. -/
theorem soundOperand_form (hR : reader.Sound levels) {start : Form}
    (hstart : Grammar.standard.form? token.kind = some start) :
    SoundOperand (Parse.form reader start) levels (token :: c) := by
  cases hkind : token.kind <;> rw [hkind] at hstart <;> cases hstart
  case identifier => exact soundOperand_identifier hkind
  case integer => exact soundOperand_integer hkind
  case trueWord => exact soundOperand_boolean (.inl hkind)
  case falseWord => exact soundOperand_boolean (.inr hkind)
  case bang => exact soundOperand_unary hR (.inl hkind)
  case minus => exact soundOperand_unary hR (.inr hkind)
  case lParen => exact soundOperand_group hR hkind
  case ifWord => exact soundOperand_conditional hR hkind
  case fnWord => exact soundOperand_function hR hkind

theorem binary_of_clean (hR : reader.Sound levels) {l : Layer} {left : Expression} {b : Cursor}
    {n : Nat} (hoperator : Layer.ofOperator? token.kind = some l)
    (hleft : Derives (.expression l left) b (token :: c) n)
    (h : (binary .standard reader left (token :: c)).Clean) :
    l.EndsBefore (binary .standard reader left (token :: c)).cursor.peek.kind ∧
      ∃ m ≤ levels, Derives (.expression l (binary .standard reader left (token :: c)).value) b
        (binary .standard reader left (token :: c)).cursor.tail (max n (m + 1)) := by
  rw [binary, current_bind, advance_bind, List.tail_cons] at h ⊢
  rw [Outcome.clean_after_advanced, clean_bind] at h
  obtain ⟨hstop, m, hm, hright⟩ := hR (Grammar.standard.precedence token.kind) c h.1
  rw [Layer.above_precedence_of_ofOperator? hoperator] at hright
  exact ⟨Layer.endsBefore_of_joins hoperator hstop, m, hm, .binary hoperator hleft hright⟩

/-- Each turn of the climb folds an operator of a layer that is no tighter than the tree on its
left: a tighter one would have gone on with the operand before it. -/
theorem climb_of_clean (hR : reader.Sound levels) {floor : Precedence} {l : Layer}
    {left : Expression} {b : Cursor} {n : Nat}
    (h : (climb .standard reader floor left c).Clean)
    (hleft : Derives (.expression l left) b c.tail n) (hn : n ≤ levels + 1)
    (hfloor : .above floor ≤ l) (hnext : l.EndsBefore c.peek.kind) :
    Grammar.standard.joins floor (climb .standard reader floor left c).cursor.peek.kind = false ∧
      ∃ n ≤ levels + 1,
        Derives (.expression (.above floor) (climb .standard reader floor left c).value) b
          (climb .standard reader floor left c).cursor.tail n := by
  induction hlength : c.length using Nat.strongRecOn generalizing c left l n with
  | ind length ih =>
    rw [climb_eq, peek_bind] at h ⊢
    by_cases hjoins : Grammar.standard.joins floor c.peek.kind = true
    · simp only [hjoins, ↓reduceIte, advance_bind] at h ⊢
      rw [Outcome.clean_after_advanced, clean_bind] at h
      obtain ⟨hbinary, h⟩ := h
      obtain ⟨k, hk, hle⟩ := Layer.exists_of_joins hjoins
      have hlt := hlength ▸ length_lt_of_joins hjoins (Forward.binary .standard reader left c.tail)
      obtain ⟨before, operator, d, rfl⟩ :=
        Cursor.exists_of_peek (Grammar.ne_endOfInput_of_joins hjoins)
      obtain ⟨hends, m, hm, hd⟩ := binary_of_clean hR hk (hleft.loosen_of_le (hnext k hk)) hbinary
      exact ih _ hlt h hd (by omega) hle hends rfl
    · simp only [hjoins, Bool.false_eq_true, ↓reduceIte] at h ⊢
      exact ⟨by simpa using hjoins, n, hn, hleft.loosen_of_le hfloor⟩

theorem expression_of_clean (hR : reader.Sound levels) {floor : Precedence}
    (h : (expression .standard reader floor c).Clean) :
    Grammar.standard.joins floor (expression .standard reader floor c).cursor.peek.kind = false ∧
      ∃ n ≤ levels + 1,
        Derives (.expression (.above floor) (expression .standard reader floor c).value) c
          (expression .standard reader floor c).cursor.tail n := by
  rw [expression_apply] at h ⊢
  cases hform : Grammar.standard.form? c.current.kind with
  | none =>
    simp only [hform, clean_bind] at h
    exact absurd h.1 (not_clean_report _ _ _)
  | some start =>
    simp only [hform, clean_bind, value_bind, cursor_bind] at h ⊢
    obtain ⟨hoperand, hclimb⟩ := h
    have hend : c.current.kind ≠ .endOfInput := by
      intro hend
      rw [hend] at hform
      cases hform
    obtain ⟨token, c, rfl⟩ := Cursor.exists_of_current hend
    obtain ⟨l, n, hl, hn, hd⟩ := soundOperand_form hR hform hoperand
    refine climb_of_clean hR hclimb hd hn ?_ ?_
    · exact Layer.le_trans (by cases floor <;> decide) hl
    · exact (Layer.endsBefore_product _).of_le (Layer.le_trans (by decide) hl)

/-- What the standard grammar's reader reads without a diagnostic is an expression of the
language, with no more open at once than the reader's levels. -/
theorem Reader.sound_ofLevels (levels : Nat) : (Reader.ofLevels .standard levels).Sound levels := by
  induction levels with
  | zero =>
    intro floor c h
    exact absurd (clean_bind.1 h).2 (fun h' => not_clean_report _ _ _ (clean_bind.1 h').1)
  | succ levels ih =>
    intro floor c h
    exact expression_of_clean ih h

end ExprLang
