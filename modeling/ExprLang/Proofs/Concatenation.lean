import ExprLang.Proofs.GrammarCompleteness
import ExprLang.Proofs.GrammarSoundness
import ExprLang.Proofs.JoinedText
import ExprLang.Proofs.Stepwise

namespace ExprLang

open Parse

namespace Cursor

variable {token : Token} {c d : Cursor}

theorem tail_ne_nil_iff : c.tail ≠ [] ↔ ∃ token next rest, c = token :: next :: rest := by
  constructor
  · intro h
    match c, h with
    | token :: next :: rest, _ => exact ⟨token, next, rest, rfl⟩
  · rintro ⟨token, next, rest, rfl⟩
    exact List.cons_ne_nil next rest

theorem tail_ne_nil_of_suffix (hd : d <:+ c) (h : d.tail ≠ []) : c.tail ≠ [] := by
  intro hc
  have hdrop := tail_suffix_tail hd
  rw [hc, List.suffix_nil] at hdrop
  exact h hdrop

theorem current_append (h : c ≠ []) (after : Cursor) : current (c ++ after) = current c := by
  obtain ⟨token, rest, rfl⟩ := List.exists_cons_of_ne_nil h
  rfl

/-- The last of the tokens is a semicolon. -/
def EndsStatement (c : Cursor) : Prop := ∃ semicolon ∈ c.getLast?, semicolon.kind = .semicolon

theorem EndsStatement.of_suffix (h : c.EndsStatement) (hd : d <:+ c) (hne : d ≠ []) :
    d.EndsStatement := by
  obtain ⟨passed, rfl⟩ := hd
  rwa [EndsStatement, List.getLast?_append_of_ne_nil passed hne] at h

theorem EndsStatement.ne_nil (h : c.EndsStatement) : c ≠ [] := by
  rintro rfl
  obtain ⟨semicolon, hlast, -⟩ := h
  cases hlast

/-- A token that is no semicolon is not the last. -/
theorem EndsStatement.tail_ne_nil (h : c.EndsStatement) (hkind : c.current.kind ≠ .semicolon) :
    c.tail ≠ [] := by
  obtain ⟨token, rest, rfl⟩ := List.exists_cons_of_ne_nil h.ne_nil
  rintro (rfl : rest = [])
  obtain ⟨semicolon, hlast, hsemicolon⟩ := h
  cases hlast
  exact hkind hsemicolon

theorem EndsStatement.of_cons (h : EndsStatement (token :: c)) (hkind : token.kind ≠ .semicolon) :
    c.EndsStatement :=
  h.of_suffix (List.suffix_cons token c) (h.tail_ne_nil hkind)

end Cursor

variable {α β : Type} {p : Parse α} {f : α → Parse β} {nothing : α} {kind : Kind}
  {reader : Reader} {levels : Nat} {token : Token} {c d : Cursor}

theorem Parse.Stepwise.forward (h : p.Stepwise) : p.Forward := by
  induction h with
  | pure a => exact .pure a
  | bind _ _ ihp ihf => exact ihp.bind ihf
  | current => exact .current
  | peek => exact .peek
  | advance => exact .advance
  | record => exact .record _
  | bounded q _ h ih =>
    intro c
    rw [h c.length c (Nat.le_refl _)]
    exact ih c.length c

/-- An action that leaves a token in view after its last one does the same before any further
tokens. -/
theorem Parse.Stepwise.apply_append (h : p.Stepwise) (hc : (p c).cursor.tail ≠ [])
    (after : Cursor) : p (c ++ after) = ⟨(p c).value, (p c).cursor ++ after, (p c).events⟩ := by
  induction h generalizing c with
  | pure => rfl
  | bind hp hf ihp ihf =>
    have hd := Cursor.tail_ne_nil_of_suffix ((hf _).forward _) hc
    rw [bind_apply, ihp hd, ihf _ hc]
    rfl
  | current =>
    obtain ⟨token, next, rest, rfl⟩ := Cursor.tail_ne_nil_iff.1 hc
    rfl
  | peek =>
    obtain ⟨token, next, rest, rfl⟩ := Cursor.tail_ne_nil_iff.1 hc
    rfl
  | advance =>
    obtain ⟨token, rest, rfl⟩ : ∃ token rest, c = token :: rest :=
      List.exists_cons_of_ne_nil fun hnil => hc (by rw [hnil]; rfl)
    obtain ⟨token', next, rest, rfl⟩ := Cursor.tail_ne_nil_iff.1 hc
    rfl
  | record => rfl
  | bounded q _ h ih =>
    have hle : c.length ≤ (c ++ after).length := by simp
    rw [h _ c hle] at hc ⊢
    rw [h _ (c ++ after) (Nat.le_refl _)]
    exact ih _ hc

namespace Outcome

/-- An outcome on the way to which nothing was reported and every block ended at a brace. -/
structure Whole (outcome : Outcome α) : Prop where
  clean : outcome.Clean
  closed : ∀ token, .blockEnded token ∈ outcome.events → token.kind = .rBrace

@[simp] theorem whole_after_advanced {outcome : Outcome α} {current peek : Token} :
    (outcome.after [.advanced current peek]).Whole ↔ outcome.Whole := by
  constructor
  · intro h
    exact ⟨h.clean, fun token htoken => h.closed token (List.mem_cons_of_mem _ htoken)⟩
  · intro h
    refine ⟨h.clean, fun token htoken => h.closed token ?_⟩
    simpa [Outcome.after] using htoken

end Outcome

theorem Parse.whole_bind :
    ((p >>= f) c).Whole ↔ (p c).Whole ∧ (f (p c).value (p c).cursor).Whole := by
  constructor
  · rintro ⟨hclean, hclosed⟩
    obtain ⟨hp, hf⟩ := clean_bind.1 hclean
    exact ⟨⟨hp, fun token h => hclosed token (List.mem_append_left _ h)⟩,
      ⟨hf, fun token h => hclosed token (List.mem_append_right _ h)⟩⟩
  · rintro ⟨hp, hf⟩
    refine ⟨clean_bind.2 ⟨hp.clean, hf.clean⟩, fun token h => ?_⟩
    exact (List.mem_append.1 h).elim (hp.closed token) (hf.closed token)

theorem Parse.peek_of_whole_past (h : (past kind nothing p c).Whole) :
    c.peek.kind = kind ∧ (p c.tail).Whole := by
  have hkind := (clean_past_iff.1 h.clean).1
  rw [past_of_peek hkind] at h
  exact ⟨hkind, Outcome.whole_after_advanced.1 h⟩

/-- The last token that is read of an expression is one that can end it. -/
def Cursor.EndsExpression (c : Cursor) : Prop :=
  c.current.kind ≠ .semicolon ∧ c.current.kind ≠ .endOfInput

theorem Cursor.EndsExpression.of_kind (h : c.current.kind = kind)
    (hkind : kind ≠ .semicolon ∧ kind ≠ .endOfInput := by decide) : c.EndsExpression := by
  rwa [EndsExpression, h]

/-- An expression that is read whole ends in a token of its own. -/
def Reader.Lands (reader : Reader) : Prop :=
  ∀ floor c, (reader.read floor c).Whole → (reader.read floor c).cursor.EndsExpression

section Lands

theorem block_lands (h : (block reader c).Whole) :
    (block reader c).cursor.current.kind = .rBrace := by
  apply h.closed
  rw [block, current_bind, advance_bind]
  simp [Outcome.after]

theorem group_lands (h : (group reader c).Whole) :
    (group reader c).cursor.current.kind = .rParen := by
  rw [group, advance_bind] at h ⊢
  rw [Outcome.whole_after_advanced, whole_bind] at h
  obtain ⟨hclosing, -⟩ := peek_of_whole_past h.2
  rw [Outcome.cursor_after, cursor_bind, past_of_peek hclosing]
  exact hclosing

theorem conditional_lands (h : (conditional reader c).Whole) :
    (conditional reader c).cursor.current.kind = .rBrace := by
  rw [conditional, current_bind] at h ⊢
  obtain ⟨hopening, h⟩ := peek_of_whole_past h
  rw [past_of_peek hopening]
  rw [advance_bind, Outcome.whole_after_advanced, whole_bind] at h
  obtain ⟨hclosing, h⟩ := peek_of_whole_past h.2
  obtain ⟨hbrace, h⟩ := peek_of_whole_past h
  rw [whole_bind, peek_bind] at h
  rw [Outcome.cursor_after, advance_bind, Outcome.cursor_after, cursor_bind,
    past_of_peek hclosing, Outcome.cursor_after, past_of_peek hbrace, Outcome.cursor_after,
    cursor_bind, peek_bind]
  obtain ⟨hconsequence, h⟩ := h
  split at h
  · next hother =>
    rw [if_pos hother]
    rw [advance_bind, Outcome.whole_after_advanced] at h
    obtain ⟨hbrace', h⟩ := peek_of_whole_past h
    rw [advance_bind, Outcome.cursor_after, past_of_peek hbrace', Outcome.cursor_after]
    exact block_lands (whole_bind.1 h).1
  · next hother =>
    rw [if_neg hother]
    exact block_lands hconsequence

theorem function_lands (h : (function reader c).Whole) :
    (function reader c).cursor.current.kind = .rBrace := by
  rw [function, current_bind] at h ⊢
  obtain ⟨hopening, h⟩ := peek_of_whole_past h
  rw [past_of_peek hopening, Outcome.cursor_after, cursor_bind]
  rw [whole_bind] at h
  obtain ⟨hparameters, h⟩ := h
  obtain ⟨ids, hids, -⟩ := parameters_of_clean hparameters.clean
  simp only [hids] at h ⊢
  obtain ⟨hbrace, h⟩ := peek_of_whole_past h
  rw [past_of_peek hbrace, Outcome.cursor_after]
  exact block_lands (whole_bind.1 h).1

theorem form_lands (hR : reader.Lands) {start : Form}
    (hstart : Grammar.standard.form? token.kind = some start)
    (h : (Parse.form reader start (token :: c)).Whole) :
    (Parse.form reader start (token :: c)).cursor.EndsExpression := by
  have htoken : Cursor.EndsExpression (token :: c) := by
    constructor <;> intro hkind <;> rw [Cursor.current_cons] at hkind <;> rw [hkind] at hstart <;>
      cases hstart
  cases start with
  | identifier => exact htoken
  | integer =>
    have hcursor : (integer (token :: c)).cursor = token :: c := by
      rw [integer, current_bind, Cursor.current_cons]
      cases Numeral.read? token.literal <;> rfl
    rw [Parse.form, hcursor]
    exact htoken
  | boolean => exact htoken
  | unary =>
    rw [Parse.form, unary, current_bind, advance_bind] at h ⊢
    rw [Outcome.whole_after_advanced, whole_bind] at h
    exact hR .unary c h.1
  | group => exact .of_kind (group_lands h)
  | conditional => exact .of_kind (conditional_lands h)
  | function => exact .of_kind (function_lands h)

theorem climb_lands (hR : reader.Lands) {floor : Precedence} {left : Expression}
    (h : (climb .standard reader floor left c).Whole) (hc : c.EndsExpression) :
    (climb .standard reader floor left c).cursor.EndsExpression := by
  induction hlength : c.length using Nat.strongRecOn generalizing c left with
  | ind n ih =>
    rw [climb_eq, peek_bind] at h ⊢
    split at h
    · next hjoins =>
      rw [if_pos hjoins]
      rw [advance_bind, Outcome.whole_after_advanced, whole_bind] at h
      have hlt := hlength ▸ length_lt_of_joins hjoins (Forward.binary .standard reader left c.tail)
      have hbinary : (binary .standard reader left c.tail).cursor.EndsExpression := by
        rw [binary, current_bind, advance_bind]
        have hright := h.1
        rw [binary, current_bind, advance_bind, Outcome.whole_after_advanced, whole_bind] at hright
        exact hR _ _ hright.1
      exact ih _ hlt h.2 hbinary rfl
    · next hjoins =>
      rw [if_neg hjoins]
      exact hc

end Lands

theorem Reader.lands_ofLevels (levels : Nat) : (Reader.ofLevels .standard levels).Lands := by
  induction levels with
  | zero => exact fun _ _ h => absurd (clean_bind.1 h.clean).2 fun h' =>
      not_clean_report _ _ _ (clean_bind.1 h').1
  | succ levels ih =>
    intro floor c h
    have hread : (Reader.ofLevels .standard (levels + 1)).read floor c =
        expression .standard (.ofLevels .standard levels) floor c := rfl
    rw [hread, expression_apply] at h ⊢
    cases hform : Grammar.standard.form? c.current.kind with
    | none =>
      simp only [hform] at h
      exact absurd (clean_bind.1 h.clean).1 (not_clean_report _ _ _)
    | some start =>
      simp only [hform] at h ⊢
      rw [whole_bind] at h
      have hend : c.current.kind ≠ .endOfInput := by
        intro hend
        rw [hend] at hform
        cases hform
      obtain ⟨token, c, rfl⟩ := Cursor.exists_of_current hend
      exact climb_lands ih h.2 (form_lands ih hform h.1)

/-- A statement that ends before the last semicolon, or at it, is read the same before any further
tokens. -/
def Parse.ReadsOn (p : Parse α) (c after : Cursor) : Prop :=
  (p c).cursor ≠ [] ∧ (p (c ++ after)).Gives (p c).value ((p c).cursor ++ after)

section ReadsOn

variable (after : Cursor)

theorem readsOn_expressionStatement (hstep : reader.Stepwise) (hlands : reader.Lands)
    (hc : c.EndsStatement) (h : (expressionStatement reader c).Whole) :
    (expressionStatement reader).ReadsOn c after := by
  rw [ReadsOn, expressionStatement, current_bind, current_bind, Cursor.current_append hc.ne_nil]
  rw [expressionStatement, current_bind, whole_bind] at h
  have hread := h.1
  have hends := hlands _ _ hread
  have hne := Cursor.ne_nil_of_current hends.2
  have hsuffix := reader.forward .lowest c
  have htail := (hc.of_suffix hsuffix hne).tail_ne_nil hends.1
  have happend := (hstep .lowest).apply_append htail after
  have hgives : (reader.read .lowest (c ++ after)).Gives (reader.read .lowest c).value
      ((reader.read .lowest c).cursor ++ after) := by
    rw [happend]
    exact ⟨rfl, rfl, hread.clean⟩
  rw [value_bind, cursor_bind, peek_bind]
  generalize reader.read .lowest c = read at htail hgives
  obtain ⟨value, d, events⟩ := read
  obtain ⟨last, next, rest, rfl⟩ := Cursor.tail_ne_nil_iff.1 htail
  by_cases hsemicolon : next.kind = .semicolon
  · simp only [Cursor.peek_cons, Cursor.current_cons, Token.is_iff.2 hsemicolon, ↓reduceIte]
    refine ⟨List.cons_ne_nil next rest, gives_bind hgives ?_⟩
    rw [peek_bind, List.cons_append, List.cons_append, Cursor.peek_cons, Cursor.current_cons]
    simp only [Token.is_iff.2 hsemicolon, ↓reduceIte, advance_bind]
    exact (gives_pure _ _).after_advanced
  · simp only [Cursor.peek_cons, Cursor.current_cons, Token.is_eq_false_iff.2 hsemicolon,
      Bool.false_eq_true, ↓reduceIte]
    refine ⟨List.cons_ne_nil last (next :: rest), gives_bind hgives ?_⟩
    rw [peek_bind, List.cons_append, List.cons_append, Cursor.peek_cons, Cursor.current_cons]
    simp only [Token.is_eq_false_iff.2 hsemicolon, Bool.false_eq_true, ↓reduceIte]
    exact gives_pure _ _

theorem readsOn_result (hword : token.kind = .returnWord)
    (hc : Cursor.EndsStatement (token :: c)) : result.ReadsOn (token :: c) after := by
  have hc := hc.of_cons (by simp [hword])
  obtain ⟨first, rest, rfl⟩ := List.exists_cons_of_ne_nil hc.ne_nil
  rw [ReadsOn, result, current_bind, current_bind, advance_bind, advance_bind, List.cons_append,
    List.tail_cons, List.tail_cons, current_bind, current_bind, List.cons_append,
    Cursor.current_cons, Cursor.current_cons, Cursor.current_cons]
  by_cases hsemicolon : first.kind = .semicolon
  · simp only [Token.is_iff.2 hsemicolon, ↓reduceIte]
    exact ⟨List.cons_ne_nil first rest, (gives_pure _ _).after_advanced⟩
  · simp only [Token.is_eq_false_iff.2 hsemicolon, Bool.false_eq_true, ↓reduceIte, advance_bind]
    exact ⟨(hc.of_cons hsemicolon).ne_nil, (gives_pure _ _).after_advanced.after_advanced⟩

theorem readsOn_binding (hword : token.kind = .letWord)
    (hc : Cursor.EndsStatement (token :: c)) (h : (binding (token :: c)).Clean) :
    binding.ReadsOn (token :: c) after := by
  rw [binding, current_bind] at h
  rw [clean_bind, clean_past_iff] at h
  obtain ⟨⟨hname, h⟩, -⟩ := h
  obtain ⟨before, name, c, hc'⟩ := Cursor.exists_of_peek_eq hname
  cases hc'
  rw [List.tail_cons, identifier_bind, clean_past_iff] at h
  obtain ⟨hassign, -⟩ := h
  obtain ⟨before, assign, c, hc'⟩ := Cursor.exists_of_peek_eq hassign
  cases hc'
  rw [Cursor.peek_cons, Cursor.current_cons] at hname hassign
  obtain ⟨skipped, hskip, hskipped, hrest⟩ := skipValue_passes c
  generalize (skipValue c).cursor = d at hskip hrest
  subst hskip
  have hd : d ≠ [] := by
    -- the last semicolon is not passed over
    rintro rfl
    rw [List.append_nil] at hc
    have hvalue := ((hc.of_cons (by simp [hword])).of_cons (by simp [hname])).of_cons
      (by simp [hassign])
    obtain ⟨semicolon, hlast, hkind⟩ := hvalue
    exact (hskipped semicolon (List.mem_of_getLast? hlast)).1 hkind
  have hgives := binding_gives token hname hassign hskipped hrest
  have hfurther : (d ++ after).current.kind = .semicolon ∨
      (d ++ after).current.kind = .endOfInput := by
    rwa [Cursor.current_append hd]
  rw [ReadsOn, hgives.cursor_eq, hgives.value_eq]
  refine ⟨hd, ?_⟩
  rw [List.cons_append, List.cons_append, List.cons_append, List.append_assoc]
  exact binding_gives token hname hassign hskipped hfurther

theorem readsOn_statement (hstep : reader.Stepwise) (hlands : reader.Lands)
    (hc : c.EndsStatement) (h : (statement reader c).Whole) :
    (statement reader).ReadsOn c after := by
  have hcurrent := Cursor.current_append hc.ne_nil after
  rw [ReadsOn, statement_apply, statement_apply, hcurrent]
  rw [statement_apply] at h
  by_cases hlet : c.current.kind = .letWord
  · obtain ⟨word, c, rfl⟩ := Cursor.exists_of_current_eq hlet
    rw [if_pos hlet] at h ⊢
    rw [if_pos hlet]
    exact readsOn_binding after hlet hc h.clean
  · rw [if_neg hlet] at h ⊢
    rw [if_neg hlet]
    by_cases hreturn : c.current.kind = .returnWord
    · obtain ⟨word, c, rfl⟩ := Cursor.exists_of_current_eq hreturn
      rw [if_pos hreturn, if_pos hreturn, map_apply]
      obtain ⟨hne, hgives⟩ := readsOn_result after hreturn hc
      exact ⟨hne, gives_map_iff.2 ⟨_, rfl, hgives⟩⟩
    · rw [if_neg hreturn] at h ⊢
      rw [if_neg hreturn, map_apply]
      obtain ⟨hne, hgives⟩ := readsOn_expressionStatement after hstep hlands hc (whole_bind.1 h).1
      exact ⟨hne, gives_map_iff.2 ⟨_, rfl, hgives⟩⟩

theorem statementStep_gives_append (hstep : reader.Stepwise) (hlands : reader.Lands)
    (hc : c.EndsStatement) (h : (statementStep reader c).Whole) :
    (statementStep reader (c ++ after)).Gives (statementStep reader c).value
      ((statementStep reader c).cursor ++ after) := by
  obtain ⟨hne, hgives⟩ := readsOn_statement after hstep hlands hc (whole_bind.1 h).1
  have hcursor : (statementStep reader c).cursor = (statement reader c).cursor.tail := rfl
  have hvalue : (statementStep reader c).value = (statement reader c).value := rfl
  rw [hcursor, hvalue, ← List.tail_append_of_ne_nil hne]
  exact gives_bind hgives ⟨rfl, rfl, rfl⟩

/-- A repetition to the end of the tokens goes on with further tokens as it begins with them. -/
theorem repeatUntil_append {step : Parse α} {hadvances : step.Advances}
    (hend : ∀ token ∈ c, token.kind ≠ .endOfInput)
    (hstep : ∀ d, d <:+ c → d ≠ [] → (step d).Whole →
      (step (d ++ after)).Gives (step d).value ((step d).cursor ++ after))
    (h : (repeatUntil .endOfInput step hadvances c).Whole) :
    (repeatUntil .endOfInput step hadvances (c ++ after)).value =
        (repeatUntil .endOfInput step hadvances c).value ++
          (repeatUntil .endOfInput step hadvances after).value ∧
      (repeatUntil .endOfInput step hadvances (c ++ after)).diagnostics =
        (repeatUntil .endOfInput step hadvances after).diagnostics := by
  induction hlength : c.length using Nat.strongRecOn generalizing c with
  | ind n ih =>
    cases c with
    | nil =>
      rw [List.nil_append, repeatUntil_apply _ _ _ []]
      exact ⟨rfl, rfl⟩
    | cons token rest =>
      have htoken : (token.is .endOfInput || token.is .endOfInput) = false := by
        simpa using hend token List.mem_cons_self
      rw [List.cons_append, repeatUntil_apply _ _ _ (token :: (rest ++ after)),
        repeatUntil_apply _ _ _ (token :: rest)]
      rw [repeatUntil_apply] at h
      simp only [Cursor.current_cons, htoken, Bool.false_eq_true, ↓reduceIte] at h ⊢
      rw [whole_bind, whole_bind] at h
      obtain ⟨hfirst, hothers, -⟩ := h
      obtain ⟨hvalue, hcursor, hclean⟩ := hstep _ List.suffix_rfl (List.cons_ne_nil _ _) hfirst
      have hadvance := hadvances (token :: rest)
      have hsuffix := hadvance.trans (List.suffix_cons token rest)
      obtain ⟨ihvalue, ihdiagnostics⟩ := ih _ (hlength ▸ Nat.lt_succ_of_le hadvance.length_le)
        (fun other hother => hend other (hsuffix.subset hother))
        (fun d hd => hstep d (hd.trans hsuffix)) hothers rfl
      rw [List.cons_append] at hvalue hcursor hclean
      constructor
      · simp only [bind_apply, pure_apply, hvalue, hcursor, ihvalue, List.cons_append]
      · rw [← ihdiagnostics]
        rw [Outcome.Clean, Outcome.diagnostics] at hclean
        simp only [bind_apply, pure_apply, hcursor, Outcome.diagnostics, List.filterMap_append,
          hclean, List.nil_append, List.append_nil]

/-- Statements up to a last semicolon are read the same before any further statements, and these
are read after them as they are alone. -/
theorem statements_append (hstep : reader.Stepwise) (hlands : reader.Lands)
    (hend : ∀ token ∈ c, token.kind ≠ .endOfInput) (hc : c.EndsStatement)
    (h : (statements reader .endOfInput c).Whole) :
    (statements reader .endOfInput (c ++ after)).value =
        (statements reader .endOfInput c).value ++ (statements reader .endOfInput after).value ∧
      (statements reader .endOfInput (c ++ after)).diagnostics =
        (statements reader .endOfInput after).diagnostics := by
  have hloop := (whole_bind.1 h).1
  obtain ⟨hvalue, hdiagnostics⟩ := repeatUntil_append after hend
    (fun d hd hne => statementStep_gives_append after hstep hlands (hc.of_suffix hd hne)) hloop
  simp only [statements, map_apply, hvalue, List.filterMap_append, true_and]
  exact hdiagnostics

end ReadsOn

theorem Lexer.tokens_append {a b : String}
    (h : ∀ last ∈ (ofString a).tokens.getLast?, last.kind.EndsAt b.toList) :
    (ofString (a ++ b)).tokens = (ofString a).tokens ++ (ofString b).tokens := by
  rw [tokens_eq_iff_lexes, String.toList_append]
  exact (ofString a).lexes.append (ofString b).lexes fun _ => h

/-- A text that ends in a semicolon, and whose blocks are all closed, is parsed the same before any
further text, and the further text is parsed after it as it is alone. -/
theorem parse_append {a b : String}
    (hlast : ∃ tokens semicolon, tokenize a = tokens ++ [semicolon, .endOfInput] ∧
      semicolon.kind = .semicolon)
    (hdiagnostics : (parse a).2.diagnostics = [])
    (hblocks : ∀ token, .blockEnded token ∈ (parse a).2.journal → token.kind = .rBrace) :
    (parse (a ++ b)).1.statements = (parse a).1.statements ++ (parse b).1.statements ∧
      (parse (a ++ b)).2.diagnostics = (parse b).2.diagnostics ∧
      (parse (a ++ b)).2.depth = 0 := by
  obtain ⟨tokens, semicolon, htokenize, hsemicolon⟩ := hlast
  have hlast : (Lexer.ofString a).tokens.getLast? = some semicolon := by
    have htokens : (Lexer.ofString a).tokens = tokens ++ [semicolon] := by
      rw [← List.append_left_inj [.endOfInput], List.append_assoc]
      exact htokenize
    rw [htokens, List.getLast?_concat]
  have hends : ∀ last ∈ (Lexer.ofString a).tokens.getLast?, last.kind.EndsAt b.toList := by
    intro last hmem c _
    obtain rfl : semicolon = last := Option.some.inj (hlast.symm.trans hmem)
    rw [hsemicolon]
    rfl
  have hwhole : (readTokens a).Whole := by
    refine ⟨parse_diagnostics_eq_nil_iff.1 hdiagnostics, fun token htoken => hblocks token ?_⟩
    rw [parse_journal]
    exact List.mem_append_left _ (List.mem_append_right _ htoken)
  obtain ⟨hvalue, hreported⟩ := statements_append (Lexer.ofString b).tokens
    (Reader.stepwise_ofLevels .standard maxNesting) (Reader.lands_ofLevels maxNesting)
    (fun _ => Lexer.kind_ne_endOfInput_of_mem_tokens) ⟨semicolon, hlast, hsemicolon⟩ hwhole
  rw [← Lexer.tokens_append hends] at hvalue hreported
  refine ⟨hvalue, ?_, rfl⟩
  rw [parse_diagnostics, parse_diagnostics]
  exact hreported

theorem parse_append_conditional :
    let a := "if (x) { return 1; } else { y };"
    let b := "let 5; -z"
    (∃ tokens semicolon, tokenize a = tokens ++ [semicolon, .endOfInput] ∧
        semicolon.kind = .semicolon) ∧
      (parse a).2.diagnostics = [] ∧
      (∀ token, .blockEnded token ∈ (parse a).2.journal → token.kind = .rBrace) ∧
      (parse (a ++ b)).1.statements = (parse a).1.statements ++ (parse b).1.statements ∧
      (parse (a ++ b)).2.diagnostics = (parse b).2.diagnostics := by
  intro a b
  have hlast : ∃ tokens semicolon, tokenize a = tokens ++ [semicolon, .endOfInput] ∧
      semicolon.kind = .semicolon :=
    ⟨(tokenize a).take 13, .ofSymbol ';', by decide +kernel, rfl⟩
  have hclean : (parse a).2.diagnostics = [] := by decide +kernel
  have hblocks : ∀ token, .blockEnded token ∈ (parse a).2.journal → token.kind = .rBrace := by
    have hall : ((parse a).2.journal.all fun event =>
        match event with
        | .blockEnded token => token.is .rBrace
        | _ => true) = true := by decide +kernel
    intro token htoken
    exact Token.is_iff.1 (List.all_eq_true.1 hall _ htoken)
  obtain ⟨hstatements, hdiagnostics, -⟩ := parse_append (b := b) hlast hclean hblocks
  exact ⟨hlast, hclean, hblocks, hstatements, hdiagnostics⟩

end ExprLang
