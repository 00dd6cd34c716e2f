import ExprLang.Proofs.Lexemes
import ExprLang.Proofs.Stepwise

namespace ExprLang

open Parse

/-- The two tokens that a move brings into view. -/
def Event.view? : Event → Option (Token × Token)
  | .advanced current peek => some (current, peek)
  | _ => none

/-- The tokens in view after each of the next moves. -/
def Cursor.views : Cursor → Nat → List (Token × Token)
  | _, 0 => []
  | c, n + 1 => (Cursor.current c.tail, Cursor.peek c.tail) :: Cursor.views c.tail n

/-- How many moves were made on the way to an outcome. -/
def Outcome.moves {α : Type} (outcome : Outcome α) : Nat :=
  (outcome.events.filterMap Event.view?).length

namespace Cursor

variable {c : Cursor}

@[simp] theorem length_views (c : Cursor) (n : Nat) : (c.views n).length = n := by
  induction n generalizing c with
  | zero => rfl
  | succ n ih => rw [views, List.length_cons, ih]

theorem views_add (c : Cursor) (m n : Nat) :
    c.views (m + n) = c.views m ++ views (c.drop m) n := by
  induction m generalizing c with
  | zero => rw [Nat.zero_add, views, List.drop_zero, List.nil_append]
  | succ m ih => rw [Nat.succ_add, views, views, ih, List.drop_tail, List.cons_append]

/-- Past the last token every move shows the end of the input. -/
theorem views_of_tail_eq_nil (h : c.tail = []) (n : Nat) :
    c.views n = List.replicate n (.endOfInput, .endOfInput) := by
  induction n generalizing c with
  | zero => rfl
  | succ n ih =>
    rw [views, h, ih rfl]
    rfl

/-- Moving over all tokens shows each with the next one, and the last with the end of the input. -/
theorem views_cons (token : Token) (c : Cursor) (n : Nat) :
    views (token :: c) (c.length + n) =
      List.zip c (c.tail ++ [.endOfInput]) ++ List.replicate n (.endOfInput, .endOfInput) := by
  induction c generalizing token with
  | nil =>
    rw [List.length_nil, Nat.zero_add]
    exact views_of_tail_eq_nil rfl n
  | cons next c ih =>
    rw [List.length_cons, Nat.succ_add, views, List.tail_cons, ih]
    cases c <;> rfl

end Cursor

variable {α β : Type} {p : Parse α} {f : α → Parse β} {nothing : α} {kind : Kind}
  {reader : Reader} {grammar : Grammar} {token : Token} {c d : Cursor} {surplus levels : Nat}

/-- Each move shows the tokens that come into view by it, and nothing else moves. -/
theorem Parse.Stepwise.exists_views (h : p.Stepwise) (c : Cursor) :
    ∃ n, (p c).cursor = c.drop n ∧ (p c).events.filterMap Event.view? = c.views n := by
  induction h generalizing c with
  | pure | current | peek => exact ⟨0, rfl, rfl⟩
  | bind _ _ ihp ihf =>
    rename_i p f _ _
    obtain ⟨m, hm, hviews⟩ := ihp c
    obtain ⟨n, hn, hviews'⟩ := ihf (p c).value (p c).cursor
    refine ⟨m + n, ?_, ?_⟩
    · rw [cursor_bind, hn, hm, List.drop_drop]
    · rw [bind_apply, List.filterMap_append, hviews, hviews', hm, ← Cursor.views_add]
  | advance => exact ⟨1, List.drop_one.symm, rfl⟩
  | @record event h =>
    refine ⟨0, rfl, ?_⟩
    cases event <;> first | rfl | cases h
  | bounded q _ h ih =>
    rw [h c.length c (Nat.le_refl _)]
    exact ih c.length c

theorem Parse.Stepwise.cursor_eq_drop (h : p.Stepwise) (c : Cursor) :
    (p c).cursor = c.drop (p c).moves := by
  obtain ⟨n, hn, hviews⟩ := h.exists_views c
  rw [Outcome.moves, hviews, Cursor.length_views, hn]

theorem Parse.Stepwise.views_eq (h : p.Stepwise) (c : Cursor) :
    (p c).events.filterMap Event.view? = c.views (p c).moves := by
  obtain ⟨n, -, hviews⟩ := h.exists_views c
  rw [Outcome.moves, hviews, Cursor.length_views]

theorem Parse.Stepwise.finished_not_mem (h : p.Stepwise) (c : Cursor)
    (statements diagnostics : Nat) : .finished statements diagnostics ∉ (p c).events := by
  induction h generalizing c with
  | pure | current | peek => exact List.not_mem_nil
  | bind _ _ ihp ihf => exact fun h => (List.mem_append.1 h).elim (ihp c) (ihf _ _)
  | advance =>
    intro h
    cases List.mem_singleton.1 h
  | record hnote =>
    intro h
    rw [← List.mem_singleton.1 h] at hnote
    exact hnote
  | bounded q _ h ih =>
    rw [h c.length c (Nat.le_refl _)]
    exact ih c.length c

/-- An action makes at most `surplus` moves more than there are tokens left, and none where there
are none. -/
structure Parse.Spends (surplus : Nat) (p : Parse α) (c : Cursor) : Prop where
  moves_le : (p c).moves ≤ c.length + surplus
  moves_nil : c = [] → (p c).moves = 0

def Reader.Spends (surplus : Nat) (reader : Reader) : Prop :=
  ∀ floor c, (reader.read floor).Spends surplus c

section Spends

theorem moves_bind :
    ((p >>= f) c).moves = (p c).moves + (f (p c).value (p c).cursor).moves := by
  rw [Outcome.moves, bind_apply, List.filterMap_append, List.length_append]
  rfl

theorem Parse.Spends.mono {more : Nat} (h : p.Spends surplus c) (hle : surplus ≤ more) :
    p.Spends more c :=
  ⟨Nat.le_trans h.moves_le (Nat.add_le_add_left hle _), h.moves_nil⟩

theorem spends_of_moves_eq_zero (h : (p c).moves = 0) : p.Spends surplus c :=
  ⟨h ▸ Nat.zero_le _, fun _ => h⟩

theorem spends_pure (a : α) : (pure a : Parse α).Spends surplus c := spends_of_moves_eq_zero rfl

/-- Where the first action spends a surplus it leaves no token, and the second makes no move. -/
theorem spends_bind (hstep : p.Stepwise) (hp : p.Spends surplus c)
    (hf : (f (p c).value).Spends surplus (p c).cursor) : (p >>= f).Spends surplus c := by
  have hlength : (p c).cursor.length = c.length - (p c).moves := by
    rw [hstep.cursor_eq_drop c, List.length_drop]
  have hle := hp.moves_le
  have hle' := hf.moves_le
  constructor
  · rw [moves_bind]
    by_cases hnil : (p c).cursor = []
    · have hnone := hf.moves_nil hnil
      omega
    · have hpos := List.length_pos_iff.2 hnil
      omega
  · intro hc
    have hnone := hp.moves_nil hc
    have hnil : (p c).cursor = [] := by rw [hstep.cursor_eq_drop c, hc, List.drop_nil]
    rw [moves_bind, hnone, hf.moves_nil hnil]

theorem spends_current_bind {f : Token → Parse α} :
    (current >>= f).Spends surplus c ↔ (f (Cursor.current c)).Spends surplus c :=
  ⟨fun h => ⟨h.moves_le, h.moves_nil⟩, fun h => ⟨h.moves_le, h.moves_nil⟩⟩

theorem spends_peek_bind {f : Token → Parse α} :
    (peek >>= f).Spends surplus c ↔ (f (Cursor.peek c)).Spends surplus c :=
  ⟨fun h => ⟨h.moves_le, h.moves_nil⟩, fun h => ⟨h.moves_le, h.moves_nil⟩⟩

theorem spends_identifier_bind {f : Identifier → Parse α} : (identifier >>= f).Spends surplus c ↔
    (f (.ofToken (Cursor.current c))).Spends surplus c :=
  ⟨fun h => ⟨h.moves_le, h.moves_nil⟩, fun h => ⟨h.moves_le, h.moves_nil⟩⟩

theorem moves_advance_bind {f : Unit → Parse α} :
    ((advance >>= f) c).moves = (f () c.tail).moves + 1 := rfl

theorem spends_advance_bind {f : Unit → Parse α} (hc : c ≠ [])
    (h : (f ()).Spends surplus c.tail) : (advance >>= f).Spends surplus c := by
  have hle := h.moves_le
  have hpos := List.length_pos_iff.2 hc
  refine ⟨?_, fun hnil => absurd hnil hc⟩
  rw [moves_advance_bind]
  rw [List.length_tail] at hle
  omega

theorem spends_past (h : c.peek.kind = kind → p.Spends surplus c.tail)
    (hkind : kind ≠ .endOfInput := by decide) : (past kind nothing p).Spends surplus c := by
  by_cases hpeek : c.peek.kind = kind
  · have hc := Cursor.ne_nil_of_peek_eq hpeek hkind
    have hadvance := spends_advance_bind (f := fun _ => p) hc (h hpeek)
    constructor
    · rw [past_of_peek hpeek]
      exact hadvance.moves_le
    · exact fun hnil => absurd hnil hc
  · apply spends_of_moves_eq_zero
    rw [past_of_peek_ne hpeek]
    rfl

theorem spends_congr {q : Parse α} (heq : p c = q c) (h : q.Spends surplus c) :
    p.Spends surplus c := by
  constructor
  · rw [heq]
    exact h.moves_le
  · rw [heq]
    exact h.moves_nil

theorem spends_map {g : α → β} (h : p.Spends surplus c) : (g <$> p).Spends surplus c := by
  have hmoves : ((g <$> p) c).moves = (p c).moves := by
    rw [map_apply]
    rfl
  constructor
  · rw [hmoves]
    exact h.moves_le
  · rw [hmoves]
    exact h.moves_nil

theorem spends_repeatUntil {closer : Kind} {step : Parse α} {hadvances : step.Advances}
    (hstep : step.Stepwise) (h : ∀ d, d ≠ [] → step.Spends surplus d) :
    (repeatUntil closer step hadvances).Spends surplus c := by
  induction hlength : c.length using Nat.strongRecOn generalizing c with
  | ind n ih =>
    by_cases hstop : (c.current.is closer || c.current.is .endOfInput) = true
    · apply spends_of_moves_eq_zero
      rw [repeatUntil_apply, if_pos hstop]
      rfl
    · have hc := Cursor.ne_nil_of_current (ne_endOfInput_of_not_stop hstop)
      have hlt : (step c).cursor.length < n := by
        have hle := (hadvances c).length_le
        have hpos := List.length_pos_iff.2 hc
        rw [List.length_tail] at hle
        omega
      refine spends_congr ((repeatUntil_apply closer step hadvances c).trans (if_neg hstop)) ?_
      apply spends_bind hstep (h c hc)
      exact spends_bind (.repeatUntil hadvances hstep) (ih _ hlt rfl) (spends_pure _)

theorem spends_advance (hc : c ≠ []) : advance.Spends 0 c :=
  ⟨List.length_pos_iff.2 hc, fun hnil => absurd hnil hc⟩

theorem spends_binding : binding.Spends 0 c := by
  rw [binding, spends_current_bind]
  apply spends_bind
  · exact .past (.bind .identifier fun _ => .past (.bind .advance fun _ =>
      .bind .skipValue fun _ => .pure _))
  · refine spends_past fun hname => ?_
    have hskip (d : Cursor) : skipValue.Spends 0 d :=
      spends_map (spends_repeatUntil .advance fun _ => spends_advance)
    rw [spends_identifier_bind]
    refine spends_past fun hassign => ?_
    apply spends_advance_bind (Cursor.tail_ne_nil_of_peek_eq hassign)
    exact spends_bind .skipValue (hskip _) (spends_pure _)
  · split
    · exact spends_of_moves_eq_zero rfl
    · exact spends_pure _

/-- A result passes over one token, or two, though only one may be left. -/
theorem spends_result (hc : c ≠ []) : result.Spends 1 c := by
  have hpos := List.length_pos_iff.2 hc
  refine ⟨?_, fun hnil => absurd hnil hc⟩
  have hmoves : (result c).moves ≤ 2 := by
    rw [result, current_bind, moves_advance_bind, current_bind]
    split
    · exact Nat.le_succ _
    · exact Nat.le_refl _
  omega

theorem spends_expressionStatement (hstep : reader.Stepwise) (hR : reader.Spends surplus) :
    (expressionStatement reader).Spends surplus c := by
  rw [expressionStatement, spends_current_bind]
  apply spends_bind (hstep _) (hR _ _)
  rw [spends_peek_bind]
  split
  · next hsemicolon =>
    have hne := Cursor.ne_nil_of_peek_eq (Token.is_iff.1 hsemicolon)
    exact spends_advance_bind hne (spends_pure _)
  · exact spends_pure _

theorem spends_names : names.Spends surplus c := by
  induction hlength : c.length using Nat.strongRecOn generalizing c with
  | ind n ih =>
    rw [names_eq]
    refine spends_past fun hname => ?_
    obtain ⟨before, name, c, rfl⟩ := Cursor.exists_of_peek_eq hname
    rw [List.tail_cons, spends_identifier_bind, spends_peek_bind]
    split
    · have hlt : c.length < n := by
        simp only [List.length_cons] at hlength
        omega
      apply spends_advance_bind (List.cons_ne_nil name c)
      exact spends_bind .names (ih _ hlt rfl) (spends_pure _)
    · exact spends_past fun _ => spends_pure _

theorem spends_parameters : parameters.Spends surplus c := by
  rw [parameters, spends_peek_bind]
  split
  · next hclosing =>
    have hne := Cursor.ne_nil_of_peek_eq (Token.is_iff.1 hclosing)
    exact spends_advance_bind hne (spends_pure _)
  · exact spends_names

theorem spends_integer : integer.Spends surplus c := by
  apply spends_of_moves_eq_zero
  rw [integer, current_bind]
  cases Numeral.read? c.current.literal <;> rfl

theorem spends_unary (hstep : reader.Stepwise) (hR : reader.Spends surplus) (hc : c ≠ []) :
    (unary reader).Spends surplus c := by
  rw [unary, spends_current_bind]
  apply spends_advance_bind hc
  exact spends_bind (hstep _) (hR _ _) (spends_pure _)

theorem spends_group (hstep : reader.Stepwise) (hR : reader.Spends surplus) (hc : c ≠ []) :
    (group reader).Spends surplus c := by
  rw [group]
  apply spends_advance_bind hc
  apply spends_bind (hstep _) (hR _ _)
  exact spends_past fun _ => spends_pure _

theorem spends_binary (hstep : reader.Stepwise) (hR : reader.Spends surplus) (left : Expression)
    (hc : c ≠ []) : (binary grammar reader left).Spends surplus c := by
  rw [binary, spends_current_bind]
  apply spends_advance_bind hc
  exact spends_bind (hstep _) (hR _ _) (spends_pure _)

theorem spends_climb (hstep : reader.Stepwise) (hR : reader.Spends surplus) (floor : Precedence)
    (left : Expression) : (climb grammar reader floor left).Spends surplus c := by
  induction hlength : c.length using Nat.strongRecOn generalizing c left with
  | ind n ih =>
    rw [climb_eq, spends_peek_bind]
    split
    · next hjoins =>
      have hlt := hlength ▸ length_lt_of_joins hjoins (Forward.binary grammar reader left c.tail)
      have hend := Grammar.ne_endOfInput_of_joins hjoins
      have htail := Cursor.tail_ne_nil_of_peek_eq rfl hend
      apply spends_advance_bind (Cursor.ne_nil_of_peek_eq rfl hend)
      exact spends_bind (.binary hstep left) (spends_binary hstep hR left htail) (ih _ hlt _ rfl)
    · exact spends_pure _

variable (hstep : reader.Stepwise) (hR : reader.Spends surplus) (hpos : 1 ≤ surplus)
include hstep hR hpos

theorem spends_statement (hc : c ≠ []) : (statement reader).Spends surplus c := by
  by_cases hlet : c.current.kind = .letWord
  · have heq : statement reader c = binding c := by rw [statement_apply, if_pos hlet]
    exact spends_congr heq (spends_binding.mono (Nat.zero_le _))
  · by_cases hreturn : c.current.kind = .returnWord
    · have heq : statement reader c = (some <$> result) c := by
        rw [statement_apply, if_neg hlet, if_pos hreturn]
      exact spends_congr heq (spends_map ((spends_result hc).mono hpos))
    · have heq : statement reader c = (some <$> expressionStatement reader) c := by
        rw [statement_apply, if_neg hlet, if_neg hreturn]
      exact spends_congr heq (spends_map (spends_expressionStatement hstep hR))

theorem spends_statementStep (hc : c ≠ []) : (statementStep reader).Spends (surplus + 1) c := by
  have hle := (spends_statement hstep hR hpos hc).moves_le
  refine ⟨?_, fun hnil => absurd hnil hc⟩
  have hmoves : (statementStep reader c).moves = (statement reader c).moves + 1 :=
    moves_bind
  omega

theorem spends_statements (closer : Kind) : (statements reader closer).Spends (surplus + 1) c :=
  spends_map (spends_repeatUntil (.statementStep hstep) fun _ =>
    spends_statementStep hstep hR hpos)

theorem spends_block (hc : c ≠ []) : (block reader).Spends (surplus + 1) c := by
  rw [block, spends_current_bind]
  apply spends_advance_bind hc
  apply spends_bind (.statements hstep .rBrace) (spends_statements hstep hR hpos .rBrace)
  rw [spends_current_bind]
  exact spends_of_moves_eq_zero rfl

theorem spends_conditional : (conditional reader).Spends (surplus + 1) c := by
  have hread (floor : Precedence) (d : Cursor) : (reader.read floor).Spends (surplus + 1) d :=
    (hR floor d).mono (Nat.le_succ _)
  rw [conditional, spends_current_bind]
  refine spends_past fun hopening => ?_
  apply spends_advance_bind (Cursor.tail_ne_nil_of_peek_eq hopening)
  apply spends_bind (hstep _) (hread _ _)
  refine spends_past fun _ => ?_
  refine spends_past fun hbrace => ?_
  have hblock := Cursor.tail_ne_nil_of_peek_eq hbrace
  apply spends_bind (.block hstep) (spends_block hstep hR hpos hblock)
  rw [spends_peek_bind]
  split
  · next hother =>
    apply spends_advance_bind (Cursor.ne_nil_of_peek_eq (Token.is_iff.1 hother))
    refine spends_past fun hbrace' => ?_
    have hblock' := Cursor.tail_ne_nil_of_peek_eq hbrace'
    exact spends_bind (.block hstep) (spends_block hstep hR hpos hblock') (spends_pure _)
  · exact spends_pure _

theorem spends_function : (function reader).Spends (surplus + 1) c := by
  rw [function, spends_current_bind]
  refine spends_past fun hopening => ?_
  apply spends_bind .parameters spends_parameters
  cases (parameters c.tail).value with
  | none => exact spends_pure _
  | some names =>
    refine spends_past fun hbrace => ?_
    have hblock := Cursor.tail_ne_nil_of_peek_eq hbrace
    exact spends_bind (.block hstep) (spends_block hstep hR hpos hblock) (spends_pure _)

theorem spends_form (start : Form) (hc : c ≠ []) :
    (Parse.form reader start).Spends (surplus + 1) c := by
  cases start with
  | identifier => exact spends_of_moves_eq_zero rfl
  | integer => exact spends_integer
  | boolean => exact spends_of_moves_eq_zero rfl
  | unary => exact (spends_unary hstep hR hc).mono (Nat.le_succ _)
  | group => exact (spends_group hstep hR hc).mono (Nat.le_succ _)
  | conditional => exact spends_conditional hstep hR hpos
  | function => exact spends_function hstep hR hpos

theorem spends_expression (floor : Precedence) :
    (expression .standard reader floor).Spends (surplus + 1) c := by
  have hread : reader.Spends (surplus + 1) := fun floor d => (hR floor d).mono (Nat.le_succ _)
  rw [expression, spends_current_bind]
  cases hform : Grammar.standard.form? c.current.kind with
  | none => exact spends_of_moves_eq_zero rfl
  | some start =>
    have hc : c ≠ [] := by
      rintro rfl
      cases hform
    exact spends_bind (.form hstep start) (spends_form hstep hR hpos start hc)
      (spends_climb hstep hread floor _)

end Spends

/-- Every level of nesting can leave a block open, and each open block makes one move at the end of
the input; the innermost can end with a result that makes one more. -/
theorem Reader.spends_ofLevels (levels : Nat) :
    (Reader.ofLevels .standard levels).Spends (levels + 1) := by
  induction levels with
  | zero => exact fun _ _ => spends_of_moves_eq_zero rfl
  | succ levels ih =>
    exact fun floor _ => spends_expression (stepwise_ofLevels _ _) ih (Nat.le_add_left ..) floor

theorem repeatUntil_stops {closer : Kind} {step : Parse α} (hadvances : step.Advances)
    (c : Cursor) : (repeatUntil closer step hadvances c).cursor.current.kind = closer ∨
      (repeatUntil closer step hadvances c).cursor.current.kind = .endOfInput := by
  induction hlength : c.length using Nat.strongRecOn generalizing c with
  | ind n ih =>
    rw [repeatUntil_apply]
    split
    · next hstop => simpa using hstop
    · next hstop =>
      obtain ⟨token, rest, rfl⟩ := Cursor.exists_of_current (ne_endOfInput_of_not_stop hstop)
      have hlt : (step (token :: rest)).cursor.length < n :=
        hlength ▸ Nat.lt_succ_of_le (hadvances (token :: rest)).length_le
      exact ih _ hlt _ rfl

/-- A text is read to its end. -/
theorem cursor_readTokens (source : String) : (readTokens source).cursor = [] := by
  have hsuffix : (readTokens source).cursor <:+ (Lexer.ofString source).tokens :=
    Forward.statements _ _ _
  have hend : (readTokens source).cursor.current.kind = .endOfInput :=
    or_self_iff.1 (repeatUntil_stops (.statementStep _) _)
  cases hc : (readTokens source).cursor with
  | nil => rfl
  | cons token rest =>
    rw [hc] at hsuffix hend
    exact absurd hend (Lexer.kind_ne_endOfInput_of_mem_tokens (hsuffix.subset List.mem_cons_self))

theorem spends_readTokens (source : String) :
    (readTokens source).moves ≤ (Lexer.ofString source).tokens.length + (maxNesting + 2) ∧
      ((Lexer.ofString source).tokens = [] → (readTokens source).moves = 0) := by
  have hspends := spends_statements (c := (Lexer.ofString source).tokens)
    (Reader.stepwise_ofLevels .standard maxNesting) (Reader.spends_ofLevels maxNesting)
    (Nat.le_add_left ..) .endOfInput
  exact ⟨hspends.moves_le, hspends.moves_nil⟩

theorem length_le_moves_readTokens (source : String) :
    (Lexer.ofString source).tokens.length ≤ (readTokens source).moves := by
  have hdrop := stepwise_program.cursor_eq_drop (Lexer.ofString source).tokens
  exact List.drop_eq_nil_iff.1 (hdrop.symm.trans (cursor_readTokens source))

theorem views_readTokens (source : String) : (readTokens source).events.filterMap Event.view? =
    Cursor.views (Lexer.ofString source).tokens (readTokens source).moves :=
  stepwise_program.views_eq _

/-- The moves of a parse begin before the first token. -/
theorem views_journal (source : String) : (parse source).2.journal.filterMap Event.view? =
    Cursor.views (.endOfInput :: .endOfInput :: (Lexer.ofString source).tokens)
      (2 + (readTokens source).moves) := by
  have hstart : (Parser.ofString source).journal.filterMap Event.view? = Cursor.views
      (.endOfInput :: .endOfInput :: (Lexer.ofString source).tokens) 2 := rfl
  have hfinished : [Event.finished (parse source).1.statements.length
      (parse source).2.diagnostics.length].filterMap Event.view? = [] := rfl
  rw [parse_journal, List.filterMap_append, List.filterMap_append, hfinished, List.append_nil,
    hstart, views_readTokens, Cursor.views_add]
  rfl

/-- The moves of a parse go over every token. More than the one move past the last token are made by
a result, by each open level and by the program. -/
theorem views_parse (source : String) : ∃ surplus,
    (parse source).2.journal.filterMap Event.view? =
      List.zip (Token.endOfInput :: (Lexer.ofString source).tokens)
          ((Lexer.ofString source).tokens ++ [Token.endOfInput]) ++
        List.replicate surplus (Token.endOfInput, Token.endOfInput) ∧
      1 ≤ surplus ∧ surplus ≤ maxNesting + 3 ∧
      ((Lexer.ofString source).tokens = [] → surplus = 1) := by
  obtain ⟨hmost, hempty⟩ := spends_readTokens source
  have hleast := length_le_moves_readTokens source
  rw [views_journal]
  generalize (readTokens source).moves = n at hmost hempty hleast
  obtain ⟨surplus, hsurplus⟩ : ∃ surplus,
      2 + n = (Token.endOfInput :: (Lexer.ofString source).tokens).length + surplus :=
    Nat.exists_eq_add_of_le (by rw [List.length_cons]; omega)
  refine ⟨surplus, ?_, ?_⟩
  · rw [hsurplus]
    exact Cursor.views_cons .endOfInput (.endOfInput :: (Lexer.ofString source).tokens) surplus
  · rw [List.length_cons] at hsurplus
    refine ⟨by omega, by omega, fun hnil => ?_⟩
    rw [hempty hnil, hnil, List.length_nil] at hsurplus
    omega

end ExprLang
