import ExprLang.Proofs.Tokenization

namespace ExprLang

open Parse

namespace Kind

/-- The kinds that a construct asks for after a token of its own. -/
def requirable : List Kind := [identifier, assign, lParen, rParen, lBrace]

/-- The kinds that an expression can begin with. -/
def leading : List Kind :=
  [identifier, integer, trueWord, falseWord, bang, minus, lParen, ifWord, fnWord]

end Kind

theorem Form.standard?_eq_none_iff {kind : Kind} :
    Form.standard? kind = none ↔ kind ∉ Kind.leading := by
  cases kind <;> decide

theorem Form.kind_of_standard?_eq_integer {kind : Kind} (h : Form.standard? kind = some .integer) :
    kind = .integer := by
  cases kind <;> first | rfl | cases h

/-- What a diagnostic says of its token is true, if the token has `place` others before it. -/
def Diagnostic.TrueAt (diagnostic : Diagnostic) (place : Nat) : Prop :=
  match diagnostic.cause with
  | .unexpectedToken expected found =>
    found = diagnostic.token.kind ∧ expected ≠ found ∧ expected ∈ Kind.requirable
  | .noExpression kind => kind = diagnostic.token.kind ∧ kind ∉ Kind.leading
  | .integerOutOfRange literal =>
    diagnostic.token = ⟨.integer, literal⟩ ∧ IsNumeral literal ∧
      Numeral.limit < Numeral.value literal.toList
  | .nestingTooDeep limit => limit = maxNesting ∧ maxNesting ≤ place

theorem Numeral.limit_lt_value {literal : String} (h : IsNumeral literal)
    (hread : Numeral.read? literal = none) : Numeral.limit < Numeral.value literal.toList := by
  obtain ⟨digit, digits, hliteral, hdigit, hdigits⟩ := h
  rw [Numeral.read?, ite_eq_right_iff] at hread
  simpa [hliteral, hdigit, List.all_eq_true.2 hdigits] using hread

theorem Token.Lexed.outOfRange {token : Token} {place : Nat} (h : token.Lexed)
    (hkind : token.kind = .integer) (hread : Numeral.read? token.literal = none) :
    Diagnostic.TrueAt ⟨.integerOutOfRange token.literal, token⟩ place := by
  obtain ⟨kind, literal⟩ := token
  cases hkind
  cases h.wellFormed with
  | proper hproper =>
    cases hproper with
    | spelt hspelling => cases hspelling
    | integer hnumeral => exact ⟨rfl, hnumeral, Numeral.limit_lt_value hnumeral hread⟩

namespace Cursor

variable {tokens : List Token} {c d : Cursor}

/-- How many of the tokens come before those that are left. -/
def place (tokens : List Token) (cursor : Cursor) : Nat := tokens.length - cursor.length

theorem place_le_place (h : d <:+ c) : place tokens c ≤ place tokens d :=
  Nat.sub_le_sub_left h.length_le _

theorem getElem?_place (h : c <:+ tokens) :
    (tokens ++ [.endOfInput])[place tokens c]? = some c.current := by
  obtain ⟨passed, rfl⟩ := h
  rw [place, List.length_append, Nat.add_sub_cancel, List.append_assoc,
    List.getElem?_append_right (Nat.le_refl _), Nat.sub_self]
  cases c <;> rfl

end Cursor

/-- True diagnostics of tokens that come ever later, the first where `c` stands or after it, the
last where `d` stands or before it. -/
inductive Diagnostic.InOrder (tokens : List Token) : Cursor → List Diagnostic → Cursor → Prop
  | nil {c d : Cursor} (h : d <:+ c) : InOrder tokens c [] d
  | cons {c d e : Cursor} {cause : Cause} {others : List Diagnostic} (hplace : e <:+ c)
      (htrue : TrueAt ⟨cause, e.current⟩ (e.place tokens)) (hothers : InOrder tokens e others d) :
      InOrder tokens c (⟨cause, e.current⟩ :: others) d

namespace Diagnostic.InOrder

variable {tokens : List Token} {c d e : Cursor} {diagnostics others : List Diagnostic}

theorem mono_left (h : InOrder tokens c diagnostics d) (hc : c <:+ e) :
    InOrder tokens e diagnostics d := by
  cases h with
  | nil hd => exact .nil (hd.trans hc)
  | cons hplace htrue hothers => exact .cons (hplace.trans hc) htrue hothers

theorem trans (h : InOrder tokens c diagnostics d) (h' : InOrder tokens d others e) :
    InOrder tokens c (diagnostics ++ others) e := by
  induction h with
  | nil hd => exact h'.mono_left hd
  | cons hplace htrue _ ih => exact .cons hplace htrue (ih h')

/-- The places of the tokens, in an order that never goes down. -/
theorem exists_places (h : InOrder tokens c diagnostics d) (hc : c <:+ tokens) :
    ∃ places : List Nat, (∀ place ∈ places, c.place tokens ≤ place) ∧
      places.Pairwise (· ≤ ·) ∧
      List.Forall₂ (fun diagnostic place =>
        (tokens ++ [.endOfInput])[place]? = some diagnostic.token ∧ diagnostic.TrueAt place)
        diagnostics places := by
  induction h with
  | nil => exact ⟨[], nofun, .nil, .nil⟩
  | @cons c d e cause others hplace htrue hothers ih =>
    have he := hplace.trans hc
    obtain ⟨places, hleast, hsorted, hplaces⟩ := ih he
    have hle : c.place tokens ≤ e.place tokens := Cursor.place_le_place hplace
    refine ⟨e.place tokens :: places, ?_, .cons hleast hsorted,
      .cons ⟨Cursor.getElem?_place he, htrue⟩ hplaces⟩
    exact List.forall_mem_cons.2 ⟨hle, fun place hmem => Nat.le_trans hle (hleast place hmem)⟩

end Diagnostic.InOrder

/-- The diagnostics of an action come in order from `start` on. An action stops at the last token
it reads, and so the token after that can have been reported on, but no later one. -/
def Parse.Reports {α : Type} (tokens : List Token) (p : Parse α) (c start : Cursor) : Prop :=
  Diagnostic.InOrder tokens start (p c).diagnostics (p c).cursor.tail

/-- The reader reports in order wherever it reads in a region. -/
def Reader.Reports (reader : Reader) (tokens : List Token) (region : Cursor) : Prop :=
  ∀ floor c, c <:+ region → (reader.read floor).Reports tokens c c

section Reports

variable {α β : Type} {tokens : List Token} {p : Parse α} {q : Parse β} {f : β → Parse α}
  {nothing : α} {kind : Kind} {reader : Reader} {grammar : Grammar}
  {c d start region : Cursor}

theorem Parse.Reports.mono {start' : Cursor} (h : p.Reports tokens c start)
    (hstart : start <:+ start') : p.Reports tokens c start' :=
  Diagnostic.InOrder.mono_left h hstart

theorem reports_pure {a : α} (h : c.tail <:+ start) : (pure a : Parse α).Reports tokens c start :=
  .nil h

theorem reports_bind (hq : Diagnostic.InOrder tokens start (q c).diagnostics d)
    (hf : (f (q c).value).Reports tokens (q c).cursor d) :
    (q >>= f).Reports tokens c start := by
  rw [Parse.Reports, diagnostics_bind]
  exact hq.trans hf

theorem reports_current_bind {f : Token → Parse α} :
    (current >>= f).Reports tokens c start ↔ (f (Cursor.current c)).Reports tokens c start :=
  Iff.rfl

theorem reports_peek_bind {f : Token → Parse α} :
    (peek >>= f).Reports tokens c start ↔ (f (Cursor.peek c)).Reports tokens c start := Iff.rfl

theorem reports_identifier_bind {f : Identifier → Parse α} :
    (identifier >>= f).Reports tokens c start ↔
      (f (.ofToken (Cursor.current c))).Reports tokens c start := Iff.rfl

theorem reports_advance_bind {f : Unit → Parse α} :
    (advance >>= f).Reports tokens c start ↔ (f ()).Reports tokens c.tail start := Iff.rfl

/-- A diagnostic of the current token. -/
theorem reports_report {cause : Cause}
    (htrue : Diagnostic.TrueAt ⟨cause, c.current⟩ (c.place tokens)) :
    (report cause c.current >>= fun _ => pure nothing).Reports tokens c c :=
  .cons List.suffix_rfl htrue (.nil (List.tail_suffix c))

/-- A diagnostic of the next token, if it is not the one asked for. -/
theorem reports_past (hkind : kind ∈ Kind.requirable) (hstart : c.tail <:+ start)
    (hp : c.peek.kind = kind → p.Reports tokens c.tail c.tail) :
    (past kind nothing p).Reports tokens c start := by
  by_cases h : c.peek.kind = kind
  · rw [Parse.Reports, past_of_peek h]
    exact (hp h).mono hstart
  · rw [Parse.Reports, past_of_peek_ne h]
    exact .cons hstart ⟨rfl, Ne.symm h, hkind⟩ (.nil List.suffix_rfl)

/-- A repetition stops before the token it has not read, and reports on none after it. -/
theorem inOrder_repeatUntil {closer : Kind} {step : Parse α} {hadvances : step.Advances}
    (hstep : ∀ d, d <:+ region →
      Diagnostic.InOrder tokens d (step d).diagnostics (step d).cursor) (hc : c <:+ region) :
    Diagnostic.InOrder tokens c (repeatUntil closer step hadvances c).diagnostics
      (repeatUntil closer step hadvances c).cursor := by
  induction hlength : c.length using Nat.strongRecOn generalizing c with
  | ind n ih =>
    rw [repeatUntil_apply]
    split
    · exact .nil List.suffix_rfl
    · next hstop =>
      obtain ⟨token, rest, rfl⟩ := Cursor.exists_of_current (ne_endOfInput_of_not_stop hstop)
      have hlt : (step (token :: rest)).cursor.length < n :=
        hlength ▸ Nat.lt_succ_of_le (hadvances (token :: rest)).length_le
      have hothers := ih _ hlt ((hadvances.forward _).trans hc) rfl
      rw [diagnostics_bind, diagnostics_bind]
      exact (hstep _ hc).trans (hothers.trans (.nil List.suffix_rfl))

theorem inOrder_skipValue (c : Cursor) :
    Diagnostic.InOrder tokens c (skipValue c).diagnostics (skipValue c).cursor := by
  have hrepeat : (skipValue c).diagnostics =
      (repeatUntil .semicolon advance .advance c).diagnostics :=
    congrArg (List.filterMap Event.diagnostic?) (List.append_nil _)
  rw [hrepeat]
  exact inOrder_repeatUntil (fun d _ => .nil (List.tail_suffix d)) List.suffix_rfl

theorem reports_binding : binding.Reports tokens c c := by
  rw [binding, reports_current_bind]
  apply reports_bind
  · apply reports_past (by decide) (List.tail_suffix c)
    intro _
    rw [reports_identifier_bind]
    apply reports_past (by decide) (List.tail_suffix _)
    intro _
    rw [reports_advance_bind]
    exact reports_bind ((inOrder_skipValue _).mono_left (List.tail_suffix _))
      (reports_pure (List.tail_suffix _))
  · split <;> exact .nil List.suffix_rfl

theorem reports_result : result.Reports tokens c c := by
  have hvalue : c.tail.tail <:+ c := (List.tail_suffix _).trans (List.tail_suffix c)
  rw [result, reports_current_bind, reports_advance_bind, reports_current_bind]
  split
  · exact reports_pure hvalue
  · rw [reports_advance_bind]
    exact reports_pure ((List.tail_suffix _).trans hvalue)

theorem reports_expressionStatement (hR : reader.Reports tokens region) (hc : c <:+ region) :
    (expressionStatement reader).Reports tokens c c := by
  rw [expressionStatement, reports_current_bind]
  apply reports_bind (hR .lowest c hc)
  rw [reports_peek_bind]
  split
  · rw [reports_advance_bind]
    exact reports_pure (List.tail_suffix _)
  · exact reports_pure List.suffix_rfl

theorem reports_statement (hR : reader.Reports tokens region) (hc : c <:+ region) :
    (statement reader).Reports tokens c c := by
  rw [Parse.Reports, statement_apply]
  split
  · exact reports_binding
  · split
    · exact reports_bind reports_result (reports_pure List.suffix_rfl)
    · exact reports_bind (reports_expressionStatement hR hc) (reports_pure List.suffix_rfl)

/-- A statement may report on the token after its last, which is where the next one begins. -/
theorem inOrder_statementStep (hR : reader.Reports tokens region) (hc : c <:+ region) :
    Diagnostic.InOrder tokens c (statementStep reader c).diagnostics
      (statementStep reader c).cursor := by
  rw [statementStep, diagnostics_bind]
  exact (reports_statement hR hc).trans (.nil List.suffix_rfl)

theorem inOrder_statements (hR : reader.Reports tokens region) (closer : Kind)
    (hc : c <:+ region) : Diagnostic.InOrder tokens c (statements reader closer c).diagnostics
      (statements reader closer c).cursor := by
  rw [statements, map_eq_pure_bind, diagnostics_bind]
  exact (inOrder_repeatUntil (fun _ => inOrder_statementStep hR) hc).trans (.nil List.suffix_rfl)

theorem reports_block (hR : reader.Reports tokens region) (hc : c <:+ region) :
    (block reader).Reports tokens c c := by
  rw [block, reports_current_bind, reports_advance_bind]
  have hbody := inOrder_statements hR .rBrace ((List.tail_suffix c).trans hc)
  apply reports_bind (hbody.mono_left (List.tail_suffix c))
  exact .nil (List.tail_suffix _)

theorem reports_integer (hlexed : ∀ token ∈ tokens, token.Lexed) (hc : c <:+ tokens)
    (hkind : c.current.kind = .integer) : integer.Reports tokens c c := by
  rw [integer, reports_current_bind]
  split
  · exact reports_pure (List.tail_suffix c)
  · next hread =>
    obtain ⟨token, rest, rfl⟩ := Cursor.exists_of_current_eq hkind
    have htoken : token ∈ tokens := hc.subset List.mem_cons_self
    exact reports_report ((hlexed token htoken).outOfRange hkind hread)

theorem reports_unary (hR : reader.Reports tokens region) (hc : c.tail <:+ region) :
    (unary reader).Reports tokens c c := by
  rw [unary, reports_current_bind, reports_advance_bind]
  apply reports_bind ((hR .unary _ hc).mono (List.tail_suffix c))
  exact reports_pure List.suffix_rfl

theorem reports_group (hR : reader.Reports tokens region) (hc : c.tail <:+ region) :
    (group reader).Reports tokens c c := by
  rw [group, reports_advance_bind]
  apply reports_bind ((hR .lowest _ hc).mono (List.tail_suffix c))
  apply reports_past (by decide) List.suffix_rfl
  exact fun _ => reports_pure (List.tail_suffix _)

theorem reports_names : names.Reports tokens c c.tail := by
  induction hlength : c.length using Nat.strongRecOn generalizing c with
  | ind n ih =>
    rw [names_eq]
    apply reports_past (by decide) List.suffix_rfl
    intro hname
    obtain ⟨before, name, c, rfl⟩ := Cursor.exists_of_peek_eq hname
    rw [List.tail_cons, reports_identifier_bind, reports_peek_bind]
    split
    · have hlt : c.length < n := by
        simp only [List.length_cons] at hlength
        omega
      have htail := (List.tail_suffix c).trans (List.suffix_cons name c)
      rw [reports_advance_bind]
      apply reports_bind ((ih _ hlt rfl).mono htail)
      exact reports_pure List.suffix_rfl
    · apply reports_past (by decide) (List.tail_suffix (name :: c))
      exact fun _ => reports_pure (List.tail_suffix _)

theorem reports_parameters : parameters.Reports tokens c c.tail := by
  rw [parameters, reports_peek_bind]
  split
  · rw [reports_advance_bind]
    exact reports_pure (List.tail_suffix _)
  · exact reports_names

theorem reports_function (hR : reader.Reports tokens region) (hc : c.tail <:+ region) :
    (function reader).Reports tokens c c := by
  rw [function, reports_current_bind]
  apply reports_past (by decide) (List.tail_suffix c)
  intro _
  apply reports_bind (reports_parameters.mono (List.tail_suffix _))
  have hparameters : (parameters c.tail).cursor <:+ c.tail := Forward.parameters _
  cases (parameters c.tail).value with
  | none => exact reports_pure List.suffix_rfl
  | some names =>
    apply reports_past (by decide) List.suffix_rfl
    intro _
    have hbody := (List.tail_suffix _).trans (hparameters.trans hc)
    apply reports_bind (reports_block hR hbody)
    exact reports_pure List.suffix_rfl

theorem reports_conditional (hR : reader.Reports tokens region) (hc : c.tail <:+ region) :
    (conditional reader).Reports tokens c c := by
  rw [conditional, reports_current_bind]
  apply reports_past (by decide) (List.tail_suffix c)
  intro _
  rw [reports_advance_bind]
  have hcondition := (List.tail_suffix c.tail).trans hc
  apply reports_bind ((hR .lowest _ hcondition).mono (List.tail_suffix _))
  have hread := (reader.forward .lowest c.tail.tail).trans hcondition
  generalize (reader.read .lowest c.tail.tail).cursor = d at hread
  apply reports_past (by decide) List.suffix_rfl
  intro _
  apply reports_past (by decide) (List.tail_suffix _)
  intro _
  have hconsequence := (List.tail_suffix _).trans ((List.tail_suffix _).trans hread)
  apply reports_bind (reports_block hR hconsequence)
  have hblock := (Forward.block reader d.tail.tail).trans hconsequence
  generalize (block reader d.tail.tail).cursor = e at hblock
  rw [reports_peek_bind]
  split
  · rw [reports_advance_bind]
    apply reports_past (by decide) (List.tail_suffix _)
    intro _
    have halternative := (List.tail_suffix _).trans ((List.tail_suffix _).trans hblock)
    apply reports_bind (reports_block hR halternative)
    exact reports_pure List.suffix_rfl
  · exact reports_pure List.suffix_rfl

/-- An operand is read in the region that its own token precedes. -/
theorem reports_form (hlexed : ∀ token ∈ tokens, token.Lexed)
    (hR : reader.Reports tokens region) (hregion : c.tail <:+ region) (hc : c <:+ tokens)
    {start : Form} (hstart : Form.standard? c.current.kind = some start) :
    (Parse.form reader start).Reports tokens c c := by
  cases start with
  | identifier => exact reports_pure (List.tail_suffix c)
  | integer => exact reports_integer hlexed hc (Form.kind_of_standard?_eq_integer hstart)
  | boolean => exact reports_pure (List.tail_suffix c)
  | unary => exact reports_unary hR hregion
  | group => exact reports_group hR hregion
  | conditional => exact reports_conditional hR hregion
  | function => exact reports_function hR hregion

theorem reports_binary (hR : reader.Reports tokens region) (hc : c.tail <:+ region)
    (left : Expression) : (binary grammar reader left).Reports tokens c c := by
  rw [binary, reports_current_bind, reports_advance_bind]
  apply reports_bind ((hR _ _ hc).mono (List.tail_suffix c))
  exact reports_pure List.suffix_rfl

theorem reports_climb (hR : reader.Reports tokens region) (floor : Precedence)
    (left : Expression) (hc : c.tail <:+ region) :
    (climb grammar reader floor left).Reports tokens c c.tail := by
  induction hlength : c.length using Nat.strongRecOn generalizing c left with
  | ind n ih =>
    rw [climb_eq, reports_peek_bind]
    split
    · next hjoins =>
      have hforward := Forward.binary grammar reader left c.tail
      have hlt := hlength ▸ length_lt_of_joins hjoins hforward
      rw [reports_advance_bind]
      apply reports_bind (reports_binary hR ((List.tail_suffix _).trans hc) left)
      exact ih _ hlt _ ((List.tail_suffix _).trans (hforward.trans hc)) rfl
    · exact reports_pure List.suffix_rfl

theorem reports_expression (hlexed : ∀ token ∈ tokens, token.Lexed)
    (hR : reader.Reports tokens region) (hregion : c.tail <:+ region) (hc : c <:+ tokens)
    (floor : Precedence) : (expression .standard reader floor).Reports tokens c c := by
  rw [expression, reports_current_bind]
  cases hform : Grammar.standard.form? c.current.kind with
  | none => exact reports_report ⟨rfl, Form.standard?_eq_none_iff.1 hform⟩
  | some start =>
    apply reports_bind (reports_form hlexed hR hregion hc hform)
    have hforward := Cursor.tail_suffix_tail (Forward.form reader start c)
    exact reports_climb hR floor _ (hforward.trans hregion)

end Reports

/-- Every level that is gone was taken at a token of its own, and those tokens come before the ones
that are left. -/
theorem Reader.reports_ofLevels {tokens : List Token} (hlexed : ∀ token ∈ tokens, token.Lexed)
    (levels : Nat) {region : Cursor} (hregion : region <:+ tokens)
    (hlevels : region.length + maxNesting ≤ tokens.length + levels) :
    (Reader.ofLevels .standard levels).Reports tokens region := by
  induction levels generalizing region with
  | zero =>
    intro floor c hc
    have hplace : maxNesting ≤ Cursor.place tokens c := by
      have hle := hc.length_le
      rw [Cursor.place]
      omega
    exact reports_report ⟨rfl, hplace⟩
  | succ levels ih =>
    intro floor c hc
    have htokens := hc.trans hregion
    cases c with
    | nil => exact reports_report ⟨rfl, by decide⟩
    | cons token rest =>
      have hle := hc.length_le
      rw [List.length_cons] at hle
      have hrest := ih ((List.suffix_cons token rest).trans htokens) (by omega)
      exact reports_expression hlexed hrest List.suffix_rfl htokens floor

/-- The diagnostics of a parse come in the order of their tokens, and what each says of its token
is true. -/
theorem parse_diagnostics_true_in_order (source : String) : ∃ places : List Nat,
    places.Pairwise (· ≤ ·) ∧
      List.Forall₂ (fun diagnostic place =>
        (tokenize source)[place]? = some diagnostic.token ∧ diagnostic.TrueAt place)
        (parse source).2.diagnostics places := by
  have hlexed : ∀ token ∈ (Lexer.ofString source).tokens, token.Lexed :=
    (Lexer.ofString source).lexes.lexed_of_mem
  have hreader := Reader.reports_ofLevels hlexed maxNesting List.suffix_rfl (Nat.le_refl _)
  have horder := inOrder_statements hreader .endOfInput List.suffix_rfl
  obtain ⟨places, -, hsorted, hplaces⟩ := horder.exists_places List.suffix_rfl
  rw [parse_diagnostics]
  exact ⟨places, hsorted, hplaces⟩

/-- Constructs that are left one after another report on the same token. -/
example : (parse "((1").2.diagnostics = [⟨.unexpectedToken .rParen .endOfInput, .endOfInput⟩,
    ⟨.unexpectedToken .rParen .endOfInput, .endOfInput⟩] := by
  decide +kernel

end ExprLang
