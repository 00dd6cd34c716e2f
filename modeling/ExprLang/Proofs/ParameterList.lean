import ExprLang.Proofs.GrammarCompleteness

namespace ExprLang

open Parse

/-- Tokens can be put after these that make them the parameters of a function. -/
def Parameters.Opened (tokens : List Token) : Prop :=
  ∃ more ids rest, Parameters (tokens ++ more) ids rest

/-- What is asked for after tokens that open a list of parameters, if it is not there: the closing
parenthesis after a name, and a name at the beginning and after a comma. -/
def Parameters.wanted (tokens : List Token) : Kind :=
  if tokens.getLast?.any (·.is .identifier) then .rParen else .identifier

/-- Names and commas in turn, up to where a name or the closing parenthesis is asked for. -/
inductive Names.Unfinished : List Token → Kind → Prop
  | start : Unfinished [] .identifier
  | name {name : Token} (hname : name.kind = .identifier) : Unfinished [name] .rParen
  | more {name comma : Token} {tokens : List Token} {wanted : Kind}
      (hname : name.kind = .identifier) (hcomma : comma.kind = .comma)
      (htokens : Unfinished tokens wanted) : Unfinished (name :: comma :: tokens) wanted

/-- Nothing is given, the cursor is left where it is and the token after it is reported. -/
structure Outcome.Refuses {α : Type} (outcome : Outcome (Option α)) (wanted : Kind)
    (cursor : Cursor) : Prop where
  value_eq : outcome.value = none
  cursor_eq : outcome.cursor = cursor
  diagnostics_eq :
    outcome.diagnostics = [⟨.unexpectedToken wanted cursor.peek.kind, cursor.peek⟩]

section Parameters

variable {α : Type} {tokens : List Token} {wanted : Kind} {next : Token} {c : Cursor}

namespace Names.Unfinished

theorem exists_names (h : Unfinished tokens wanted) :
    ∃ more ids rest, Names (tokens ++ more) ids rest := by
  induction h with
  | start => exact ⟨[⟨.identifier, "x"⟩, .ofSymbol ')'], _, _, .last rfl rfl⟩
  | name hname => exact ⟨[.ofSymbol ')'], _, _, .last hname rfl⟩
  | more hname hcomma _ ih =>
    obtain ⟨more, ids, rest, hnames⟩ := ih
    exact ⟨more, _, rest, .more hname hcomma hnames⟩

/-- A token that is not asked for does not go on with the names, but for a comma after a name. -/
theorem not_names (h : Unfinished tokens wanted) (hnext : next.kind ≠ wanted)
    (hcomma : wanted = .rParen → next.kind ≠ .comma) (more : List Token) (ids : List Identifier)
    (rest : Cursor) : ¬ Names (tokens ++ next :: more) ids rest := by
  induction h generalizing ids with
  | start =>
    intro hnames
    cases hnames with
    | last hname _ => exact hnext hname
    | more hname _ _ => exact hnext hname
  | name =>
    intro hnames
    cases hnames with
    | last _ hclosing => exact hnext hclosing
    | more _ hkind _ => exact hcomma rfl hkind
  | more _ hkind _ ih =>
    intro hnames
    cases hnames with
    | last _ hclosing => cases hkind.symm.trans hclosing
    | more _ _ hnames => exact ih hnext hcomma _ hnames

theorem wanted_eq (h : Unfinished tokens wanted) : Parameters.wanted tokens = wanted := by
  induction h with
  | start => rfl
  | name hname => simp [Parameters.wanted, hname]
  | @more name comma tokens wanted _ hcomma _ ih =>
    rw [← ih]
    cases tokens with
    | nil => simp [Parameters.wanted, hcomma]
    | cons token tokens => simp [Parameters.wanted]

end Names.Unfinished

theorem Outcome.Refuses.after_advanced {outcome : Outcome (Option α)} {current peek : Token}
    (h : outcome.Refuses wanted c) : (outcome.after [.advanced current peek]).Refuses wanted c :=
  ⟨h.value_eq, h.cursor_eq, h.diagnostics_eq⟩

theorem refuses_past {p : Parse (Option α)} (h : c.peek.kind ≠ wanted) :
    (past wanted none p c).Refuses wanted c := by
  rw [past_of_peek_ne h]
  exact ⟨rfl, rfl, rfl⟩

theorem refuses_bind_pure {p : Parse (Option (List Identifier))}
    {f : List Identifier → List Identifier} {d : Cursor} (h : (p c).Refuses wanted d) :
    ((do return (← p).map f : Parse (Option (List Identifier))) c).Refuses wanted d := by
  constructor
  · rw [value_bind, h.value_eq]
    rfl
  · rw [cursor_bind]
    exact h.cursor_eq
  · rw [diagnostics_bind, h.diagnostics_eq]
    rfl

/-- Reading names finds a list of them or stops before the first token that goes on with none. -/
theorem names_cases (c : Cursor) : (∃ ids rest, Names c.tail ids rest) ∨
    ∃ (tokens : List Token) (wanted : Kind) (rest : Cursor), c.tail = tokens ++ rest ∧
      Names.Unfinished tokens wanted ∧ rest.current.kind ≠ wanted ∧
      (wanted = .rParen → rest.current.kind ≠ .comma) ∧
      (names c).Refuses wanted (c.drop tokens.length) := by
  induction hlength : c.length using Nat.strongRecOn generalizing c with
  | ind n ih =>
    rw [names_eq]
    by_cases hname : c.peek.kind = .identifier
    · obtain ⟨before, name, c, rfl⟩ := Cursor.exists_of_peek_eq hname
      rw [past_of_peek hname, List.tail_cons, identifier_bind, peek_bind, Cursor.peek_cons]
      by_cases hcomma : c.current.kind = .comma
      · rw [if_pos (Token.is_iff.2 hcomma)]
        obtain ⟨comma, c, rfl⟩ := Cursor.exists_of_current_eq hcomma
        have hlt : (comma :: c).length < n := by
          rw [← hlength]
          exact Nat.lt_succ_of_lt (Nat.lt_succ_self _)
        rcases ih _ hlt (comma :: c) rfl with ⟨ids, rest, hnames⟩ |
          ⟨tokens, wanted, rest, rfl, hunfinished, hrest, hnext, hrefuses⟩
        · exact .inl ⟨_, rest, .more hname hcomma hnames⟩
        · refine .inr ⟨_, wanted, rest, rfl, .more hname hcomma hunfinished, hrest, hnext, ?_⟩
          rw [advance_bind]
          apply Outcome.Refuses.after_advanced
          apply Outcome.Refuses.after_advanced
          exact refuses_bind_pure hrefuses
      · rw [if_neg (by simpa using hcomma)]
        by_cases hclosing : c.current.kind = .rParen
        · obtain ⟨closing, rest, rfl⟩ := Cursor.exists_of_current_eq hclosing
          exact .inl ⟨_, rest, .last hname hclosing⟩
        · refine .inr ⟨[name], _, c, rfl, .name hname, hclosing, fun _ => hcomma, ?_⟩
          apply Outcome.Refuses.after_advanced
          exact refuses_past hclosing
    · exact .inr ⟨[], _, c.tail, rfl, .start, hname, nofun, refuses_past hname⟩

theorem parameters_eq_names (h : c.peek.kind ≠ .rParen) : parameters c = names c := by
  rw [parameters, peek_bind, if_neg (by simpa using h)]

/-- Reading parameters finds a list of them or stops before the first token that goes on with
none. -/
theorem parameters_cases (c : Cursor) : (∃ ids rest, Parameters c.tail ids rest) ∨
    ∃ (tokens : List Token) (rest : Cursor), c.tail = tokens ++ rest ∧
      Parameters.Opened tokens ∧ ¬ Parameters.Opened (tokens ++ [rest.current]) ∧
      (parameters c).Refuses (Parameters.wanted tokens) (c.drop tokens.length) := by
  by_cases hclosing : c.peek.kind = .rParen
  · obtain ⟨opening, closing, rest, rfl⟩ := Cursor.exists_of_peek_eq hclosing
    exact .inl ⟨[], rest, .none hclosing⟩
  · rw [parameters_eq_names hclosing]
    rcases names_cases c with ⟨ids, rest, hnames⟩ |
      ⟨tokens, wanted, rest, htail, hunfinished, hrest, hnext, hrefuses⟩
    · exact .inl ⟨ids, rest, .some hnames⟩
    · refine .inr ⟨tokens, rest, htail, ?_, ?_, hunfinished.wanted_eq ▸ hrefuses⟩
      · obtain ⟨more, ids, rest, hnames⟩ := hunfinished.exists_names
        exact ⟨more, ids, rest, .some hnames⟩
      · rintro ⟨more, ids, rest', hparameters⟩
        rw [List.append_assoc, List.singleton_append] at hparameters
        have hnone := hunfinished.not_names hrest hnext more
        have hpeek : c.peek = Cursor.current (tokens ++ rest.current :: more) := by
          rw [Cursor.peek, htail]
          cases tokens <;> rfl
        rw [hpeek] at hclosing
        generalize tokens ++ rest.current :: more = written at hparameters hnone hclosing
        cases hparameters with
        | none hkind => exact hclosing hkind
        | some hnames => exact hnone ids rest' hnames

theorem parameters_gives_of_tail {ids : List Identifier} {rest : Cursor}
    (h : Parameters c.tail ids rest) : ∃ closing, closing.kind = .rParen ∧
      closing :: rest <:+ c.tail ∧ (parameters c).Gives (some ids) (closing :: rest) := by
  cases c with
  | nil =>
    cases h with
    | some hnames => cases hnames
  | cons opening written => exact parameters_gives h opening

end Parameters

/-- Parameters are read exactly where a list of them is written, up to the closing parenthesis, and
without a diagnostic. Anywhere else nothing is given, and the one diagnostic is of the first token
that goes on with no list, before which the cursor stops. -/
theorem Parser.parameters_exact (parser : Parser) :
    (parser.parameters.1.isSome ↔ ∃ ids rest, Parameters parser.cursor.tail ids rest) ∧
      (∀ ids rest, Parameters parser.cursor.tail ids rest →
        parser.parameters.1 = some ids ∧ parser.parameters.2.diagnostics = parser.diagnostics ∧
          ∃ closing, closing.kind = .rParen ∧ closing :: rest <:+ parser.cursor.tail ∧
            parser.parameters.2.cursor = closing :: rest) ∧
      ((¬ ∃ ids rest, Parameters parser.cursor.tail ids rest) →
        parser.parameters.1 = none ∧
          ∃ (tokens : List Token) (rest : Cursor), parser.cursor.tail = tokens ++ rest ∧
            Parameters.Opened tokens ∧ ¬ Parameters.Opened (tokens ++ [rest.current]) ∧
            parser.parameters.2.diagnostics = parser.diagnostics ++
              [⟨.unexpectedToken (Parameters.wanted tokens) rest.current.kind, rest.current⟩] ∧
            parser.parameters.2.cursor = parser.cursor.drop tokens.length) := by
  have hrefuses (h : ¬ ∃ ids rest, Parameters parser.cursor.tail ids rest) :=
    (parameters_cases parser.cursor).resolve_left h
  refine ⟨⟨?_, ?_⟩, ?_, ?_⟩
  · intro hsome
    apply Classical.byContradiction
    intro hnone
    obtain ⟨_, _, -, -, -, hrefuses⟩ := hrefuses hnone
    have hvalue : parser.parameters.1 = none := hrefuses.value_eq
    rw [hvalue] at hsome
    cases hsome
  · rintro ⟨ids, rest, h⟩
    obtain ⟨_, -, -, hread⟩ := parameters_gives_of_tail h
    have hvalue : parser.parameters.1 = some ids := hread.value_eq
    rw [hvalue]
    rfl
  · intro ids rest h
    obtain ⟨closing, hkind, hsuffix, hread⟩ := parameters_gives_of_tail h
    have hclean := (parser.diagnostics_run_eq_iff Parse.parameters).2 hread.clean
    exact ⟨hread.value_eq, hclean, closing, hkind, hsuffix, hread.cursor_eq⟩
  · intro h
    obtain ⟨tokens, rest, htail, hopened, hnext, hrefuses⟩ := hrefuses h
    have hpeek : Cursor.peek (parser.cursor.drop tokens.length) = rest.current := by
      rw [Cursor.peek, List.tail_drop, ← List.drop_tail, htail, List.drop_left]
    have hdiagnostics := hrefuses.diagnostics_eq
    rw [hpeek] at hdiagnostics
    refine ⟨hrefuses.value_eq, tokens, rest, htail, hopened, hnext, ?_, hrefuses.cursor_eq⟩
    rw [← hdiagnostics]
    exact parser.diagnostics_run Parse.parameters

/-- Two names between parentheses are given, and nothing is where a second comma follows a comma. -/
theorem Parser.parameters_exact_commas :
    let name (literal : String) : Token := ⟨.identifier, literal⟩
    let given := Parser.ofTokens
      [.ofSymbol '(', name "a", .ofSymbol ',', name "b", .ofSymbol ')', .ofSymbol '\x7b']
    let refused := Parser.ofTokens
      [.ofSymbol '(', name "a", .ofSymbol ',', .ofSymbol ',', name "b", .ofSymbol ')']
    let ids := [Identifier.ofToken (name "a"), .ofToken (name "b")]
    Parameters given.cursor.tail ids [.ofSymbol '\x7b'] ∧
      (¬ ∃ ids rest, Parameters refused.cursor.tail ids rest) ∧
      given.parameters.1 = some ids ∧ given.parameters.2.diagnostics = given.diagnostics ∧
      refused.parameters.1 = none := by
  intro name given refused ids
  have hgiven : Parameters given.cursor.tail ids [.ofSymbol '\x7b'] :=
    .some (.more rfl rfl (.last rfl rfl))
  have hrefused : ¬ ∃ ids rest, Parameters refused.cursor.tail ids rest := by
    intro hparameters
    obtain ⟨ids, rest, hparameters⟩ := hparameters
    cases hparameters with
    | none hclosing => cases hclosing
    | some hnames =>
      cases hnames with
      | last _ hclosing => cases hclosing
      | more _ _ hnames =>
        cases hnames with
        | last hname _ => cases hname
        | more hname _ _ => cases hname
  obtain ⟨hvalue, hclean, -⟩ := given.parameters_exact.2.1 _ _ hgiven
  exact ⟨hgiven, hrefused, hvalue, hclean, (refused.parameters_exact.2.2 hrefused).1⟩

end ExprLang
