import ExprLang.Parser

namespace ExprLang

namespace Cursor

variable {cursor : Cursor} {token : Token} {kind : Kind}

@[simp] theorem current_nil : current [] = .endOfInput := rfl

@[simp] theorem current_cons : current (token :: cursor) = token := rfl

@[simp] theorem peek_cons : peek (token :: cursor) = cursor.current := rfl

theorem tail_suffix_tail {earlier : Cursor} (h : cursor <:+ earlier) :
    cursor.tail <:+ earlier.tail := by
  obtain ⟨passed, rfl⟩ := h
  cases passed with
  | nil => exact List.suffix_rfl
  | cons token passed => exact (List.tail_suffix cursor).trans (List.suffix_append passed cursor)

theorem exists_of_current (h : cursor.current.kind ≠ .endOfInput) :
    ∃ (token : Token) (rest : Cursor), cursor = token :: rest :=
  List.exists_cons_of_ne_nil (ne_nil_of_current h)

theorem exists_of_peek (h : cursor.peek.kind ≠ .endOfInput) :
    ∃ (token next : Token) (rest : Cursor), cursor = token :: next :: rest := by
  match cursor, h with
  | token :: next :: rest, _ => exact ⟨token, next, rest, rfl⟩

theorem exists_of_current_eq (h : cursor.current.kind = kind)
    (hkind : kind ≠ .endOfInput := by decide) :
    ∃ (token : Token) (rest : Cursor), cursor = token :: rest :=
  exists_of_current (h ▸ hkind)

theorem exists_of_peek_eq (h : cursor.peek.kind = kind) (hkind : kind ≠ .endOfInput := by decide) :
    ∃ (token next : Token) (rest : Cursor), cursor = token :: next :: rest :=
  exists_of_peek (h ▸ hkind)

theorem tail_ne_nil_of_peek_eq (h : cursor.peek.kind = kind)
    (hkind : kind ≠ .endOfInput := by decide) : cursor.tail ≠ [] :=
  tail_ne_nil_of_peek (h ▸ hkind)

theorem ne_nil_of_peek_eq (h : cursor.peek.kind = kind)
    (hkind : kind ≠ .endOfInput := by decide) : cursor ≠ [] := by
  rintro rfl
  exact hkind h.symm

end Cursor

@[simp] theorem Token.is_iff {token : Token} {kind : Kind} :
    token.is kind = true ↔ token.kind = kind := by
  simp [Token.is]

@[simp] theorem Token.is_eq_false_iff {token : Token} {kind : Kind} :
    token.is kind = false ↔ token.kind ≠ kind := by
  simp [Token.is]

namespace Outcome

variable {α : Type} {outcome : Outcome α} {events : List Event}

def diagnostics (outcome : Outcome α) : List Diagnostic :=
  outcome.events.filterMap Event.diagnostic?

/-- An outcome on the way to which nothing was reported. -/
def Clean (outcome : Outcome α) : Prop := outcome.diagnostics = []

@[simp] theorem value_after : (outcome.after events).value = outcome.value := rfl

@[simp] theorem cursor_after : (outcome.after events).cursor = outcome.cursor := rfl

@[simp] theorem clean_after_advanced {current peek : Token} :
    (outcome.after [.advanced current peek]).Clean ↔ outcome.Clean := Iff.rfl

/-- An outcome with the given value and cursor and without diagnostics. -/
structure Gives (outcome : Outcome α) (value : α) (cursor : Cursor) : Prop where
  value_eq : outcome.value = value
  cursor_eq : outcome.cursor = cursor
  clean : outcome.Clean

/-- Two outcomes with the same value and cursor, both with diagnostics or both without. -/
structure Agrees (outcome outcome' : Outcome α) : Prop where
  value_eq : outcome.value = outcome'.value
  cursor_eq : outcome.cursor = outcome'.cursor
  clean_iff : outcome.Clean ↔ outcome'.Clean

variable {outcome' : Outcome α} {value : α} {cursor : Cursor}

theorem Agrees.gives (h : outcome.Agrees outcome') (h' : outcome'.Gives value cursor) :
    outcome.Gives value cursor :=
  ⟨h.value_eq.trans h'.value_eq, h.cursor_eq.trans h'.cursor_eq, h.clean_iff.2 h'.clean⟩

theorem Agrees.trans {outcome'' : Outcome α} (h : outcome.Agrees outcome')
    (h' : outcome'.Agrees outcome'') : outcome.Agrees outcome'' :=
  ⟨h.value_eq.trans h'.value_eq, h.cursor_eq.trans h'.cursor_eq, h.clean_iff.trans h'.clean_iff⟩

theorem Gives.after_advanced {current peek : Token} (h : outcome.Gives value cursor) :
    (outcome.after [.advanced current peek]).Gives value cursor :=
  ⟨h.value_eq, h.cursor_eq, clean_after_advanced.2 h.clean⟩

end Outcome

namespace Parse

variable {α β : Type} {p : Parse α} {f : α → Parse β} {nothing : α} {kind : Kind} {c d : Cursor}

theorem current_bind (f : Token → Parse β) : (current >>= f) c = f c.current c := rfl

theorem peek_bind (f : Token → Parse β) : (peek >>= f) c = f c.peek c := rfl

theorem advance_bind (f : Unit → Parse β) : (advance >>= f) c =
    (f () c.tail).after [.advanced (Cursor.current c.tail) (Cursor.peek c.tail)] := rfl

theorem identifier_bind (f : Identifier → Parse β) :
    (identifier >>= f) c = f (.ofToken c.current) c := rfl

@[simp] theorem clean_pure (a : α) (c : Cursor) : ((pure a : Parse α) c).Clean := rfl

theorem value_bind : ((p >>= f) c).value = (f (p c).value (p c).cursor).value := rfl

theorem cursor_bind : ((p >>= f) c).cursor = (f (p c).value (p c).cursor).cursor := rfl

theorem not_clean_report (cause : Cause) (token : Token) (c : Cursor) :
    ¬ (report cause token c).Clean :=
  List.cons_ne_nil _ _

theorem diagnostics_bind : ((p >>= f) c).diagnostics =
    (p c).diagnostics ++ (f (p c).value (p c).cursor).diagnostics :=
  List.filterMap_append

theorem clean_bind :
    ((p >>= f) c).Clean ↔ (p c).Clean ∧ (f (p c).value (p c).cursor).Clean := by
  rw [Outcome.Clean, diagnostics_bind, List.append_eq_nil_iff]
  rfl

@[simp] theorem clean_map {g : α → β} : ((g <$> p) c).Clean ↔ (p c).Clean := by
  simp [Outcome.Clean, Outcome.diagnostics]

theorem gives_pure (a : α) (c : Cursor) : ((pure a : Parse α) c).Gives a c := ⟨rfl, rfl, rfl⟩

theorem gives_bind {a : α} {b : β} {d e : Cursor} (h : (p c).Gives a d) (h' : (f a d).Gives b e) :
    ((p >>= f) c).Gives b e := by
  obtain ⟨rfl, rfl, hclean⟩ := h
  exact ⟨h'.value_eq, h'.cursor_eq, clean_bind.2 ⟨hclean, h'.clean⟩⟩

theorem gives_map_iff {g : α → β} {b : β} {d : Cursor} :
    ((g <$> p) c).Gives b d ↔ ∃ a, g a = b ∧ (p c).Gives a d := by
  constructor
  · rintro ⟨hvalue, hcursor, hclean⟩
    rw [map_apply] at hvalue hcursor
    exact ⟨_, hvalue, rfl, hcursor, clean_map.1 hclean⟩
  · rintro ⟨a, rfl, h⟩
    exact gives_bind h (gives_pure _ _)

theorem agrees_bind {a : α} {d : Cursor} (h : (p c).Gives a d) :
    ((p >>= f) c).Agrees (f a d) := by
  obtain ⟨rfl, rfl, hclean⟩ := h
  exact ⟨rfl, rfl, clean_bind.trans (and_iff_right hclean)⟩

theorem past_of_peek (h : c.peek.kind = kind) :
    past kind nothing p c =
      (p c.tail).after [.advanced (Cursor.current c.tail) (Cursor.peek c.tail)] := by
  simp [past, expect, h, Outcome.after]

theorem past_of_peek_ne (h : c.peek.kind ≠ kind) : past kind nothing p c =
    ⟨nothing, c, [.reported ⟨.unexpectedToken kind c.peek.kind, c.peek⟩]⟩ := by
  simp [past, expect, h]

theorem gives_past {a : α} {d : Cursor} (h : c.peek.kind = kind) (hp : (p c.tail).Gives a d) :
    (past kind nothing p c).Gives a d := by
  rw [past_of_peek h]
  exact hp.after_advanced

theorem not_clean_past_of_peek (h : c.peek.kind ≠ kind) : ¬ (past kind nothing p c).Clean := by
  rw [past_of_peek_ne h]
  exact List.cons_ne_nil _ _

/-- Without diagnostics the token asked for is there. -/
theorem clean_past_iff : (past kind nothing p c).Clean ↔ c.peek.kind = kind ∧ (p c.tail).Clean := by
  by_cases h : c.peek.kind = kind
  · simp [past_of_peek h, h]
  · simp only [h, not_clean_past_of_peek h, false_and]

theorem statement_apply (reader : Reader) (c : Cursor) :
    statement reader c =
      if c.current.kind = .letWord then binding c
      else if c.current.kind = .returnWord then (some <$> result) c
      else (some <$> expressionStatement reader) c := by
  rw [statement, current_bind]
  cases c.current.kind <;> rfl

theorem statement_of_letWord {reader : Reader} {token : Token} (h : token.kind = .letWord) :
    statement reader (token :: c) = binding (token :: c) := by
  rw [statement_apply, Cursor.current_cons, if_pos h]

theorem statement_of_returnWord {reader : Reader} {token : Token} (h : token.kind = .returnWord) :
    statement reader (token :: c) = (some <$> result) (token :: c) := by
  have hlet : token.kind ≠ .letWord := by simp [h]
  rw [statement_apply, Cursor.current_cons, if_neg hlet, if_pos h]

theorem statement_of_form? {reader : Reader} {start : Form}
    (h : Grammar.standard.form? c.current.kind = some start) :
    statement reader c = (some <$> expressionStatement reader) c := by
  rw [statement_apply, if_neg, if_neg] <;> intro hkind <;> rw [hkind] at h <;> cases h

theorem skipValue_eq : skipValue = (do
    let token ← current
    if token.is .semicolon || token.is .endOfInput then
      return ()
    else
      advance
      skipValue) := by
  have hskip (c : Cursor) : skipValue c = ⟨(), (repeatUntil .semicolon advance .advance c).cursor,
      (repeatUntil .semicolon advance .advance c).events⟩ :=
    map_apply _ _ c
  funext c
  rw [hskip, repeatUntil_apply, current_bind]
  split
  · rfl
  · simp only [bind_apply, pure_apply, advance_apply, hskip, List.append_nil]

theorem statements_eq (reader : Reader) (closer : Kind) : statements reader closer = (do
    let token ← current
    if token.is closer || token.is .endOfInput then
      return []
    else
      let read? ← statement reader
      advance
      return read?.toList ++ (← statements reader closer)) := by
  have hstatements (c : Cursor) : statements reader closer c =
      ⟨(repeatUntil closer (statementStep reader) (.statementStep reader) c).value.filterMap id,
        (repeatUntil closer (statementStep reader) (.statementStep reader) c).cursor,
        (repeatUntil closer (statementStep reader) (.statementStep reader) c).events⟩ :=
    map_apply _ _ c
  have hcons (read? : Option Statement) (others : List (Option Statement)) :
      (read? :: others).filterMap id = read?.toList ++ others.filterMap id := by
    cases read? <;> rfl
  funext c
  rw [hstatements, repeatUntil_apply, current_bind]
  split
  · rfl
  · simp only [bind_apply, pure_apply, statementStep, advance_apply, hstatements, hcons,
      List.append_nil, List.append_assoc]

/-- Where a repetition goes on the input has not ended. -/
theorem ne_endOfInput_of_not_stop {token : Token} {closer : Kind}
    (h : ¬ (token.is closer || token.is .endOfInput) = true) : token.kind ≠ .endOfInput := by
  simp only [Bool.or_eq_true, Token.is_iff, not_or] at h
  exact h.2

theorem length_statementStep_lt (reader : Reader) (h : c.current.kind ≠ .endOfInput) :
    (statementStep reader c).cursor.length < c.length := by
  obtain ⟨token, rest, rfl⟩ := Cursor.exists_of_current h
  exact Nat.lt_succ_of_le (Advances.statementStep reader _).length_le

theorem integer_of_some {n : Int64} (h : Numeral.read? c.current.literal = some n) :
    integer c = ⟨.integer c.current n, c, []⟩ := by
  rw [integer, current_bind, h]
  rfl

theorem integer_of_none (h : Numeral.read? c.current.literal = none) : integer c =
    ⟨.absent, c, [.reported ⟨.integerOutOfRange c.current.literal, c.current⟩]⟩ := by
  rw [integer, current_bind, h]
  rfl

theorem expression_apply (grammar : Grammar) (reader : Reader) (floor : Precedence) (c : Cursor) :
    expression grammar reader floor c =
      match grammar.form? c.current.kind with
      | some start => (Parse.form reader start >>= climb grammar reader floor) c
      | none => (report (.noExpression c.current.kind) c.current >>= fun _ => pure .absent) c := by
  rw [expression, current_bind]
  cases grammar.form? c.current.kind <;> rfl

end Parse

/-- An action adds no diagnostics to a parse exactly when it has none. -/
theorem Parser.diagnostics_run_eq_iff {α : Type} (parser : Parser) (action : Parse α) :
    (parser.run action).2.diagnostics = parser.diagnostics ↔ (action parser.cursor).Clean := by
  rw [diagnostics_run, List.append_right_eq_self]
  rfl

theorem Parser.diagnostics_program (parser : Parser) : parser.program.2.diagnostics =
    (parser.run (Parse.statements parser.reader .endOfInput)).2.diagnostics := by
  rw [program, diagnostics_run]
  exact List.append_nil _

/-- The tokens of a text read as statements, to the end of the input. -/
def readTokens (source : String) : Outcome (List Statement) :=
  Parse.statements (.ofLevels .standard maxNesting) .endOfInput (Lexer.ofString source).tokens

theorem parse_journal (source : String) : (parse source).2.journal =
    (Parser.ofString source).journal ++ (readTokens source).events ++
      [.finished (parse source).1.statements.length (parse source).2.diagnostics.length] := by
  rw [parse, Parser.diagnostics_program]
  rfl

theorem parse_diagnostics (source : String) :
    (parse source).2.diagnostics = (readTokens source).diagnostics := by
  rw [parse, Parser.diagnostics_program]
  exact (Parser.ofString source).diagnostics_run _

theorem parse_diagnostics_eq_nil_iff {source : String} : (parse source).2.diagnostics = [] ↔
    (Parse.statements (.ofLevels .standard maxNesting) .endOfInput
      (Lexer.ofString source).tokens).Clean := by
  rw [parse_diagnostics]
  rfl

end ExprLang
