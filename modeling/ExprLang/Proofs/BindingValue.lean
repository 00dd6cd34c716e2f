import ExprLang.Proofs.BlockEnd
import ExprLang.Proofs.GrammarCompleteness
import ExprLang.Proofs.JoinedText
import ExprLang.Tree.Equality

namespace ExprLang

open Parse

/-- A binding in text. -/
def bindingText (name value : String) : String := "let " ++ name ++ " = " ++ value ++ ";"

/-- The tokens of a binding before its value. -/
def bindingHead (name : String) : List Token :=
  [⟨.letWord, "let"⟩, ⟨.identifier, name⟩, ⟨.assign, "="⟩]

/-- The statement that a binding is read as. -/
def Statement.ofName (name : String) : Statement :=
  .binding ⟨.letWord, "let"⟩ (.ofToken ⟨.identifier, name⟩) .absent

/-- What comes after the first semicolon. -/
def Cursor.afterSemicolon (c : Cursor) : Cursor := (c.dropWhile (!·.is .semicolon)).tail

/-- The tokens of a binding after its first semicolon: none, or the rest of its value and the
semicolon behind it. -/
def bindingRest (value : String) : Cursor :=
  Cursor.afterSemicolon ((Lexer.ofString value).tokens ++ [.ofSymbol ';'])

/-- A closing brace after the tokens would match a brace before them, and so their own braces match
each other. -/
def Cursor.Balanced (c : Cursor) : Prop :=
  matching? 0 (c ++ [.ofSymbol '}']) = some [.ofSymbol '}']

variable {reader : Reader} {closer : Kind} {s : Statement} {token : Token} {c d : Cursor}
  {name value : String} {levels : Nat}

namespace Cursor

theorem afterSemicolon_cons_of_eq (h : token.kind = .semicolon) :
    afterSemicolon (token :: c) = c := by
  simp [afterSemicolon, Token.is_iff.2 h]

theorem afterSemicolon_cons_of_ne (h : token.kind ≠ .semicolon) :
    afterSemicolon (token :: c) = afterSemicolon c := by
  simp [afterSemicolon, Token.is_eq_false_iff.2 h]

theorem afterSemicolon_suffix (c : Cursor) : afterSemicolon c <:+ c :=
  (List.tail_suffix _).trans (List.dropWhile_suffix _)

/-- Nothing comes after a semicolon at the end if there is none before it. -/
theorem afterSemicolon_concat_eq_nil_iff :
    afterSemicolon (c ++ [.ofSymbol ';']) = [] ↔ ∀ token ∈ c, token.kind ≠ .semicolon := by
  induction c with
  | nil => exact iff_of_true rfl nofun
  | cons token c ih =>
    rw [List.cons_append, List.forall_mem_cons]
    by_cases h : token.kind = .semicolon
    · rw [afterSemicolon_cons_of_eq h]
      simp [h]
    · rw [afterSemicolon_cons_of_ne h, ih]
      simp [h]

end Cursor

namespace Parse

/-- A statement that is read without a diagnostic comes before the statements after it. -/
theorem statements_cons (hcloser : c.current.kind ≠ closer) (hend : c.current.kind ≠ .endOfInput)
    (hstep : (statementStep reader c).Gives (some s) d) :
    (statements reader closer c).value = s :: (statements reader closer d).value ∧
      (statements reader closer c).diagnostics = (statements reader closer d).diagnostics := by
  obtain ⟨hvalue, hcursor, hclean⟩ := hstep
  rw [Outcome.Clean, Outcome.diagnostics] at hclean
  have hloop := repeatUntil_apply closer (statementStep reader) (.statementStep reader) c
  rw [if_neg (by simp [hcloser, hend])] at hloop
  simp only [statements, map_apply, hloop, bind_apply, pure_apply, hvalue, hcursor,
    Outcome.diagnostics, List.filterMap_append, hclean]
  exact ⟨rfl, by simp⟩

/-- A binding takes all up to the first semicolon, whatever that is. -/
theorem statementStep_binding (hend : ∀ token ∈ c, token.kind ≠ .endOfInput) :
    (statementStep (.ofLevels .standard levels) (bindingHead name ++ c)).Gives
      (some (.ofName name)) c.afterSemicolon := by
  have hskipped : ∀ token ∈ c.takeWhile (!·.is .semicolon),
      token.kind ≠ .semicolon ∧ token.kind ≠ .endOfInput := by
    intro token htoken
    have hkind := List.all_eq_true.1 List.all_takeWhile token htoken
    exact ⟨by simpa using hkind, hend token ((List.takeWhile_prefix _).subset htoken)⟩
  have hrest : (Cursor.current (c.dropWhile (!·.is .semicolon))).kind = .semicolon ∨
      (Cursor.current (c.dropWhile (!·.is .semicolon))).kind = .endOfInput := by
    have hstop := List.head?_dropWhile_not (!·.is .semicolon) c
    cases hdrop : c.dropWhile (!·.is .semicolon) with
    | nil => exact .inr rfl
    | cons token rest =>
      rw [hdrop] at hstop
      exact .inl (by simpa using hstop)
  have hassign : (⟨.assign, "="⟩ : Token).kind = .assign := rfl
  have hbinding : Runs (.statement (.ofName name)) _ c.afterSemicolon 0 :=
    runs_binding rfl rfl hassign hskipped hrest
  rw [List.takeWhile_append_dropWhile] at hbinding
  exact hbinding levels (Nat.zero_le levels)

/-- Nothing is read without a diagnostic only where there is nothing to read. -/
theorem statements_eq_nil_iff (hend : ∀ token ∈ c, token.kind ≠ .endOfInput) :
    ((statements (.ofLevels .standard levels) .endOfInput c).value = [] ∧
      (statements (.ofLevels .standard levels) .endOfInput c).diagnostics = []) ↔ c = [] := by
  constructor
  · rintro ⟨hvalue, hclean⟩
    obtain ⟨hstop, n, -, hbody⟩ := statements_of_clean (Reader.sound_ofLevels levels) hclean
    rw [hvalue] at hbody
    generalize (statements (.ofLevels .standard levels) .endOfInput c).cursor = rest at hstop hbody
    cases hbody
    cases c with
    | nil => rfl
    | cons token c =>
      rw [or_self, Cursor.current_cons] at hstop
      exact absurd hstop (hend token List.mem_cons_self)
  · rintro rfl
    rw [statements_eq, current_bind]
    exact ⟨rfl, rfl⟩

end Parse

theorem Parser.diagnostics_program_ofTokens (tokens : List Token) :
    (Parser.ofTokens tokens).program.2.diagnostics =
      (statements (.ofLevels .standard maxNesting) .endOfInput tokens).diagnostics := by
  rw [diagnostics_program]
  exact (Parser.ofTokens tokens).diagnostics_run _

/-- After its first three tokens a binding is read on behind the first semicolon. -/
theorem Parser.program_binding {tokens : List Token}
    (hend : ∀ token ∈ tokens, token.kind ≠ .endOfInput) :
    let program := (Parser.ofTokens (bindingHead name ++ tokens)).program
    let others := (Parser.ofTokens (Cursor.afterSemicolon tokens)).program
    program.1.statements = .ofName name :: others.1.statements ∧
      program.2.diagnostics = others.2.diagnostics := by
  intro program others
  have hstep : (statementStep (.ofLevels .standard maxNesting) (bindingHead name ++ tokens)).Gives
      (some (.ofName name)) (Cursor.afterSemicolon tokens) := statementStep_binding hend
  rw [diagnostics_program_ofTokens, diagnostics_program_ofTokens]
  exact statements_cons nofun nofun hstep

/-- The only token with a semicolon in it is the semicolon. -/
theorem Token.Lexed.semicolon_mem_literal_iff (h : token.Lexed) :
    ';' ∈ token.literal.toList ↔ token.kind = .semicolon := by
  constructor
  · intro hmem
    cases h with
    | word hc hcs | integer hc hcs =>
      rcases List.mem_cons.1 (String.toList_ofList ▸ hmem) with rfl | hmem
      · cases hc
      · cases hcs _ hmem
    | equal | notEqual => simp at hmem
    | symbol =>
      obtain rfl : ';' = _ := by simpa [Token.ofSymbol] using hmem
      rfl
  · intro hkind
    rw [h.eq_of_spelling? hkind rfl]
    decide

/-- No semicolon is read off exactly where no semicolon stands in the text. -/
theorem Lexes.forall_ne_semicolon_iff {text : List Char} {tokens : List Token}
    (h : Lexes text tokens) : (∀ token ∈ tokens, token.kind ≠ .semicolon) ↔ ';' ∉ text := by
  have hnone {blanks : List Char} (hblanks : ∀ c ∈ blanks, isBlank c = true) : ';' ∉ blanks := by
    intro hmem
    cases hblanks _ hmem
  induction h with
  | nil hblanks => exact iff_of_true nofun (hnone hblanks)
  | cons hblanks htoken _ _ ih =>
    simp [hnone hblanks, htoken.semicolon_mem_literal_iff, ← ih]

theorem Kind.endsAt_semicolon (kind : Kind) : kind.EndsAt [';'] := by
  rintro c ⟨⟩
  cases kind <;> rfl

theorem lexes_semicolon : Lexes [';'] [.ofSymbol ';'] := by
  have hsemicolon : (Token.ofSymbol ';').Proper := .spelt rfl
  have hends : (Token.ofSymbol ';').kind.EndsAt [] := nofun
  have hlexes := Lexes.cons_token hsemicolon.lexed hends (.nil nofun)
  simpa [Token.ofSymbol] using hlexes

/-- A binding in text is read off as its first three tokens and the tokens of its value. -/
theorem tokens_bindingText (hname : (⟨.identifier, name⟩ : Token).Proper) :
    (Lexer.ofString (bindingText name value)).tokens =
      bindingHead name ++ ((Lexer.ofString value).tokens ++ [.ofSymbol ';']) := by
  have hlexed : ∀ token ∈ bindingHead name, token.Lexed := by
    have hletWord : (⟨.letWord, "let"⟩ : Token).Proper := .spelt rfl
    have hassign : (⟨.assign, "="⟩ : Token).Proper := .spelt rfl
    simp [bindingHead, hletWord.lexed, hname.lexed, hassign.lexed]
  have hhead := lexes_intercalate hlexed
  have hvalue : Lexes value.toList (Lexer.ofString value).tokens := (Lexer.ofString value).lexes
  have hterminated := hvalue.append lexes_semicolon fun _ last _ => last.kind.endsAt_semicolon
  have hbinding := hhead.append (hterminated.cons_blank (show isBlank ' ' = true from rfl))
    fun _ last _ => last.kind.endsAt_blank _
  apply Lexer.tokens_eq_iff_lexes.2
  simpa [bindingText, bindingHead, String.intercalate_cons_cons, String.append_assoc] using hbinding

theorem kind_ne_endOfInput_of_mem_value
    (h : token ∈ (Lexer.ofString value).tokens ++ [.ofSymbol ';']) :
    token.kind ≠ .endOfInput := by
  rcases List.mem_append.1 h with h | h
  · exact Lexer.kind_ne_endOfInput_of_mem_tokens h
  · rw [List.mem_singleton.1 h]
    decide

/-- A binding is read as its name, and read on after its first semicolon. -/
theorem program_bindingText (hname : (⟨.identifier, name⟩ : Token).Proper) :
    let program := parse (bindingText name value)
    let others := (Parser.ofTokens (bindingRest value)).program
    program.1.statements = .ofName name :: others.1.statements ∧
      program.2.diagnostics = others.2.diagnostics := by
  have hprogram : parse (bindingText name value) =
      (Parser.ofTokens (bindingHead name ++ _)).program :=
    congrArg (Parser.program ∘ Parser.ofTokens) (tokens_bindingText hname)
  rw [hprogram]
  exact Parser.program_binding fun token => kind_ne_endOfInput_of_mem_value

/-- Only the name is read, without a diagnostic, where the value holds no semicolon. -/
theorem program_bindingText_iff (hname : (⟨.identifier, name⟩ : Token).Proper) :
    ((parse (bindingText name value)).1.statements = [.ofName name] ∧
      (parse (bindingText name value)).2.diagnostics = []) ↔ ';' ∉ value.toList := by
  have hvalue : Lexes value.toList (Lexer.ofString value).tokens := (Lexer.ofString value).lexes
  have hend : ∀ token ∈ bindingRest value, token.kind ≠ .endOfInput := fun token htoken =>
    kind_ne_endOfInput_of_mem_value ((Cursor.afterSemicolon_suffix _).subset htoken)
  rw [(program_bindingText hname).1, (program_bindingText hname).2, List.cons_inj_right,
    Parser.diagnostics_program_ofTokens, ← hvalue.forall_ne_semicolon_iff,
    ← Cursor.afterSemicolon_concat_eq_nil_iff]
  exact statements_eq_nil_iff hend

/-- A binding is read as its name. The text up to the first semicolon of its value is passed over,
and the rest of the value is read as more statements. So nothing else is read, without a diagnostic,
exactly when no semicolon is in the value. -/
theorem parse_bindingText (hname : (⟨.identifier, name⟩ : Token).Proper) :
    let program := parse (bindingText name value)
    let others := (Parser.ofTokens (bindingRest value)).program
    program.1.statements = .ofName name :: others.1.statements ∧
      program.2.diagnostics = others.2.diagnostics ∧
      (program.1.statements = [.ofName name] ∧ program.2.diagnostics = [] ↔
        ';' ∉ value.toList) := by
  intro program others
  obtain ⟨hstatements, hdiagnostics⟩ := program_bindingText hname
  exact ⟨hstatements, hdiagnostics, program_bindingText_iff hname⟩

theorem parse_bindingText_conditional :
    let value := "if (a) \x7b b \x7d else \x7b fn(c) \x7b c * 2 \x7d \x7d"
    (⟨.identifier, "x"⟩ : Token).Proper ∧
      bindingText "x" value = "let x = if (a) \x7b b \x7d else \x7b fn(c) \x7b c * 2 \x7d \x7d;" ∧
      (parse (bindingText "x" value)).1.statements = [.ofName "x"] ∧
      (parse (bindingText "x" value)).2.diagnostics = [] := by
  intro value
  have hname : (Token.ofWord "x").Proper := .of_isWord ⟨'x', [], rfl, rfl, nofun⟩
  have hsemicolon : ';' ∉ value.toList := by decide
  exact ⟨hname, rfl, (parse_bindingText hname).2.2.2 hsemicolon⟩

/-- The first semicolon can stand in the body of a function, which then is cut in two. -/
theorem exists_binding_cut_short : ∃ name value : String,
    (⟨.identifier, name⟩ : Token).Proper ∧
      Cursor.Balanced (Lexer.ofString value).tokens ∧
      (∃ token e, (parse (value ++ ";")).1.statements = [.expression token e]) ∧
      (parse (value ++ ";")).2.diagnostics = [] ∧
      ¬ ((parse (bindingText name value)).1.statements = [.ofName name] ∧
        (parse (bindingText name value)).2.diagnostics = []) := by
  have hname : (Token.ofWord "x").Proper := .of_isWord ⟨'x', [], rfl, rfl, nofun⟩
  refine ⟨"x", "fn() \x7b a; b \x7d", hname, ?_, ?_, ?_, ?_⟩
  · rw [Cursor.Balanced]
    decide +kernel
  · let read (name : String) : Statement :=
      .expression ⟨.identifier, name⟩ (.identifier (.ofToken ⟨.identifier, name⟩))
    exact ⟨.ofWord "fn", .function (.ofWord "fn") [] (.mk (.ofSymbol '{') [read "a", read "b"]),
      by decide +kernel⟩
  · decide +kernel
  · rw [program_bindingText_iff hname]
    decide

end ExprLang
