import ExprLang.Proofs.Moves

namespace ExprLang

/-- The line that a move writes to the log. -/
def traceLine (view : Token × Token) : String :=
  "TRACE advance: current " ++ view.1.text ++ " peek " ++ view.2.text

/-- The line that a diagnostic writes to the log. -/
def debugLine (diagnostic : Diagnostic) : String := "DEBUG parse error: " ++ diagnostic.message

/-- The line that the end of a parse writes to the log. -/
def finishLine (statements diagnostics : Nat) : String :=
  "DEBUG parsed program: " ++ toString statements ++ " statement(s), " ++
    toString diagnostics ++ " error(s)"

theorem startsWith_append {start text : String} (rest : String)
    (h : start.toList.length ≤ text.toList.length) :
    (text ++ rest).startsWith start = start.toList.isPrefixOf text.toList := by
  rw [Bool.eq_iff_iff, String.startsWith_string_iff, String.toList_append,
    List.isPrefixOf_iff_prefix]
  constructor
  · intro hstart
    exact List.prefix_of_prefix_length_le hstart (List.prefix_append _ _) h
  · intro hstart
    exact hstart.trans (List.prefix_append _ _)

theorem traceLine_startsWith (view : Token × Token) :
    (traceLine view).startsWith "TRACE " = true ∧ (traceLine view).startsWith "DEBUG " = false := by
  have hline : traceLine view =
      "TRACE advance: current " ++ (view.1.text ++ (" peek " ++ view.2.text)) :=
    String.append_assoc.trans String.append_assoc
  rw [hline]
  exact ⟨startsWith_append _ (by decide), startsWith_append _ (by decide)⟩

theorem debugLine_startsWith (diagnostic : Diagnostic) :
    (debugLine diagnostic).startsWith "TRACE " = false ∧
      (debugLine diagnostic).startsWith "DEBUG " = true :=
  ⟨startsWith_append _ (by decide), startsWith_append _ (by decide)⟩

theorem finishLine_startsWith (statements diagnostics : Nat) :
    (finishLine statements diagnostics).startsWith "TRACE " = false ∧
      (finishLine statements diagnostics).startsWith "DEBUG " = true := by
  have hline : finishLine statements diagnostics = "DEBUG parsed program: " ++
      (toString statements ++ (" statement(s), " ++ (toString diagnostics ++ " error(s)"))) :=
    (String.append_assoc.trans String.append_assoc).trans String.append_assoc
  rw [hline]
  exact ⟨startsWith_append _ (by decide), startsWith_append _ (by decide)⟩

/-- The lines of the log that are about moves. -/
theorem filter_trace_log (events : List Event) :
    (events.filterMap Event.logLine?).filter (·.startsWith "TRACE ") =
      (events.filterMap Event.view?).map traceLine := by
  induction events with
  | nil => rfl
  | cons event events ih =>
    cases event with
    | advanced current peek =>
      change List.filter _ (traceLine (current, peek) :: events.filterMap Event.logLine?) =
        traceLine (current, peek) :: (events.filterMap Event.view?).map traceLine
      simp only [List.filter_cons, traceLine_startsWith, ↓reduceIte, ih]
    | reported diagnostic =>
      change List.filter _ (debugLine diagnostic :: events.filterMap Event.logLine?) =
        (events.filterMap Event.view?).map traceLine
      simp only [List.filter_cons, debugLine_startsWith, Bool.false_eq_true, ↓reduceIte, ih]
    | bindingDropped | blockEnded => exact ih
    | finished statements diagnostics =>
      change List.filter _ (finishLine statements diagnostics :: events.filterMap Event.logLine?) =
        (events.filterMap Event.view?).map traceLine
      simp only [List.filter_cons, finishLine_startsWith, Bool.false_eq_true, ↓reduceIte, ih]

/-- The lines of the log that are not, as long as the parse has not ended. -/
theorem filter_debug_log {events : List Event}
    (h : ∀ statements diagnostics, .finished statements diagnostics ∉ events) :
    (events.filterMap Event.logLine?).filter (·.startsWith "DEBUG ") =
      (events.filterMap Event.diagnostic?).map debugLine := by
  induction events with
  | nil => rfl
  | cons event events ih =>
    have hevents := ih fun statements diagnostics hmem =>
      h statements diagnostics (List.mem_cons_of_mem _ hmem)
    cases event with
    | advanced current peek =>
      change List.filter _ (traceLine (current, peek) :: events.filterMap Event.logLine?) =
        (events.filterMap Event.diagnostic?).map debugLine
      simp only [List.filter_cons, traceLine_startsWith, Bool.false_eq_true, ↓reduceIte, hevents]
    | reported diagnostic =>
      change List.filter _ (debugLine diagnostic :: events.filterMap Event.logLine?) =
        debugLine diagnostic :: (events.filterMap Event.diagnostic?).map debugLine
      simp only [List.filter_cons, debugLine_startsWith, ↓reduceIte, hevents]
    | bindingDropped | blockEnded => exact hevents
    | finished statements diagnostics => exact absurd List.mem_cons_self (h statements diagnostics)

/-- The lines about diagnostics come in their order, and the line about the end of the parse after
them. -/
theorem debug_log_parse (source : String) :
    (parse source).2.log.filter (·.startsWith "DEBUG ") =
      (parse source).2.diagnostics.map debugLine ++
        [finishLine (parse source).1.statements.length (parse source).2.diagnostics.length] := by
  have hunfinished : ∀ statements diagnostics, .finished statements diagnostics ∉
      (Parser.ofString source).journal ++ (readTokens source).events := by
    intro statements diagnostics hmem
    rcases List.mem_append.1 hmem with hstart | hevents
    · simp [Parser.ofString, Parser.ofLexer, Parser.ofTokens] at hstart
    · exact stepwise_program.finished_not_mem _ _ _ hevents
  have hdiagnostics : ((Parser.ofString source).journal ++
      (readTokens source).events).filterMap Event.diagnostic? = (parse source).2.diagnostics := by
    rw [parse_diagnostics, List.filterMap_append]
    rfl
  have hlast (n m : Nat) : [Event.finished n m].filterMap Event.logLine? = [finishLine n m] := rfl
  rw [Parser.log, parse_journal, List.filterMap_append, List.filter_append,
    filter_debug_log hunfinished, hdiagnostics, hlast]
  simp only [List.filter_cons, finishLine_startsWith, ↓reduceIte, List.filter_nil]

/-- The log of a parse shows every token on its way through the two in view, and then the end of
the input. It has a line for each diagnostic, and one with their number at the end. -/
theorem parse_log (source : String) : ∃ tokens surplus,
    tokenize source = tokens ++ [.endOfInput] ∧
    (parse source).2.log.filter (·.startsWith "TRACE ") =
      (List.zip (Token.endOfInput :: tokens) (tokens ++ [Token.endOfInput]) ++
        List.replicate surplus (Token.endOfInput, Token.endOfInput)).map traceLine ∧
    (tokens = [] → surplus = 1) ∧
    tokens.length + 2 ≤ ((parse source).2.log.filter (·.startsWith "TRACE ")).length ∧
    ((parse source).2.log.filter (·.startsWith "TRACE ")).length ≤
      tokens.length + maxNesting + 4 ∧
    (parse source).2.log.filter (·.startsWith "DEBUG ") =
      (parse source).2.diagnostics.map debugLine ++
        [finishLine (parse source).1.statements.length (parse source).2.diagnostics.length] := by
  obtain ⟨surplus, hviews, hleast, hmost, hempty⟩ := views_parse source
  have htrace : (parse source).2.log.filter (·.startsWith "TRACE ") =
      ((parse source).2.journal.filterMap Event.view?).map traceLine := filter_trace_log _
  have hnumber : ((parse source).2.log.filter (·.startsWith "TRACE ")).length =
      (Lexer.ofString source).tokens.length + 1 + surplus := by
    rw [htrace, hviews]
    simp
  refine ⟨(Lexer.ofString source).tokens, surplus, rfl, ?_, hempty, ?_, ?_, ?_⟩
  · rw [htrace, hviews]
  · omega
  · omega
  · exact debug_log_parse source

end ExprLang
