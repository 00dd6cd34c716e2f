import ExprLang.CommandLine
import ExprLang.Proofs.PlainText

namespace ExprLang

/-- Every statement of a program is read from the tokens of its text. -/
theorem built_parse (source : String) : ∀ statement ∈ (parse source).1.statements,
    Node.Built Token.Lexed maxNesting (.statement .endOfInput statement) :=
  built_statements (Reader.builds_ofLevels Token.Lexed maxNesting) .endOfInput
    (Lexer.ofString source).lexes.lexed_of_mem

theorem Statement.holes_eq_zero_of_mem {statements : List Statement}
    (h : allHoles statements = 0) : ∀ statement ∈ statements, statement.holes = 0 := by
  induction statements with
  | nil => nofun
  | cons statement statements ih =>
    obtain ⟨hstatement, hstatements⟩ := Nat.add_eq_zero_iff.1 h
    exact List.forall_mem_cons.2 ⟨hstatement, ih hstatements⟩

/-- Without diagnostics no statement has a hole. -/
theorem holes_eq_zero_of_clean {source : String} (h : (parse source).2.diagnostics = []) :
    ∀ statement ∈ (parse source).1.statements, statement.holes = 0 := by
  have haccount : Account 0 (parse source).2.journal (parse source).1.holes :=
    Parser.account_program (Account.trans .silent .silent)
  have hle := haccount.le
  change _ ≤ 0 + (parse source).2.diagnostics.length at hle
  rw [h, List.length_nil] at hle
  exact Statement.holes_eq_zero_of_mem (Nat.eq_zero_of_add_eq_zero_right (Nat.le_zero.1 hle))

namespace CommandLine

/-- What stands before, between and after the newlines of a text. -/
def splitLines (text : String) : List String := (text.split '\n').toList.map String.Slice.copy

variable {texts : List String} {bytes : ByteArray}

theorem lines_eq_intercalate (texts : List String) :
    lines texts = (String.singleton '\n').intercalate (texts ++ [""]) := by
  induction texts with
  | nil => rfl
  | cons text texts ih =>
    have hcons : lines (text :: texts) = text ++ "\n" ++ lines texts := by simp [lines]
    rw [hcons, ih, List.cons_append, String.intercalate_cons_of_ne_nil (by simp)]
    rfl

/-- Texts without newlines are what stands between the newlines of their lines. -/
theorem splitLines_lines (h : ∀ text ∈ texts, '\n' ∉ text.toList) :
    splitLines (lines texts) = texts ++ [""] := by
  have hall : ∀ text ∈ texts ++ [""], '\n' ∉ text.toList :=
    List.forall_mem_append.2 ⟨h, by simp⟩
  rw [splitLines, lines_eq_intercalate]
  exact (String.toList_split_intercalate hall).trans (if_neg (by simp))

theorem run_file (tokens : Bool) (path source : String) :
    run tokens (.file path (.ok source.toUTF8)) = runSource tokens source := by
  have hdecode : String.fromUTF8? source.toUTF8 = some source := dif_pos source.isValidUTF8
  simp only [run, Except.bind, decode, hdecode]

theorem run_of_not_isValidUTF8 (h : ¬ bytes.IsValidUTF8) (tokens : Bool) (path : String) :
    (run tokens (.file path (.ok bytes))).exit = 1 ∧
      (run tokens (.file path (.ok bytes))).out = "" := by
  have hdecode : String.fromUTF8? bytes = none := dif_neg h
  simp only [run, Except.bind, decode, hdecode, and_self]

theorem lines_map {α : Type} (f : α → String) (values : List α) :
    lines (values.map f) = String.join (values.map fun value => f value ++ "\n") := by
  rw [lines, List.map_map]
  rfl

theorem listStatements_of_clean {source : String} (h : (parse source).2.diagnostics = []) :
    listStatements source = ⟨0, lines ((parse source).1.statements.map Statement.text), ""⟩ :=
  if_pos (List.isEmpty_iff.2 h)

theorem listStatements_of_ne_nil {source : String} (h : (parse source).2.diagnostics ≠ []) :
    listStatements source = ⟨65, "", lines ((parse source).2.diagnostics.map Diagnostic.report)⟩ :=
  if_neg (mt List.isEmpty_iff.1 h)

/-- Of a file that holds a program, a run writes the statements or else all that is wrong with it,
never both. A program without diagnostics is written on as many lines as it has statements, none of
them empty, and the lines give back the texts of the statements. The tokens are written whether the
program is right or wrong, and nothing at all of a file that is no text. -/
theorem run_out_or_err (path : String) :
    (∀ source : String,
      let report := run false (.file path (.ok source.toUTF8))
      let statements := (parse source).1.statements
      let diagnostics := (parse source).2.diagnostics
      (diagnostics ≠ [] → report.exit = 65 ∧ report.out = "" ∧
          report.err = String.join (diagnostics.map fun diagnostic => diagnostic.report ++ "\n")) ∧
        (diagnostics = [] → report.exit = 0 ∧ report.err = "" ∧
          report.out = String.join (statements.map fun statement => statement.text ++ "\n") ∧
          splitLines report.out = statements.map Statement.text ++ [""] ∧
          ∀ statement ∈ statements, statement.text ≠ "" ∧ IsPlain statement.text)) ∧
      (∀ source : String,
        let report := run true (.file path (.ok source.toUTF8))
        report.exit = 0 ∧ report.err = "") ∧
      ∀ tokens bytes, ¬ bytes.IsValidUTF8 →
        (run tokens (.file path (.ok bytes))).exit = 1 ∧
          (run tokens (.file path (.ok bytes))).out = "" := by
  refine ⟨?_, ?_, fun tokens bytes h => run_of_not_isValidUTF8 h tokens path⟩
  · intro source report statements diagnostics
    have hreport : report = listStatements source := run_file false path source
    constructor
    · intro hne
      rw [hreport, listStatements_of_ne_nil hne]
      exact ⟨rfl, rfl, lines_map _ _⟩
    · intro hclean
      have hplain : ∀ statement ∈ statements, IsPlain statement.text :=
        fun statement hmem => (built_parse source statement hmem).isPlain
      have htext : ∀ statement ∈ statements, statement.text ≠ "" :=
        fun statement hmem => (built_parse source statement hmem).statement_text_ne_empty
          (holes_eq_zero_of_clean hclean statement hmem)
      have hlines : ∀ text ∈ statements.map Statement.text, '\n' ∉ text.toList :=
        List.forall_mem_map.2 fun statement hmem hnewline =>
          (hplain statement hmem _ hnewline).1 rfl
      rw [hreport, listStatements_of_clean hclean]
      exact ⟨rfl, rfl, lines_map _ _, splitLines_lines hlines,
        fun statement hmem => ⟨htext statement hmem, hplain statement hmem⟩⟩
  · intro source report
    have hreport : report = listTokens source := run_file true path source
    rw [hreport]
    exact ⟨rfl, rfl⟩

/-- A character that begins no token is passed over in the value of a binding, but not where a
statement begins, and the byte 255 is part of no text. -/
theorem run_out_or_err_binding :
    let source := "let x = é;\nif (a) \x7b -1 \x7d"
    let report := run false (.file "a" (.ok source.toUTF8))
    let other := run false (.file "a" (.ok "é".toUTF8))
    let bytes : ByteArray := ⟨#[97, 255]⟩
    (parse source).2.diagnostics = [] ∧ report.exit = 0 ∧ report.err = "" ∧
      splitLines report.out = ["let x = ;", "ifa (-1)", ""] ∧
      (parse "é").2.diagnostics ≠ [] ∧ other.exit = 65 ∧ other.out = "" ∧
      ¬ bytes.IsValidUTF8 ∧ (run true (.file "a" (.ok bytes))).exit = 1 ∧
      (run true (.file "a" (.ok bytes))).out = "" := by
  intro source report other bytes
  have hclean : (parse source).2.diagnostics = [] := by decide +kernel
  have htexts : (parse source).1.statements.map Statement.text = ["let x = ;", "ifa (-1)"] := by
    decide +kernel
  have hne : (parse "é").2.diagnostics ≠ [] := by decide +kernel
  have hbytes : ¬ bytes.IsValidUTF8 := by decide +kernel
  obtain ⟨hsource, -, hinvalid⟩ := run_out_or_err "a"
  obtain ⟨hexit, herr, -, hlines, -⟩ := (hsource source).2 hclean
  obtain ⟨hexit', hout', -⟩ := (hsource "é").1 hne
  rw [htexts] at hlines
  exact ⟨hclean, hexit, herr, hlines, hne, hexit', hout', hbytes, hinvalid true bytes hbytes⟩

end CommandLine

end ExprLang
