import ExprLang.Proofs.CommandOutput

namespace ExprLang

variable {token : Token} {kind : Kind} {name text : String} {tokens : List Token}

theorem Kind.ofName?_eq_some_iff : ofName? name = some kind ↔ name = kind.name := by
  constructor
  · intro h
    have hname := List.find?_some h
    exact (beq_iff_eq.1 hname).symm
  · rintro rfl
    exact ofName?_name kind

/-- No name of a kind has a parenthesis or a newline in it. -/
theorem Kind.name_plain (kind : Kind) : ∀ c ∈ kind.name.toList, c ≠ '(' ∧ c ≠ '\n' := by
  cases kind <;> simp [name]

/-- Reads the name of a kind and a literal in parentheses. The literal goes on to the last
character, whatever parentheses it has itself. -/
def Token.ofText? (text : String) : Option Token :=
  match Kind.ofName? (String.ofList (text.toList.takeWhile (· != '('))),
      text.toList.dropWhile (· != '(') with
  | some kind, '(' :: rest =>
    if rest.getLast? = some ')' then some ⟨kind, String.ofList rest.dropLast⟩ else none
  | _, _ => none

theorem Token.toList_text (token : Token) :
    token.text.toList = token.kind.name.toList ++ '(' :: (token.literal.toList ++ [')']) := by
  simp [text]

/-- A text is read as a token exactly if it is the text of that token. -/
theorem Token.ofText?_eq_some_iff : ofText? text = some token ↔ text = token.text := by
  constructor
  · intro h
    have hcut :
        text.toList.takeWhile (· != '(') ++ text.toList.dropWhile (· != '(') = text.toList :=
      List.takeWhile_append_dropWhile
    unfold ofText? at h
    split at h
    · next kind rest hkind hrest =>
      split at h
      · next hlast =>
        cases h
        have hname := congrArg String.toList (Kind.ofName?_eq_some_iff.1 hkind)
        have hliteral : rest.dropLast ++ [')'] = rest :=
          List.dropLast_append_getLast? _ (Option.mem_def.2 hlast)
        rw [String.toList_ofList] at hname
        rw [← String.toList_inj, toList_text, String.toList_ofList, hliteral, ← hname, ← hrest,
          hcut]
      · cases h
    · cases h
  · rintro rfl
    have hname : ∀ c ∈ token.kind.name.toList, (c != '(') = true := fun c hc =>
      bne_iff_ne.2 (token.kind.name_plain c hc).1
    have hrest : ∀ c ∈ ('(' :: (token.literal.toList ++ [')'])).head?, (c != '(') = false := by simp
    obtain ⟨htake, hdrop⟩ := span_append_eq hname hrest
    rw [ofText?, toList_text, htake, hdrop]
    simp

theorem Token.newline_not_mem_text (h : '\n' ∉ token.literal.toList) :
    '\n' ∉ token.text.toList := by
  have hname : '\n' ∉ token.kind.name.toList := fun hmem => (token.kind.name_plain _ hmem).2 rfl
  simp [toList_text, hname, h]

/-- A newline is a blank, and no token of a text holds a blank. -/
theorem newline_not_mem_of_mem_tokenize {source : String} (h : token ∈ tokenize source) :
    '\n' ∉ token.literal.toList := by
  rcases List.mem_append.1 h with h | h
  · intro hmem
    cases ((Lexer.ofString source).lexes.lexed_of_mem token h).isBlank_eq_false _ hmem
  · rw [List.mem_singleton.1 h]
    exact List.not_mem_nil

namespace CommandLine

/-- Reads a token off every line, each of which ends with a newline. -/
def readDump (dump : String) : Option (List Token) :=
  (splitLines dump).dropLast.mapM Token.ofText?

theorem mapM_ofText? (tokens : List Token) :
    (tokens.map Token.text).mapM Token.ofText? = some tokens := by
  induction tokens with
  | nil => rfl
  | cons token tokens ih =>
    rw [List.map_cons, List.mapM_cons, Token.ofText?_eq_some_iff.2 rfl, ih]
    rfl

theorem readDump_lines (h : ∀ token ∈ tokens, '\n' ∉ token.literal.toList) :
    readDump (lines (tokens.map Token.text)) = some tokens := by
  have htexts : ∀ text ∈ tokens.map Token.text, '\n' ∉ text.toList :=
    List.forall_mem_map.2 fun token hmem => Token.newline_not_mem_text (h token hmem)
  rw [readDump, splitLines_lines htexts, List.dropLast_concat, mapM_ofText?]

theorem run_file_tokens_out (path source : String) :
    (run true (.file path (.ok source.toUTF8))).out = lines ((tokenize source).map Token.text) := by
  rw [run_file]
  rfl

/-- Each token has a text of its own, from which it is read back. No token of a text holds a
newline, and so the list that is written of the tokens is read back line by line, and is the same
for two texts only if their tokens are. -/
theorem dump_reads_back (path : String) :
    (∀ token other : Token, token.text = other.text ↔ token = other) ∧
      (∀ (text : String) (token : Token), Token.ofText? text = some token ↔ text = token.text) ∧
      (∀ source : String, ∀ token ∈ tokenize source, '\n' ∉ token.literal.toList) ∧
      (∀ source : String,
        readDump (run true (.file path (.ok source.toUTF8))).out = some (tokenize source)) ∧
      ∀ source other : String,
        (run true (.file path (.ok source.toUTF8))).out =
            (run true (.file path (.ok other.toUTF8))).out ↔
          tokenize source = tokenize other := by
  have hinjective : ∀ token other : Token, token.text = other.text ↔ token = other := by
    intro token other
    constructor
    · intro htext
      have hread := Token.ofText?_eq_some_iff.2 htext
      rw [Token.ofText?_eq_some_iff.2 rfl] at hread
      exact Option.some.inj hread
    · rintro rfl
      rfl
  have hread (source : String) :
      readDump (run true (.file path (.ok source.toUTF8))).out = some (tokenize source) := by
    rw [run_file_tokens_out]
    exact readDump_lines fun token => newline_not_mem_of_mem_tokenize
  refine ⟨hinjective, fun text token => Token.ofText?_eq_some_iff,
    fun source token => newline_not_mem_of_mem_tokenize, hread, fun source other => ⟨?_, ?_⟩⟩
  · intro hsame
    rw [← Option.some_inj, ← hread, hsame, hread]
  · intro htokens
    rw [run_file_tokens_out, run_file_tokens_out, htokens]

/-- Literals that are parentheses themselves, on both sides of a character that begins no token. -/
theorem dump_reads_back_parentheses :
    let source := "(é\n)"
    let dump := (run true (.file "a" (.ok source.toUTF8))).out
    let tokens : List Token := [.ofSymbol '(', ⟨.illegal, "é"⟩, .ofSymbol ')', .endOfInput]
    tokenize source = tokens ∧
      dump = "LParen(()\nIllegal(é)\nRParen())\nEndOfInput()\n" ∧
      readDump dump = some tokens ∧
      ⟨.illegal, "é"⟩ ∈ tokenize source ∧ '\n' ∉ (⟨.illegal, "é"⟩ : Token).literal.toList := by
  intro source dump tokens
  have htokens : tokenize source = tokens := by decide +kernel
  have hmem : ⟨.illegal, "é"⟩ ∈ tokenize source := by rw [htokens]; decide
  have hlines : dump = lines (tokens.map Token.text) := htokens ▸ run_file_tokens_out "a" source
  have hdump : dump = "LParen(()\nIllegal(é)\nRParen())\nEndOfInput()\n" :=
    hlines.trans (by decide +kernel)
  obtain ⟨-, -, hnewline, hread, -⟩ := dump_reads_back "a"
  exact ⟨htokens, hdump, (hread source).trans (congrArg some htokens), hmem,
    hnewline source _ hmem⟩

end CommandLine

end ExprLang
