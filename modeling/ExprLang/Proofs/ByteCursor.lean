import ExprLang.Proofs.Tokenization

namespace ExprLang

/-- The bytes of `source` from `start` to `stop` are those of `text`, and no character is cut at
either end. -/
structure Spans (source : String) (start stop : Nat) (text : String) : Prop where
  start_valid : String.Pos.Raw.IsValid source ⟨start⟩
  stop_valid : String.Pos.Raw.IsValid source ⟨stop⟩
  stop_eq : stop = start + text.utf8ByteSize
  bytes_eq : source.toByteArray.extract start stop = text.toByteArray

/-- The states that further calls lead to. -/
inductive Lexer.Reaches (lexer : Lexer) : Lexer → Prop
  | refl : lexer.Reaches lexer
  | nextToken {later : Lexer} (h : lexer.Reaches later) : lexer.Reaches later.nextToken.2
  | next? {later : Lexer} (h : lexer.Reaches later) : lexer.Reaches later.next?.2

/-- The source is what was passed and what is left, and the position is where they meet. -/
structure Lexer.StandsAfter (source passed : String) (lexer : Lexer) : Prop where
  source_eq : source = passed ++ lexer.remainder
  position_eq : lexer.position = passed.utf8ByteSize

variable {source passed : String} {lexer later : Lexer} {text : List Char} {tokens : List Token}

theorem Spans.of_eq {before text after : String} (h : source = before ++ (text ++ after)) :
    Spans source before.utf8ByteSize (before.utf8ByteSize + text.utf8ByteSize) text where
  start_valid := String.Pos.Raw.isValid_iff_exists_append.2 ⟨before, text ++ after, h, rfl⟩
  stop_valid := by
    rw [← String.append_assoc] at h
    refine String.Pos.Raw.isValid_iff_exists_append.2 ⟨before ++ text, after, h, ?_⟩
    rw [← String.utf8ByteSize_append]
    rfl
  stop_eq := rfl
  bytes_eq := by
    have htext := ByteArray.extract_append_size_add (a := before.toByteArray)
      (b := text.toByteArray ++ after.toByteArray) (i := 0) (j := text.toByteArray.size)
    simp only [h, String.toByteArray_append, ← String.size_toByteArray]
    rwa [Nat.add_zero, ByteArray.extract_append_eq_left rfl] at htext

theorem utf8ByteSize_of_blanks {blanks : List Char} (h : ∀ c ∈ blanks, isBlank c = true) :
    (String.ofList blanks).utf8ByteSize = blanks.length := by
  induction blanks with
  | nil => rfl
  | cons c cs ih =>
    obtain ⟨hc, hcs⟩ := List.forall_mem_cons.1 h
    have hsize : c.utf8Size = 1 := by
      simp only [isBlank, Bool.or_eq_true, beq_iff_eq] at hc
      rcases hc with ((rfl | rfl) | rfl) | rfl <;> rfl
    rw [String.ofList_cons, String.utf8ByteSize_append, String.utf8ByteSize_singleton, hsize,
      ih hcs, List.length_cons, Nat.add_comm]

theorem length_le_utf8ByteSize (cs : List Char) : cs.length ≤ (String.ofList cs).utf8ByteSize := by
  induction cs with
  | nil => exact Nat.zero_le _
  | cons c cs ih =>
    have hpos := c.utf8Size_pos
    rw [String.ofList_cons, String.utf8ByteSize_append, String.utf8ByteSize_singleton,
      List.length_cons]
    omega

/-- A token has at least one character. -/
theorem Lexes.length_le (h : Lexes text tokens) : tokens.length ≤ text.length := by
  induction h with
  | nil => exact Nat.zero_le _
  | cons _ htoken _ _ ih =>
    have hpos := List.length_pos_iff.2 htoken.literal_ne_nil
    simp only [List.length_cons, List.length_append]
    omega

namespace Lexer

theorem StandsAfter.start (source : String) : StandsAfter source "" (ofString source) :=
  ⟨by simp [remainder, ofString], rfl⟩

/-- Reading a token passes over blanks and the characters of the token. -/
theorem StandsAfter.read (h : StandsAfter source passed lexer) : ∃ blanks, IsBlanks blanks ∧
    StandsAfter source (passed ++ blanks ++ lexer.nextToken.1.literal) lexer.nextToken.2 := by
  have hreads := lexer.reads
  generalize lexer.nextToken = read at hreads
  cases hreads with
  | @endOfInput blanks position hblanks =>
    have hposition : position = passed.utf8ByteSize := h.position_eq
    refine ⟨String.ofList blanks, by simpa [IsBlanks] using hblanks, ?_, ?_⟩
    · simpa [remainder, Token.endOfInput] using h.source_eq
    · simp [Token.endOfInput, utf8ByteSize_of_blanks hblanks, hposition]
  | @token blanks rest token position hblanks =>
    have hposition : position = passed.utf8ByteSize := h.position_eq
    refine ⟨String.ofList blanks, by simpa [IsBlanks] using hblanks, ?_, ?_⟩
    · simpa [remainder, String.append_assoc] using h.source_eq
    · simp [utf8ByteSize_of_blanks hblanks, hposition]

theorem StandsAfter.utf8ByteSize_eq (h : StandsAfter source passed lexer) :
    source.utf8ByteSize = lexer.position + lexer.remainder.utf8ByteSize := by
  rw [h.source_eq, String.utf8ByteSize_append, h.position_eq]

theorem StandsAfter.spans_remainder (h : StandsAfter source passed lexer) :
    Spans source lexer.position source.utf8ByteSize lexer.remainder := by
  have hsource : source = passed ++ (lexer.remainder ++ "") := by simpa using h.source_eq
  rw [h.utf8ByteSize_eq, h.position_eq]
  exact .of_eq hsource

theorem nextToken_of_endOfInput (h : lexer.nextToken.1.kind = .endOfInput) :
    lexer.nextToken.1 = .endOfInput ∧ lexer.nextToken.2.rest = [] := by
  have hreads := lexer.reads
  generalize lexer.nextToken = read at h hreads
  cases hreads with
  | endOfInput => exact ⟨rfl, rfl⟩
  | token _ htoken => exact absurd h htoken.kind_ne_endOfInput

theorem lexed_nextToken (h : lexer.nextToken.1.kind ≠ .endOfInput) :
    lexer.nextToken.1.Lexed := by
  have hreads := lexer.reads
  generalize lexer.nextToken = read at h hreads
  cases hreads with
  | endOfInput => exact absurd rfl h
  | token _ htoken => exact htoken

theorem StandsAfter.nextToken_spans (h : StandsAfter source passed lexer)
    (hkind : lexer.nextToken.1.kind ≠ .endOfInput) :
    lexer.position < lexer.nextToken.2.position ∧
      ∃ start blanks, IsBlanks blanks ∧ Spans source lexer.position start blanks ∧
        Spans source start lexer.nextToken.2.position lexer.nextToken.1.literal := by
  obtain ⟨blanks, hblanks, hread⟩ := h.read
  have hsource := hread.source_eq
  have hnext := hread.position_eq
  have hliteral : lexer.nextToken.1.literal.utf8ByteSize ≠ 0 := by
    simpa using (lexed_nextToken hkind).literal_ne_nil
  rw [String.utf8ByteSize_append] at hnext
  rw [String.append_assoc] at hsource
  refine ⟨?_, (passed ++ blanks).utf8ByteSize, blanks, hblanks, ?_, hnext ▸ .of_eq hsource⟩
  · rw [String.utf8ByteSize_append, ← h.position_eq] at hnext
    omega
  · rw [String.append_assoc] at hsource
    rw [String.utf8ByteSize_append, h.position_eq]
    exact .of_eq hsource

theorem StandsAfter.endOfInput_spans (h : StandsAfter source passed lexer)
    (hkind : lexer.nextToken.1.kind = .endOfInput) :
    lexer.nextToken.2.position = source.utf8ByteSize ∧
      ∃ blanks, IsBlanks blanks ∧ Spans source lexer.position source.utf8ByteSize blanks := by
  obtain ⟨blanks, hblanks, hread⟩ := h.read
  obtain ⟨htoken, hrest⟩ := nextToken_of_endOfInput hkind
  have hremainder : lexer.nextToken.2.remainder = "" := by rw [remainder, hrest, String.ofList_nil]
  have hend := hread.utf8ByteSize_eq
  have hsource := hread.source_eq
  rw [hremainder, String.utf8ByteSize_empty, Nat.add_zero] at hend
  rw [hremainder, htoken, String.append_assoc, String.append_assoc] at hsource
  have hsize : source.utf8ByteSize = passed.utf8ByteSize + blanks.utf8ByteSize := by
    simp [hsource, Token.endOfInput]
  refine ⟨hend.symm, blanks, hblanks, ?_⟩
  rw [hsize, h.position_eq]
  exact .of_eq hsource

theorem StandsAfter.length_tokens_le (h : StandsAfter source passed lexer) :
    lexer.position + lexer.tokens.length ≤ source.utf8ByteSize := by
  have hle := Nat.le_trans lexer.lexes.length_le (length_le_utf8ByteSize lexer.rest)
  rw [h.utf8ByteSize_eq]
  exact Nat.add_le_add_left hle lexer.position

theorem Reaches.standsAfter (h : (ofString source).Reaches lexer) :
    ∃ passed, StandsAfter source passed lexer := by
  induction h with
  | refl => exact ⟨"", .start source⟩
  | nextToken _ ih | next? _ ih =>
    obtain ⟨passed, ih⟩ := ih
    obtain ⟨blanks, -, hread⟩ := ih.read
    exact ⟨_, hread⟩

theorem nextToken_of_nil (h : lexer.rest = []) : lexer.nextToken = (.endOfInput, lexer) := by
  obtain ⟨text, position⟩ := lexer
  cases h
  rfl

/-- At the end of the input no call moves on. -/
theorem Reaches.eq_of_nil (h : lexer.Reaches later) (hrest : lexer.rest = []) : later = lexer := by
  induction h with
  | refl => rfl
  | nextToken _ ih | next? _ ih =>
    subst ih
    exact congrArg Prod.snd (nextToken_of_nil hrest)

end Lexer

end ExprLang
