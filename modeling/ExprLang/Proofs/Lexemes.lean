import ExprLang.Lexer
import ExprLang.Proofs.CleanRun

namespace ExprLang

namespace Kind

/-- The reserved words and the identifiers. -/
def isWord : Kind → Bool
  | identifier | fnWord | letWord | trueWord | falseWord | ifWord | elseWord | returnWord => true
  | _ => false

/-- Whether a character right after a token of this kind belongs to the token. -/
def continues (kind : Kind) (c : Char) : Bool :=
  match kind with
  | assign | bang => c == '='
  | integer => c.isDigit
  | kind => kind.isWord && isWordPart c

theorem isWord_ofWord (word : String) : (ofWord word).isWord = true := by
  have hreserved : ∀ entry ∈ reserved, entry.2.isWord = true := by decide
  rw [ofWord]
  cases h : reserved.lookup word with
  | none => rfl
  | some kind =>
    obtain ⟨before, after, hentries, -⟩ := List.lookup_eq_some_iff.1 h
    exact hreserved (word, kind) (hentries ▸ List.mem_append_right _ List.mem_cons_self)

theorem continues_of_isWord {kind : Kind} (h : kind.isWord = true) (c : Char) :
    kind.continues c = isWordPart c := by
  cases kind <;> first | rfl | cases h

end Kind

/-- The tokens that are read off a text, each with the characters of its kind. -/
inductive Token.Lexed : Token → Prop
  | word {c : Char} {cs : List Char} (hc : isWordStart c = true)
      (hcs : ∀ d ∈ cs, isWordPart d = true) : Lexed (.ofWord (String.ofList (c :: cs)))
  | integer {c : Char} {cs : List Char} (hc : c.isDigit = true) (hcs : ∀ d ∈ cs, d.isDigit = true) :
      Lexed ⟨.integer, String.ofList (c :: cs)⟩
  | equal : Lexed ⟨.equal, "=="⟩
  | notEqual : Lexed ⟨.notEqual, "!="⟩
  | symbol {c : Char} (hblank : isBlank c = false) (hword : isWordStart c = false)
      (hdigit : c.isDigit = false) : Lexed (.ofSymbol c)

theorem Token.Lexed.ofWord {c : Char} {cs : List Char}
    (h : (isWordStart c && cs.all isWordPart) = true) :
    (Token.ofWord (String.ofList (c :: cs))).Lexed := by
  simp only [Bool.and_eq_true, List.all_eq_true] at h
  exact .word h.1 h.2

/-- A token of the given kind is not read on into the text. -/
def Kind.EndsAt (kind : Kind) (text : List Char) : Prop :=
  ∀ c ∈ text.head?, kind.continues c = false

variable {p : Char → Bool} {c : Char} {cs rest : List Char} {token : Token}

/-- A run of characters that what follows does not go on with is taken off as it is. -/
theorem span_append_eq (h : ∀ d ∈ cs, p d = true) (hrest : ∀ d ∈ rest.head?, p d = false) :
    (cs ++ rest).takeWhile p = cs ∧ (cs ++ rest).dropWhile p = rest := by
  have hspan : rest.takeWhile p = [] ∧ rest.dropWhile p = rest := by
    match rest, hrest with
    | [], _ => exact ⟨rfl, rfl⟩
    | d :: rest, hrest => simp [List.takeWhile, List.dropWhile, hrest d rfl]
  rw [List.takeWhile_append_of_pos h, List.dropWhile_append_of_pos h, hspan.1, hspan.2]
  exact ⟨List.append_nil cs, rfl⟩

theorem isWordStart_eq_false_of_isDigit (h : c.isDigit = true) : isWordStart c = false := by
  have hdigit : c.toNat ≤ 57 := of_decide_eq_true (Bool.and_eq_true_iff.1 h).2
  have hletter : ¬ c.isAlpha = true := by
    intro hletter
    rcases Bool.or_eq_true_iff.1 hletter with hupper | hlower
    · have hle : 65 ≤ c.toNat := (of_decide_eq_true hupper).1
      omega
    · have hle : 97 ≤ c.toNat := of_decide_eq_true (Bool.and_eq_true_iff.1 hlower).1
      omega
  have hunderscore : c ≠ '_' := by
    rintro rfl
    cases h
  simp [isWordStart, hletter, hunderscore]

theorem isBlank_eq_false_of (hp : (p ' ' || p '\t' || p '\n' || p '\r') = false)
    (h : p c = true) : isBlank c = false := by
  simp only [Bool.or_eq_false_iff] at hp
  obtain ⟨⟨⟨hspace, htab⟩, hnewline⟩, hreturn⟩ := hp
  have hne {d : Char} (hd : p d = false) : c ≠ d := by
    rintro rfl
    rw [h] at hd
    cases hd
  simp [isBlank, hne hspace, hne htab, hne hnewline, hne hreturn]

theorem Token.Lexed.kind_ne_endOfInput (h : token.Lexed) : token.kind ≠ .endOfInput := by
  intro hkind
  cases h with
  | @word c cs =>
    have hword := Kind.isWord_ofWord (String.ofList (c :: cs))
    rw [show Kind.ofWord _ = .endOfInput from hkind] at hword
    cases hword
  | integer | equal | notEqual => cases hkind
  | symbol =>
    simp only [Token.ofSymbol, Kind.ofSymbol] at hkind
    split at hkind <;> cases hkind

/-- A token that is not read on into what follows is the one that is read. -/
theorem Token.Lexed.split (h : token.Lexed) (hrest : token.kind.EndsAt rest) :
    ∃ c cs, token.literal.toList = c :: cs ∧ isBlank c = false ∧
      Token.split c (cs ++ rest) = (token, rest) := by
  cases h with
  | @word c cs hc hcs =>
    refine ⟨c, cs, String.toList_ofList, isBlank_eq_false_of (p := isWordStart) rfl hc, ?_⟩
    have hspan := span_append_eq hcs fun d hd =>
      (Kind.continues_of_isWord (Kind.isWord_ofWord _) d).symm.trans (hrest d hd)
    unfold Token.split
    rw [if_pos hc, hspan.1, hspan.2]
  | @integer c cs hc hcs =>
    refine ⟨c, cs, String.toList_ofList, isBlank_eq_false_of (p := Char.isDigit) rfl hc, ?_⟩
    have hspan := span_append_eq hcs hrest
    have hword : ¬ isWordStart c = true := by simp [isWordStart_eq_false_of_isDigit hc]
    unfold Token.split
    rw [if_neg hword, if_pos hc, hspan.1, hspan.2]
  | equal => exact ⟨'=', ['='], rfl, rfl, rfl⟩
  | notEqual => exact ⟨'!', ['='], rfl, rfl, rfl⟩
  | @symbol c hblank hword hdigit =>
    refine ⟨c, [], String.toList_singleton c, hblank, ?_⟩
    unfold Token.split
    rw [List.nil_append, if_neg (by simp [hword]), if_neg (by simp [hdigit])]
    split
    · exact absurd (hrest '=' rfl) (by decide)
    · exact absurd (hrest '=' rfl) (by decide)
    · rfl

/-- A text read off as tokens, each no longer than it can be, with blanks between them. -/
inductive Lexes : List Char → List Token → Prop
  | nil {blanks : List Char} (hblanks : ∀ c ∈ blanks, isBlank c = true) : Lexes blanks []
  | cons {blanks rest : List Char} {token : Token} {tokens : List Token}
      (hblanks : ∀ c ∈ blanks, isBlank c = true) (htoken : token.Lexed)
      (hrest : token.kind.EndsAt rest) (htokens : Lexes rest tokens) :
      Lexes (blanks ++ (token.literal.toList ++ rest)) (token :: tokens)

theorem Lexes.lexed_of_mem {text : List Char} {tokens : List Token} (h : Lexes text tokens) :
    ∀ token ∈ tokens, token.Lexed := by
  induction h with
  | nil => exact fun _ => (nomatch ·)
  | cons _ htoken _ _ ih => exact List.forall_mem_cons.2 ⟨htoken, ih⟩

theorem Lexer.tokens_eq (lexer : Lexer) :
    lexer.tokens = if lexer.nextToken.1.is .endOfInput then []
      else lexer.nextToken.1 :: lexer.nextToken.2.tokens := by
  rw [tokens, drain]
  split
  · next h =>
    simp only [next?, Prod.mk.injEq] at h
    split at h
    · next hend => rw [if_pos hend]
    · cases h.1
  · next h =>
    simp only [next?, Prod.mk.injEq] at h
    split at h
    · cases h.1
    · next hend =>
      obtain ⟨htoken, rfl⟩ := h
      cases htoken
      rw [if_neg hend]
      rfl

/-- The end of the input is not one of the tokens. -/
theorem Lexer.kind_ne_endOfInput_of_mem_tokens {lexer : Lexer} (h : token ∈ lexer.tokens) :
    token.kind ≠ .endOfInput := by
  induction hlength : lexer.rest.length using Nat.strongRecOn generalizing lexer with
  | ind n ih =>
    rw [tokens_eq] at h
    split at h
    · cases h
    · next hend =>
      rcases List.mem_cons.1 h with rfl | h
      · simpa using hend
      · exact ih _ (hlength ▸ length_nextToken_lt hend) h rfl

theorem Lexer.rest_skipBlanks {blanks : List Char} (hblanks : ∀ c ∈ blanks, isBlank c = true)
    (hrest : ∀ c ∈ rest.head?, isBlank c = false) (position : Nat) :
    (skipBlanks ⟨blanks ++ rest, position⟩).rest = rest :=
  (span_append_eq hblanks hrest).2

/-- A text that is read off as tokens is split into these tokens. -/
theorem Lexes.tokens_eq {text : List Char} {tokens : List Token} (h : Lexes text tokens)
    (position : Nat) : (⟨text, position⟩ : Lexer).tokens = tokens := by
  induction h generalizing position with
  | nil hblanks =>
    have hnone : ∀ c ∈ ([] : List Char).head?, isBlank c = false := by simp
    have hskip := Lexer.rest_skipBlanks hblanks hnone position
    rw [List.append_nil] at hskip
    rw [Lexer.tokens_eq, Lexer.nextToken, hskip]
    rfl
  | @cons blanks rest token tokens hblanks htoken hrest _ ih =>
    obtain ⟨c, cs, hliteral, hblank, hsplit⟩ := htoken.split hrest
    have hfirst : ∀ d ∈ (c :: (cs ++ rest)).head?, isBlank d = false := by simp [hblank]
    have hskip := Lexer.rest_skipBlanks hblanks hfirst position
    rw [hliteral, List.cons_append]
    rw [Lexer.tokens_eq, Lexer.nextToken, hskip]
    simp only [hsplit, Token.is_eq_false_iff.2 htoken.kind_ne_endOfInput, Bool.false_eq_true,
      ↓reduceIte, ih]

theorem Lexes.cons_token {token : Token} {rest : List Char} {tokens : List Token}
    (htoken : token.Lexed) (hrest : token.kind.EndsAt rest) (htokens : Lexes rest tokens) :
    Lexes (token.literal.toList ++ rest) (token :: tokens) := by
  have hblanks : ∀ c ∈ ([] : List Char), isBlank c = true := nofun
  exact .cons hblanks htoken hrest htokens

theorem Lexes.cons_blank {text : List Char} {tokens : List Token} (hc : isBlank c = true)
    (h : Lexes text tokens) : Lexes (c :: text) tokens := by
  cases h with
  | nil hblanks => exact .nil (by simpa [hc] using hblanks)
  | @cons blanks rest token tokens hblanks htoken hrest htokens =>
    have hblanks' : ∀ d ∈ c :: blanks, isBlank d = true := by simpa [hc] using hblanks
    exact .cons hblanks' htoken hrest htokens

theorem Kind.endsAt_blank (kind : Kind) (text : List Char) : kind.EndsAt (' ' :: text) := by
  rintro c ⟨⟩
  cases kind <;> rfl

/-- Tokens with one space between them are read off as they are. -/
theorem lexes_intercalate {tokens : List Token} (h : ∀ token ∈ tokens, token.Lexed) :
    Lexes (" ".intercalate (tokens.map Token.literal)).toList tokens := by
  induction tokens with
  | nil => exact .nil nofun
  | cons token tokens ih =>
    obtain ⟨htoken, htokens⟩ := List.forall_mem_cons.1 h
    cases tokens with
    | nil =>
      rw [List.map_singleton, String.intercalate_singleton]
      have hends : token.kind.EndsAt [] := nofun
      have hlast := Lexes.cons_token htoken hends (.nil nofun)
      simpa using hlast
    | cons next tokens =>
      have hrest := (ih htokens).cons_blank (c := ' ') rfl
      have hfirst := Lexes.cons_token htoken (Kind.endsAt_blank _ _) hrest
      simpa [String.intercalate_cons_cons] using hfirst

theorem Lexer.tokens_intercalate {tokens : List Token} (h : ∀ token ∈ tokens, token.Lexed) :
    (Lexer.ofString (" ".intercalate (tokens.map Token.literal))).tokens = tokens :=
  (lexes_intercalate h).tokens_eq 0

end ExprLang
