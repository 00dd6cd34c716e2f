import ExprLang.Proofs.Lexemes
import Mathlib.Data.List.Chain

namespace ExprLang

/-- The only spelling of a kind that has one: an operator, a punctuation mark or a reserved word. -/
def Kind.spelling? : Kind → Option String
  | illegal | endOfInput | identifier | integer => none
  | assign => some "="
  | plus => some "+"
  | minus => some "-"
  | bang => some "!"
  | asterisk => some "*"
  | slash => some "/"
  | lessThan => some "<"
  | greaterThan => some ">"
  | equal => some "=="
  | notEqual => some "!="
  | comma => some ","
  | semicolon => some ";"
  | lParen => some "("
  | rParen => some ")"
  | lBrace => some "\x7b"
  | rBrace => some "\x7d"
  | fnWord => some "fn"
  | letWord => some "let"
  | trueWord => some "true"
  | falseWord => some "false"
  | ifWord => some "if"
  | elseWord => some "else"
  | returnWord => some "return"

/-- A letter or an underscore, and letters, underscores and digits after it. -/
def IsWord (text : String) : Prop :=
  ∃ c cs, text.toList = c :: cs ∧ isWordStart c = true ∧ ∀ d ∈ cs, isWordPart d = true

/-- One or more digits. -/
def IsNumeral (text : String) : Prop :=
  ∃ c cs, text.toList = c :: cs ∧ c.isDigit = true ∧ ∀ d ∈ cs, d.isDigit = true

def IsBlanks (text : String) : Prop := ∀ c ∈ text.toList, isBlank c = true

/-- The tokens of the language, each with a literal that its kind can have. -/
inductive Token.Proper : Token → Prop
  | spelt {kind : Kind} {literal : String} (h : kind.spelling? = some literal) :
      Proper ⟨kind, literal⟩
  | identifier {literal : String} (hword : IsWord literal)
      (hreserved : ∀ kind : Kind, kind.spelling? ≠ some literal) : Proper ⟨.identifier, literal⟩
  | integer {literal : String} (hnumeral : IsNumeral literal) : Proper ⟨.integer, literal⟩

/-- A token that a text can hold: one of the language, or a character that is no blank and that no
token of the language begins with. -/
inductive Token.WellFormed : Token → Prop
  | proper {token : Token} (h : token.Proper) : WellFormed token
  | illegal {c : Char} (hblank : isBlank c = false)
      (hstart : ∀ token : Token, token.Proper → token.literal.toList.head? ≠ some c) :
      WellFormed ⟨.illegal, c.toString⟩

theorem Kind.continues_ofSymbol {c d : Char} (h : (ofSymbol c).continues d = true) :
    (c = '=' ∨ c = '!') ∧ d = '=' := by
  unfold ofSymbol at h
  split at h <;> simp_all [continues, isWord]

/-- What is split off a text is a token, and it is not read on into what is left. -/
theorem Token.lexed_split {c : Char} (hblank : isBlank c = false) (cs : List Char) :
    (Token.split c cs).1.Lexed ∧
      (Token.split c cs).1.literal.toList ++ (Token.split c cs).2 = c :: cs ∧
      (Token.split c cs).1.kind.EndsAt (Token.split c cs).2 := by
  have hall {p : Char → Bool} : ∀ d ∈ cs.takeWhile p, p d = true :=
    List.all_eq_true.1 List.all_takeWhile
  have hrest {p : Char → Bool} : ∀ d ∈ (cs.dropWhile p).head?, p d = false := by
    intro d hd
    have hstop := List.head?_dropWhile_not p cs
    rwa [hd] at hstop
  unfold Token.split
  split
  · next hc =>
    refine ⟨.word hc hall, by simp [Token.ofWord], fun d hd => ?_⟩
    exact (Kind.continues_of_isWord (Kind.isWord_ofWord _) d).trans (hrest d hd)
  · next hword =>
    split
    · next hc => exact ⟨.integer hc hall, by simp, hrest⟩
    · next hdigit =>
      rw [Bool.not_eq_true] at hword hdigit
      split
      · exact ⟨.equal, by simp, fun _ _ => rfl⟩
      · exact ⟨.notEqual, by simp, fun _ _ => rfl⟩
      · next c cs hequal hnotEqual =>
        refine ⟨.symbol hblank hword hdigit, by simp [Token.ofSymbol], fun d hd => ?_⟩
        -- `=` and `!` take an equals sign after them along, and then it is not this case
        rw [← Bool.not_eq_true]
        intro hcontinues
        obtain ⟨hc, rfl⟩ := Kind.continues_ofSymbol hcontinues
        obtain ⟨ds, rfl⟩ := List.head?_eq_some_iff.1 hd
        exact hc.elim (hequal ds · rfl) (hnotEqual ds · rfl)

namespace Kind

variable {kind : Kind} {text : String}

theorem split_of_spelling? (h : kind.spelling? = some text) :
    ∃ c cs, text.toList = c :: cs ∧ isBlank c = false ∧
      Token.split c cs = (⟨kind, text⟩, []) := by
  cases kind <;> cases h <;> exact ⟨_, _, rfl, rfl, rfl⟩

/-- The first character of a spelling: a letter for a reserved word, else no letter, no digit and a
token by itself. -/
theorem head_of_spelling? (h : kind.spelling? = some text) :
    ∃ c, text.toList.head? = some c ∧ isWordStart c = kind.isWord ∧ c.isDigit = false ∧
      (kind.isWord = false → ofSymbol c ≠ illegal) := by
  cases kind <;> cases h <;> exact ⟨_, rfl, rfl, rfl, by decide⟩

theorem isWord_of_spelling? (h : kind.spelling? = some text) (hword : IsWord text) :
    kind.isWord = true := by
  obtain ⟨c, cs, htext, hstart, -⟩ := hword
  obtain ⟨d, hd, hkind, -⟩ := head_of_spelling? h
  rw [htext, List.head?_cons] at hd
  cases hd
  exact hkind.symm.trans hstart

theorem ofWord_of_spelling? (h : kind.spelling? = some text) (hword : IsWord text) :
    ofWord text = kind := by
  have hkind := isWord_of_spelling? h hword
  cases kind <;> cases h <;> first | rfl | cases hkind

theorem spelling?_of_mem (h : (text, kind) ∈ reserved) : kind.spelling? = some text :=
  have hspelt : ∀ entry ∈ reserved, entry.2.spelling? = some entry.1 := by decide
  hspelt (text, kind) h

/-- A word has the reserved kind that is spelt like it; if there is none, it is an identifier. -/
theorem ofWord_cases (hword : IsWord text) : (ofWord text).spelling? = some text ∨
    ofWord text = identifier ∧ ∀ kind : Kind, kind.spelling? ≠ some text := by
  cases hlookup : reserved.lookup text with
  | some kind =>
    obtain ⟨before, after, hentries, -⟩ := List.lookup_eq_some_iff.1 hlookup
    rw [ofWord, hlookup]
    exact .inl (spelling?_of_mem (hentries ▸ List.mem_append_right _ List.mem_cons_self))
  | none =>
    have hidentifier : ofWord text = identifier := by rw [ofWord, hlookup]; rfl
    refine .inr ⟨hidentifier, fun kind hkind => ?_⟩
    obtain rfl := hidentifier.symm.trans (ofWord_of_spelling? hkind hword)
    cases hkind

theorem ofSymbol_cases (c : Char) :
    ofSymbol c = illegal ∨ (ofSymbol c).spelling? = some c.toString := by
  unfold ofSymbol
  split <;> first | exact .inl rfl | exact .inr rfl

end Kind

namespace Token

variable {token : Token} {c : Char}

theorem isWord_ofList {cs : List Char} (hc : isWordStart c = true)
    (hcs : ∀ d ∈ cs, isWordPart d = true) : IsWord (String.ofList (c :: cs)) :=
  ⟨c, cs, String.toList_ofList, hc, hcs⟩

theorem Proper.of_isWord {text : String} (h : IsWord text) : (Token.ofWord text).Proper := by
  rcases Kind.ofWord_cases h with hspelt | ⟨hidentifier, hreserved⟩
  · exact .spelt hspelt
  · rw [Token.ofWord, hidentifier]
    exact .identifier h hreserved

/-- What the first character of a token of the language can be. -/
theorem Proper.head (h : token.Proper) (hc : token.literal.toList.head? = some c) :
    isWordStart c = true ∨ c.isDigit = true ∨ Kind.ofSymbol c ≠ .illegal := by
  cases h with
  | @spelt kind literal h =>
    obtain ⟨d, hd, hstart, -, hsymbol⟩ := Kind.head_of_spelling? h
    rw [hd] at hc
    cases hc
    cases hkind : kind.isWord with
    | true => exact .inl (hstart.trans hkind)
    | false => exact .inr (.inr (hsymbol hkind))
  | identifier h =>
    obtain ⟨d, ds, htext, hd, -⟩ := h
    rw [htext, List.head?_cons] at hc
    cases hc
    exact .inl hd
  | integer h =>
    obtain ⟨d, ds, htext, hd, -⟩ := h
    rw [htext, List.head?_cons] at hc
    cases hc
    exact .inr (.inl hd)

theorem Lexed.wellFormed (h : token.Lexed) : token.WellFormed := by
  cases h with
  | word hc hcs => exact .proper (.of_isWord (isWord_ofList hc hcs))
  | integer hc hcs => exact .proper (.integer ⟨_, _, String.toList_ofList, hc, hcs⟩)
  | equal => exact .proper (.spelt rfl)
  | notEqual => exact .proper (.spelt rfl)
  | @symbol c hblank hword hdigit =>
    rcases Kind.ofSymbol_cases c with hillegal | hspelt
    · rw [ofSymbol, hillegal]
      refine .illegal hblank fun token htoken hc => ?_
      rcases htoken.head hc with h | h | h
      · rw [hword] at h
        cases h
      · rw [hdigit] at h
        cases h
      · exact h hillegal
    · exact .proper (.spelt hspelt)

/-- A token that is read off a text and whose kind has a spelling has that spelling. -/
theorem Lexed.eq_of_spelling? {kind : Kind} {literal : String} (h : token.Lexed)
    (hkind : token.kind = kind) (hspelling : kind.spelling? = some literal) :
    token = ⟨kind, literal⟩ := by
  subst hkind
  cases h.wellFormed with
  | proper hproper =>
    cases hproper with
    | spelt hspelt =>
      rw [hspelt] at hspelling
      cases hspelling
      rfl
    | identifier => cases hspelling
    | integer => cases hspelling
  | illegal => cases hspelling

theorem Proper.lexed (h : token.Proper) : token.Lexed := by
  cases h with
  | @spelt kind literal h =>
    obtain ⟨c, cs, -, hblank, hsplit⟩ := Kind.split_of_spelling? h
    have hlexed := (Token.lexed_split hblank cs).1
    rwa [hsplit] at hlexed
  | @identifier literal hword hreserved =>
    rcases Kind.ofWord_cases hword with hspelt | ⟨hidentifier, -⟩
    · exact absurd hspelt (hreserved _)
    · obtain ⟨c, cs, htext, hc, hcs⟩ := hword
      have hlexed := Lexed.word hc hcs
      rwa [← htext, String.ofList_toList, ofWord, hidentifier] at hlexed
  | @integer literal hnumeral =>
    obtain ⟨c, cs, htext, hc, hcs⟩ := hnumeral
    have hlexed := Lexed.integer hc hcs
    rwa [← htext, String.ofList_toList] at hlexed

theorem WellFormed.lexed (h : token.WellFormed) : token.Lexed := by
  cases h with
  | proper h => exact h.lexed
  | @illegal c hblank hstart =>
    have hhead : (String.ofList [c]).toList.head? = some c := by simp
    have hword : isWordStart c = false := by
      rw [← Bool.not_eq_true]
      intro hc
      exact hstart (.ofWord (String.ofList [c])) (.of_isWord (isWord_ofList hc nofun)) hhead
    have hdigit : c.isDigit = false := by
      rw [← Bool.not_eq_true]
      intro hc
      exact hstart _ (.integer ⟨c, [], String.toList_ofList, hc, nofun⟩) hhead
    rcases Kind.ofSymbol_cases c with hillegal | hspelt
    · exact hillegal ▸ .symbol hblank hword hdigit
    · exact absurd (by simp) (hstart _ (.spelt hspelt))

end Token

/-- Blanks and tokens as they stand in a text, every token with the blanks after it. -/
structure Layout where
  leading : String
  pieces : List (Token × String)

namespace Layout

def tokens (layout : Layout) : List Token := layout.pieces.map Prod.fst

def text (layout : Layout) : String :=
  layout.leading ++ String.join (layout.pieces.map fun (token, blanks) => token.literal ++ blanks)

/-- Well-formed tokens with blanks between them. Where no blank stands between two, the first is as
long as it can be. -/
structure WellFormed (layout : Layout) : Prop where
  leading : IsBlanks layout.leading
  tokens : ∀ piece ∈ layout.pieces, piece.1.WellFormed
  blanks : ∀ piece ∈ layout.pieces, IsBlanks piece.2
  longest : layout.pieces.IsChain fun piece next =>
    piece.2 = "" → piece.1.kind.EndsAt next.1.literal.toList

end Layout

/-- The tokens can be laid out as the text. -/
def Tokenization (source : String) (tokens : List Token) : Prop :=
  ∃ layout : Layout, layout.WellFormed ∧ layout.text = source ∧ layout.tokens = tokens

variable {kind : Kind} {source blanks : String} {text rest : List Char} {token : Token}
  {tokens : List Token} {pieces : List (Token × String)} {layout : Layout}

theorem Kind.EndsAt.of_append (h : kind.EndsAt (text ++ rest)) : kind.EndsAt text := by
  intro c hc
  refine h c ?_
  rw [List.head?_append, hc]
  rfl

theorem Kind.EndsAt.append (h : kind.EndsAt text) (hne : text ≠ []) :
    kind.EndsAt (text ++ rest) := by
  intro c hc
  rw [List.head?_append_of_ne_nil _ hne] at hc
  exact h c hc

theorem Kind.continues_of_isBlank {c : Char} (h : isBlank c = true) : kind.continues c = false := by
  simp only [isBlank, Bool.or_eq_true, beq_iff_eq] at h
  rcases h with ((rfl | rfl) | rfl) | rfl <;> cases kind <;> rfl

theorem Token.Lexed.literal_ne_nil (h : token.Lexed) : token.literal.toList ≠ [] := by
  have hends : token.kind.EndsAt [] := nofun
  obtain ⟨c, cs, hliteral, -⟩ := h.split hends
  rw [hliteral]
  exact List.cons_ne_nil c cs

theorem Layout.text_cons (leading : String) :
    (Layout.mk leading ((token, blanks) :: pieces)).text =
      leading ++ (token.literal ++ (Layout.mk blanks pieces).text) := by
  simp [Layout.text, String.append_assoc]

theorem Layout.toList_text (layout : Layout) : layout.text.toList =
    layout.leading.toList ++ (Layout.mk "" layout.pieces).text.toList := by
  simp [Layout.text]

/-- The layout after a token. -/
theorem Layout.WellFormed.tail {leading : String}
    (h : (Layout.mk leading ((token, blanks) :: pieces)).WellFormed) :
    (Layout.mk blanks pieces).WellFormed where
  leading := h.blanks _ List.mem_cons_self
  tokens piece hpiece := h.tokens piece (List.mem_cons_of_mem _ hpiece)
  blanks piece hpiece := h.blanks piece (List.mem_cons_of_mem _ hpiece)
  longest := h.longest.of_cons

/-- A token in a layout is not read on into what stands after it. -/
theorem Layout.WellFormed.endsAt {leading : String}
    (h : (Layout.mk leading ((token, blanks) :: pieces)).WellFormed) :
    token.kind.EndsAt (Layout.mk blanks pieces).text.toList := by
  by_cases hblanks : blanks = ""
  · subst hblanks
    cases pieces with
    | nil => nofun
    | cons next pieces =>
      have hends := (List.isChain_cons_cons.1 h.longest).1 rfl
      have hnext := (h.tail.tokens next List.mem_cons_self).lexed.literal_ne_nil
      rw [Layout.text_cons, String.empty_append, String.toList_append]
      exact hends.append hnext
  · rw [Layout.toList_text]
    apply Kind.EndsAt.append ?_ (by simpa using hblanks)
    intro c hc
    exact Kind.continues_of_isBlank (h.tail.leading c (List.mem_of_mem_head? hc))

theorem Layout.WellFormed.lexes (h : layout.WellFormed) :
    Lexes layout.text.toList layout.tokens := by
  obtain ⟨leading, pieces⟩ := layout
  induction pieces generalizing leading with
  | nil =>
    have htext : (Layout.mk leading []).text = leading := by simp [Layout.text]
    rw [htext]
    exact .nil h.leading
  | cons piece pieces ih =>
    have hrest := ih piece.2 h.tail
    rw [Layout.text_cons, String.toList_append, String.toList_append]
    exact .cons h.leading (h.tokens _ List.mem_cons_self).lexed h.endsAt hrest

theorem Lexes.tokenization (h : Lexes text tokens) : Tokenization (String.ofList text) tokens := by
  induction h with
  | @nil blanks hblanks =>
    refine ⟨⟨String.ofList blanks, []⟩, ⟨?_, nofun, nofun, .nil⟩, ?_, rfl⟩
    · simpa [IsBlanks] using hblanks
    · simp [Layout.text]
  | @cons blanks rest token tokens hblanks htoken hends _ ih =>
    obtain ⟨⟨leading, pieces⟩, h, htext, rfl⟩ := ih
    refine ⟨⟨String.ofList blanks, (token, leading) :: pieces⟩, ⟨?_, ?_, ?_, ?_⟩, ?_, rfl⟩
    · simpa [IsBlanks] using hblanks
    · exact List.forall_mem_cons.2 ⟨htoken.wellFormed, h.tokens⟩
    · exact List.forall_mem_cons.2 ⟨h.leading, h.blanks⟩
    · cases pieces with
      | nil => exact .singleton _
      | cons next pieces =>
        refine List.isChain_cons_cons.2 ⟨?_, h.longest⟩
        rintro rfl
        have hrest : rest = (Layout.mk "" (next :: pieces)).text.toList := by
          rw [htext, String.toList_ofList]
        rw [hrest, Layout.text_cons, String.empty_append, String.toList_append] at hends
        exact hends.of_append
    · rw [Layout.text_cons, htext]
      simp

theorem tokenization_iff_lexes : Tokenization source tokens ↔ Lexes source.toList tokens := by
  constructor
  · rintro ⟨layout, h, rfl, rfl⟩
    exact h.lexes
  · intro h
    exact String.ofList_toList (s := source) ▸ h.tokenization

/-- What reading a token can do: pass over blanks to the end of the input, or over blanks and a
token that is not read on into what is left. -/
inductive Lexer.Reads : Lexer → Token × Lexer → Prop
  | endOfInput {blanks : List Char} {position : Nat} (hblanks : ∀ c ∈ blanks, isBlank c = true) :
      Reads ⟨blanks, position⟩ (.endOfInput, ⟨[], position + blanks.length⟩)
  | token {blanks rest : List Char} {token : Token} {position : Nat}
      (hblanks : ∀ c ∈ blanks, isBlank c = true) (htoken : token.Lexed)
      (hrest : token.kind.EndsAt rest) :
      Reads ⟨blanks ++ (token.literal.toList ++ rest), position⟩
        (token, ⟨rest, position + blanks.length + token.literal.utf8ByteSize⟩)

theorem Lexer.reads (lexer : Lexer) : lexer.Reads lexer.nextToken := by
  obtain ⟨text, position⟩ := lexer
  have hblanks : ∀ c ∈ text.takeWhile isBlank, isBlank c = true :=
    List.all_eq_true.1 List.all_takeWhile
  have htext : text.takeWhile isBlank ++ text.dropWhile isBlank = text :=
    List.takeWhile_append_dropWhile
  rw [nextToken, skipBlanks]
  cases hrest : text.dropWhile isBlank with
  | nil =>
    rw [hrest, List.append_nil] at htext
    rw [htext] at hblanks ⊢
    exact .endOfInput hblanks
  | cons c cs =>
    have hc : isBlank c = false := by
      have hstop := List.head?_dropWhile_not isBlank text
      rwa [hrest] at hstop
    obtain ⟨htoken, hsplit, hends⟩ := Token.lexed_split hc cs
    have hreads : Reads ⟨_, position⟩ _ := .token hblanks htoken hends
    rwa [hsplit, ← hrest, htext] at hreads

/-- Every text is read off as the tokens that reading gives. -/
theorem Lexer.lexes (lexer : Lexer) : Lexes lexer.rest lexer.tokens := by
  induction hlength : lexer.rest.length using Nat.strongRecOn generalizing lexer with
  | ind n ih =>
    have hlt := @length_nextToken_lt lexer
    have hreads := lexer.reads
    rw [tokens_eq]
    generalize lexer.nextToken = read at hlt hreads
    cases hreads with
    | endOfInput hblanks => exact .nil hblanks
    | token hblanks htoken hrest =>
      have hkind := htoken.kind_ne_endOfInput
      rw [if_neg (by simpa using hkind)]
      exact .cons hblanks htoken hrest (ih _ (hlength ▸ hlt (by simpa using hkind)) _ rfl)

/-- Reading gives the one tokenization of a text, and the end of the input after it. -/
theorem tokenize_longest_match (source : String) :
    ∃ tokens, tokenize source = tokens ++ [⟨.endOfInput, ""⟩] ∧
      ∀ others, Tokenization source others ↔ others = tokens := by
  refine ⟨(Lexer.ofString source).tokens, rfl, fun others => ?_⟩
  rw [tokenization_iff_lexes]
  constructor
  · intro h
    exact (h.tokens_eq 0).symm
  · rintro rfl
    exact (Lexer.ofString source).lexes

end ExprLang
