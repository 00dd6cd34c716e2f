import ExprLang.Proofs.Tokenization

namespace ExprLang

variable {token : Token} {text rest blanks : List Char} {tokens others : List Token}

/-- No token of a text holds a blank. -/
theorem Token.Lexed.isBlank_eq_false (h : token.Lexed) :
    ∀ c ∈ token.literal.toList, isBlank c = false := by
  cases h with
  | @word c cs hc hcs =>
    have hpart : ∀ d ∈ cs, isBlank d = false := fun d hd =>
      isBlank_eq_false_of (p := isWordPart) rfl (hcs d hd)
    simpa [Token.ofWord, isBlank_eq_false_of (p := isWordStart) rfl hc] using hpart
  | @integer c cs hc hcs =>
    have hpart : ∀ d ∈ cs, isBlank d = false := fun d hd =>
      isBlank_eq_false_of (p := Char.isDigit) rfl (hcs d hd)
    simpa [isBlank_eq_false_of (p := Char.isDigit) rfl hc] using hpart
  | equal | notEqual => simp [isBlank]
  | symbol hblank => simpa [Token.ofSymbol] using hblank

namespace Lexes

theorem eq_nil (h : Lexes [] tokens) : tokens = [] := by
  rw [← h.tokens_eq 0, Lexer.tokens_eq]
  rfl

/-- Without tokens nothing but blanks can end a text. -/
theorem text_eq_nil (h : Lexes text []) (hlast : ∀ c ∈ text.getLast?, isBlank c = false) :
    text = [] := by
  cases h with
  | nil hblanks =>
    by_contra hne
    have hmem := List.getLast_mem hne
    have hblank := hlast _ (List.getLast?_eq_some_getLast hne)
    rw [hblanks _ hmem] at hblank
    cases hblank

/-- The first token of a text leaves what it is read off before, and is not read on into it. -/
theorem of_cons (hblanks : ∀ c ∈ blanks, isBlank c = true) (htoken : token.Lexed)
    (h : Lexes (blanks ++ (token.literal.toList ++ rest)) (token :: tokens)) :
    token.kind.EndsAt rest ∧ Lexes rest tokens := by
  have hfirst (after : List Char) :
      ∀ c ∈ (token.literal.toList ++ after).head?, isBlank c = false := by
    intro c hc
    rw [List.head?_append_of_ne_nil _ htoken.literal_ne_nil] at hc
    exact htoken.isBlank_eq_false c (List.mem_of_mem_head? hc)
  generalize hwhole : blanks ++ (token.literal.toList ++ rest) = whole at h
  cases h with
  | @cons blanks' rest' _ _ hblanks' _ hrest' htokens' =>
    -- no literal begins with a blank, so the blanks before it are the same
    have hspan := (span_append_eq hblanks (hfirst rest)).2
    rw [hwhole, (span_append_eq hblanks' (hfirst rest')).2] at hspan
    obtain rfl := List.append_cancel_left hspan
    exact ⟨hrest', htokens'⟩

/-- Two texts are read off one after the other where the last token of the first is cut off from
the second, or is not read on into it. -/
theorem append (h : Lexes text tokens) (h' : Lexes rest others)
    (hends : (∀ c ∈ text.getLast?, isBlank c = false) →
      ∀ last ∈ tokens.getLast?, last.kind.EndsAt rest) :
    Lexes (text ++ rest) (tokens ++ others) := by
  induction h with
  | @nil blanks hblanks =>
    clear hends
    induction blanks with
    | nil => exact h'
    | cons c blanks ih =>
      obtain ⟨hc, hblanks⟩ := List.forall_mem_cons.1 hblanks
      exact (ih hblanks).cons_blank hc
  | @cons blanks middle token tokens hblanks htoken hmiddle htokens ih =>
    have hlast : token.kind.EndsAt (middle ++ rest) := by
      cases middle with
      | nil =>
        obtain rfl := htokens.eq_nil
        apply hends ?_ token rfl
        intro c hc
        rw [List.append_nil, List.getLast?_append_of_ne_nil _ htoken.literal_ne_nil] at hc
        exact htoken.isBlank_eq_false c (List.mem_of_mem_getLast? hc)
      | cons c middle => exact hmiddle.append (List.cons_ne_nil c middle)
    have hothers : (∀ c ∈ middle.getLast?, isBlank c = false) →
        ∀ last ∈ tokens.getLast?, last.kind.EndsAt rest := by
      intro hunspaced last hmem
      cases middle with
      | nil =>
        rw [htokens.eq_nil] at hmem
        cases hmem
      | cons c middle =>
        rw [← List.append_assoc,
          List.getLast?_append_of_ne_nil _ (List.cons_ne_nil c middle)] at hends
        apply hends hunspaced last
        rw [List.getLast?_cons, Option.mem_def.1 hmem]
        rfl
    have hcons := Lexes.cons hblanks htoken hlast (ih hothers)
    simpa [List.append_assoc] using hcons

/-- Where two texts are read off one after the other, the last token of the first is not read on
into the second. -/
theorem endsAt_of_append (h : Lexes text tokens) (happend : Lexes (text ++ rest) (tokens ++ others))
    (hlast : ∀ c ∈ text.getLast?, isBlank c = false) :
    ∀ last ∈ tokens.getLast?, last.kind.EndsAt rest := by
  induction h with
  | nil => nofun
  | @cons blanks middle token tokens hblanks htoken _ htokens ih =>
    rw [List.append_assoc, List.append_assoc, List.cons_append] at happend
    obtain ⟨hends, happend⟩ := happend.of_cons hblanks htoken
    have hmiddle : ∀ c ∈ middle.getLast?, isBlank c = false := by
      intro c hc
      apply hlast c
      rw [List.getLast?_append, List.getLast?_append, Option.mem_def.1 hc]
      rfl
    cases tokens with
    | nil =>
      rw [htokens.text_eq_nil hmiddle] at hends
      rintro last ⟨⟩
      exact hends
    | cons next tokens =>
      rw [List.getLast?_cons_cons]
      exact ih happend hmiddle

end Lexes

/-- The last token of the first text stands at its end, and the second text begins with a character
that belongs to the token. -/
structure Glued (a b : String) : Prop where
  unspaced : ∀ c ∈ a.toList.getLast?, isBlank c = false
  continues : ∃ last ∈ (tokenize a).dropLast.getLast?, ∃ c ∈ b.toList.head?,
    last.kind.continues c = true

theorem dropLast_tokenize (source : String) :
    (tokenize source).dropLast = (Lexer.ofString source).tokens :=
  List.dropLast_concat

theorem not_glued_iff {a b : String} : ¬ Glued a b ↔
    ((∀ c ∈ a.toList.getLast?, isBlank c = false) →
      ∀ last ∈ (Lexer.ofString a).tokens.getLast?, last.kind.EndsAt b.toList) := by
  constructor
  · intro h hunspaced last hlast c hc
    rw [← Bool.not_eq_true]
    intro hcontinues
    exact h ⟨hunspaced, last, (dropLast_tokenize a).symm ▸ hlast, c, hc, hcontinues⟩
  · rintro h ⟨hunspaced, last, hlast, c, hc, hcontinues⟩
    rw [dropLast_tokenize] at hlast
    rw [h hunspaced last hlast c hc] at hcontinues
    cases hcontinues

theorem Lexer.tokens_eq_iff_lexes {source : String} :
    (ofString source).tokens = tokens ↔ Lexes source.toList tokens := by
  constructor
  · rintro rfl
    exact (ofString source).lexes
  · intro h
    exact h.tokens_eq 0

/-- The tokens of two texts together are the tokens of each, unless the texts are glued. -/
theorem tokenize_append_iff (a b : String) :
    tokenize (a ++ b) = (tokenize a).dropLast ++ tokenize b ↔ ¬ Glued a b := by
  have ha := (Lexer.ofString a).lexes
  rw [dropLast_tokenize, tokenize, tokenize, ← List.append_assoc, List.append_left_inj,
    Lexer.tokens_eq_iff_lexes, String.toList_append, not_glued_iff]
  constructor
  · intro h
    exact ha.endsAt_of_append h
  · intro h
    exact ha.append (Lexer.ofString b).lexes h

/-- Blanks before, between and after the tokens, at least one between any two. -/
structure Layout.Spaced (layout : Layout) : Prop where
  leading : IsBlanks layout.leading
  blanks : ∀ piece ∈ layout.pieces, IsBlanks piece.2
  apart : ∀ piece ∈ layout.pieces.dropLast, piece.2 ≠ ""

namespace Layout

variable {layout : Layout} {pieces : List (Token × String)}

/-- Where blanks keep the tokens apart, none of them has to be as long as it can be. -/
theorem longest_of_apart (h : ∀ piece ∈ pieces.dropLast, piece.2 ≠ "") :
    pieces.IsChain fun piece next => piece.2 = "" → piece.1.kind.EndsAt next.1.literal.toList := by
  induction pieces with
  | nil => exact .nil
  | cons piece pieces ih =>
    cases pieces with
    | nil => exact .singleton piece
    | cons next pieces =>
      rw [List.dropLast_cons_cons] at h
      obtain ⟨hpiece, hpieces⟩ := List.forall_mem_cons.1 h
      exact List.isChain_cons_cons.2 ⟨fun hblank => absurd hblank hpiece, ih hpieces⟩

theorem Spaced.wellFormed (h : layout.Spaced)
    (htokens : ∀ token ∈ layout.tokens, token.WellFormed) : layout.WellFormed where
  leading := h.leading
  tokens piece hpiece := htokens piece.1 (List.mem_map_of_mem hpiece)
  blanks := h.blanks
  longest := longest_of_apart h.apart

theorem Spaced.tokens_text (h : layout.Spaced)
    (htokens : ∀ token ∈ layout.tokens, token.WellFormed) :
    (Lexer.ofString layout.text).tokens = layout.tokens :=
  Lexer.tokens_eq_iff_lexes.2 (h.wellFormed htokens).lexes

end Layout

theorem Lexer.wellFormed_of_mem_tokens {lexer : Lexer} (h : token ∈ lexer.tokens) :
    token.WellFormed :=
  (lexer.lexes.lexed_of_mem token h).wellFormed

theorem wellFormed_of_mem_tokenize {source : String} (h : token ∈ tokenize source)
    (hend : token ≠ .endOfInput) : token.WellFormed := by
  rcases List.mem_append.1 h with h | h
  · exact Lexer.wellFormed_of_mem_tokens h
  · exact absurd (List.mem_singleton.1 h) hend

/-- Tokens that blanks keep apart are read off as they are exactly when a text can hold each of
them. The tokens of a text are such tokens, and so they are read off again wherever they are written
out with blanks between them. -/
theorem tokenize_spaced {layout : Layout} (h : layout.Spaced) :
    (tokenize layout.text = layout.tokens ++ [.endOfInput] ↔
        ∀ token ∈ layout.tokens, token.WellFormed) ∧
      (∀ source, ∀ token ∈ tokenize source, token ≠ .endOfInput → token.WellFormed) ∧
      ∀ source, tokenize source = layout.tokens ++ [.endOfInput] →
        tokenize layout.text = tokenize source := by
  have hread (htokens : ∀ token ∈ layout.tokens, token.WellFormed) :
      tokenize layout.text = layout.tokens ++ [.endOfInput] := by
    rw [tokenize, h.tokens_text htokens]
  have hheld {source : String} (hsource : tokenize source = layout.tokens ++ [.endOfInput]) :
      ∀ token ∈ layout.tokens, token.WellFormed := by
    intro token htoken
    rw [tokenize, List.append_left_inj] at hsource
    rw [← hsource] at htoken
    exact Lexer.wellFormed_of_mem_tokens htoken
  refine ⟨⟨hheld, hread⟩, fun source token => wellFormed_of_mem_tokenize, ?_⟩
  intro source hsource
  rw [hsource, hread (hheld hsource)]

/-- A word that begins like a reserved one, a character that begins no token, and two signs that
would be one token without the blank between them. -/
theorem tokenize_spaced_signs :
    let layout : Layout := ⟨"\t", [(.ofWord "lets", "\r\n"), (.ofSymbol 'é', " "),
      (.ofSymbol '=', " "), (.ofSymbol '=', "")]⟩
    layout.Spaced ∧ layout.text = "\tlets\r\né = =" ∧
      tokenize layout.text = [⟨.identifier, "lets"⟩, ⟨.illegal, "é"⟩, ⟨.assign, "="⟩,
        ⟨.assign, "="⟩, ⟨.endOfInput, ""⟩] := by
  intro layout
  have hleading : layout.leading.toList.all isBlank = true := by decide
  have hblanks : (layout.pieces.all fun piece => piece.2.toList.all isBlank) = true := by decide
  simp only [List.all_eq_true] at hleading hblanks
  have hspaced : layout.Spaced := ⟨hleading, hblanks, by decide⟩
  have hlets : (Token.ofWord "lets").Lexed :=
    .ofWord (rfl : (isWordStart 'l' && ['e', 't', 's'].all isWordPart) = true)
  have hillegal : (Token.ofSymbol 'é').Lexed := .symbol rfl rfl rfl
  have hassign : (Token.ofSymbol '=').Lexed := .symbol rfl rfl rfl
  have htokens : ∀ token ∈ layout.tokens, token.WellFormed := by
    simp [layout, Layout.tokens, hlets.wellFormed, hillegal.wellFormed, hassign.wellFormed]
  exact ⟨hspaced, rfl, (tokenize_spaced hspaced).1.2 htokens⟩

end ExprLang
