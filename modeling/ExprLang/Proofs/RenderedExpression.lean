import ExprLang.Proofs.PrintedProgram
import ExprLang.Proofs.Tokenization
import ExprLang.Tree.Render

namespace ExprLang

variable {token : Token} {kind : Kind} {rest : List Char} {tokens : List Token}

/-- No letter, digit or underscore stands first in the text. -/
def NoWordPart (text : List Char) : Prop := ∀ c ∈ text.head?, isWordPart c = false

/-- A word or a numeral ends where no letter, digit or underscore follows. -/
theorem Kind.endsAt_of_noWordPart (h : NoWordPart rest) (hassign : kind ≠ .assign := by decide)
    (hbang : kind ≠ .bang := by decide) : kind.EndsAt rest := by
  intro c hc
  have hpart := h c hc
  have hdigit : c.isDigit = false := by
    simp only [isWordPart, Char.isAlphanum, Bool.or_eq_false_iff] at hpart
    exact hpart.1.2
  cases kind with
  | assign => exact absurd rfl hassign
  | bang => exact absurd rfl hbang
  | integer => exact hdigit
  | _ => simp [continues, hpart]

theorem Lexes.cons_leaf (htoken : token.LexedAs kind) (hrest : NoWordPart rest)
    (htokens : Lexes rest tokens) (hassign : kind ≠ .assign := by decide)
    (hbang : kind ≠ .bang := by decide) :
    Lexes (token.literal.toList ++ rest) (token :: tokens) := by
  have hends : token.kind.EndsAt rest := by
    rw [htoken.kind_eq]
    exact Kind.endsAt_of_noWordPart hrest hassign hbang
  exact .cons_token htoken.lexed hends htokens

theorem Token.kind_split_equals (cs : List Char) :
    (Token.split '=' cs).1.kind = .equal ∨ (Token.split '=' cs).1.kind = .assign := by
  unfold Token.split
  rw [if_neg (by decide), if_neg (by decide)]
  split
  · exact .inl rfl
  · next hbang => cases hbang
  · exact .inr rfl

/-- A text that is read off as an expression does not begin with an equals sign. -/
theorem Lexes.head_ne_equals {start : Form} (h : Lexes rest tokens)
    (hstart : Grammar.standard.form? (Cursor.current tokens).kind = some start) :
    ∀ c ∈ rest.head?, c ≠ '=' := by
  rintro c hc rfl
  cases h with
  | nil => cases hstart
  | @cons blanks rest token tokens hblanks htoken hrest _ =>
    cases blanks with
    | nil =>
      obtain ⟨d, ds, hliteral, -, hsplit⟩ := htoken.split hrest
      rw [List.nil_append, hliteral] at hc
      cases hc
      have hkind := Token.kind_split_equals (ds ++ rest)
      rw [hsplit] at hkind
      rcases hkind with hkind | hkind <;> rw [Cursor.current_cons, hkind] at hstart <;> cases hstart
    | cons blank blanks =>
      cases hc
      cases hblanks '=' List.mem_cons_self

theorem Kind.endsAt_of_ne_equals (hkind : kind = .bang ∨ kind = .minus)
    (h : ∀ c ∈ rest.head?, c ≠ '=') : kind.EndsAt rest := by
  intro c hc
  rcases hkind with rfl | rfl
  · simpa [continues] using h c hc
  · rfl

theorem Lexes.cons_closing (h : Lexes rest tokens) :
    Lexes (')' :: rest) (.ofSymbol ')' :: tokens) := by
  have hclosing := Lexes.cons_token lexed_rParen (fun _ _ => rfl) h
  simpa [Token.ofSymbol] using hclosing

/-- The text of an operator expression is read off as the expression's tokens, the parentheses
among them. -/
theorem Expression.WellFormed.lexes {e : Expression} (h : e.WellFormed)
    (hoperators : e.OperatorsOnly) {rest : List Char} {tokens : List Token}
    (hrest : NoWordPart rest) (htokens : Lexes rest tokens) :
    Lexes (e.text.toList ++ rest) (e.written ++ tokens) := by
  match e, h, hoperators with
  | .identifier id, h, _ =>
    have hid : id.WellFormed := h
    rw [Expression.text, Expression.written, hid.name_eq]
    exact .cons_leaf hid.token hrest htokens
  | .integer token value, ⟨htoken, _⟩, _ => exact .cons_leaf htoken hrest htokens
  | .boolean token true, h, _ => exact .cons_leaf h hrest htokens
  | .boolean token false, h, _ => exact .cons_leaf h hrest htokens
  | .unary token operator operand, ⟨htoken, hoperator, hoperand⟩, hoperators =>
    subst hoperator
    have hclosed : NoWordPart (')' :: rest) := by rintro c ⟨⟩; rfl
    have hlexes := hoperand.lexes hoperators hclosed htokens.cons_closing
    -- no operand begins with an equals sign, which a bang before it would be read on into
    obtain ⟨start, hstart⟩ := (hoperand.derives .unary (.ofSymbol ')' :: tokens)).opens
    have hends := Kind.endsAt_of_ne_equals (htoken.imp (·.kind_eq) (·.kind_eq))
      (hlexes.head_ne_equals hstart)
    have hunary := Lexes.cons_token (htoken.elim (·.lexed) (·.lexed)) hends hlexes
    have hopened := Lexes.cons_token lexed_lParen (fun _ _ => rfl) hunary
    simpa [Expression.text, Expression.written, Token.ofSymbol] using hopened
  | .binary token left operator right, ⟨htoken, hoperator, hleft, hright⟩, ⟨hl, hr⟩ =>
    subst hoperator
    have hclosed : NoWordPart (')' :: rest) := by rintro c ⟨⟩; rfl
    have hspaced {text : List Char} : NoWordPart (' ' :: text) := by rintro c ⟨⟩; rfl
    have hlexesRight := (hright.lexes hr hclosed htokens.cons_closing).cons_blank (c := ' ') rfl
    have hbinary := (Lexes.cons_token htoken.1 (Kind.endsAt_blank _ _) hlexesRight).cons_blank
      (c := ' ') rfl
    have hopened := Lexes.cons_token lexed_lParen (fun _ _ => rfl) (hleft.lexes hl hspaced hbinary)
    simpa [Expression.text, Expression.written, Token.ofSymbol] using hopened

/-- The text of an operator expression that does not nest too deep is read as one statement, which
is the expression itself. -/
theorem parse_text {e : Expression} (h : e.WellFormed) (hoperators : e.OperatorsOnly)
    (hlevels : e.levels ≤ maxNesting) :
    (parse e.text).1 = ⟨[.expression (Cursor.current e.written) e]⟩ ∧
      (parse e.text).2.diagnostics = [] ∧ (parse e.text).1.text = e.text := by
  have hnone : NoWordPart [] := nofun
  have htokens : (Lexer.ofString e.text).tokens = e.written := by
    have hlexes := h.lexes hoperators hnone (.nil nofun)
    rw [List.append_nil, List.append_nil] at hlexes
    exact hlexes.tokens_eq 0
  have hstatement := Derives.unterminated (h.derives .equality []) nofun rfl
  rw [List.append_nil] at hstatement
  have hbody := (Derives.cons hstatement .nil).runs maxNesting .endOfInput
    (by simpa using hlevels) (.inr rfl) (.inr rfl)
  rw [← htokens] at hbody
  have hread : (parse e.text).1 = ⟨[.expression (Cursor.current e.written) e]⟩ :=
    htokens ▸ congrArg Program.mk hbody.value_eq
  refine ⟨hread, parse_diagnostics_eq_nil_iff.2 hbody.clean, ?_⟩
  rw [hread]
  simp [Program.text, Statement.joinedText, Statement.text]

theorem parse_text_product :
    let e : Expression := .binary (.ofSymbol '*')
      (.unary (.ofSymbol '-') "-" (.identifier (.ofToken (.ofWord "a")))) "*"
      (.integer ⟨.integer, "007"⟩ 7)
    e.WellFormed ∧ e.OperatorsOnly ∧ e.levels ≤ maxNesting ∧ e.text = "((-a) * 007)" ∧
      (parse e.text).1 = ⟨[.expression (Cursor.current e.written) e]⟩ ∧
      (parse e.text).2.diagnostics = [] ∧ (parse e.text).1.text = e.text := by
  intro e
  have ha : (Token.ofWord "a").Lexed :=
    .ofWord (rfl : (isWordStart 'a' && [].all isWordPart) = true)
  have hdigits : ∀ digit ∈ ['0', '7'], digit.isDigit = true :=
    List.all_eq_true.1 rfl
  have hseven : (⟨.integer, "007"⟩ : Token).Lexed := .integer (rfl : '0'.isDigit = true) hdigits
  have he : e.WellFormed :=
    ⟨⟨.symbol rfl rfl rfl, rfl⟩, rfl, ⟨.inr ⟨.symbol rfl rfl rfl, rfl⟩, rfl, ⟨ha, rfl⟩, rfl⟩,
      ⟨⟨hseven, rfl⟩, Numeral.read?_eq_some_iff.1 (by decide)⟩⟩
  have hlevels : e.levels ≤ maxNesting := by decide
  exact ⟨he, ⟨trivial, trivial⟩, hlevels, by decide, parse_text he ⟨trivial, trivial⟩ hlevels⟩

end ExprLang
