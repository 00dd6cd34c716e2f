import ExprLang.Proofs.JoinedText
import ExprLang.Proofs.PrintedProgram
import ExprLang.Tree.Render

namespace ExprLang

/-- The name, the numeral or the truth value that is read at a token. -/
inductive Expression.LeafAt (token : Token) : Expression → Prop
  | identifier (htoken : token.LexedAs .identifier) : LeafAt token (.identifier (.ofToken token))
  | integer {value : Int64} (htoken : token.LexedAs .integer)
      (hvalue : Numeral.Denotes token.literal value) : LeafAt token (.integer token value)
  | yes (htoken : token.LexedAs .trueWord) : LeafAt token (.boolean token true)
  | no (htoken : token.LexedAs .falseWord) : LeafAt token (.boolean token false)

/-- An expression of literals, names and operators with the tokens that are read off a text for
them. Any part of it may be absent. -/
inductive Expression.OperatorTree : Expression → Prop
  | absent : OperatorTree .absent
  | leaf {token : Token} {e : Expression} (hleaf : LeafAt token e) : OperatorTree e
  | unary {token : Token} {operand : Expression}
      (htoken : token.LexedAs .bang ∨ token.LexedAs .minus) (hoperand : OperatorTree operand) :
      OperatorTree (.unary token token.literal operand)
  | binary {token : Token} {left right : Expression} (htoken : token.Lexed)
      (hoperator : (Layer.ofOperator? token.kind).isSome) (hleft : OperatorTree left)
      (hright : OperatorTree right) : OperatorTree (.binary token left token.literal right)

variable {token other : Token} {e e' : Expression} {rest rest' : List Char} {p : Char → Bool}

theorem isWordPart_of_isWordStart {c : Char} (h : isWordStart c = true) : isWordPart c = true := by
  simp only [isWordStart, Bool.or_eq_true] at h
  simp only [isWordPart, Char.isAlphanum, Bool.or_eq_true]
  tauto

theorem isWordPart_of_isDigit {c : Char} (h : c.isDigit = true) : isWordPart c = true := by
  simp [isWordPart, Char.isAlphanum, h]

namespace Token

theorem Lexed.forall_isWordPart (h : token.Lexed)
    (hkind : token.kind.isWord = true ∨ token.kind = .integer) :
    ∀ c ∈ token.literal.toList, isWordPart c = true := by
  cases h with
  | word hc hcs => simpa [Token.ofWord, isWordPart_of_isWordStart hc] using hcs
  | @integer c cs hc hcs =>
    have hpart : ∀ d ∈ cs, isWordPart d = true := fun d hd =>
      isWordPart_of_isDigit (hcs d hd)
    simpa [isWordPart_of_isDigit hc] using hpart
  | equal | notEqual => simp [Kind.isWord] at hkind
  | symbol =>
    simp only [ofSymbol, Kind.ofSymbol] at hkind
    split at hkind <;> simp [Kind.isWord] at hkind

/-- The literal of a token tells its kind. -/
theorem Lexed.eq_of_literal_eq (h : token.Lexed) (h' : other.Lexed)
    (hliteral : token.literal = other.literal) : token = other := by
  have hends (kind : Kind) : kind.EndsAt [] := nofun
  obtain ⟨c, cs, hc, -, hsplit⟩ := h.split (hends _)
  obtain ⟨d, ds, hd, -, hsplit'⟩ := h'.split (hends _)
  rw [hliteral, hd] at hc
  cases hc
  rw [hsplit] at hsplit'
  exact (Prod.mk.inj hsplit').1

/-- Two tokens of characters of one class are the same if they begin one text and end where the
class does. -/
theorem Lexed.eq_of_append_eq (h : token.Lexed) (h' : other.Lexed)
    (hall : ∀ c ∈ token.literal.toList, p c = true) (hall' : ∀ c ∈ other.literal.toList, p c = true)
    (hrest : ∀ c ∈ rest.head?, p c = false) (hrest' : ∀ c ∈ rest'.head?, p c = false)
    (heq : token.literal.toList ++ rest = other.literal.toList ++ rest') :
    token = other ∧ rest = rest' := by
  have hspan := span_append_eq hall hrest
  have hspan' := span_append_eq hall' hrest'
  rw [heq] at hspan
  have hliteral := hspan.1.symm.trans hspan'.1
  exact ⟨h.eq_of_literal_eq h' (String.toList_inj.1 hliteral), hspan.2.symm.trans hspan'.2⟩

theorem Lexed.eq_of_append_space_eq (h : token.Lexed) (h' : other.Lexed)
    (heq : token.literal.toList ++ ' ' :: rest = other.literal.toList ++ ' ' :: rest') :
    token = other ∧ rest = rest' := by
  have hall {token : Token} (h : token.Lexed) :
      ∀ c ∈ token.literal.toList, (!isBlank c) = true := fun c hc => by
    rw [h.isBlank_eq_false c hc]
    rfl
  have hspace {rest : List Char} : ∀ c ∈ (' ' :: rest).head?, (!isBlank c) = false := by
    rintro c ⟨⟩
    rfl
  obtain ⟨htoken, hrests⟩ := h.eq_of_append_eq h' (hall h) (hall h') hspace hspace heq
  exact ⟨htoken, (List.cons.inj hrests).2⟩

/-- The operators that stand before their operand are signs of one character. -/
theorem exists_sign (h : token.LexedAs .bang ∨ token.LexedAs .minus) :
    token.Lexed ∧ ∃ c, (c = '!' ∨ c = '-') ∧ token.literal.toList = [c] := by
  rcases h with h | h
  · rw [h.lexed.eq_of_spelling? h.kind_eq rfl]
    exact ⟨Proper.lexed (.spelt rfl), '!', .inl rfl, rfl⟩
  · rw [h.lexed.eq_of_spelling? h.kind_eq rfl]
    exact ⟨Proper.lexed (.spelt rfl), '-', .inr rfl, rfl⟩

end Token

namespace Expression

/-- What two characters tell of the expression that a text begins with. -/
inductive Shape where
  | absent
  | leaf
  | unary
  | binary

def Shape.ofText : List Char → Shape
  | '(' :: c :: _ => if c = '!' ∨ c = '-' then unary else binary
  | c :: _ => if isWordPart c then leaf else absent
  | [] => absent

def shape : Expression → Shape
  | .absent => .absent
  | .unary .. => .unary
  | .binary .. => .binary
  | _ => .leaf

theorem LeafAt.text_eq (h : LeafAt token e) : e.text = token.literal := by
  cases h <;> rfl

theorem LeafAt.shape_eq (h : LeafAt token e) : e.shape = .leaf := by
  cases h <;> rfl

theorem LeafAt.lexed (h : LeafAt token e) : token.Lexed := by
  cases h with
  | identifier h | integer h | yes h | no h => exact h.lexed

theorem LeafAt.forall_isWordPart (h : LeafAt token e) :
    ∀ c ∈ token.literal.toList, isWordPart c = true := by
  apply h.lexed.forall_isWordPart
  cases h with
  | identifier h | yes h | no h =>
    rw [h.kind_eq]
    exact .inl rfl
  | integer h => exact .inr h.kind_eq

/-- A token is read as one leaf only. -/
theorem LeafAt.eq (h : LeafAt token e) (h' : LeafAt token e') : e = e' := by
  cases h with
  | identifier h =>
    cases h' with
    | identifier => rfl
    | integer h' | yes h' | no h' => cases h.kind_eq.symm.trans h'.kind_eq
  | integer h hvalue =>
    cases h' with
    | integer _ hvalue' =>
      rw [Int64.toInt_inj.1 (hvalue.value_eq.trans hvalue'.value_eq.symm)]
    | identifier h' | yes h' | no h' => cases h.kind_eq.symm.trans h'.kind_eq
  | yes h =>
    cases h' with
    | yes => rfl
    | identifier h' | integer h' | no h' => cases h.kind_eq.symm.trans h'.kind_eq
  | no h =>
    cases h' with
    | no => rfl
    | identifier h' | integer h' | yes h' => cases h.kind_eq.symm.trans h'.kind_eq

/-- What stands after an operand in the text of an expression, or after the whole text. -/
def Follows (rest : List Char) : Prop := ∀ c ∈ rest.head?, c = ' ' ∨ c = ')'

theorem follows_space (rest : List Char) : Follows (' ' :: rest) := by
  rintro c ⟨⟩
  exact .inl rfl

theorem follows_closing (rest : List Char) : Follows (')' :: rest) := by
  rintro c ⟨⟩
  exact .inr rfl

theorem Follows.isWordPart_eq_false (h : Follows rest) :
    ∀ c ∈ rest.head?, isWordPart c = false := by
  intro c hc
  rcases h c hc with rfl | rfl <;> rfl

theorem toList_text_unary {operator : String} : (unary token operator e).text.toList ++ rest =
    '(' :: (operator.toList ++ (e.text.toList ++ ')' :: rest)) := by
  simp [text]

theorem toList_text_binary {operator : String} : (binary token e operator e').text.toList ++ rest =
    '(' :: (e.text.toList ++ ' ' :: (operator.toList ++
      ' ' :: (e'.text.toList ++ ')' :: rest))) := by
  simp [text]

theorem LeafAt.exists_toList (h : LeafAt token e) :
    ∃ c cs, e.text.toList = c :: cs ∧ isWordPart c = true := by
  obtain ⟨c, cs, hliteral⟩ := List.exists_cons_of_ne_nil h.lexed.literal_ne_nil
  rw [h.text_eq, hliteral]
  exact ⟨c, cs, rfl, h.forall_isWordPart c (hliteral ▸ List.mem_cons_self)⟩

/-- The text of an operand does not begin with a sign. -/
theorem OperatorTree.not_sign (h : e.OperatorTree) :
    ∃ c cs, e.text.toList ++ ' ' :: rest = c :: cs ∧ ¬ (c = '!' ∨ c = '-') := by
  cases h with
  | absent => exact ⟨' ', rest, rfl, by decide⟩
  | leaf hleaf =>
    obtain ⟨c, cs, htext, hc⟩ := hleaf.exists_toList
    refine ⟨c, cs ++ ' ' :: rest, by rw [htext]; rfl, ?_⟩
    rintro (rfl | rfl) <;> cases hc
  | unary => exact ⟨'(', _, toList_text_unary, by decide⟩
  | binary => exact ⟨'(', _, toList_text_binary, by decide⟩

theorem OperatorTree.shape_ofText (h : e.OperatorTree) (hrest : Follows rest) :
    Shape.ofText (e.text.toList ++ rest) = e.shape := by
  cases h with
  | absent =>
    match rest, hrest with
    | [], _ => rfl
    | c :: rest, hrest => rcases hrest c rfl with rfl | rfl <;> rfl
  | leaf hleaf =>
    obtain ⟨c, cs, htext, hc⟩ := hleaf.exists_toList
    have hparenthesis : c ≠ '(' := by
      rintro rfl
      cases hc
    rw [htext, List.cons_append, hleaf.shape_eq]
    simp [Shape.ofText, hparenthesis, hc]
  | unary htoken =>
    obtain ⟨-, c, hc, hliteral⟩ := Token.exists_sign htoken
    rw [toList_text_unary, hliteral]
    exact if_pos hc
  | binary _ _ hleft =>
    rw [toList_text_binary]
    obtain ⟨c, cs, htext, hc⟩ := hleft.not_sign
    rw [htext]
    exact if_neg hc

theorem shape_eq_of_append_eq (h : e.OperatorTree) (h' : e'.OperatorTree) (hrest : Follows rest)
    (hrest' : Follows rest') (heq : e.text.toList ++ rest = e'.text.toList ++ rest') :
    e.shape = e'.shape := by
  rw [← h.shape_ofText hrest, heq, h'.shape_ofText hrest']

/-- The text of an operator expression tells the expression, and where it ends in a longer text. -/
theorem OperatorTree.eq_of_append_eq (h : e.OperatorTree) (h' : e'.OperatorTree)
    (hrest : Follows rest) (hrest' : Follows rest')
    (heq : e.text.toList ++ rest = e'.text.toList ++ rest') : e = e' ∧ rest = rest' := by
  induction h generalizing e' rest rest' with
  | absent =>
    have hshape := shape_eq_of_append_eq .absent h' hrest hrest' heq
    cases h' with
    | absent => exact ⟨rfl, heq⟩
    | leaf hleaf => rw [hleaf.shape_eq] at hshape; cases hshape
    | unary | binary => cases hshape
  | leaf hleaf =>
    have hshape := shape_eq_of_append_eq (.leaf hleaf) h' hrest hrest' heq
    rw [hleaf.shape_eq] at hshape
    cases h' with
    | leaf hleaf' =>
      rw [hleaf.text_eq, hleaf'.text_eq] at heq
      obtain ⟨rfl, hrests⟩ := hleaf.lexed.eq_of_append_eq hleaf'.lexed hleaf.forall_isWordPart
        hleaf'.forall_isWordPart hrest.isWordPart_eq_false hrest'.isWordPart_eq_false heq
      exact ⟨hleaf.eq hleaf', hrests⟩
    | absent | unary | binary => cases hshape
  | @unary token operand htoken hoperand ih =>
    have hshape := shape_eq_of_append_eq (.unary htoken hoperand) h' hrest hrest' heq
    cases h' with
    | @unary token' operand' htoken' hoperand' =>
      obtain ⟨hlexed, c, -, hc⟩ := Token.exists_sign htoken
      obtain ⟨hlexed', c', -, hc'⟩ := Token.exists_sign htoken'
      rw [toList_text_unary, toList_text_unary, hc, hc', List.singleton_append,
        List.singleton_append] at heq
      obtain ⟨rfl, hoperands⟩ := List.cons.inj (List.cons.inj heq).2
      obtain ⟨rfl, hrests⟩ := ih hoperand' (follows_closing rest) (follows_closing rest') hoperands
      obtain rfl := hlexed.eq_of_literal_eq hlexed' (String.toList_inj.1 (hc.trans hc'.symm))
      exact ⟨rfl, (List.cons.inj hrests).2⟩
    | leaf hleaf => rw [hleaf.shape_eq] at hshape; cases hshape
    | absent | binary => cases hshape
  | @binary token left right htoken hoperator hleft hright ihleft ihright =>
    have hshape :=
      shape_eq_of_append_eq (.binary htoken hoperator hleft hright) h' hrest hrest' heq
    cases h' with
    | @binary token' left' right' htoken' _ hleft' hright' =>
      rw [toList_text_binary, toList_text_binary] at heq
      obtain ⟨rfl, hoperators⟩ :=
        ihleft hleft' (follows_space _) (follows_space _) (List.cons.inj heq).2
      obtain ⟨rfl, hrights⟩ :=
        htoken.eq_of_append_space_eq htoken' (List.cons.inj hoperators).2
      obtain ⟨rfl, hrests⟩ :=
        ihright hright' (follows_closing rest) (follows_closing rest') hrights
      exact ⟨rfl, (List.cons.inj hrests).2⟩
    | leaf hleaf => rw [hleaf.shape_eq] at hshape; cases hshape
    | absent | unary => cases hshape

/-- Two operator expressions with the same text are the same, whatever is absent from them and
however deep they nest. -/
theorem OperatorTree.text_eq_iff (h : e.OperatorTree) (h' : e'.OperatorTree) :
    e.text = e'.text ↔ e = e' := by
  constructor
  · intro heq
    have hnone : Follows [] := nofun
    have happend : e.text.toList ++ [] = e'.text.toList ++ [] := by rw [heq]
    exact (h.eq_of_append_eq h' hnone hnone happend).1
  · rintro rfl
    rfl

/-- A sign before its operand, against an operator whose left operand is absent. -/
theorem OperatorTree.text_eq_iff_sign :
    let name : Expression := .identifier (.ofToken (.ofWord "a"))
    let negation : Expression := .unary (.ofSymbol '-') "-" name
    let difference : Expression := .binary (.ofSymbol '-') .absent "-" name
    negation.OperatorTree ∧ difference.OperatorTree ∧
      negation.text = "(-a)" ∧ difference.text = "( - a)" ∧
      (negation.text = difference.text ↔ negation = difference) := by
  intro name negation difference
  have ha : (Token.ofWord "a").Lexed :=
    .ofWord (rfl : (isWordStart 'a' && [].all isWordPart) = true)
  have hminus : (Token.ofSymbol '-').Lexed := .symbol rfl rfl rfl
  have hname : name.OperatorTree := .leaf (.identifier ⟨ha, rfl⟩)
  have hnegation : negation.OperatorTree := .unary (.inr ⟨hminus, rfl⟩) hname
  have hdifference : difference.OperatorTree := .binary hminus rfl .absent hname
  exact ⟨hnegation, hdifference, by decide, by decide, hnegation.text_eq_iff hdifference⟩

end Expression

end ExprLang
