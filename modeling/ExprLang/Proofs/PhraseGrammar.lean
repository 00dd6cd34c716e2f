import ExprLang.Proofs.CleanRun
import ExprLang.Proofs.DecimalNumeral
import ExprLang.Proofs.OperatorLayer

namespace ExprLang

/-- The names of a function's parameters, with commas between them and a parenthesis at the end. -/
inductive Names : Cursor → List Identifier → Cursor → Prop
  | last {name closing : Token} {rest : Cursor} (hname : name.kind = .identifier)
      (hclosing : closing.kind = .rParen) :
      Names (name :: closing :: rest) [.ofToken name] rest
  | more {name comma : Token} {names : List Identifier} {c rest : Cursor}
      (hname : name.kind = .identifier) (hcomma : comma.kind = .comma)
      (hnames : Names c names rest) :
      Names (name :: comma :: c) (.ofToken name :: names) rest

/-- What stands after the opening parenthesis of a function's parameters, up to the closing one. -/
inductive Parameters : Cursor → List Identifier → Cursor → Prop
  | none {closing : Token} {rest : Cursor} (hclosing : closing.kind = .rParen) :
      Parameters (closing :: rest) [] rest
  | some {names : List Identifier} {c rest : Cursor} (hnames : Names c names rest) :
      Parameters c names rest

/-- A piece of a program as the grammar sees it. -/
inductive Phrase where
  | expression (layer : Layer) (tree : Expression)
  | statement (tree : Statement)
  | body (trees : List Statement)
  | block (tree : Block)

/-- `Derives phrase c rest levels`: the phrase can be written as the tokens of `c` before `rest`,
with `levels` expressions open at once. A value that a binding or a result passes over is written
as any tokens that the statement can pass over, and the end of the input closes every block. -/
inductive Derives : Phrase → Cursor → Cursor → Nat → Prop
  | identifier {name : Token} {rest : Cursor} (hname : name.kind = .identifier) :
      Derives (.expression .primary (.identifier (.ofToken name))) (name :: rest) rest 1
  | integer {numeral : Token} {value : Int64} {rest : Cursor} (hnumeral : numeral.kind = .integer)
      (hvalue : Numeral.Denotes numeral.literal value) :
      Derives (.expression .primary (.integer numeral value)) (numeral :: rest) rest 1
  | yes {word : Token} {rest : Cursor} (hword : word.kind = .trueWord) :
      Derives (.expression .primary (.boolean word true)) (word :: rest) rest 1
  | no {word : Token} {rest : Cursor} (hword : word.kind = .falseWord) :
      Derives (.expression .primary (.boolean word false)) (word :: rest) rest 1
  | group {opening closing : Token} {e : Expression} {c rest : Cursor} {n : Nat}
      (hopening : opening.kind = .lParen)
      (he : Derives (.expression .equality e) c (closing :: rest) n)
      (hclosing : closing.kind = .rParen) :
      Derives (.expression .primary e) (opening :: c) rest (n + 1)
  | conditional {word opening closing : Token} {e : Expression} {b : Block} {c d rest : Cursor}
      {m n : Nat} (hword : word.kind = .ifWord) (hopening : opening.kind = .lParen)
      (he : Derives (.expression .equality e) c (closing :: d) m)
      (hclosing : closing.kind = .rParen) (hb : Derives (.block b) d rest n)
      (hrest : rest.current.kind ≠ .elseWord) :
      Derives (.expression .primary (.conditional word e b none)) (word :: opening :: c) rest
        (max m n + 1)
  | alternative {word opening closing other : Token} {e : Expression} {b b' : Block}
      {c d d' rest : Cursor} {m n n' : Nat} (hword : word.kind = .ifWord)
      (hopening : opening.kind = .lParen)
      (he : Derives (.expression .equality e) c (closing :: d) m)
      (hclosing : closing.kind = .rParen) (hb : Derives (.block b) d (other :: d') n)
      (hother : other.kind = .elseWord) (hb' : Derives (.block b') d' rest n') :
      Derives (.expression .primary (.conditional word e b (some b'))) (word :: opening :: c) rest
        (max m (max n n') + 1)
  | function {word opening : Token} {names : List Identifier} {b : Block} {c d rest : Cursor}
      {n : Nat} (hword : word.kind = .fnWord) (hopening : opening.kind = .lParen)
      (hnames : Parameters c names d) (hb : Derives (.block b) d rest n) :
      Derives (.expression .primary (.function word names b)) (word :: opening :: c) rest (n + 1)
  | unary {operator : Token} {e : Expression} {c rest : Cursor} {n : Nat}
      (hoperator : operator.kind = .bang ∨ operator.kind = .minus)
      (he : Derives (.expression .unary e) c rest n) :
      Derives (.expression .unary (.unary operator operator.literal e)) (operator :: c) rest (n + 1)
  | binary {l : Layer} {operator : Token} {left right : Expression} {c d rest : Cursor} {m n : Nat}
      (hoperator : Layer.ofOperator? operator.kind = some l)
      (hleft : Derives (.expression l left) c (operator :: d) m)
      (hright : Derives (.expression l.tighter right) d rest n) :
      Derives (.expression l (.binary operator left operator.literal right)) c rest (max m (n + 1))
  | loosen {l : Layer} {e : Expression} {c rest : Cursor} {n : Nat}
      (he : Derives (.expression l.tighter e) c rest n) : Derives (.expression l e) c rest n
  | binding {word name assign : Token} {skipped rest : Cursor} (hword : word.kind = .letWord)
      (hname : name.kind = .identifier) (hassign : assign.kind = .assign)
      (hskipped : ∀ token ∈ skipped, token.kind ≠ .semicolon ∧ token.kind ≠ .endOfInput)
      (hrest : rest.current.kind = .semicolon ∨ rest.current.kind = .endOfInput) :
      Derives (.statement (.binding word (.ofToken name) .absent))
        (word :: name :: assign :: (skipped ++ rest)) rest.tail 0
  | result {word : Token} {rest : Cursor} (hword : word.kind = .returnWord)
      (hrest : rest.current.kind = .semicolon) :
      Derives (.statement (.result word .absent)) (word :: rest) rest.tail 0
  | resultValue {word : Token} {rest : Cursor} (hword : word.kind = .returnWord)
      (hrest : rest.current.kind ≠ .semicolon) :
      Derives (.statement (.result word .absent)) (word :: rest) rest.tail.tail 0
  | terminated {semicolon : Token} {e : Expression} {c rest : Cursor} {n : Nat}
      (he : Derives (.expression .equality e) c (semicolon :: rest) n)
      (hsemicolon : semicolon.kind = .semicolon) :
      Derives (.statement (.expression c.current e)) c rest n
  | unterminated {e : Expression} {c rest : Cursor} {n : Nat}
      (he : Derives (.expression .equality e) c rest n)
      (hsemicolon : rest.current.kind ≠ .semicolon)
      (hoperator : Layer.ofOperator? rest.current.kind = none) :
      Derives (.statement (.expression c.current e)) c rest n
  | nil {rest : Cursor} : Derives (.body []) rest rest 0
  | cons {s : Statement} {body : List Statement} {c d rest : Cursor} {m n : Nat}
      (hs : Derives (.statement s) c d m) (hbody : Derives (.body body) d rest n) :
      Derives (.body (s :: body)) c rest (max m n)
  | block {opening : Token} {body : List Statement} {c rest : Cursor} {n : Nat}
      (hopening : opening.kind = .lBrace) (hbody : Derives (.body body) c rest n)
      (hrest : rest.current.kind = .rBrace ∨ rest.current.kind = .endOfInput) :
      Derives (.block (.mk opening body)) (opening :: c) rest.tail n

/-- An expression of a layer is one of every looser layer. -/
theorem Derives.loosen_of_le {k l : Layer} {e : Expression} {c rest : Cursor} {n : Nat}
    (hle : k ≤ l) (h : Derives (.expression l e) c rest n) :
    Derives (.expression k e) c rest n := by
  by_cases heq : k = l
  · exact heq ▸ h
  · have hlt : k.rank < l.rank := by
      cases k <;> cases l <;> first | decide | exact absurd rfl heq | exact absurd hle (by decide)
    have htighter : k.tighter.rank = k.rank + 1 := by
      cases k <;> first | rfl | exact absurd hlt (by cases l <;> decide)
    have hle' : k.tighter ≤ l := Nat.le_trans (Nat.le_of_eq htighter) hlt
    exact .loosen (h.loosen_of_le hle')
termination_by l.rank - k.rank

theorem Names.suffix {c rest : Cursor} {ids : List Identifier} (h : Names c ids rest) :
    rest <:+ c := by
  induction h with
  | last => exact (List.suffix_cons _ _).trans (List.suffix_cons _ _)
  | more _ _ _ ih => exact ih.trans ((List.suffix_cons _ _).trans (List.suffix_cons _ _))

theorem Parameters.suffix {c rest : Cursor} {ids : List Identifier} (h : Parameters c ids rest) :
    rest <:+ c := by
  cases h with
  | none => exact List.suffix_cons _ _
  | some hnames => exact hnames.suffix

/-- A phrase is written at the front of its cursor. -/
theorem Derives.suffix {phrase : Phrase} {c rest : Cursor} {n : Nat}
    (h : Derives phrase c rest n) : rest <:+ c := by
  have hcons {token : Token} {c rest : Cursor} (h : rest <:+ c) : rest <:+ token :: c :=
    h.trans (List.suffix_cons token c)
  have htail {token : Token} {c rest : Cursor} (h : token :: rest <:+ c) : rest <:+ c :=
    (List.suffix_cons token rest).trans h
  induction h with
  | identifier | integer | yes | no => exact List.suffix_cons _ _
  | group _ _ _ ih => exact hcons (htail ih)
  | conditional _ _ _ _ _ _ ih ihb => exact hcons (hcons (ihb.trans (htail ih)))
  | alternative _ _ _ _ _ _ _ ih ihb ihb' =>
    exact hcons (hcons (ihb'.trans ((htail ihb).trans (htail ih))))
  | function _ _ hnames _ ihb => exact hcons (hcons (ihb.trans hnames.suffix))
  | unary _ _ ih => exact hcons ih
  | binary _ _ _ ihleft ihright => exact ihright.trans (htail ihleft)
  | loosen _ ih => exact ih
  | binding =>
    exact hcons (hcons (hcons ((List.tail_suffix _).trans (List.suffix_append _ _))))
  | result => exact hcons (List.tail_suffix _)
  | resultValue => exact hcons ((List.tail_suffix _).trans (List.tail_suffix _))
  | terminated _ _ ih => exact htail ih
  | unterminated _ _ _ ih => exact ih
  | nil => exact List.suffix_rfl
  | cons _ _ ihs ihbody => exact ihbody.trans ihs
  | block _ _ _ ih => exact hcons ((List.tail_suffix _).trans ih)

end ExprLang
