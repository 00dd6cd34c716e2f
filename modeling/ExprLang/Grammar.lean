import ExprLang.Token

namespace ExprLang

/-- How tightly an operator binds, the weakest first. -/
inductive Precedence where
  | lowest
  | equality
  | comparison
  | sum
  | product
  | unary
  | call
deriving DecidableEq, Inhabited, Repr

namespace Precedence

def rank : Precedence → Nat
  | lowest => 0
  | equality => 1
  | comparison => 2
  | sum => 3
  | product => 4
  | unary => 5
  | call => 6

instance : LT Precedence := ⟨fun p q => p.rank < q.rank⟩
instance : LE Precedence := ⟨fun p q => p.rank ≤ q.rank⟩
instance : Ord Precedence := ⟨fun p q => compare p.rank q.rank⟩

instance (p q : Precedence) : Decidable (p < q) := inferInstanceAs (Decidable (p.rank < q.rank))
instance (p q : Precedence) : Decidable (p ≤ q) := inferInstanceAs (Decidable (p.rank ≤ q.rank))

/-- The binary operators of the language. -/
def standard? : Kind → Option Precedence
  | .equal | .notEqual => some equality
  | .lessThan | .greaterThan => some comparison
  | .plus | .minus => some sum
  | .asterisk | .slash => some product
  | _ => none

end Precedence

/-- The ways in which an expression can begin. -/
inductive Form where
  | identifier
  | integer
  | boolean
  | unary
  | group
  | conditional
  | function
deriving DecidableEq, Inhabited, Repr

/-- The tokens that begin an expression of the language. -/
def Form.standard? : Kind → Option Form
  | .identifier => some identifier
  | .integer => some integer
  | .trueWord | .falseWord => some boolean
  | .bang | .minus => some unary
  | .lParen => some group
  | .ifWord => some conditional
  | .fnWord => some function
  | _ => none

/-- Which tokens begin an expression, and which join two. The end of the input never joins, so
that every operator read is a token passed. -/
structure Grammar where
  form? : Kind → Option Form
  operator? : Kind → Option Precedence
  operator_endOfInput : operator? .endOfInput = none

namespace Grammar

def standard : Grammar := ⟨Form.standard?, Precedence.standard?, rfl⟩

instance : Inhabited Grammar := ⟨standard⟩

/-- How tightly a token binds as an operator; a token that is none binds weakest. -/
def precedence (grammar : Grammar) (kind : Kind) : Precedence :=
  (grammar.operator? kind).getD .lowest

theorem precedence_endOfInput (grammar : Grammar) : grammar.precedence .endOfInput = .lowest := by
  rw [precedence, grammar.operator_endOfInput]
  rfl

/-- Whether an operator goes on with an expression that binds tighter than `floor`. A semicolon
ends every expression. -/
def joins (grammar : Grammar) (floor : Precedence) (kind : Kind) : Bool :=
  kind != .semicolon && floor < grammar.precedence kind

theorem ne_endOfInput_of_joins {grammar : Grammar} {floor : Precedence} {kind : Kind}
    (h : grammar.joins floor kind = true) : kind ≠ .endOfInput := by
  rintro rfl
  simp only [joins, precedence_endOfInput, Bool.and_eq_true, decide_eq_true_eq] at h
  exact Nat.not_lt_zero _ h.2

def setForm (grammar : Grammar) (kind : Kind) (form : Form) : Grammar :=
  { grammar with form? := fun k => if k = kind then some form else grammar.form? k }

/-- Makes a token an operator. The end of the input stays what it is. -/
def setOperator (grammar : Grammar) (kind : Kind) (precedence : Precedence) : Grammar where
  form? := grammar.form?
  operator? k := if k = kind ∧ k ≠ .endOfInput then some precedence else grammar.operator? k
  operator_endOfInput := by simp [grammar.operator_endOfInput]

/-- Gives the tokens of the standard grammar their standard places and leaves all others. -/
def restoreStandard (grammar : Grammar) : Grammar where
  form? k := (Form.standard? k).or (grammar.form? k)
  operator? k := (Precedence.standard? k).or (grammar.operator? k)
  operator_endOfInput := by simp [Precedence.standard?, grammar.operator_endOfInput]

end Grammar

end ExprLang
