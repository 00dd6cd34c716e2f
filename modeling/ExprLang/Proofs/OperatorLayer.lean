import ExprLang.Grammar
import ExprLang.Numeral
import ExprLang.Tree

namespace ExprLang

/-- The layers of the expression grammar, the loosest first. -/
inductive Layer where
  | equality
  | comparison
  | sum
  | product
  | unary
  | primary
deriving DecidableEq, Repr

namespace Layer

variable {k l : Layer} {kind : Kind} {floor : Precedence}

def rank : Layer → Nat
  | equality => 0
  | comparison => 1
  | sum => 2
  | product => 3
  | unary => 4
  | primary => 5

instance : LE Layer := ⟨fun k l => k.rank ≤ l.rank⟩

instance (k l : Layer) : Decidable (k ≤ l) := inferInstanceAs (Decidable (k.rank ≤ l.rank))

theorem le_refl (l : Layer) : l ≤ l := Nat.le_refl _

theorem le_trans {j k l : Layer} (h : j ≤ k) (h' : k ≤ l) : j ≤ l := Nat.le_trans h h'

theorem equality_le (l : Layer) : equality ≤ l := Nat.zero_le _

/-- The layer of the right operands of this layer's operators. -/
def tighter : Layer → Layer
  | equality => comparison
  | comparison => sum
  | sum => product
  | product => unary
  | unary | primary => primary

theorem le_tighter (l : Layer) : l ≤ l.tighter := by
  cases l <;> decide

theorem le_primary (l : Layer) : l ≤ primary := by
  cases l <;> decide

theorem le_of_not_tighter_le (h : ¬ k.tighter ≤ l) : l ≤ k := by
  cases k <;> cases l <;> first | decide | exact absurd (by decide) h

/-- The layer that a binary operator belongs to. -/
def ofOperator? : Kind → Option Layer
  | .equal | .notEqual => some equality
  | .lessThan | .greaterThan => some comparison
  | .plus | .minus => some sum
  | .asterisk | .slash => some product
  | _ => none

/-- A token after a phrase of this layer does not go on with the phrase. -/
def EndsBefore (l : Layer) (kind : Kind) : Prop := ∀ k, ofOperator? kind = some k → k ≤ l

/-- The loosest layer whose expressions bind tighter than a floor. -/
def above : Precedence → Layer
  | .lowest => equality
  | .equality => comparison
  | .comparison => sum
  | .sum => product
  | .product | .unary | .call => unary

theorem EndsBefore.of_le (h : k.EndsBefore kind) (hle : k ≤ l) : l.EndsBefore kind :=
  fun j hj => le_trans (h j hj) hle

theorem endsBefore_product (kind : Kind) : product.EndsBefore kind := by
  intro k hk
  cases kind <;> cases hk <;> decide

theorem endsBefore_of_ofOperator? (h : ofOperator? kind = some l) : l.EndsBefore kind := by
  intro k hk
  rw [h] at hk
  cases hk
  exact le_refl l

theorem endsBefore_of_eq_none (h : ofOperator? kind = none) : l.EndsBefore kind := by
  intro k hk
  rw [h] at hk
  cases hk

theorem not_tighter_le_of_ofOperator? (h : ofOperator? kind = some l) : ¬ l.tighter ≤ l := by
  cases kind <;> cases h <;> decide

theorem above_precedence_of_ofOperator? (h : ofOperator? kind = some l) :
    above (Grammar.standard.precedence kind) = l.tighter := by
  cases kind <;> cases h <;> rfl

theorem joins_of_le (h : ofOperator? kind = some l) (hle : above floor ≤ l) :
    Grammar.standard.joins floor kind = true := by
  cases kind <;> cases h <;> cases floor <;> first | rfl | exact absurd hle (by decide)

/-- A token that does not join a right operand does not go on with its operator's layer. -/
theorem endsBefore_of_joins {next : Kind} (h : ofOperator? kind = some l)
    (hnext : Grammar.standard.joins (Grammar.standard.precedence kind) next = false) :
    l.EndsBefore next := by
  intro k hk
  apply le_of_not_tighter_le
  rw [← above_precedence_of_ofOperator? h]
  intro hle
  rw [joins_of_le hk hle] at hnext
  cases hnext

theorem exists_of_joins (h : Grammar.standard.joins floor kind = true) :
    ∃ l, ofOperator? kind = some l ∧ above floor ≤ l := by
  cases kind <;> first
    | exact ⟨_, rfl, by cases floor <;> first | decide | cases h⟩
    | exact absurd h (by cases floor <;> decide)

theorem joins_eq_false_of_endsBefore (h : l.EndsBefore kind) (hlt : ¬ above floor ≤ l) :
    Grammar.standard.joins floor kind = false := by
  cases hjoins : Grammar.standard.joins floor kind with
  | false => rfl
  | true =>
    obtain ⟨k, hk, hle⟩ := exists_of_joins hjoins
    exact absurd (le_trans hle (h k hk)) hlt

theorem joins_eq_false_of_eq_none (h : ofOperator? kind = none) :
    Grammar.standard.joins floor kind = false := by
  cases hjoins : Grammar.standard.joins floor kind with
  | false => rfl
  | true =>
    obtain ⟨k, hk, -⟩ := exists_of_joins hjoins
    rw [h] at hk
    cases hk

theorem ofOperator?_eq_none_of_joins (h : Grammar.standard.joins .lowest kind = false) :
    ofOperator? kind = none := by
  cases hl : ofOperator? kind with
  | none => rfl
  | some l =>
    have hjoins : Grammar.standard.joins .lowest kind = true := joins_of_le hl l.equality_le
    rw [h] at hjoins
    cases hjoins

end Layer

end ExprLang
