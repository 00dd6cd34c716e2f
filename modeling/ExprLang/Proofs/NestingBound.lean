import ExprLang.Tree.Equality
import ExprLang.Proofs.BuiltTree

namespace ExprLang

open Parse

mutual

/-- How deeply an expression is nested. Joining two expressions puts the right one a level deeper
and leaves the left one where it is. -/
def Expression.nest : Expression → Nat
  | .absent => 0
  | .identifier _ | .integer _ _ | .boolean _ _ => 1
  | .unary _ _ operand => 1 + operand.nest
  | .binary _ left _ right => max left.nest (1 + right.nest)
  | .conditional _ condition consequence alternative =>
    1 + max condition.nest (max consequence.nest (Block.alternativeNest alternative))
  | .function _ _ body => 1 + body.nest

def Statement.nest : Statement → Nat
  | .binding .. | .result .. => 0
  | .expression _ value => value.nest
  | .block body => body.nest

def Block.nest : Block → Nat
  | .mk _ statements => Statement.greatestNest statements

def Block.alternativeNest : Option Block → Nat
  | none => 0
  | some block => block.nest

def Statement.greatestNest : List Statement → Nat
  | [] => 0
  | statement :: statements => max statement.nest (Statement.greatestNest statements)

end

def Node.nest : Node → Nat
  | .expression tree => tree.nest
  | .statement _ tree => tree.nest
  | .block tree => tree.nest

variable {known : Token → Prop} {n : Nat} {node : Node}

theorem Statement.greatestNest_le {statements : List Statement}
    (h : ∀ statement ∈ statements, statement.nest ≤ n) : greatestNest statements ≤ n := by
  induction statements with
  | nil => exact Nat.zero_le n
  | cons statement statements ih =>
    rw [List.forall_mem_cons] at h
    exact Nat.max_le.2 ⟨h.1, ih h.2⟩

theorem Block.alternativeNest_le {alternative : Option Block}
    (h : ∀ block ∈ alternative, block.nest ≤ n) : alternativeNest alternative ≤ n := by
  cases alternative with
  | none => exact Nat.zero_le n
  | some block => exact h block rfl

/-- Each level of a tree needs one more expression open than the level above it. -/
theorem Node.Built.nest_le (h : node.Built known n) : node.nest ≤ n := by
  have hlevel {k m n : Nat} (hk : k ≤ m) (hm : m < n) : 1 + k ≤ n :=
    Nat.add_comm k 1 ▸ Nat.lt_of_le_of_lt hk hm
  induction h with
  | absent => exact Nat.zero_le _
  | identifier _ hn => exact hn
  | integer _ _ _ hn => exact hn
  | boolean _ _ hn => exact hn
  | unary _ _ _ hm ih => exact hlevel ih hm
  | binary _ _ _ _ hm ihleft ihright => exact Nat.max_le.2 ⟨ihleft, hlevel ihright hm⟩
  | conditional _ _ _ _ _ hm ihcondition ihconsequence ihalternative =>
    have halternative := Block.alternativeNest_le ihalternative
    exact hlevel (Nat.max_le.2 ⟨ihcondition, Nat.max_le.2 ⟨ihconsequence, halternative⟩⟩) hm
  | function _ _ _ _ hm ih => exact hlevel ih hm
  | binding => exact Nat.zero_le _
  | result => exact Nat.zero_le _
  | statement _ _ ih => exact ih
  | block _ _ _ ih => exact Statement.greatestNest_le ih

theorem Parser.nest_expression_le {parser : Parser} (h : parser.grammar = .standard)
    (floor : Precedence) : (parser.expression floor).1.nest ≤ maxNesting - parser.depth := by
  have hbuilds := Reader.builds_ofLevels (fun _ => True) (maxNesting - parser.depth)
  rw [← h] at hbuilds
  exact (hbuilds floor parser.cursor fun _ _ => trivial).nest_le

/-- Of operators that each stand before the next, as many are read as there are levels. -/
theorem Reader.read_replicate (levels : Nat) (floor : Precedence) :
    ((ofLevels .standard levels).read floor
        (List.replicate levels (.ofSymbol '!'))).value.nest = levels ∧
      ((ofLevels .standard levels).read floor
        (List.replicate levels (.ofSymbol '!'))).cursor = [] := by
  induction levels generalizing floor with
  | zero => exact ⟨rfl, rfl⟩
  | succ levels ih =>
    obtain ⟨hnest, hcursor⟩ := ih .unary
    -- nothing is left after the operand, and so no operator joins what was read to more
    have hclimb (left : Expression) :
        climb .standard (ofLevels .standard levels) floor left [] = ⟨left, [], []⟩ := by
      rw [climb_eq, peek_bind, if_neg]
      · rfl
      · exact fun hjoins => Grammar.ne_endOfInput_of_joins hjoins rfl
    have hread : (ofLevels .standard (levels + 1)).read floor
        (List.replicate (levels + 1) (.ofSymbol '!')) =
        (unary (ofLevels .standard levels) >>= climb .standard (ofLevels .standard levels) floor)
          (List.replicate (levels + 1) (.ofSymbol '!')) := rfl
    have hunary : (unary (ofLevels .standard levels)
        (List.replicate (levels + 1) (.ofSymbol '!'))).cursor = [] := hcursor
    rw [hread, value_bind, cursor_bind, hunary, hclimb]
    exact ⟨(congrArg (1 + ·) hnest).trans (Nat.add_comm 1 levels), rfl⟩

theorem Parser.exists_nest_expression_eq (depth : Nat) : ∃ parser : Parser,
    parser.grammar = .standard ∧ parser.depth = depth ∧
      (parser.expression .lowest).1.nest = maxNesting - depth :=
  ⟨⟨.standard, depth, List.replicate (maxNesting - depth) (.ofSymbol '!'), []⟩, rfl, rfl,
    (Reader.read_replicate (maxNesting - depth) .lowest).1⟩

/-- With errors or without, no expression of a program is nested more deeply than expressions may be
open at once, and none that is read inside others more deeply than they leave room for. That much
can be reached. -/
theorem nest_le_maxNesting (source : String) :
    (∀ token value, .expression token value ∈ (parse source).1.statements →
      value.nest ≤ maxNesting) ∧
    (∀ (parser : Parser) (floor : Precedence), parser.grammar = .standard →
      (parser.expression floor).1.nest ≤ maxNesting - parser.depth) ∧
    ∀ depth, ∃ parser : Parser, parser.grammar = .standard ∧ parser.depth = depth ∧
      (parser.expression .lowest).1.nest = maxNesting - depth := by
  have hprogram (token : Token) (value : Expression)
      (hmem : .expression token value ∈ (parse source).1.statements) : value.nest ≤ maxNesting := by
    have hbuilds := Reader.builds_ofLevels (fun _ => True) maxNesting
    have hbuilt := built_statements hbuilds .endOfInput (fun _ _ => trivial) _ hmem
    exact hbuilt.nest_le
  have hparser (parser : Parser) (floor : Precedence) (h : parser.grammar = .standard) :=
    parser.nest_expression_le h floor
  exact ⟨hprogram, hparser, Parser.exists_nest_expression_eq⟩

/-- Where two more expressions may be opened, the operand of the second operator is not read, and
the bound is reached. -/
theorem nest_le_maxNesting_last_level :
    let read : Expression := .unary (.ofSymbol '!') "!" (.unary (.ofSymbol '-') "-" .absent)
    let parser : Parser := { Parser.ofString "!-x" with depth := maxNesting - 2 }
    Statement.expression (.ofSymbol '!') read ∈ (parse "!-").1.statements ∧
      read.nest ≤ maxNesting ∧ parser.grammar = .standard ∧
      (parser.expression .lowest).1 = read ∧ read.nest = 2 ∧
      read.nest ≤ maxNesting - parser.depth := by
  intro read parser
  have hmem : Statement.expression (.ofSymbol '!') read ∈ (parse "!-").1.statements := by
    decide +kernel
  have hread : (parser.expression .lowest).1 = read := by decide +kernel
  have hbound := nest_le_maxNesting "!-"
  exact ⟨hmem, hbound.1 _ _ hmem, rfl, hread, rfl, hread ▸ hbound.2.1 parser .lowest rfl⟩

/-- A chain of operators is as deep as one of them. -/
example : (parse "1 - 2 - 3 - 4; 1 - (2 - 3)").1.statements.map Statement.nest = [2, 3] := by
  decide +kernel

end ExprLang
