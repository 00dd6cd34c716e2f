import ExprLang.Tree

namespace ExprLang

mutual

/-- Whether two expressions agree in every field, tokens included. -/
def Expression.agrees : Expression → Expression → Bool
  | .absent, .absent => true
  | .identifier id, .identifier id' => id == id'
  | .integer token value, .integer token' value' => token == token' && value == value'
  | .boolean token value, .boolean token' value' => token == token' && value == value'
  | .unary token operator operand, .unary token' operator' operand' =>
    token == token' && operator == operator' && operand.agrees operand'
  | .binary token left operator right, .binary token' left' operator' right' =>
    token == token' && left.agrees left' && operator == operator' && right.agrees right'
  | .conditional token condition consequence alternative,
      .conditional token' condition' consequence' alternative' =>
    token == token' && condition.agrees condition' && consequence.agrees consequence' &&
      Block.agreeOption alternative alternative'
  | .function token parameters body, .function token' parameters' body' =>
    token == token' && parameters == parameters' && body.agrees body'
  | _, _ => false

def Statement.agrees : Statement → Statement → Bool
  | .binding token name value, .binding token' name' value' =>
    token == token' && name == name' && value.agrees value'
  | .result token value, .result token' value' => token == token' && value.agrees value'
  | .expression token value, .expression token' value' => token == token' && value.agrees value'
  | .block body, .block body' => body.agrees body'
  | _, _ => false

def Block.agrees : Block → Block → Bool
  | .mk token statements, .mk token' statements' =>
    token == token' && Statement.agreeList statements statements'

def Block.agreeOption : Option Block → Option Block → Bool
  | none, none => true
  | some block, some block' => block.agrees block'
  | _, _ => false

def Statement.agreeList : List Statement → List Statement → Bool
  | [], [] => true
  | statement :: statements, statement' :: statements' =>
    statement.agrees statement' && Statement.agreeList statements statements'
  | _, _ => false

end

mutual

theorem Expression.agrees_iff (e e' : Expression) : e.agrees e' = true ↔ e = e' := by
  cases e <;> cases e' <;> simp [Expression.agrees, and_assoc]
  case unary.unary operand _ _ operand' =>
    simp [Expression.agrees_iff operand operand']
  case binary.binary left _ right _ left' _ right' =>
    simp [Expression.agrees_iff left left', Expression.agrees_iff right right']
  case conditional.conditional condition block alternative _ condition' block' alternative' =>
    simp [Expression.agrees_iff condition condition', Block.agrees_iff block block',
      Block.agreeOption_iff alternative alternative']
  case function.function body _ _ body' =>
    simp [Block.agrees_iff body body']

theorem Statement.agrees_iff (s s' : Statement) : s.agrees s' = true ↔ s = s' := by
  cases s <;> cases s' <;> simp [Statement.agrees, and_assoc]
  case binding.binding value _ _ value' => simp [Expression.agrees_iff value value']
  case result.result value _ value' => simp [Expression.agrees_iff value value']
  case expression.expression value _ value' => simp [Expression.agrees_iff value value']
  case block.block body body' => simp [Block.agrees_iff body body']

theorem Block.agrees_iff (b b' : Block) : b.agrees b' = true ↔ b = b' := by
  cases b with
  | mk token statements =>
    cases b' with
    | mk token' statements' =>
      simp [Block.agrees, Statement.agreeList_iff statements statements']

theorem Block.agreeOption_iff (b b' : Option Block) : Block.agreeOption b b' = true ↔ b = b' := by
  cases b <;> cases b' <;> simp [Block.agreeOption]
  case some.some block block' => simp [Block.agrees_iff block block']

theorem Statement.agreeList_iff (s s' : List Statement) :
    Statement.agreeList s s' = true ↔ s = s' := by
  cases s <;> cases s' <;> simp [Statement.agreeList]
  case cons.cons statement statements statement' statements' =>
    simp [Statement.agrees_iff statement statement', Statement.agreeList_iff statements statements']

end

instance : DecidableEq Expression := fun e e' => decidable_of_iff _ (e.agrees_iff e')
instance : DecidableEq Statement := fun s s' => decidable_of_iff _ (s.agrees_iff s')
instance : DecidableEq Block := fun b b' => decidable_of_iff _ (b.agrees_iff b')

deriving instance DecidableEq for Program

end ExprLang
