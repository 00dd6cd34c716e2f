import ExprLang.Tree

namespace ExprLang

mutual

/-- An expression as text, with every operator in parentheses of its own; an absent one has no
text. -/
def Expression.text : Expression → String
  | .absent => ""
  | .identifier id => id.name
  | .integer token _ | .boolean token _ => token.literal
  | .unary _ operator operand => "(" ++ operator ++ operand.text ++ ")"
  | .binary _ left operator right =>
    "(" ++ left.text ++ " " ++ operator ++ " " ++ right.text ++ ")"
  | .conditional _ condition consequence alternative =>
    "if" ++ condition.text ++ " " ++ consequence.text ++ Block.alternativeText alternative
  | .function token parameters body =>
    token.literal ++ "(" ++ ", ".intercalate (parameters.map Identifier.name) ++ ") " ++ body.text

def Statement.text : Statement → String
  | .binding token name value => token.literal ++ " " ++ name.name ++ " = " ++ value.text ++ ";"
  | .result token value => token.literal ++ " " ++ value.text ++ ";"
  | .expression _ value => value.text
  | .block body => body.text

/-- The texts of the statements, with nothing between them and no braces around them. -/
def Block.text : Block → String
  | .mk _ statements => Statement.joinedText statements

def Block.alternativeText : Option Block → String
  | none => ""
  | some block => "else" ++ block.text

def Statement.joinedText : List Statement → String
  | [] => ""
  | statement :: statements => statement.text ++ Statement.joinedText statements

end

def Program.text (program : Program) : String := Statement.joinedText program.statements

instance : ToString Expression := ⟨Expression.text⟩
instance : ToString Statement := ⟨Statement.text⟩
instance : ToString Block := ⟨Block.text⟩
instance : ToString Program := ⟨Program.text⟩

end ExprLang
