import ExprLang.Token

namespace ExprLang

structure Identifier where
  token : Token
  name : String
deriving DecidableEq, Inhabited

/-- The identifier that a token names. -/
def Identifier.ofToken (token : Token) : Identifier := ⟨token, token.literal⟩

mutual

/-- An expression. Every node keeps the token it was read at; `absent` stands where nothing
could be read. -/
inductive Expression where
  | absent
  | identifier (identifier : Identifier)
  | integer (token : Token) (value : Int64)
  | boolean (token : Token) (value : Bool)
  | unary (token : Token) (operator : String) (operand : Expression)
  | binary (token : Token) (left : Expression) (operator : String) (right : Expression)
  | conditional (token : Token) (condition : Expression) (consequence : Block)
      (alternative : Option Block)
  | function (token : Token) (parameters : List Identifier) (body : Block)

inductive Statement where
  | binding (token : Token) (name : Identifier) (value : Expression)
  | result (token : Token) (value : Expression)
  | expression (token : Token) (value : Expression)
  | block (body : Block)

inductive Block where
  | mk (token : Token) (statements : List Statement)

end

instance : Inhabited Expression := ⟨.absent⟩
instance : Inhabited Block := ⟨.mk default []⟩
instance : Inhabited Statement := ⟨.block default⟩

structure Program where
  statements : List Statement
deriving Inhabited

namespace Expression

/-- The token of the node, if there is a node. -/
def token? : Expression → Option Token
  | absent => none
  | identifier id => some id.token
  | integer token _ | boolean token _ | unary token _ _ | binary token _ _ _
  | conditional token _ _ _ | function token _ _ => some token

end Expression

namespace Block

def token : Block → Token
  | mk token _ => token

def statements : Block → List Statement
  | mk _ statements => statements

end Block

def Statement.token : Statement → Token
  | binding token _ _ | result token _ | expression token _ => token
  | block body => body.token

/-- The literal that a program begins with, empty for an empty program. -/
def Program.leadingLiteral (program : Program) : String :=
  (program.statements.head?.map (·.token.literal)).getD ""

end ExprLang
