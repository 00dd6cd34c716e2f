namespace ExprLang

/-- What a token is, apart from how it is spelt. -/
inductive Kind where
  | illegal
  | endOfInput
  | identifier
  | integer
  | assign
  | plus
  | minus
  | bang
  | asterisk
  | slash
  | lessThan
  | greaterThan
  | equal
  | notEqual
  | comma
  | semicolon
  | lParen
  | rParen
  | lBrace
  | rBrace
  | fnWord
  | letWord
  | trueWord
  | falseWord
  | ifWord
  | elseWord
  | returnWord
deriving DecidableEq, Inhabited, Repr

namespace Kind

def name : Kind → String
  | illegal => "Illegal"
  | endOfInput => "EndOfInput"
  | identifier => "Identifier"
  | integer => "Integer"
  | assign => "Assign"
  | plus => "Plus"
  | minus => "Minus"
  | bang => "Bang"
  | asterisk => "Asterisk"
  | slash => "Slash"
  | lessThan => "LessThan"
  | greaterThan => "GreaterThan"
  | equal => "Equal"
  | notEqual => "NotEqual"
  | comma => "Comma"
  | semicolon => "Semicolon"
  | lParen => "LParen"
  | rParen => "RParen"
  | lBrace => "LBrace"
  | rBrace => "RBrace"
  | fnWord => "Function"
  | letWord => "Let"
  | trueWord => "True"
  | falseWord => "False"
  | ifWord => "If"
  | elseWord => "Else"
  | returnWord => "Return"

instance : ToString Kind := ⟨name⟩

def all : List Kind :=
  [illegal, endOfInput, identifier, integer, assign, plus, minus, bang, asterisk, slash, lessThan,
    greaterThan, equal, notEqual, comma, semicolon, lParen, rParen, lBrace, rBrace, fnWord, letWord,
    trueWord, falseWord, ifWord, elseWord, returnWord]

/-- The kind of the given name. -/
def ofName? (name : String) : Option Kind := all.find? (·.name == name)

@[simp] theorem ofName?_name (kind : Kind) : ofName? kind.name = some kind := by
  cases kind <;> rfl

/-- The words that no identifier may be, each with the kind it has instead. -/
def reserved : List (String × Kind) :=
  [("fn", fnWord), ("let", letWord), ("true", trueWord), ("false", falseWord),
    ("if", ifWord), ("else", elseWord), ("return", returnWord)]

/-- A word is an identifier unless it is reserved. -/
def ofWord (word : String) : Kind :=
  (reserved.lookup word).getD identifier

/-- The kind of a character that is a token by itself; any other character is illegal. -/
def ofSymbol : Char → Kind
  | '=' => assign
  | '+' => plus
  | '-' => minus
  | '!' => bang
  | '*' => asterisk
  | '/' => slash
  | '<' => lessThan
  | '>' => greaterThan
  | ',' => comma
  | ';' => semicolon
  | '(' => lParen
  | ')' => rParen
  | '{' => lBrace
  | '}' => rBrace
  | _ => illegal

end Kind

/-- A token: its kind and the characters it was read from. -/
structure Token where
  kind : Kind
  literal : String
deriving DecidableEq, Inhabited, Repr

namespace Token

/-- The token that stands for whatever follows the last one. -/
def endOfInput : Token := ⟨.endOfInput, ""⟩

def ofWord (word : String) : Token := ⟨.ofWord word, word⟩

/-- The token a single character makes when nothing after it belongs to it. -/
def ofSymbol (c : Char) : Token := ⟨.ofSymbol c, c.toString⟩

def is (token : Token) (kind : Kind) : Bool := token.kind == kind

def text (token : Token) : String :=
  token.kind.name ++ "(" ++ token.literal ++ ")"

instance : ToString Token := ⟨text⟩

end Token

end ExprLang
