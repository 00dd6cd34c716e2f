import ExprLang.Token

namespace ExprLang

/-- What can be wrong with a program. -/
inductive Cause where
  | unexpectedToken (expected found : Kind)
  | noExpression (kind : Kind)
  | integerOutOfRange (literal : String)
  | nestingTooDeep (limit : Nat)
deriving DecidableEq, Repr

namespace Cause

def name : Cause → String
  | unexpectedToken .. => "UnexpectedToken"
  | noExpression _ => "NoPrefixParseFn"
  | integerOutOfRange _ => "IntegerParse"
  | nestingTooDeep _ => "NestingTooDeep"

def message : Cause → String
  | unexpectedToken expected found =>
    "expected next token to be " ++ expected.name ++ ", got " ++ found.name ++ " instead"
  | noExpression kind => "no prefix parse function for " ++ kind.name
  | integerOutOfRange literal => "could not parse " ++ literal ++ " as integer"
  | nestingTooDeep limit => "expression nesting exceeds " ++ toString limit ++ " levels"

end Cause

/-- Something wrong with a program, and the token it was found at. -/
structure Diagnostic where
  cause : Cause
  token : Token
deriving DecidableEq, Repr

namespace Diagnostic

def name (diagnostic : Diagnostic) : String := diagnostic.cause.name

def message (diagnostic : Diagnostic) : String := diagnostic.cause.message

/-- Advice for the writer of the program. -/
def tip? (diagnostic : Diagnostic) : Option String :=
  let literal := diagnostic.token.literal
  match diagnostic.cause with
  | .unexpectedToken expected _ =>
    some ("Unexpected token: `" ++ literal ++ "`, expected " ++ expected.name ++ " here")
  | .noExpression .illegal => some ("Unrecognised character: `" ++ literal ++ "`")
  | .noExpression _ => some ("`" ++ literal ++ "` cannot start an expression")
  | .integerOutOfRange numeral =>
    some ("Invalid number: `" ++ numeral ++ "`, is it above the integer limit?")
  | .nestingTooDeep _ =>
    some ("Nesting gave up at `" ++ literal ++ "`, split the expression into smaller parts")

/-- The text of a tip, empty where there is none. -/
def tipText (tip? : Option String) : String := tip?.getD ""

def header (diagnostic : Diagnostic) : String :=
  match diagnostic.tip? with
  | none => "Error: " ++ diagnostic.name
  | some tip => "Error: " ++ diagnostic.name ++ " (" ++ tip ++ ")"

/-- The diagnostic as it is shown to the writer of the program, on two lines. -/
def report (diagnostic : Diagnostic) : String :=
  diagnostic.header ++ "\n -> " ++ diagnostic.message

instance : ToString Diagnostic := ⟨report⟩

end Diagnostic

end ExprLang
