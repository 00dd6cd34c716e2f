import ExprLang.Parser

namespace ExprLang

/-- What changes a parse under way, or stops for want of fuel. -/
abbrev Machine (α : Type) := StateT Parser Option α

namespace Machine

variable {α : Type}

def current : Machine Token := do return (← get).current

def peek : Machine Token := do return (← get).peek

def identifier : Machine Identifier := do return .ofToken (← current)

def grammar : Machine Grammar := do return (← get).grammar

def advance : Machine Unit := modify Parser.advance

def expect (kind : Kind) : Machine Bool := modifyGet (Parser.expect · kind)

def enterNesting : Machine Bool := modifyGet Parser.enterNesting

def leaveNesting : Machine Unit := modify Parser.leaveNesting

def record (event : Event) : Machine Unit := modifyGet (Parser.run · (Parse.record event))

def report (cause : Cause) (token : Token) : Machine Unit := record (.reported ⟨cause, token⟩)

def past (kind : Kind) (nothing : α) (m : Machine α) : Machine α := do
  if ← expect kind then m else return nothing

end Machine

/-- The procedures that call one another. A loop is one that calls itself for the next turn. -/
inductive Call where
  | expression (floor : Precedence)
  | operand (floor : Precedence)
  | operators (floor : Precedence) (left : Expression)
  | binary (left : Expression)
  | form (start : Form)
  | parameters
  | names
  | statement
  | binding
  | skipValue
  | result
  | expressionStatement
  | block
  | statements (closer : Kind)
  | program

namespace Call

abbrev Result : Call → Type
  | expression _ | operand _ | operators _ _ | binary _ | form _ => Expression
  | parameters | names => Option (List Identifier)
  | statement | binding => Option Statement
  | skipValue => Unit
  | result | expressionStatement => Statement
  | block => Block
  | statements _ => List Statement
  | program => Program

/-- What a call comes to. -/
def perform (parser : Parser) : (call : Call) → call.Result × Parser
  | expression floor => parser.expression floor
  | operand floor => parser.run (Parse.expression parser.grammar parser.reader floor)
  | operators floor left => parser.run (Parse.climb parser.grammar parser.reader floor left)
  | binary left => parser.binary left
  | form start => parser.form start
  | parameters => parser.parameters
  | names => parser.run Parse.names
  | statement => parser.statement
  | binding => parser.binding
  | skipValue => parser.run Parse.skipValue
  | result => parser.result
  | expressionStatement => parser.expressionStatement
  | block => parser.block
  | statements closer => parser.run (Parse.statements parser.reader closer)
  | program => parser.program

open Machine

/-- One turn of a procedure, with a way to make the calls in it. The depth is kept by hand: it goes
up where an expression is entered and down where it is left. -/
def body (perform : (call : Call) → Machine call.Result) : (call : Call) → Machine call.Result
  | expression floor => do
    if ← enterNesting then
      let value ← perform (operand floor)
      leaveNesting
      return value
    else
      return .absent
  | operand floor => do
    let token ← current
    match (← grammar).form? token.kind with
    | some start => perform (operators floor (← perform (form start)))
    | none =>
      report (.noExpression token.kind) token
      return .absent
  | operators floor left => do
    let next ← peek
    if (← grammar).joins floor next.kind then
      advance
      perform (operators floor (← perform (binary left)))
    else
      return left
  | binary left => do
    let token ← current
    let floor := (← grammar).precedence token.kind
    advance
    return .binary token left token.literal (← perform (expression floor))
  | form .identifier => do return .identifier (← identifier)
  | form .integer => do
    let token ← current
    match Numeral.read? token.literal with
    | some value => return .integer token value
    | none =>
      report (.integerOutOfRange token.literal) token
      return .absent
  | form .boolean => do
    let token ← current
    return .boolean token (token.is .trueWord)
  | form .unary => do
    let token ← current
    advance
    return .unary token token.literal (← perform (expression .unary))
  | form .group => do
    advance
    let inner ← perform (expression .lowest)
    past .rParen .absent do
      return inner
  | form .conditional => do
    let token ← current
    past .lParen .absent do
      advance
      let condition ← perform (expression .lowest)
      past .rParen .absent <| past .lBrace .absent do
        let consequence ← perform block
        if (← peek).is .elseWord then
          advance
          past .lBrace .absent do
            return .conditional token condition consequence (some (← perform block))
        else
          return .conditional token condition consequence none
  | form .function => do
    let token ← current
    past .lParen .absent do
      match ← perform parameters with
      | none => return .absent
      | some ids =>
        past .lBrace .absent do
          return .function token ids (← perform block)
  | parameters => do
    if (← peek).is .rParen then
      advance
      return some []
    else
      perform names
  | names => past .identifier none do
    let name ← identifier
    if (← peek).is .comma then
      advance
      return (← perform names).map (name :: ·)
    else
      past .rParen none do
        return some [name]
  | statement => do
    match (← current).kind with
    | .letWord => perform binding
    | .returnWord => return some (← perform result)
    | _ => return some (← perform expressionStatement)
  | binding => do
    let token ← current
    let read? ← past .identifier none do
      let name ← identifier
      past .assign none do
        advance
        perform skipValue
        return some (.binding token name .absent)
    if read?.isNone then
      record (.bindingDropped token)
    return read?
  | skipValue => do
    let token ← current
    if token.is .semicolon || token.is .endOfInput then
      return ()
    else
      advance
      perform skipValue
  | result => do
    let token ← current
    advance
    unless (← current).is .semicolon do
      advance
    return .result token .absent
  | expressionStatement => do
    let token ← current
    let value ← perform (expression .lowest)
    if (← peek).is .semicolon then
      advance
    return .expression token value
  | block => do
    let token ← current
    advance
    let body ← perform (statements .rBrace)
    record (.blockEnded (← current))
    return .mk token body
  | statements closer => do
    let token ← current
    if token.is closer || token.is .endOfInput then
      return []
    else
      let read? ← perform statement
      advance
      return read?.toList ++ (← perform (statements closer))
  | program => do
    let read ← perform (statements .endOfInput)
    record (.finished read.length (← get).diagnostics.length)
    return ⟨read⟩

/-- The procedures as they call one another, each call inside another with one unit of fuel less. -/
def run : Nat → (call : Call) → Machine call.Result
  | 0, _ => failure
  | fuel + 1, call => call.body (run fuel)

end Call

end ExprLang
