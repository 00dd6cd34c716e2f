import ExprLang.Grammar
import ExprLang.Parse.Basic
import ExprLang.Tree

namespace ExprLang

/-- A way to read the expressions that bind tighter than a floor. -/
structure Reader where
  read : Precedence → Parse Expression
  forward : ∀ floor, (read floor).Forward

namespace Parse

def identifier : Parse Identifier := return .ofToken (← current)

/-- Moves to the semicolon that ends a binding, or to the end of the input. -/
def skipValue : Parse Unit := discard (repeatUntil .semicolon advance .advance)

/-- Reads a binding and passes over its value. One without a name or without a value is dropped. -/
def binding : Parse (Option Statement) := do
  let token ← current
  let read? ← past .identifier none do
    let name ← identifier
    past .assign none do
      advance
      skipValue
      return some (.binding token name .absent)
  if read?.isNone then
    record (.bindingDropped token)
  return read?

/-- Passes over the word and at most one token of the value. -/
def result : Parse Statement := do
  let token ← current
  advance
  unless (← current).is .semicolon do
    advance
  return .result token .absent

/-- Reads an expression and the semicolon after it, if there is one. -/
def expressionStatement (reader : Reader) : Parse Statement := do
  let token ← current
  let value ← reader.read .lowest
  if (← peek).is .semicolon then
    advance
  return .expression token value

def statement (reader : Reader) : Parse (Option Statement) := do
  match (← current).kind with
  | .letWord => binding
  | .returnWord => some <$> result
  | _ => some <$> expressionStatement reader

theorem Forward.identifier : identifier.Forward := .bind .current fun _ => .pure _

theorem Forward.skipValue : skipValue.Forward := .map (.repeatUntil _ _ _) _

theorem Forward.binding : binding.Forward :=
  .bind .current fun _ =>
    .bind (.past (.bind .identifier fun _ => .past (.bind .advance fun _ =>
      .bind .skipValue fun _ => .pure _))) fun _ =>
    .ite (.bind (.record _) fun _ => .pure _) (.pure _)

theorem Forward.result : result.Forward :=
  .bind .current fun _ => .bind .advance fun _ => .bind .current fun _ =>
    .ite (.pure _) (.bind .advance fun _ => .pure _)

theorem Forward.expressionStatement (reader : Reader) : (expressionStatement reader).Forward :=
  .bind .current fun _ => .bind (reader.forward _) fun _ => .bind .peek fun _ =>
    .ite (.bind .advance fun _ => .pure _) (.pure _)

theorem Forward.statement (reader : Reader) : (statement reader).Forward := by
  refine .bind .current fun token => ?_
  split
  · exact .binding
  · exact .map .result _
  · exact .map (.expressionStatement reader) _

/-- Reads one statement and moves past its last token. -/
def statementStep (reader : Reader) : Parse (Option Statement) := do
  let read? ← statement reader
  advance
  return read?

theorem Advances.statementStep (reader : Reader) : (statementStep reader).Advances :=
  .bind_right (.statement reader) fun _ => .bind .advance fun _ => .pure _

/-- Reads statements up to a token of kind `closer` or the end of the input. -/
def statements (reader : Reader) (closer : Kind) : Parse (List Statement) :=
  (·.filterMap id) <$> repeatUntil closer (statementStep reader) (.statementStep reader)

theorem Forward.statements (reader : Reader) (closer : Kind) :
    (statements reader closer).Forward :=
  .map (.repeatUntil _ _ _) _

/-- Reads a block, from its opening brace to its closing brace or the end of the input. -/
def block (reader : Reader) : Parse Block := do
  let token ← current
  advance
  let body ← statements reader .rBrace
  record (.blockEnded (← current))
  return .mk token body

theorem Forward.block (reader : Reader) : (block reader).Forward :=
  .bind .current fun _ => .bind .advance fun _ => .bind (.statements reader _) fun _ =>
    .bind .current fun _ => .bind (.record _) fun _ => .pure _

end Parse

end ExprLang
