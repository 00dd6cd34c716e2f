import ExprLang.Lexer
import ExprLang.Parse.Expression

namespace ExprLang

/-- A parse under way: its grammar, how many expressions are open, what is left to read, and all
that has happened. -/
structure Parser where
  grammar : Grammar
  depth : Nat
  cursor : Cursor
  journal : List Event

namespace Parser

variable {α : Type}

/-- A parse of the given tokens with the standard grammar. The first two tokens have moved into
view. -/
def ofTokens (tokens : List Token) : Parser where
  grammar := .standard
  depth := 0
  cursor := tokens
  journal :=
    let cursor : Cursor := tokens
    [.advanced .endOfInput cursor.current, .advanced cursor.current cursor.peek]

def ofLexer (lexer : Lexer) : Parser := ofTokens lexer.tokens

def ofString (source : String) : Parser := ofLexer (.ofString source)

def current (parser : Parser) : Token := parser.cursor.current

def peek (parser : Parser) : Token := parser.cursor.peek

def diagnostics (parser : Parser) : List Diagnostic :=
  parser.journal.filterMap Event.diagnostic?

def errors (parser : Parser) : List String := parser.diagnostics.map Diagnostic.message

def log (parser : Parser) : List String := parser.journal.filterMap Event.logLine?

/-- Reads expressions at the depth the parse has reached. -/
def reader (parser : Parser) : Reader := .ofLevels parser.grammar (maxNesting - parser.depth)

def run (parser : Parser) (action : Parse α) : α × Parser :=
  let outcome := action parser.cursor
  (outcome.value,
    { parser with cursor := outcome.cursor, journal := parser.journal ++ outcome.events })

@[simp] theorem grammar_run (parser : Parser) (action : Parse α) :
    (parser.run action).2.grammar = parser.grammar := rfl

@[simp] theorem depth_run (parser : Parser) (action : Parse α) :
    (parser.run action).2.depth = parser.depth := rfl

@[simp] theorem cursor_run (parser : Parser) (action : Parse α) :
    (parser.run action).2.cursor = (action parser.cursor).cursor := rfl

@[simp] theorem diagnostics_run (parser : Parser) (action : Parse α) :
    (parser.run action).2.diagnostics =
      parser.diagnostics ++ (action parser.cursor).events.filterMap Event.diagnostic? :=
  List.filterMap_append

def advance (parser : Parser) : Parser := (parser.run Parse.advance).2

def expect (parser : Parser) (kind : Kind) : Bool × Parser := parser.run (Parse.expect kind)

def report (parser : Parser) (cause : Cause) (token : Token) : Parser :=
  (parser.run (Parse.report cause token)).2

/-- Opens an expression, unless as many are open as may be. -/
def enterNesting (parser : Parser) : Bool × Parser :=
  if parser.depth < maxNesting then
    (true, { parser with depth := parser.depth + 1 })
  else
    (false, (parser.run Parse.tooDeep).2)

def leaveNesting (parser : Parser) : Parser := { parser with depth := parser.depth - 1 }

def setForm (parser : Parser) (kind : Kind) (form : Form) : Parser :=
  { parser with grammar := parser.grammar.setForm kind form }

def setOperator (parser : Parser) (kind : Kind) (precedence : Precedence) : Parser :=
  { parser with grammar := parser.grammar.setOperator kind precedence }

def restoreStandard (parser : Parser) : Parser :=
  { parser with grammar := parser.grammar.restoreStandard }

def expression (parser : Parser) (floor : Precedence) : Expression × Parser :=
  parser.run (parser.reader.read floor)

def form (parser : Parser) (form : Form) : Expression × Parser :=
  parser.run (Parse.form parser.reader form)

def binary (parser : Parser) (left : Expression) : Expression × Parser :=
  parser.run (Parse.binary parser.grammar parser.reader left)

def parameters (parser : Parser) : Option (List Identifier) × Parser :=
  parser.run Parse.parameters

def statement (parser : Parser) : Option Statement × Parser :=
  parser.run (Parse.statement parser.reader)

def binding (parser : Parser) : Option Statement × Parser := parser.run Parse.binding

def result (parser : Parser) : Statement × Parser := parser.run Parse.result

def expressionStatement (parser : Parser) : Statement × Parser :=
  parser.run (Parse.expressionStatement parser.reader)

def block (parser : Parser) : Block × Parser := parser.run (Parse.block parser.reader)

/-- Reads statements to the end of the input. -/
def program (parser : Parser) : Program × Parser :=
  let (statements, parser) := parser.run (Parse.statements parser.reader .endOfInput)
  let finished := Event.finished statements.length parser.diagnostics.length
  (⟨statements⟩, (parser.run (Parse.record finished)).2)

end Parser

/-- Reads the program that a text holds. -/
def parse (source : String) : Program × Parser := (Parser.ofString source).program

end ExprLang
