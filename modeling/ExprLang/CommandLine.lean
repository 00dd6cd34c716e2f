import ExprLang.Parser
import ExprLang.Tree.Render

namespace ExprLang.CommandLine

/-- Why a file could not be read. -/
inductive ReadError where
  | notFound
  | isDirectory
  | notUtf8
  | other (reason : String)
deriving DecidableEq, Repr

def ReadError.message : ReadError → String
  | notFound => "No such file or directory (os error 2)"
  | isDirectory => "Is a directory (os error 21)"
  | notUtf8 => "stream did not contain valid UTF-8"
  | other reason => reason

/-- Where the program comes from: a built-in sample, or a file and what reading it gave. -/
inductive Input where
  | sample
  | file (path : String) (contents : Except ReadError ByteArray)

/-- What a run writes, and the code it ends with. -/
structure Report where
  exit : Nat
  out : String
  err : String
deriving DecidableEq, Repr

def sampleSource : String := "1 + 2 * 3 + 4"

def decode (bytes : ByteArray) : Except ReadError String :=
  match String.fromUTF8? bytes with
  | some source => .ok source
  | none => .error .notUtf8

/-- Each text on a line of its own. -/
def lines (texts : List String) : String := String.join (texts.map (· ++ "\n"))

def listTokens (source : String) : Report := ⟨0, lines ((tokenize source).map Token.text), ""⟩

/-- Writes the statements of a program, or else everything that is wrong with it. -/
def listStatements (source : String) : Report :=
  let (program, parser) := parse source
  if parser.diagnostics.isEmpty then
    ⟨0, lines (program.statements.map Statement.text), ""⟩
  else
    ⟨65, "", lines (parser.diagnostics.map Diagnostic.report)⟩

/-- Runs the command on a program. With `tokens` it does not parse. -/
def runSource (tokens : Bool) (source : String) : Report :=
  if tokens then listTokens source else listStatements source

def run (tokens : Bool) : Input → Report
  | .sample => runSource tokens sampleSource
  | .file path contents =>
    match contents.bind decode with
    | .ok source => runSource tokens source
    | .error error => ⟨1, "", "reading `" ++ path ++ "` failed: " ++ error.message ++ "\n"⟩

/-- What the arguments of the command ask for. -/
structure Options where
  tokens : Bool := false
  path? : Option String := none
deriving DecidableEq, Repr

def Options.addFile (options : Options) (path : String) : Except String Options :=
  match options.path? with
  | none => .ok { options with path? := some path }
  | some _ => .error ("unexpected argument " ++ path)

/-- Adds what the arguments ask for: at most one file, and `--tokens` at most once. After `--`
every argument is a file. -/
def Options.read (options : Options) : List String → Except String Options
  | [] => .ok options
  | "--" :: paths => paths.foldlM addFile options
  | "--tokens" :: arguments =>
    if options.tokens then
      .error "the argument --tokens is given twice"
    else
      read { options with tokens := true } arguments
  | argument :: arguments => do
    if argument.startsWith "-" && argument != "-" then
      .error ("unexpected argument " ++ argument)
    else
      read (← options.addFile argument) arguments

end ExprLang.CommandLine
