import ExprLang.CommandLine

namespace ExprLang.CommandLine

def ReadError.ofSystemError : IO.Error → ReadError
  | .noFileOrDirectory .. => .notFound
  | .inappropriateType .. => .isDirectory
  | error => .other (toString error)

def readFile (path : String) : IO (Except ReadError ByteArray) := do
  try
    return .ok (← IO.FS.readBinFile path)
  catch error =>
    return .error (.ofSystemError error)

end ExprLang.CommandLine

open ExprLang.CommandLine

def main (arguments : List String) : IO UInt32 := do
  match Options.read {} arguments with
  | .error message =>
    IO.eprintln ("error: " ++ message)
    return 2
  | .ok options =>
    let input ← match options.path? with
      | none => pure Input.sample
      | some path => Input.file path <$> readFile path
    let report := run options.tokens input
    IO.print report.out
    IO.eprint report.err
    return report.exit.toUInt32
