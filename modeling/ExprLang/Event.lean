import ExprLang.Diagnostic

namespace ExprLang

/-- What happens on the way to a parsed program. -/
inductive Event where
  | advanced (current peek : Token)
  | reported (diagnostic : Diagnostic)
  | bindingDropped (token : Token)
  | blockEnded (token : Token)
  | finished (statements diagnostics : Nat)
deriving DecidableEq

namespace Event

def diagnostic? : Event → Option Diagnostic
  | reported diagnostic => some diagnostic
  | _ => none

/-- The line of the log that an event writes, if it writes one. -/
def logLine? : Event → Option String
  | advanced current peek =>
    some ("TRACE advance: current " ++ current.text ++ " peek " ++ peek.text)
  | reported diagnostic => some ("DEBUG parse error: " ++ diagnostic.message)
  | finished statements diagnostics =>
    some ("DEBUG parsed program: " ++ toString statements ++ " statement(s), " ++
      toString diagnostics ++ " error(s)")
  | bindingDropped _ | blockEnded _ => none

end Event

end ExprLang
