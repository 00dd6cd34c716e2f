import ExprLang.Token

namespace ExprLang

def isBlank (c : Char) : Bool := c == ' ' || c == '\t' || c == '\n' || c == '\r'

def isWordStart (c : Char) : Bool := c.isAlpha || c == '_'

def isWordPart (c : Char) : Bool := c.isAlphanum || c == '_'

/-- The longest token that starts with `c`, and what it leaves of the characters after `c`. -/
def Token.split (c : Char) (cs : List Char) : Token × List Char :=
  if isWordStart c then
    (.ofWord (String.ofList (c :: cs.takeWhile isWordPart)), cs.dropWhile isWordPart)
  else if c.isDigit then
    (⟨.integer, String.ofList (c :: cs.takeWhile Char.isDigit)⟩, cs.dropWhile Char.isDigit)
  else
    match c, cs with
    | '=', '=' :: cs => (⟨.equal, "=="⟩, cs)
    | '!', '=' :: cs => (⟨.notEqual, "!="⟩, cs)
    | c, cs => (.ofSymbol c, cs)

theorem Token.length_split_le (c : Char) (cs : List Char) :
    (Token.split c cs).2.length ≤ cs.length := by
  unfold Token.split
  split
  · exact (List.dropWhile_sublist _).length_le
  · split
    · exact (List.dropWhile_sublist _).length_le
    · split
      · exact Nat.le_succ _
      · exact Nat.le_succ _
      · exact Nat.le_refl _

/-- The characters still to be read, and how many bytes of UTF-8 come before them. -/
structure Lexer where
  rest : List Char
  position : Nat
deriving DecidableEq, Inhabited

namespace Lexer

def ofString (source : String) : Lexer := ⟨source.toList, 0⟩

def remainder (lexer : Lexer) : String := String.ofList lexer.rest

def atEnd (lexer : Lexer) : Bool := lexer.rest.isEmpty

/-- The first byte still to be read. -/
def byte? (lexer : Lexer) : Option UInt8 :=
  lexer.rest.head?.bind fun c => (String.utf8EncodeChar c).head?

def skipBlanks (lexer : Lexer) : Lexer :=
  ⟨lexer.rest.dropWhile isBlank, lexer.position + (lexer.rest.takeWhile isBlank).length⟩

theorem length_skipBlanks_le (lexer : Lexer) :
    lexer.skipBlanks.rest.length ≤ lexer.rest.length :=
  (List.dropWhile_sublist _).length_le

/-- Reads one token; at the end of the input every further call reads `endOfInput` again. -/
def nextToken (lexer : Lexer) : Token × Lexer :=
  let start := lexer.skipBlanks
  match start.rest with
  | [] => (.endOfInput, start)
  | c :: cs =>
    let (token, rest) := Token.split c cs
    (token, ⟨rest, start.position + token.literal.utf8ByteSize⟩)

/-- Reads one token, if there is one before the end of the input. -/
def next? (lexer : Lexer) : Option Token × Lexer :=
  let read := lexer.nextToken
  (if read.1.is .endOfInput then none else some read.1, read.2)

theorem length_nextToken_lt {lexer : Lexer} (h : ¬ lexer.nextToken.1.is .endOfInput) :
    lexer.nextToken.2.rest.length < lexer.rest.length := by
  have hle := lexer.length_skipBlanks_le
  unfold nextToken at h ⊢
  cases hs : lexer.skipBlanks.rest with
  | nil => simp [hs, Token.is, Token.endOfInput] at h
  | cons c cs =>
    have hsplit := Token.length_split_le c cs
    simp only [hs, List.length_cons] at hle ⊢
    omega

theorem length_next?_lt {lexer after : Lexer} {token : Token}
    (h : lexer.next? = (some token, after)) : after.rest.length < lexer.rest.length := by
  unfold next? at h
  by_cases hend : lexer.nextToken.1.is .endOfInput
  · simp only [hend, ite_true, Prod.mk.injEq, reduceCtorEq, false_and] at h
  · have hafter : lexer.nextToken.2 = after := congrArg Prod.snd h
    exact hafter ▸ length_nextToken_lt hend

/-- Reads every token before the end of the input. -/
def drain (lexer : Lexer) : List Token × Lexer :=
  match h : lexer.next? with
  | (none, after) => ([], after)
  | (some token, after) =>
    have := length_next?_lt h
    let (tokens, last) := after.drain
    (token :: tokens, last)
termination_by lexer.rest.length
decreasing_by assumption

def tokens (lexer : Lexer) : List Token := lexer.drain.1

/-- Passes over `n` tokens. -/
def skip : Nat → Lexer → Lexer
  | 0, lexer => lexer
  | n + 1, lexer => skip n lexer.nextToken.2

end Lexer

/-- The tokens of `source`, `endOfInput` last. -/
def tokenize (source : String) : List Token :=
  (Lexer.ofString source).tokens ++ [.endOfInput]

end ExprLang
