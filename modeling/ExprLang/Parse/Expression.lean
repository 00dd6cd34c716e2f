import ExprLang.Numeral
import ExprLang.Parse.Statement

namespace ExprLang

/-- How many expressions may be open at once, each inside the one before. -/
def maxNesting : Nat := 256

namespace Parse

def integer : Parse Expression := do
  let token ← current
  match Numeral.read? token.literal with
  | some value => return .integer token value
  | none =>
    report (.integerOutOfRange token.literal) token
    return .absent

def boolean : Parse Expression := do
  let token ← current
  return .boolean token (token.is .trueWord)

def unary (reader : Reader) : Parse Expression := do
  let token ← current
  advance
  return .unary token token.literal (← reader.read .unary)

/-- Reads an expression in parentheses; they leave no node. -/
def group (reader : Reader) : Parse Expression := do
  advance
  let inner ← reader.read .lowest
  past .rParen .absent do
    return inner

def conditional (reader : Reader) : Parse Expression := do
  let token ← current
  past .lParen .absent do
    advance
    let condition ← reader.read .lowest
    past .rParen .absent <| past .lBrace .absent do
      let consequence ← block reader
      if (← peek).is .elseWord then
        advance
        past .lBrace .absent do
          return .conditional token condition consequence (some (← block reader))
      else
        return .conditional token condition consequence none

/-- Reads one or more names with commas between them, and the parenthesis that closes them. -/
def names : Parse (Option (List Identifier)) := fun c =>
  let found := expect .identifier c
  if h : found.value = true then
    let name := Identifier.ofToken found.cursor.current
    if found.cursor.peek.is .comma then
      let comma := advance found.cursor
      have : comma.cursor.length < c.length :=
        Nat.lt_of_le_of_lt (List.tail_suffix _).length_le (length_expect_lt (by decide) h)
      ((names comma.cursor).map (·.map (name :: ·))).after (found.events ++ comma.events)
    else
      (past .rParen none (return some [name]) found.cursor).after found.events
  else
    ⟨none, found.cursor, found.events⟩
termination_by c => c.length
decreasing_by assumption

theorem names_eq : names = past .identifier none (do
    let name ← identifier
    if (← peek).is .comma then
      advance
      return (← names).map (name :: ·)
    else
      past .rParen none (return some [name])) := by
  funext c
  rw [names, past, bind_apply]
  by_cases hfound : (expect .identifier c).value = true
  · by_cases hcomma : (expect .identifier c).cursor.peek.is .comma = true <;>
      simp [hfound, hcomma, identifier, Outcome.map, Outcome.after]
  · simp [hfound]

/-- Reads what stands between the parentheses of a function, and the closing one. -/
def parameters : Parse (Option (List Identifier)) := do
  if (← peek).is .rParen then
    advance
    return some []
  else
    names

def function (reader : Reader) : Parse Expression := do
  let token ← current
  past .lParen .absent do
    match ← parameters with
    | none => return .absent
    | some parameters =>
      past .lBrace .absent do
        return .function token parameters (← block reader)

/-- Reads an operator and its right operand. -/
def binary (grammar : Grammar) (reader : Reader) (left : Expression) : Parse Expression := do
  let token ← current
  advance
  return .binary token left token.literal (← reader.read (grammar.precedence token.kind))

def form (reader : Reader) : Form → Parse Expression
  | .identifier => .identifier <$> identifier
  | .integer => integer
  | .boolean => boolean
  | .unary => unary reader
  | .group => group reader
  | .conditional => conditional reader
  | .function => function reader

theorem Forward.integer : integer.Forward := by
  refine .bind .current fun token => ?_
  split
  · exact .pure _
  · exact .bind (.report _ _) fun _ => .pure _

theorem Forward.boolean : boolean.Forward := .bind .current fun _ => .pure _

theorem Forward.unary (reader : Reader) : (unary reader).Forward :=
  .bind .current fun _ => .bind .advance fun _ => .bind (reader.forward _) fun _ => .pure _

theorem Forward.group (reader : Reader) : (group reader).Forward :=
  .bind .advance fun _ => .bind (reader.forward _) fun _ => .past (.pure _)

theorem Forward.conditional (reader : Reader) : (conditional reader).Forward :=
  .bind .current fun _ => .past <| .bind .advance fun _ => .bind (reader.forward _) fun _ =>
    .past <| .past <| .bind (.block reader) fun _ => .bind .peek fun _ =>
      .ite (.bind .advance fun _ => .past <| .bind (.block reader) fun _ => .pure _) (.pure _)

theorem Forward.names : names.Forward := by
  intro c
  induction hn : c.length using Nat.strongRecOn generalizing c with
  | ind n ih =>
    rw [Parse.names]
    split
    · next hfound =>
      have hlt := length_expect_lt (by decide) hfound
      split
      · have htail := List.tail_suffix (Parse.expect .identifier c).cursor
        refine (ih _ ?_ _ rfl).trans (htail.trans (Forward.expect _ c))
        exact hn ▸ Nat.lt_of_le_of_lt htail.length_le hlt
      · exact (Forward.past (.pure _) _).trans (Forward.expect _ c)
    · exact Forward.expect _ c

theorem Forward.parameters : parameters.Forward :=
  .bind .peek fun _ => .ite (.bind .advance fun _ => .pure _) .names

theorem Forward.function (reader : Reader) : (function reader).Forward := by
  refine .bind .current fun token => .past <| .bind .parameters fun parameters? => ?_
  split
  · exact .pure _
  · exact .past <| .bind (.block reader) fun _ => .pure _

theorem Forward.binary (grammar : Grammar) (reader : Reader) (left : Expression) :
    (binary grammar reader left).Forward :=
  .bind .current fun _ => .bind .advance fun _ => .bind (reader.forward _) fun _ => .pure _

theorem Forward.form (reader : Reader) (form : Form) : (Parse.form reader form).Forward := by
  cases form with
  | identifier => exact .map .identifier _
  | integer => exact .integer
  | boolean => exact .boolean
  | unary => exact .unary reader
  | group => exact .group reader
  | conditional => exact .conditional reader
  | function => exact .function reader

theorem length_lt_of_joins {grammar : Grammar} {floor : Precedence} {c d : Cursor}
    (h : grammar.joins floor c.peek.kind = true) (hd : d <:+ c.tail) : d.length < c.length := by
  have hpos := List.length_pos_iff.2
    (Cursor.tail_ne_nil_of_peek (Grammar.ne_endOfInput_of_joins h))
  have hle := hd.length_le
  rw [List.length_tail] at hpos hle
  omega

/-- Reads the operators after `left` that bind tighter than `floor`, each with its right operand,
and joins them to it from left to right. -/
def climb (grammar : Grammar) (reader : Reader) (floor : Precedence) (left : Expression) :
    Parse Expression := fun c =>
  if h : grammar.joins floor c.peek.kind = true then
    let operator := advance c
    let joined := binary grammar reader left operator.cursor
    have : joined.cursor.length < c.length :=
      length_lt_of_joins h (Forward.binary grammar reader left _)
    (climb grammar reader floor joined.value joined.cursor).after
      (operator.events ++ joined.events)
  else
    ⟨left, c, []⟩
termination_by c => c.length
decreasing_by assumption

theorem climb_eq (grammar : Grammar) (reader : Reader) (floor : Precedence) (left : Expression) :
    climb grammar reader floor left = (do
      if grammar.joins floor (← peek).kind then
        advance
        climb grammar reader floor (← binary grammar reader left)
      else
        return left) := by
  funext c
  rw [climb, bind_apply]
  by_cases h : grammar.joins floor c.peek.kind = true <;> simp [h, Outcome.after]

theorem Forward.climb (grammar : Grammar) (reader : Reader) (floor : Precedence)
    (left : Expression) : (climb grammar reader floor left).Forward := by
  intro c
  induction hn : c.length using Nat.strongRecOn generalizing c left with
  | ind n ih =>
    rw [Parse.climb]
    split
    · next h =>
      have hd := Forward.binary grammar reader left (Parse.advance c).cursor
      exact (ih _ (hn ▸ length_lt_of_joins h hd) _ _ rfl).trans (hd.trans (List.tail_suffix c))
    · exact List.suffix_rfl

/-- Reads an expression: the operand it begins with, then all that joins it. -/
def expression (grammar : Grammar) (reader : Reader) (floor : Precedence) :
    Parse Expression := do
  let token ← current
  match grammar.form? token.kind with
  | some form => climb grammar reader floor (← Parse.form reader form)
  | none =>
    report (.noExpression token.kind) token
    return .absent

theorem Forward.expression (grammar : Grammar) (reader : Reader) (floor : Precedence) :
    (expression grammar reader floor).Forward := by
  refine .bind .current fun token => ?_
  split
  · exact .bind (.form reader _) fun _ => .climb grammar reader floor _
  · exact .bind (.report _ _) fun _ => .pure _

/-- What is read where no further expression may be open. -/
def tooDeep : Parse Expression := do
  report (.nestingTooDeep maxNesting) (← current)
  return .absent

theorem Forward.tooDeep : tooDeep.Forward :=
  .bind .current fun _ => .bind (.report _ _) fun _ => .pure _

end Parse

/-- Reads expressions of which at most `levels` are open at once. -/
def Reader.ofLevels (grammar : Grammar) : Nat → Reader
  | 0 => ⟨fun _ => Parse.tooDeep, fun _ => .tooDeep⟩
  | levels + 1 =>
    ⟨Parse.expression grammar (ofLevels grammar levels), fun _ => .expression grammar _ _⟩

end ExprLang
