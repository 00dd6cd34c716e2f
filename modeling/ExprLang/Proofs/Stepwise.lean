import ExprLang.Proofs.CleanRun
import Mathlib.Tactic.Choose

namespace ExprLang

/-- What a reader notes down on its way: neither a move nor the end of the parse. -/
def Event.IsNote : Event → Prop
  | .reported _ | .bindingDropped _ | .blockEnded _ => True
  | .advanced .. | .finished .. => False

namespace Parse

/-- An action that goes through the tokens step by step: it looks at the two in view, moves on by
one and notes down what it finds. It may do so without a bound, as long as every cursor has one. -/
inductive Stepwise : {α : Type} → Parse α → Prop
  | pure {α : Type} (a : α) : Stepwise (Pure.pure a : Parse α)
  | bind {α β : Type} {p : Parse α} {f : α → Parse β} (hp : Stepwise p)
      (hf : ∀ a, Stepwise (f a)) : Stepwise (p >>= f)
  | current : Stepwise current
  | peek : Stepwise peek
  | advance : Stepwise advance
  | record {event : Event} (h : event.IsNote) : Stepwise (record event)
  | bounded {α : Type} {p : Parse α} (q : Nat → Parse α) (hq : ∀ n, Stepwise (q n))
      (h : ∀ n c, c.length ≤ n → p c = q n c) : Stepwise p

end Parse

/-- A reader whose every action is stepwise. -/
def Reader.Stepwise (reader : Reader) : Prop := ∀ floor, (reader.read floor).Stepwise

namespace Parse.Stepwise

variable {α β ι : Type} {p q : Parse α} {nothing : α} {kind : Kind} {reader : Reader}
  {grammar : Grammar}

/-- A family of actions that is its own step wherever the step calls it on fewer tokens. -/
theorem fix [Inhabited α] (p : ι → Parse α) (step : (ι → Parse α) → ι → Parse α)
    (hstep : ∀ q, (∀ i, (q i).Stepwise) → ∀ i, (step q i).Stepwise)
    (h : ∀ q c, (∀ i d, d.length < c.length → p i d = q i d) → ∀ i, p i c = step q i c) (i : ι) :
    (p i).Stepwise := by
  have hbounded (n : Nat) :
      ∃ q : ι → Parse α, (∀ i, (q i).Stepwise) ∧ ∀ i c, c.length < n → p i c = q i c := by
    induction n with
    | zero => exact ⟨fun _ => Pure.pure default, fun _ => .pure _, nofun⟩
    | succ n ih =>
      obtain ⟨q, hq, hp⟩ := ih
      refine ⟨step q, hstep q hq, fun i c hc => h q c (fun j d hd => hp j d ?_) i⟩
      omega
  choose q hq hp using hbounded
  exact .bounded (fun n => q (n + 1) i) (fun n => hq (n + 1) i)
    fun n c hc => hp (n + 1) i c (Nat.lt_succ_of_le hc)

theorem map (hp : p.Stepwise) (f : α → β) : (f <$> p).Stepwise := hp.bind fun _ => .pure _

theorem ite {b : Prop} [Decidable b] (hp : p.Stepwise) (hq : q.Stepwise) :
    (if b then p else q).Stepwise := by
  split
  · exact hp
  · exact hq

theorem report (cause : Cause) (token : Token) : (report cause token).Stepwise := .record trivial

theorem expect (kind : Kind) : (expect kind).Stepwise :=
  .bind .peek fun _ =>
    .ite (.bind .advance fun _ => .pure _) (.bind (.report _ _) fun _ => .pure _)

theorem past (hp : p.Stepwise) : (past kind nothing p).Stepwise :=
  .bind (.expect kind) fun _ => .ite hp (.pure _)

theorem repeatUntil {closer : Kind} {turn : Parse α} (hadvances : turn.Advances)
    (hturn : turn.Stepwise) : (repeatUntil closer turn hadvances).Stepwise := by
  refine fix (fun _ : Unit => Parse.repeatUntil closer turn hadvances) (fun q _ => do
    let token ← Parse.current
    if token.is closer || token.is .endOfInput then
      return []
    else
      return (← turn) :: (← q ())) ?_ ?_ ()
  · exact fun q hq _ => .bind .current fun _ =>
      .ite (.pure _) (.bind hturn fun _ => .bind (hq ()) fun _ => .pure _)
  · intro q c hq _
    rw [repeatUntil_apply, current_bind]
    split
    · rfl
    · next hstop =>
      obtain ⟨token, rest, rfl⟩ := Cursor.exists_of_current (ne_endOfInput_of_not_stop hstop)
      have hlt : (turn (token :: rest)).cursor.length < (token :: rest).length :=
        Nat.lt_succ_of_le (hadvances (token :: rest)).length_le
      simp only [bind_apply, hq () _ hlt]

theorem identifier : identifier.Stepwise := .bind .current fun _ => .pure _

theorem skipValue : skipValue.Stepwise := .map (.repeatUntil _ .advance) _

theorem binding : binding.Stepwise :=
  .bind .current fun _ =>
    .bind (.past (.bind .identifier fun _ => .past (.bind .advance fun _ =>
      .bind .skipValue fun _ => .pure _))) fun _ =>
    .ite (.bind (.record trivial) fun _ => .pure _) (.pure _)

theorem result : result.Stepwise :=
  .bind .current fun _ => .bind .advance fun _ => .bind .current fun _ =>
    .ite (.pure _) (.bind .advance fun _ => .pure _)

theorem expressionStatement (hR : reader.Stepwise) : (expressionStatement reader).Stepwise :=
  .bind .current fun _ => .bind (hR _) fun _ => .bind .peek fun _ =>
    .ite (.bind .advance fun _ => .pure _) (.pure _)

theorem statement (hR : reader.Stepwise) : (statement reader).Stepwise := by
  refine .bind .current fun token => ?_
  split
  · exact .binding
  · exact .map .result _
  · exact .map (.expressionStatement hR) _

theorem statementStep (hR : reader.Stepwise) : (statementStep reader).Stepwise :=
  .bind (.statement hR) fun _ => .bind .advance fun _ => .pure _

theorem statements (hR : reader.Stepwise) (closer : Kind) :
    (statements reader closer).Stepwise :=
  .map (.repeatUntil _ (.statementStep hR)) _

theorem block (hR : reader.Stepwise) : (block reader).Stepwise :=
  .bind .current fun _ => .bind .advance fun _ => .bind (.statements hR _) fun _ =>
    .bind .current fun _ => .bind (.record trivial) fun _ => .pure _

theorem integer : integer.Stepwise := by
  refine .bind .current fun token => ?_
  split
  · exact .pure _
  · exact .bind (.report _ _) fun _ => .pure _

theorem boolean : boolean.Stepwise := .bind .current fun _ => .pure _

theorem unary (hR : reader.Stepwise) : (unary reader).Stepwise :=
  .bind .current fun _ => .bind .advance fun _ => .bind (hR _) fun _ => .pure _

theorem group (hR : reader.Stepwise) : (group reader).Stepwise :=
  .bind .advance fun _ => .bind (hR _) fun _ => .past (.pure _)

theorem conditional (hR : reader.Stepwise) : (conditional reader).Stepwise :=
  .bind .current fun _ => .past <| .bind .advance fun _ => .bind (hR _) fun _ =>
    .past <| .past <| .bind (.block hR) fun _ => .bind .peek fun _ =>
      .ite (.bind .advance fun _ => .past <| .bind (.block hR) fun _ => .pure _) (.pure _)

theorem names : names.Stepwise := by
  refine fix (fun _ : Unit => Parse.names) (fun q _ => Parse.past .identifier none (do
    let name ← Parse.identifier
    if (← Parse.peek).is .comma then
      Parse.advance
      return (← q ()).map (name :: ·)
    else
      Parse.past .rParen none (return some [name]))) ?_ ?_ ()
  · exact fun q hq _ => .past <| .bind .identifier fun _ => .bind .peek fun _ =>
      .ite (.bind .advance fun _ => .bind (hq ()) fun _ => .pure _) (.past (.pure _))
  · intro q c hq _
    rw [names_eq]
    by_cases hname : c.peek.kind = .identifier
    · obtain ⟨before, name, c, rfl⟩ := Cursor.exists_of_peek_eq hname
      have hlt : c.length < (before :: name :: c).length := by
        simp only [List.length_cons]
        omega
      simp only [past_of_peek hname, identifier_bind, peek_bind, List.tail_cons]
      split
      · simp only [bind_apply, advance_apply, List.tail_cons, hq () _ hlt]
      · rfl
    · rw [past_of_peek_ne hname, past_of_peek_ne hname]

theorem parameters : parameters.Stepwise :=
  .bind .peek fun _ => .ite (.bind .advance fun _ => .pure _) .names

theorem function (hR : reader.Stepwise) : (function reader).Stepwise := by
  refine .bind .current fun token => .past <| .bind .parameters fun parameters? => ?_
  split
  · exact .pure _
  · exact .past <| .bind (.block hR) fun _ => .pure _

theorem binary (hR : reader.Stepwise) (left : Expression) :
    (binary grammar reader left).Stepwise :=
  .bind .current fun _ => .bind .advance fun _ => .bind (hR _) fun _ => .pure _

theorem form (hR : reader.Stepwise) (start : Form) : (Parse.form reader start).Stepwise := by
  cases start with
  | identifier => exact .map .identifier _
  | integer => exact .integer
  | boolean => exact .boolean
  | unary => exact .unary hR
  | group => exact .group hR
  | conditional => exact .conditional hR
  | function => exact .function hR

theorem climb (hR : reader.Stepwise) (floor : Precedence) (left : Expression) :
    (climb grammar reader floor left).Stepwise := by
  refine fix (Parse.climb grammar reader floor) (fun q left => do
    if grammar.joins floor (← Parse.peek).kind then
      Parse.advance
      q (← Parse.binary grammar reader left)
    else
      return left) ?_ ?_ left
  · exact fun q hq left => .bind .peek fun _ =>
      .ite (.bind .advance fun _ => .bind (.binary hR left) fun _ => hq _) (.pure _)
  · intro q c hq left
    rw [climb_eq, peek_bind, peek_bind]
    split
    · next hjoins =>
      have hlt := length_lt_of_joins hjoins (Forward.binary grammar reader left c.tail)
      simp only [bind_apply, advance_apply, hq _ _ hlt]
    · rfl

theorem expression (hR : reader.Stepwise) (floor : Precedence) :
    (expression grammar reader floor).Stepwise := by
  refine .bind .current fun token => ?_
  split
  · exact .bind (.form hR _) fun _ => .climb hR floor _
  · exact .bind (.report _ _) fun _ => .pure _

theorem tooDeep : tooDeep.Stepwise :=
  .bind .current fun _ => .bind (.report _ _) fun _ => .pure _

end Parse.Stepwise

theorem Reader.stepwise_ofLevels (grammar : Grammar) (levels : Nat) :
    (Reader.ofLevels grammar levels).Stepwise := by
  induction levels with
  | zero => exact fun _ => .tooDeep
  | succ levels ih => exact fun floor => .expression ih floor

theorem stepwise_program :
    (Parse.statements (.ofLevels .standard maxNesting) .endOfInput).Stepwise :=
  .statements (Reader.stepwise_ofLevels _ _) _

end ExprLang
