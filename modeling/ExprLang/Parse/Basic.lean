import ExprLang.Event

namespace ExprLang

/-- The tokens from the current one on, without the end of the input. -/
abbrev Cursor := List Token

namespace Cursor

def current (cursor : Cursor) : Token := cursor.headD .endOfInput

def peek (cursor : Cursor) : Token := current cursor.tail

theorem ne_nil_of_current {cursor : Cursor} (h : cursor.current.kind ≠ .endOfInput) :
    cursor ≠ [] := by
  rintro rfl
  exact h rfl

theorem tail_ne_nil_of_peek {cursor : Cursor} (h : cursor.peek.kind ≠ .endOfInput) :
    cursor.tail ≠ [] :=
  ne_nil_of_current h

end Cursor

/-- What an action gives, where it stops, and what it does on the way. -/
structure Outcome (α : Type) where
  value : α
  cursor : Cursor
  events : List Event

namespace Outcome

variable {α β : Type}

def map (f : α → β) (outcome : Outcome α) : Outcome β :=
  { outcome with value := f outcome.value }

/-- The same outcome with events before its own. -/
def after (events : List Event) (outcome : Outcome α) : Outcome α :=
  { outcome with events := events ++ outcome.events }

end Outcome

/-- An action on the tokens that are left. -/
def Parse (α : Type) := Cursor → Outcome α

namespace Parse

variable {α β : Type}

instance : Monad Parse where
  pure a := fun c => ⟨a, c, []⟩
  bind p f := fun c =>
    let first := p c
    let second := f first.value first.cursor
    ⟨second.value, second.cursor, first.events ++ second.events⟩

@[simp] theorem pure_apply (a : α) (c : Cursor) : (pure a : Parse α) c = ⟨a, c, []⟩ := rfl

@[simp] theorem bind_apply (p : Parse α) (f : α → Parse β) (c : Cursor) :
    (p >>= f) c = ⟨(f (p c).value (p c).cursor).value, (f (p c).value (p c).cursor).cursor,
      (p c).events ++ (f (p c).value (p c).cursor).events⟩ := rfl

instance : LawfulMonad Parse :=
  LawfulMonad.mk' Parse
    (fun p => funext fun c => by
      change Outcome.mk _ _ ((p c).events ++ []) = p c
      rw [List.append_nil]
      rfl)
    (fun a f => rfl)
    (fun p f g => funext fun c => by simp)

@[simp] theorem map_apply (f : α → β) (p : Parse α) (c : Cursor) :
    (f <$> p) c = ⟨f (p c).value, (p c).cursor, (p c).events⟩ := by
  rw [map_eq_pure_bind, bind_apply, pure_apply, List.append_nil]

def current : Parse Token := fun c => ⟨c.current, c, []⟩

def peek : Parse Token := fun c => ⟨c.peek, c, []⟩

/-- Moves on by one token. At the end of the input there is nothing to move past. -/
def advance : Parse Unit := fun c =>
  ⟨(), c.tail, [.advanced (Cursor.current c.tail) (Cursor.peek c.tail)]⟩

def record (event : Event) : Parse Unit := fun c => ⟨(), c, [event]⟩

def report (cause : Cause) (token : Token) : Parse Unit := record (.reported ⟨cause, token⟩)

@[simp] theorem current_apply (c : Cursor) : current c = ⟨c.current, c, []⟩ := rfl

@[simp] theorem peek_apply (c : Cursor) : peek c = ⟨c.peek, c, []⟩ := rfl

@[simp] theorem advance_apply (c : Cursor) :
    advance c = ⟨(), c.tail, [.advanced (Cursor.current c.tail) (Cursor.peek c.tail)]⟩ := rfl

@[simp] theorem record_apply (event : Event) (c : Cursor) : record event c = ⟨(), c, [event]⟩ :=
  rfl

@[simp] theorem report_apply (cause : Cause) (token : Token) (c : Cursor) :
    report cause token c = ⟨(), c, [.reported ⟨cause, token⟩]⟩ := rfl

/-- Moves onto the next token if it is of the given kind and reports it otherwise. -/
def expect (kind : Kind) : Parse Bool := do
  let next ← peek
  if next.is kind then
    advance
    return true
  else
    report (.unexpectedToken kind next.kind) next
    return false

theorem expect_apply (kind : Kind) (c : Cursor) :
    expect kind c = if c.peek.is kind then
        ⟨true, c.tail, [.advanced (Cursor.current c.tail) (Cursor.peek c.tail)]⟩
      else ⟨false, c, [.reported ⟨.unexpectedToken kind c.peek.kind, c.peek⟩]⟩ := by
  by_cases h : c.peek.is kind <;> simp [expect, h]

theorem length_expect_lt {kind : Kind} {c : Cursor} (hkind : kind ≠ .endOfInput)
    (h : (expect kind c).value = true) : (expect kind c).cursor.length < c.length := by
  rw [expect_apply] at h ⊢
  split at h
  · next hpeek =>
    have hnext : c.peek.kind = kind := by simpa [Token.is] using hpeek
    have hpos := List.length_pos_iff.2 (Cursor.tail_ne_nil_of_peek (hnext ▸ hkind))
    rw [if_pos hpeek]
    simp only [List.length_tail] at hpos ⊢
    omega
  · contradiction

/-- Goes on past a token of the given kind; without one there is nothing to go on with. -/
def past (kind : Kind) (nothing : α) (p : Parse α) : Parse α := do
  if ← expect kind then p else return nothing

/-- An action that only ever moves on. -/
def Forward (p : Parse α) : Prop := ∀ c, (p c).cursor <:+ c

/-- An action that moves on by at least one token. -/
def Advances (p : Parse α) : Prop := ∀ c, (p c).cursor <:+ c.tail

theorem Advances.forward {p : Parse α} (h : p.Advances) : p.Forward :=
  fun c => (h c).trans (List.tail_suffix c)

theorem Forward.pure (a : α) : (Pure.pure a : Parse α).Forward := fun _ => List.suffix_rfl

theorem Forward.bind {p : Parse α} {f : α → Parse β} (hp : p.Forward)
    (hf : ∀ a, (f a).Forward) : (p >>= f).Forward :=
  fun c => (hf _ _).trans (hp c)

theorem Forward.map {p : Parse α} (hp : p.Forward) (f : α → β) : (f <$> p).Forward :=
  hp.bind fun _ => .pure _

theorem Forward.ite {p q : Parse α} {b : Prop} [Decidable b] (hp : p.Forward)
    (hq : q.Forward) : (if b then p else q).Forward := by
  split
  · exact hp
  · exact hq

theorem Advances.bind {p : Parse α} {f : α → Parse β} (hp : p.Advances)
    (hf : ∀ a, (f a).Forward) : (p >>= f).Advances :=
  fun c => (hf _ _).trans (hp c)

theorem Advances.bind_right {p : Parse α} {f : α → Parse β} (hp : p.Forward)
    (hf : ∀ a, (f a).Advances) : (p >>= f).Advances := by
  intro c
  have hc := hp c
  refine (hf _ _).trans ?_
  generalize (p c).cursor = d at hc
  obtain ⟨passed, rfl⟩ := hc
  cases passed with
  | nil => exact List.suffix_rfl
  | cons token passed => exact (List.tail_suffix d).trans (List.suffix_append passed d)

theorem Forward.current : current.Forward := fun _ => List.suffix_rfl

theorem Forward.peek : peek.Forward := fun _ => List.suffix_rfl

theorem Advances.advance : advance.Advances := fun _ => List.suffix_rfl

theorem Forward.advance : advance.Forward := Advances.advance.forward

theorem Forward.record (event : Event) : (record event).Forward := fun _ => List.suffix_rfl

theorem Forward.report (cause : Cause) (token : Token) : (report cause token).Forward :=
  .record _

theorem Forward.expect (kind : Kind) : (expect kind).Forward :=
  .bind .peek fun _ => .ite (.bind .advance fun _ => .pure _) (.bind (.report _ _) fun _ => .pure _)

theorem Forward.past {kind : Kind} {nothing : α} {p : Parse α} (hp : p.Forward) :
    (past kind nothing p).Forward :=
  .bind (.expect kind) fun _ => .ite hp (.pure _)

/-- Repeats an action up to a token of kind `closer` or the end of the input. -/
def repeatUntil (closer : Kind) (step : Parse α) (h : step.Advances) : Parse (List α)
  | [] => ⟨[], [], []⟩
  | token :: rest =>
    if token.is closer || token.is .endOfInput then
      ⟨[], token :: rest, []⟩
    else
      let first := step (token :: rest)
      let others := repeatUntil closer step h first.cursor
      ⟨first.value :: others.value, others.cursor, first.events ++ others.events⟩
termination_by c => c.length
decreasing_by exact Nat.lt_succ_of_le (h (token :: rest)).length_le

theorem repeatUntil_apply (closer : Kind) (step : Parse α) (h : step.Advances) (c : Cursor) :
    repeatUntil closer step h c =
      if c.current.is closer || c.current.is .endOfInput then ⟨[], c, []⟩
      else (do return (← step) :: (← repeatUntil closer step h)) c := by
  cases c with
  | nil => simp [repeatUntil, Cursor.current, Token.is, Token.endOfInput]
  | cons token rest =>
    rw [repeatUntil]
    simp [Cursor.current]

theorem Forward.repeatUntil (closer : Kind) (step : Parse α) (h : step.Advances) :
    (repeatUntil closer step h).Forward
  | [] => by
    unfold Parse.repeatUntil
    exact List.suffix_rfl
  | token :: rest => by
    rw [Parse.repeatUntil]
    split
    · exact List.suffix_rfl
    · exact (Forward.repeatUntil closer step h _).trans (h.forward _)
termination_by c => c.length
decreasing_by exact Nat.lt_succ_of_le (h (token :: rest)).length_le

end Parse

end ExprLang
