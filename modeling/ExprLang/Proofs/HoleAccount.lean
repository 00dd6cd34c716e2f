import ExprLang.Proofs.CleanRun

namespace ExprLang

open Parse

mutual

/-- How many expressions are absent where one belongs. -/
def Expression.holes : Expression → Nat
  | .absent => 1
  | .identifier _ | .integer _ _ | .boolean _ _ => 0
  | .unary _ _ operand => operand.holes
  | .binary _ left _ right => left.holes + right.holes
  | .conditional _ condition consequence alternative =>
    condition.holes + consequence.holes + Block.alternativeHoles alternative
  | .function _ _ body => body.holes

/-- Bindings and results are read without their values, which are no holes. -/
def Statement.holes : Statement → Nat
  | .binding _ _ .absent | .result _ .absent => 0
  | .binding _ _ value | .result _ value | .expression _ value => value.holes
  | .block body => body.holes

def Block.holes : Block → Nat
  | .mk _ statements => Statement.allHoles statements

def Block.alternativeHoles : Option Block → Nat
  | none => 0
  | some block => block.holes

def Statement.allHoles : List Statement → Nat
  | [] => 0
  | statement :: statements => statement.holes + Statement.allHoles statements

end

def Program.holes (program : Program) : Nat := Statement.allHoles program.statements

/-- The first token of a binding that is dropped. -/
def Event.droppedBinding? : Event → Option Token
  | bindingDropped token => some token
  | _ => none

def Parser.droppedBindings (parser : Parser) : List Token :=
  parser.journal.filterMap Event.droppedBinding?

/-- A name or an equals sign is missing, as it may be in a binding. -/
def Diagnostic.OfBinding (diagnostic : Diagnostic) : Prop :=
  ∃ found, diagnostic.cause = .unexpectedToken .identifier found ∨
    diagnostic.cause = .unexpectedToken .assign found

/-- Events on the way from `m` holes to `n`. Each hole that is new and each binding that is dropped
has a diagnostic; if no hole is left there was none before, and each diagnostic is of a binding
that is dropped. -/
structure Account (m : Nat) (events : List Event) (n : Nat) : Prop where
  le : n + (events.filterMap Event.droppedBinding?).length ≤
    m + (events.filterMap Event.diagnostic?).length
  of_eq_zero : n = 0 → m = 0 ∧
    (events.filterMap Event.diagnostic?).length ≤
      (events.filterMap Event.droppedBinding?).length ∧
    ∀ diagnostic ∈ events.filterMap Event.diagnostic?, diagnostic.OfBinding

namespace Account

variable {k m n : Nat} {events others : List Event} {diagnostic : Diagnostic}

theorem refl (n : Nat) : Account n [] n := by
  constructor
  · exact Nat.le_refl n
  · intro hn
    simp [hn]

theorem trans (h : Account k events m) (h' : Account m others n) :
    Account k (events ++ others) n := by
  have hle := h.le
  have hle' := h'.le
  constructor
  · simp only [List.filterMap_append, List.length_append]
    omega
  · intro hn
    obtain ⟨hm, hlength', hcauses'⟩ := h'.of_eq_zero hn
    obtain ⟨hk, hlength, hcauses⟩ := h.of_eq_zero hm
    simp only [List.filterMap_append, List.length_append]
    exact ⟨hk, Nat.add_le_add hlength hlength', List.forall_mem_append.2 ⟨hcauses, hcauses'⟩⟩

/-- Holes that are already there stay. -/
theorem add_left (h : Account m events n) (k : Nat) : Account (k + m) events (k + n) := by
  have hle := h.le
  constructor
  · omega
  · intro hn
    obtain ⟨hk, hn⟩ := Nat.add_eq_zero_iff.1 hn
    obtain ⟨hm, hevents⟩ := h.of_eq_zero hn
    exact ⟨Nat.add_eq_zero_iff.2 ⟨hk, hm⟩, hevents⟩

/-- An event that is neither a diagnostic nor a dropped binding leaves the holes as they are. -/
theorem silent {event : Event} (hdiagnostic : event.diagnostic? = none := by rfl)
    (hdropped : event.droppedBinding? = none := by rfl) : Account n [event] n := by
  constructor
  · simp [hdiagnostic, hdropped]
  · intro hn
    simp [hdiagnostic, hn]

/-- A diagnostic stands for one hole, however many are given up with what was read before. -/
theorem reported : Account n [.reported diagnostic] 1 := ⟨Nat.le_add_left _ _, nofun⟩

end Account

/-- What happens in an action accounts for the holes of what it gives, if `n` holes were there
before. -/
def Parse.Accounts {α : Type} (holes : α → Nat) (p : Parse α) (c : Cursor) (n : Nat) : Prop :=
  Account n (p c).events (holes (p c).value)

def Reader.Accounts (reader : Reader) : Prop :=
  ∀ floor c, (reader.read floor).Accounts Expression.holes c 0

/-- The holes of a statement, none if it was dropped. -/
def Statement.holes? (read? : Option Statement) : Nat := read?.elim 0 Statement.holes

/-- Names that could not be read leave a hole where their function would be. -/
def Identifier.listHoles (names? : Option (List Identifier)) : Nat := names?.elim 1 fun _ => 0

section Accounts

variable {α β : Type} {holes : α → Nat} {nothing : α} {p : Parse α} {q : Parse β}
  {f : β → Parse α} {kind : Kind} {reader : Reader} {grammar : Grammar} {c : Cursor} {n : Nat}

theorem accounts_pure {a : α} (h : holes a = n) : (pure a : Parse α).Accounts holes c n := by
  subst h
  exact .refl _

theorem accounts_bind {holes' : β → Nat} (hq : q.Accounts holes' c 0)
    (hf : (f (q c).value).Accounts holes (q c).cursor (n + holes' (q c).value)) :
    (q >>= f).Accounts holes c n :=
  (hq.add_left n).trans hf

theorem accounts_current_bind {f : Token → Parse α} :
    (current >>= f).Accounts holes c n ↔ (f (Cursor.current c)).Accounts holes c n := Iff.rfl

theorem accounts_peek_bind {f : Token → Parse α} :
    (peek >>= f).Accounts holes c n ↔ (f (Cursor.peek c)).Accounts holes c n := Iff.rfl

theorem accounts_identifier_bind {f : Identifier → Parse α} :
    (identifier >>= f).Accounts holes c n ↔
      (f (.ofToken (Cursor.current c))).Accounts holes c n := Iff.rfl

theorem accounts_advance_bind {f : Unit → Parse α} (h : (f ()).Accounts holes c.tail n) :
    (advance >>= f).Accounts holes c n :=
  Account.trans .silent h

theorem accounts_report (cause : Cause) (token : Token) (hnothing : holes nothing = 1) :
    (report cause token >>= fun _ => pure nothing).Accounts holes c n :=
  Account.trans .reported (accounts_pure hnothing)

theorem accounts_past (hnothing : holes nothing = 1)
    (hp : c.peek.kind = kind → p.Accounts holes c.tail n) :
    (past kind nothing p).Accounts holes c n := by
  by_cases h : c.peek.kind = kind
  · rw [Parse.Accounts, past_of_peek h]
    exact Account.trans .silent (hp h)
  · -- all that was read so far is given up, and with it the holes in it
    rw [Parse.Accounts, past_of_peek_ne h, hnothing]
    exact .reported

/-- A repeated action gives as many holes as its steps together. -/
theorem accounts_repeatUntil {closer : Kind} {step : Parse α} {hstep : step.Advances}
    {total : List α → Nat} (hnil : total [] = 0)
    (hcons : ∀ first others, total (first :: others) = holes first + total others)
    (hholes : ∀ d, step.Accounts holes d 0) :
    (repeatUntil closer step hstep).Accounts total c 0 := by
  induction hlength : c.length using Nat.strongRecOn generalizing c with
  | ind n ih =>
    rw [Parse.Accounts, repeatUntil_apply]
    split
    · rw [hnil]
      exact .refl 0
    · next hstop =>
      obtain ⟨token, rest, rfl⟩ := Cursor.exists_of_current (ne_endOfInput_of_not_stop hstop)
      have hlt : (step (token :: rest)).cursor.length < n :=
        hlength ▸ Nat.lt_succ_of_le (hstep (token :: rest)).length_le
      change (step >>= _).Accounts total _ 0
      apply accounts_bind (hholes _)
      apply accounts_bind (ih _ hlt rfl)
      apply accounts_pure
      rw [hcons, Nat.zero_add]

theorem accounts_integer : integer.Accounts Expression.holes c 0 := by
  rw [integer, accounts_current_bind]
  split
  · exact accounts_pure rfl
  · exact accounts_report _ _ rfl

theorem accounts_unary (hR : reader.Accounts) : (unary reader).Accounts Expression.holes c 0 := by
  rw [unary, accounts_current_bind]
  apply accounts_advance_bind
  apply accounts_bind (hR .unary _)
  exact accounts_pure (Nat.zero_add _).symm

theorem accounts_group (hR : reader.Accounts) : (group reader).Accounts Expression.holes c 0 := by
  rw [group]
  apply accounts_advance_bind
  apply accounts_bind (hR .lowest _)
  exact accounts_past rfl fun _ => accounts_pure (Nat.zero_add _).symm

theorem accounts_names : names.Accounts Identifier.listHoles c 0 := by
  induction hlength : c.length using Nat.strongRecOn generalizing c with
  | ind n ih =>
    rw [names_eq]
    refine accounts_past rfl fun hname => ?_
    obtain ⟨before, name, c, rfl⟩ := Cursor.exists_of_peek_eq hname
    rw [List.tail_cons, accounts_identifier_bind, accounts_peek_bind]
    split
    · have hlt : c.length < n := by
        simp only [List.length_cons] at hlength
        omega
      apply accounts_advance_bind
      apply accounts_bind (ih _ hlt rfl)
      apply accounts_pure
      rw [Nat.zero_add]
      cases (names c).value <;> rfl
    · exact accounts_past rfl fun _ => accounts_pure rfl

theorem accounts_parameters : parameters.Accounts Identifier.listHoles c 0 := by
  rw [parameters, accounts_peek_bind]
  split
  · exact accounts_advance_bind (accounts_pure rfl)
  · exact accounts_names

theorem skipValue_silent (c : Cursor) :
    (skipValue c).events.filterMap Event.diagnostic? = [] ∧
      (skipValue c).events.filterMap Event.droppedBinding? = [] := by
  have hevents : (skipValue c).events = (repeatUntil .semicolon advance .advance c).events :=
    List.append_nil _
  rw [hevents]
  clear hevents
  induction c with
  | nil =>
    rw [repeatUntil]
    exact ⟨rfl, rfl⟩
  | cons token c ih =>
    rw [repeatUntil]
    split
    · exact ⟨rfl, rfl⟩
    · exact ih

/-- A binding is read without a diagnostic, or it is dropped with one diagnostic. -/
theorem binding_account (c : Cursor) :
    (∃ statement, (binding c).value = some statement ∧ statement.holes = 0 ∧
      (binding c).events.filterMap Event.diagnostic? = [] ∧
      (binding c).events.filterMap Event.droppedBinding? = []) ∨
    ((binding c).value = none ∧
      (∃ diagnostic, (binding c).events.filterMap Event.diagnostic? = [diagnostic] ∧
        diagnostic.OfBinding) ∧
      (binding c).events.filterMap Event.droppedBinding? = [c.current]) := by
  rw [binding, current_bind, bind_apply]
  by_cases hname : c.peek.kind = .identifier
  · rw [past_of_peek hname, identifier_bind]
    by_cases hassign : (Cursor.peek c.tail).kind = .assign
    · rw [past_of_peek hassign]
      obtain ⟨hdiagnostics, hdropped⟩ := skipValue_silent c.tail.tail.tail
      refine .inl ⟨_, rfl, rfl, ?_, ?_⟩
      · simpa [Outcome.after, Event.diagnostic?] using hdiagnostics
      · simpa [Outcome.after, Event.droppedBinding?] using hdropped
    · rw [past_of_peek_ne hassign]
      exact .inr ⟨rfl, ⟨_, rfl, _, .inr rfl⟩, rfl⟩
  · rw [past_of_peek_ne hname]
    exact .inr ⟨rfl, ⟨_, rfl, _, .inl rfl⟩, rfl⟩

theorem accounts_binding : binding.Accounts Statement.holes? c 0 := by
  obtain ⟨statement, hvalue, hholes, hdiagnostics, hdropped⟩ | ⟨hvalue, ⟨diagnostic, hdiagnostics,
    hbinding⟩, hdropped⟩ := binding_account c
  · rw [Parse.Accounts, hvalue, Statement.holes?, Option.elim_some, hholes]
    constructor <;> simp [hdiagnostics, hdropped]
  · rw [Parse.Accounts, hvalue]
    constructor <;> simp [hdiagnostics, hdropped, hbinding, Statement.holes?]

theorem accounts_result : result.Accounts Statement.holes c 0 := by
  rw [result, accounts_current_bind]
  apply accounts_advance_bind
  rw [accounts_current_bind]
  split
  · exact accounts_pure rfl
  · exact accounts_advance_bind (accounts_pure rfl)

theorem accounts_expressionStatement (hR : reader.Accounts) :
    (expressionStatement reader).Accounts Statement.holes c 0 := by
  rw [expressionStatement, accounts_current_bind]
  apply accounts_bind (hR .lowest _)
  rw [accounts_peek_bind, Nat.zero_add]
  split
  · exact accounts_advance_bind (accounts_pure rfl)
  · exact accounts_pure rfl

theorem accounts_statement (hR : reader.Accounts) :
    (statement reader).Accounts Statement.holes? c 0 := by
  rw [Parse.Accounts, statement_apply]
  split
  · exact accounts_binding
  · split
    · rw [map_apply]
      exact accounts_result
    · rw [map_apply]
      exact accounts_expressionStatement hR

theorem Statement.allHoles_filterMap_cons (read? : Option Statement)
    (others : List (Option Statement)) :
    Statement.allHoles ((read? :: others).filterMap id) =
      Statement.holes? read? + Statement.allHoles (others.filterMap id) := by
  cases read? with
  | none => exact (Nat.zero_add _).symm
  | some statement => rfl

theorem accounts_statementStep (hR : reader.Accounts) :
    (statementStep reader).Accounts Statement.holes? c 0 := by
  apply accounts_bind (accounts_statement hR)
  exact accounts_advance_bind (accounts_pure (Nat.zero_add _).symm)

theorem accounts_statements (hR : reader.Accounts) (closer : Kind) :
    (statements reader closer).Accounts Statement.allHoles c 0 := by
  rw [Parse.Accounts, statements, map_apply]
  change (repeatUntil closer _ _).Accounts
    (fun read : List (Option Statement) => Statement.allHoles (read.filterMap id)) c 0
  exact accounts_repeatUntil rfl Statement.allHoles_filterMap_cons fun _ =>
    accounts_statementStep hR

theorem accounts_block (hR : reader.Accounts) : (block reader).Accounts Block.holes c 0 := by
  rw [block, accounts_current_bind]
  apply accounts_advance_bind
  apply accounts_bind (accounts_statements hR .rBrace)
  rw [Nat.zero_add, accounts_current_bind]
  exact Account.trans .silent (accounts_pure rfl)

theorem accounts_conditional (hR : reader.Accounts) :
    (conditional reader).Accounts Expression.holes c 0 := by
  rw [conditional, accounts_current_bind]
  refine accounts_past rfl fun _ => ?_
  apply accounts_advance_bind
  apply accounts_bind (hR .lowest _)
  refine accounts_past rfl fun _ => ?_
  refine accounts_past rfl fun _ => ?_
  apply accounts_bind (accounts_block hR)
  rw [accounts_peek_bind, Nat.zero_add]
  split
  · apply accounts_advance_bind
    refine accounts_past rfl fun _ => ?_
    apply accounts_bind (accounts_block hR)
    exact accounts_pure rfl
  · exact accounts_pure rfl

theorem accounts_function (hR : reader.Accounts) :
    (function reader).Accounts Expression.holes c 0 := by
  rw [function, accounts_current_bind]
  refine accounts_past rfl fun _ => ?_
  apply accounts_bind accounts_parameters
  cases (parameters c.tail).value with
  | none => exact accounts_pure rfl
  | some names =>
    refine accounts_past rfl fun _ => ?_
    apply accounts_bind (accounts_block hR)
    exact accounts_pure (Nat.zero_add _).symm

theorem accounts_form (hR : reader.Accounts) (start : Form) :
    (Parse.form reader start).Accounts Expression.holes c 0 := by
  cases start with
  | identifier => exact Account.refl 0
  | integer => exact accounts_integer
  | boolean => exact accounts_pure rfl
  | unary => exact accounts_unary hR
  | group => exact accounts_group hR
  | conditional => exact accounts_conditional hR
  | function => exact accounts_function hR

theorem accounts_binary (hR : reader.Accounts) (left : Expression) :
    (binary grammar reader left).Accounts Expression.holes c left.holes := by
  rw [binary, accounts_current_bind]
  apply accounts_advance_bind
  apply accounts_bind (hR _ _)
  exact accounts_pure rfl

/-- Operators lose none of the holes of the operand on their left. -/
theorem accounts_climb (hR : reader.Accounts) (floor : Precedence) (left : Expression) :
    (climb grammar reader floor left).Accounts Expression.holes c left.holes := by
  induction hlength : c.length using Nat.strongRecOn generalizing c left with
  | ind n ih =>
    rw [climb_eq, accounts_peek_bind]
    split
    · next hjoins =>
      have hlt := hlength ▸ length_lt_of_joins hjoins (Forward.binary grammar reader left c.tail)
      apply accounts_advance_bind
      exact (accounts_binary hR left).trans (ih _ hlt _ rfl)
    · exact accounts_pure rfl

theorem accounts_expression (hR : reader.Accounts) (floor : Precedence) :
    (expression grammar reader floor).Accounts Expression.holes c 0 := by
  rw [expression, accounts_current_bind]
  split
  · exact (accounts_form hR _).trans (accounts_climb hR floor _)
  · exact accounts_report _ _ rfl

end Accounts

theorem Reader.accounts_ofLevels (grammar : Grammar) (levels : Nat) :
    (Reader.ofLevels grammar levels).Accounts := by
  induction levels with
  | zero => exact fun _ _ => accounts_report _ _ rfl
  | succ levels ih => exact fun floor _ => accounts_expression ih floor

theorem Parser.account_program {parser : Parser} (h : Account 0 parser.journal 0) :
    Account 0 parser.program.2.journal parser.program.1.holes :=
  (h.trans (accounts_statements (Reader.accounts_ofLevels _ _) .endOfInput)).trans .silent

/-- Each hole of a parsed program and each dropped binding has a diagnostic, and a program without
holes has no other diagnostics than those of the bindings that were dropped. -/
theorem parse_account (source : String) :
    (parse source).1.holes + (parse source).2.droppedBindings.length ≤
        (parse source).2.diagnostics.length ∧
      ((parse source).2.diagnostics = [] →
        (parse source).1.holes = 0 ∧ (parse source).2.droppedBindings = []) ∧
      ((parse source).1.holes = 0 →
        (parse source).2.diagnostics.length = (parse source).2.droppedBindings.length ∧
          ∀ diagnostic ∈ (parse source).2.diagnostics, diagnostic.OfBinding) := by
  have haccount : Account 0 (parse source).2.journal (parse source).1.holes :=
    Parser.account_program (Account.trans .silent .silent)
  have hle : (parse source).1.holes + (parse source).2.droppedBindings.length ≤
      (parse source).2.diagnostics.length := by
    simpa [Parser.droppedBindings, Parser.diagnostics] using haccount.le
  refine ⟨hle, ?_, ?_⟩
  · intro hnone
    rw [hnone, List.length_nil] at hle
    obtain ⟨hholes, hdropped⟩ := Nat.add_eq_zero_iff.1 (Nat.eq_zero_of_le_zero hle)
    exact ⟨hholes, List.length_eq_zero_iff.1 hdropped⟩
  · intro hholes
    obtain ⟨-, hlength, hcauses⟩ := haccount.of_eq_zero hholes
    exact ⟨Nat.le_antisymm hlength (Nat.le_trans (Nat.le_add_left _ _) hle), hcauses⟩

theorem parse_account_binding :
    (parse "let x = 5; a").2.diagnostics = [] ∧
      ((parse "let x = 5; a").1.holes = 0 ∧ (parse "let x = 5; a").2.droppedBindings = []) ∧
      (parse "let 5; a").1.holes = 0 ∧
      ((parse "let 5; a").2.diagnostics.length = (parse "let 5; a").2.droppedBindings.length ∧
        ∀ diagnostic ∈ (parse "let 5; a").2.diagnostics, diagnostic.OfBinding) ∧
      (parse "let 5; a").2.droppedBindings = [.ofWord "let"] := by
  have hclean : (parse "let x = 5; a").2.diagnostics = [] := by decide +kernel
  have hholes : (parse "let 5; a").1.holes = 0 := by decide +kernel
  have hdropped : (parse "let 5; a").2.droppedBindings = [.ofWord "let"] := by decide +kernel
  exact ⟨hclean, (parse_account _).2.1 hclean, hholes, (parse_account _).2.2 hholes, hdropped⟩

end ExprLang
