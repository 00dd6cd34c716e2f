import ExprLang.Proofs.CleanRun
import ExprLang.Proofs.Machine

namespace ExprLang

open Parse

variable {α β : Type} {m : Machine α} {k : α → Machine β} {action : Parse α} {f : α → Parse β}
  {nothing : α} {kind : Kind} {g : Grammar} {depth n : Nat} {reader : Reader}

/-- The machine does what the action does wherever at most `n` tokens are left. -/
def Machine.Follows (g : Grammar) (depth n : Nat) (m : Machine α) (action : Parse α) : Prop :=
  ∀ (c : Cursor) (journal : List Event), c.length ≤ n →
    m ⟨g, depth, c, journal⟩ = some (Parser.run ⟨g, depth, c, journal⟩ action)

section Follows

theorem Parser.run_bind (parser : Parser) : parser.run (action >>= f) =
    (parser.run action).2.run (f (parser.run action).1) := by
  simp [Parser.run, List.append_assoc]

theorem Parser.run_pure (parser : Parser) (a : α) : parser.run (pure a) = (a, parser) := by
  simp [Parser.run]

theorem Parser.run_current (parser : Parser) :
    parser.run Parse.current = (parser.current, parser) := by
  simp [Parser.run, Parser.current]

theorem Parser.run_peek (parser : Parser) : parser.run Parse.peek = (parser.peek, parser) := by
  simp [Parser.run, Parser.peek]

theorem Parser.run_expect (parser : Parser) (kind : Kind) : parser.run (Parse.expect kind) =
    if parser.peek.is kind then (true, parser.advance)
    else (false, parser.report (.unexpectedToken kind parser.peek.kind) parser.peek) := by
  rw [Parser.run, expect_apply]
  by_cases h : parser.cursor.peek.is kind <;> simp only [h, Parser.peek] <;> rfl

theorem Machine.Follows.mono {n' : Nat} (h : m.Follows g depth n' action) (hle : n ≤ n') :
    m.Follows g depth n action :=
  fun c journal hc => h c journal (Nat.le_trans hc hle)

theorem follows_pure (a : α) : (pure a : Machine α).Follows g depth n (pure a) :=
  fun _ _ _ => congrArg some (Parser.run_pure _ a).symm

theorem follows_bind (hm : m.Follows g depth n action) (hforward : action.Forward)
    (hk : ∀ a, (k a).Follows g depth n (f a)) : (m >>= k).Follows g depth n (action >>= f) := by
  intro c journal hc
  have hstart := hm c journal hc
  have hrest := hk (action c).value (action c).cursor (journal ++ (action c).events)
    (Nat.le_trans (hforward c).length_le hc)
  rw [Parser.run_bind]
  refine Eq.trans ?_ hrest
  exact congrArg (Option.bind · fun read => k read.1 read.2) hstart

theorem follows_map (h : α → β) (hm : m.Follows g depth n action) (hforward : action.Forward) :
    (m >>= fun a => pure (h a)).Follows g depth n (h <$> action) :=
  follows_bind hm hforward fun _ => follows_pure _

/-- A token in view that is not the end of the input is one of those that are left. -/
theorem follows_current_bind {k : Token → Machine β} {f : Token → Parse β}
    (hk : ∀ token : Token, (token.kind ≠ .endOfInput → 1 ≤ n) →
      (k token).Follows g depth n (f token)) :
    (Machine.current >>= k).Follows g depth n (Parse.current >>= f) := by
  intro c journal hc
  have hleft (h : c.current.kind ≠ .endOfInput) : 1 ≤ n :=
    Nat.le_trans (List.length_pos_iff.2 (Cursor.ne_nil_of_current h)) hc
  rw [Parser.run_bind, Parser.run_current]
  exact hk c.current hleft c journal hc

theorem follows_peek_bind {k : Token → Machine β} {f : Token → Parse β}
    (hk : ∀ token : Token, (token.kind ≠ .endOfInput → 2 ≤ n) →
      (k token).Follows g depth n (f token)) :
    (Machine.peek >>= k).Follows g depth n (Parse.peek >>= f) := by
  intro c journal hc
  have hleft (h : c.peek.kind ≠ .endOfInput) : 2 ≤ n := by
    obtain ⟨token, next, rest, rfl⟩ := Cursor.exists_of_peek h
    rw [List.length_cons, List.length_cons] at hc
    omega
  rw [Parser.run_bind, Parser.run_peek]
  exact hk c.peek hleft c journal hc

theorem follows_grammar_bind {k : Grammar → Machine α} (hk : (k g).Follows g depth n action) :
    (Machine.grammar >>= k).Follows g depth n action :=
  fun c journal hc => hk c journal hc

theorem follows_advance : Machine.advance.Follows g depth n Parse.advance := fun _ _ _ => rfl

theorem follows_advance_bind {k : Unit → Machine β} {f : Unit → Parse β}
    (hk : (k ()).Follows g depth (n - 1) (f ())) :
    (Machine.advance >>= k).Follows g depth n (Parse.advance >>= f) := by
  intro c journal hc
  have hc' : c.tail.length ≤ n - 1 := by
    rw [List.length_tail]
    omega
  rw [Parser.run_bind]
  exact hk c.tail _ hc'

theorem follows_record (event : Event) :
    (Machine.record event).Follows g depth n (Parse.record event) :=
  fun _ _ _ => rfl

theorem follows_report (cause : Cause) (token : Token) :
    (Machine.report cause token).Follows g depth n (Parse.report cause token) :=
  follows_record _

theorem follows_past (hm : 2 ≤ n → m.Follows g depth (n - 1) action)
    (hkind : kind ≠ .endOfInput := by decide) :
    (Machine.past kind nothing m).Follows g depth n (Parse.past kind nothing action) := by
  intro c journal hc
  rw [Parse.past, Parser.run_bind]
  change (if (Parser.run ⟨g, depth, c, journal⟩ (Parse.expect kind)).1 then m else pure nothing)
    (Parser.run ⟨g, depth, c, journal⟩ (Parse.expect kind)).2 = _
  rw [Parser.run_expect]
  by_cases h : (Parser.peek ⟨g, depth, c, journal⟩).is kind
  · have hpeek : c.peek.kind = kind := Token.is_iff.1 h
    rw [if_pos h]
    obtain ⟨token, next, rest, rfl⟩ := Cursor.exists_of_peek_eq hpeek hkind
    rw [List.length_cons, List.length_cons] at hc
    have hrest : List.length (next :: rest) ≤ n - 1 := by
      rw [List.length_cons]
      omega
    exact hm (by omega) _ _ hrest
  · rw [if_neg h]
    exact follows_pure nothing _ _ hc

theorem follows_identifier : Machine.identifier.Follows g depth n Parse.identifier :=
  follows_current_bind fun _ _ => follows_pure _

variable {perform : (call : Call) → Machine call.Result}

theorem follows_integer : (Call.body perform (.form .integer)).Follows g depth n integer := by
  refine follows_current_bind fun token _ => ?_
  cases Numeral.read? token.literal with
  | some value => exact follows_pure _
  | none => exact follows_bind (follows_report _ _) (.report _ _) fun _ => follows_pure _

theorem follows_result : (Call.body perform .result).Follows g depth n result := by
  refine follows_current_bind fun token _ => ?_
  refine follows_bind follows_advance .advance fun _ => ?_
  refine follows_current_bind fun value _ => ?_
  split
  · exact follows_pure _
  · exact follows_bind follows_advance .advance fun _ => follows_pure _

theorem follows_parameters (hnames : (perform .names).Follows g depth n names) :
    (Call.body perform .parameters).Follows g depth n parameters := by
  refine follows_peek_bind fun next _ => ?_
  split
  · exact follows_bind follows_advance .advance fun _ => follows_pure _
  · exact hnames

theorem follows_names (hnames : 1 ≤ n → (perform .names).Follows g depth (n - 1) names) :
    (Call.body perform .names).Follows g depth n names := by
  rw [names_eq]
  refine follows_past fun hn => ?_
  refine follows_bind follows_identifier .identifier fun name => ?_
  refine follows_peek_bind fun next _ => ?_
  split
  · refine follows_bind follows_advance .advance fun _ => ?_
    exact follows_bind (hnames (Nat.le_of_lt hn)) .names fun _ => follows_pure _
  · exact follows_past fun _ => follows_pure _

theorem follows_skipValue
    (hskip : 1 ≤ n → (perform .skipValue).Follows g depth (n - 1) skipValue) :
    (Call.body perform .skipValue).Follows g depth n skipValue := by
  rw [skipValue_eq]
  refine follows_current_bind fun token hleft => ?_
  split
  · exact follows_pure _
  · next hstop =>
    have hn := hleft (ne_endOfInput_of_not_stop hstop)
    exact follows_advance_bind (hskip hn)

theorem follows_binding (hskip : (perform .skipValue).Follows g depth n skipValue) :
    (Call.body perform .binding).Follows g depth n binding := by
  refine follows_current_bind fun token _ => ?_
  refine follows_bind ?_ ?_ fun read? => ?_
  · refine follows_past fun hn => ?_
    refine follows_bind follows_identifier .identifier fun name => ?_
    refine follows_past fun hn => ?_
    refine follows_bind follows_advance .advance fun _ => ?_
    refine follows_bind (hskip.mono (by omega)) .skipValue fun _ => follows_pure _
  · exact .past (.bind .identifier fun _ => .past (.bind .advance fun _ =>
      .bind .skipValue fun _ => .pure _))
  · split
    · exact follows_bind (follows_record _) (.record _) fun _ => follows_pure _
    · exact follows_pure _

theorem follows_statement (hbinding : (perform .binding).Follows g depth n binding)
    (hresult : (perform .result).Follows g depth n result)
    (hexpression : (perform .expressionStatement).Follows g depth n (expressionStatement reader)) :
    (Call.body perform .statement).Follows g depth n (statement reader) := by
  refine follows_current_bind fun token _ => ?_
  generalize token.kind = kind
  cases kind with
  | letWord => exact hbinding
  | returnWord => exact follows_map some hresult .result
  | _ => exact follows_map some hexpression (.expressionStatement reader)

section Expression

variable (hexpression : ∀ floor,
  (perform (.expression floor)).Follows g depth n (reader.read floor))
include hexpression

theorem follows_binary (left : Expression) :
    (Call.body perform (.binary left)).Follows g depth n (binary g reader left) := by
  refine follows_current_bind fun token _ => ?_
  refine follows_grammar_bind ?_
  refine follows_bind follows_advance .advance fun _ => ?_
  exact follows_bind (hexpression _) (reader.forward _) fun _ => follows_pure _

theorem follows_unary : (Call.body perform (.form .unary)).Follows g depth n (unary reader) := by
  refine follows_current_bind fun token _ => ?_
  refine follows_bind follows_advance .advance fun _ => ?_
  exact follows_bind (hexpression _) (reader.forward _) fun _ => follows_pure _

theorem follows_group : (Call.body perform (.form .group)).Follows g depth n (group reader) := by
  refine follows_bind follows_advance .advance fun _ => ?_
  refine follows_bind (hexpression _) (reader.forward _) fun inner => ?_
  exact follows_past fun _ => follows_pure _

theorem follows_expressionStatement :
    (Call.body perform .expressionStatement).Follows g depth n (expressionStatement reader) := by
  refine follows_current_bind fun token _ => ?_
  refine follows_bind (hexpression _) (reader.forward _) fun value => ?_
  refine follows_peek_bind fun next _ => ?_
  split
  · exact follows_bind follows_advance .advance fun _ => follows_pure _
  · exact follows_pure _

end Expression

/-- An operator is a token of its own, and so each turn has less left than the one before. -/
theorem follows_operators (hbinary : ∀ left, 2 ≤ n →
      (perform (.binary left)).Follows g depth (n - 1) (binary g reader left))
    {floor : Precedence} (hoperators : ∀ left, 2 ≤ n →
      (perform (.operators floor left)).Follows g depth (n - 1) (climb g reader floor left))
    (left : Expression) :
    (Call.body perform (.operators floor left)).Follows g depth n (climb g reader floor left) := by
  rw [climb_eq]
  refine follows_peek_bind fun next hleft => ?_
  refine follows_grammar_bind ?_
  split
  · next hjoins =>
    have hn := hleft (Grammar.ne_endOfInput_of_joins hjoins)
    refine follows_advance_bind ?_
    exact follows_bind (hbinary left hn) (.binary g reader left) fun joined => hoperators joined hn
  · exact follows_pure _

theorem follows_statements {closer : Kind}
    (hstatement : (perform .statement).Follows g depth n (statement reader))
    (hstatements : 1 ≤ n →
      (perform (.statements closer)).Follows g depth (n - 1) (statements reader closer)) :
    (Call.body perform (.statements closer)).Follows g depth n (statements reader closer) := by
  rw [statements_eq]
  refine follows_current_bind fun token hleft => ?_
  split
  · exact follows_pure _
  · next hstop =>
    have hn := hleft (ne_endOfInput_of_not_stop hstop)
    refine follows_bind hstatement (.statement reader) fun read? => ?_
    refine follows_advance_bind ?_
    exact follows_bind (hstatements hn) (.statements reader closer) fun _ => follows_pure _

theorem follows_block (hstatements :
      (perform (.statements .rBrace)).Follows g depth n (statements reader .rBrace)) :
    (Call.body perform .block).Follows g depth n (block reader) := by
  refine follows_current_bind fun token _ => ?_
  refine follows_bind follows_advance .advance fun _ => ?_
  refine follows_bind hstatements (.statements reader .rBrace) fun body => ?_
  refine follows_current_bind fun closing _ => ?_
  exact follows_bind (follows_record _) (.record _) fun _ => follows_pure _

theorem follows_function (hparameters : (perform .parameters).Follows g depth n parameters)
    (hblock : (perform .block).Follows g depth n (block reader)) :
    (Call.body perform (.form .function)).Follows g depth n (function reader) := by
  refine follows_current_bind fun token _ => ?_
  refine follows_past fun _ => ?_
  refine follows_bind (hparameters.mono (Nat.sub_le n 1)) .parameters fun ids? => ?_
  cases ids? with
  | none => exact follows_pure _
  | some ids =>
    refine follows_past fun _ => ?_
    exact follows_bind (hblock.mono (by omega)) (.block reader) fun _ => follows_pure _

theorem follows_conditional
    (hexpression : ∀ floor, (perform (.expression floor)).Follows g depth n (reader.read floor))
    (hblock : (perform .block).Follows g depth n (block reader)) :
    (Call.body perform (.form .conditional)).Follows g depth n (conditional reader) := by
  refine follows_current_bind fun token _ => ?_
  refine follows_past fun _ => ?_
  refine follows_bind follows_advance .advance fun _ => ?_
  refine follows_bind ((hexpression .lowest).mono (Nat.sub_le n 1)) (reader.forward _)
    fun condition => ?_
  refine follows_past fun _ => follows_past fun _ => ?_
  refine follows_bind (hblock.mono (by omega)) (.block reader) fun consequence => ?_
  refine follows_peek_bind fun next _ => ?_
  split
  · refine follows_bind follows_advance .advance fun _ => ?_
    refine follows_past fun _ => ?_
    exact follows_bind (hblock.mono (by omega)) (.block reader) fun _ => follows_pure _
  · exact follows_pure _

theorem follows_form
    (hexpression : ∀ floor, (perform (.expression floor)).Follows g depth n (reader.read floor))
    (hparameters : (perform .parameters).Follows g depth n parameters)
    (hblock : (perform .block).Follows g depth n (block reader)) (start : Form) :
    (Call.body perform (.form start)).Follows g depth n (Parse.form reader start) := by
  cases start with
  | identifier => exact follows_map _ follows_identifier .identifier
  | integer => exact follows_integer
  | boolean => exact follows_current_bind fun _ _ => follows_pure _
  | unary => exact follows_unary hexpression
  | group => exact follows_group hexpression
  | conditional => exact follows_conditional hexpression hblock
  | function => exact follows_function hparameters hblock

theorem follows_operand {floor : Precedence}
    (hform : ∀ start, (perform (.form start)).Follows g depth n (Parse.form reader start))
    (hoperators : ∀ left,
      (perform (.operators floor left)).Follows g depth n (climb g reader floor left)) :
    (Call.body perform (.operand floor)).Follows g depth n (expression g reader floor) := by
  refine follows_current_bind fun token _ => ?_
  refine follows_grammar_bind ?_
  cases g.form? token.kind with
  | some start => exact follows_bind (hform start) (.form reader start) hoperators
  | none => exact follows_bind (follows_report _ _) (.report _ _) fun _ => follows_pure _

/-- The level that is entered is left again, and the depth is what it was. -/
theorem follows_expression {floor : Precedence}
    (hoperand : depth < maxNesting → (perform (.operand floor)).Follows g (depth + 1) n
      (expression g (.ofLevels g (maxNesting - (depth + 1))) floor)) :
    (Call.body perform (.expression floor)).Follows g depth n
      ((Reader.ofLevels g (maxNesting - depth)).read floor) := by
  intro c journal hc
  have hbody : Call.body perform (.expression floor) ⟨g, depth, c, journal⟩ =
      (if (Parser.enterNesting ⟨g, depth, c, journal⟩).1 then do
        let value ← perform (.operand floor)
        Machine.leaveNesting
        return value
      else
        return .absent) (Parser.enterNesting ⟨g, depth, c, journal⟩).2 := rfl
  by_cases hopen : depth < maxNesting
  · have henter : Parser.enterNesting ⟨g, depth, c, journal⟩ =
        (true, ⟨g, depth + 1, c, journal⟩) := if_pos hopen
    have hlevels : maxNesting - depth = maxNesting - (depth + 1) + 1 := by omega
    rw [hbody, henter, hlevels]
    change Option.bind (perform (.operand floor) _)
      (fun read => some (read.1, read.2.leaveNesting)) = _
    rw [hoperand hopen c journal hc]
    rfl
  · have henter : Parser.enterNesting ⟨g, depth, c, journal⟩ =
        (false, (Parser.run ⟨g, depth, c, journal⟩ tooDeep).2) := if_neg hopen
    have hlevels : maxNesting - depth = 0 := by omega
    rw [hbody, henter, hlevels]
    rfl

/-- The end of a program counts all diagnostics there are, earlier ones included. -/
theorem body_program {parser : Parser}
    (hstatements : perform (.statements .endOfInput) parser =
      some (parser.run (statements parser.reader .endOfInput))) :
    Call.body perform .program parser = some parser.program := by
  change Option.bind (perform (.statements .endOfInput) parser) _ = _
  rw [hstatements]
  rfl

end Follows

namespace Call

/-- How many calls a procedure has inside one another before one opens a level or moves on. -/
def rank : Call → Nat
  | expression _ | names | skipValue | result => 1
  | operators _ _ | binary _ | parameters | binding | expressionStatement => 2
  | statement => 3
  | statements _ => 4
  | block | program => 5
  | form _ => 6
  | operand _ => 7

/-- The fuel that is enough for a call. -/
def need (call : Call) (parser : Parser) : Nat :=
  parser.cursor.length + 7 * (maxNesting - parser.depth) + call.rank

theorem follows_run {fuel depth n : Nat} {g : Grammar} {next : Call} {action : Parse next.Result}
    (ih : ∀ (call : Call) (parser : Parser), call.need parser ≤ fuel →
      call.run fuel parser = some (call.perform parser))
    (hneed : n + 7 * (maxNesting - depth) + next.rank ≤ fuel := by simp only [rank]; omega)
    (haction : ∀ c journal, next.perform ⟨g, depth, c, journal⟩ =
      Parser.run ⟨g, depth, c, journal⟩ action := by exact fun _ _ => rfl) :
    (next.run fuel).Follows g depth n action := by
  intro c journal hc
  rw [← haction c journal]
  apply ih
  simp only [need]
  omega

/-- With enough fuel a call comes to its end, and the depth kept by hand is back where it was. -/
theorem run_eq_perform (fuel : Nat) (call : Call) (parser : Parser) (h : call.need parser ≤ fuel) :
    call.run fuel parser = some (call.perform parser) := by
  induction fuel generalizing call parser with
  | zero =>
    have hpos : 0 < call.rank := by cases call <;> exact Nat.zero_lt_succ _
    rw [need] at h
    omega
  | succ fuel ih =>
    obtain ⟨g, depth, c, journal⟩ := parser
    have hc : c.length ≤ c.length := Nat.le_refl _
    cases call <;> simp only [need, rank] at h
    case expression floor => exact follows_expression (fun hopen => follows_run ih) c journal hc
    case operand floor =>
      exact follows_operand (fun _ => follows_run ih) (fun _ => follows_run ih) c journal hc
    case operators floor left =>
      exact follows_operators (fun _ hn => follows_run ih) (fun _ hn => follows_run ih) left c
        journal hc
    case binary left => exact follows_binary (fun _ => follows_run ih) left c journal hc
    case form start =>
      exact follows_form (fun _ => follows_run ih) (follows_run ih) (follows_run ih) start c
        journal hc
    case parameters => exact follows_parameters (follows_run ih) c journal hc
    case names => exact follows_names (fun hn => follows_run ih) c journal hc
    case statement =>
      exact follows_statement (follows_run ih) (follows_run ih) (follows_run ih) c journal hc
    case binding => exact follows_binding (follows_run ih) c journal hc
    case skipValue => exact follows_skipValue (fun hn => follows_run ih) c journal hc
    case result => exact follows_result c journal hc
    case expressionStatement =>
      exact follows_expressionStatement (fun _ => follows_run ih) c journal hc
    case block => exact follows_block (follows_run ih) c journal hc
    case statements closer =>
      exact follows_statements (follows_run ih) (fun hn => follows_run ih) c journal hc
    case program =>
      have hstatements : (run fuel (.statements .endOfInput)).Follows g depth c.length
          (Parse.statements (.ofLevels g (maxNesting - depth)) .endOfInput) := follows_run ih
      exact body_program (hstatements c journal hc)

/-- Fuel for the tokens that are left and for seven calls on each level is enough for any call. -/
theorem run_of_le (call : Call) {parser : Parser} {fuel : Nat}
    (h : parser.cursor.length + 7 * (maxNesting + 1) ≤ fuel) :
    call.run fuel parser = some (call.perform parser) := by
  have hrank : call.rank ≤ 7 := by cases call <;> simp [rank]
  apply call.run_eq_perform
  rw [need]
  omega

end Call

end ExprLang
