import ExprLang.Tree.Equality
import ExprLang.Proofs.OperatorChain
import Mathlib.Logic.Relation

namespace ExprLang

open Parse

/-- Moving from two joined operands to the left one. -/
inductive Expression.HasLeft : Expression → Expression → Prop
  | binary {token : Token} {left right : Expression} {operator : String} :
      HasLeft (.binary token left operator right) left

/-- The later outcome comes of going on from where the earlier one stops, with what the earlier one
gives as the leftmost operand. -/
structure Outcome.Continues (later earlier : Outcome Expression) : Prop where
  cursor_suffix : later.cursor <:+ earlier.cursor
  events_prefix : earlier.events <+: later.events
  value_reaches : Relation.ReflTransGen Expression.HasLeft later.value earlier.value

variable {grammar : Grammar} {reader : Reader} {floor tighter : Precedence} {left : Expression}
  {c : Cursor}

theorem Outcome.Continues.refl (outcome : Outcome Expression) : outcome.Continues outcome :=
  ⟨List.suffix_rfl, List.prefix_rfl, .refl⟩

namespace Parse

theorem climb_of_joins (h : grammar.joins floor c.peek.kind = true) :
    climb grammar reader floor left c =
      (advance >>= fun _ => binary grammar reader left >>= climb grammar reader floor) c := by
  rw [climb_eq, peek_bind, if_pos h]

theorem climb_of_joins_eq_false (h : grammar.joins floor c.peek.kind = false) :
    climb grammar reader floor left c = ⟨left, c, []⟩ := by
  rw [climb_eq, peek_bind, if_neg (by simp [h])]
  rfl

/-- A loose climb is a tight one that goes on loosely: the floor decides where a climb stops, and
nothing else. -/
theorem climb_of_le (hle : floor ≤ tighter) (left : Expression) :
    climb grammar reader floor left =
      climb grammar reader tighter left >>= climb grammar reader floor := by
  funext c
  induction left, c using climb.induct grammar reader tighter with
  | case1 left c hjoins operator joined _ ih =>
    -- what the tight climb joins the loose one joins too
    have hrest : climb grammar reader floor joined.value joined.cursor =
        (climb grammar reader tighter joined.value >>= climb grammar reader floor) joined.cursor :=
      ih
    rw [bind_apply] at hrest
    simp only [climb_of_joins (Grammar.joins_of_le hjoins hle), climb_of_joins hjoins, bind_apply,
      hrest, List.append_assoc, operator, joined]
  | case2 left c hstop =>
    rw [Bool.not_eq_true] at hstop
    rw [bind_apply, climb_of_joins_eq_false hstop]
    rfl

/-- What a climb begins with stays the leftmost operand. -/
theorem climb_reaches (floor : Precedence) (left : Expression) (c : Cursor) :
    Relation.ReflTransGen Expression.HasLeft (climb grammar reader floor left c).value left := by
  induction left, c using climb.induct grammar reader floor with
  | case1 left c hjoins _ _ _ ih =>
    rw [climb_of_joins hjoins]
    exact ih.tail .binary
  | case2 left c hstop =>
    rw [Bool.not_eq_true] at hstop
    rw [climb_of_joins_eq_false hstop]

theorem bind_climb_continues (p : Parse Expression) (floor : Precedence) (c : Cursor) :
    ((p >>= climb grammar reader floor) c).Continues (p c) where
  cursor_suffix := Forward.climb grammar reader floor _ _
  events_prefix := List.prefix_append _ _
  value_reaches := climb_reaches floor _ _

theorem expression_continues (hle : floor ≤ tighter) (c : Cursor) :
    (expression grammar reader floor c).Continues (expression grammar reader tighter c) := by
  rw [expression_apply, expression_apply]
  cases grammar.form? c.current.kind with
  | none => exact .refl _
  | some start =>
    have hread : Parse.form reader start >>= climb grammar reader floor =
        (Parse.form reader start >>= climb grammar reader tighter) >>=
          climb grammar reader floor := by
      rw [bind_assoc]
      exact congrArg _ (funext (climb_of_le hle))
    change Outcome.Continues ((Parse.form reader start >>= climb grammar reader floor) c) _
    rw [hread]
    exact bind_climb_continues _ floor c

end Parse

theorem Reader.continues_ofLevels (grammar : Grammar) (levels : Nat) (hle : floor ≤ tighter)
    (c : Cursor) : ((Reader.ofLevels grammar levels).read floor c).Continues
      ((Reader.ofLevels grammar levels).read tighter c) := by
  cases levels with
  | zero => exact .refl _
  | succ levels => exact Parse.expression_continues hle c

/-- Under whatever grammar and in whatever state, reading above a tight floor and above a loose one
is the same parse up to where the tight one stops. The tokens passed, all that happens on the way
and the diagnostics in it begin alike, and what the tight one gives is what the loose one gives or
stands at the bottom of its left operands. -/
theorem Parser.expression_of_le (parser : Parser) (hle : floor ≤ tighter) :
    let tight := parser.expression tighter
    let loose := parser.expression floor
    (∃ passed passed', parser.cursor = passed ++ tight.2.cursor ∧
        parser.cursor = passed' ++ loose.2.cursor ∧ passed <+: passed') ∧
      (∃ events events', tight.2.journal = parser.journal ++ events ∧
        loose.2.journal = parser.journal ++ events' ∧ events <+: events') ∧
      (∃ found found', tight.2.diagnostics = parser.diagnostics ++ found ∧
        loose.2.diagnostics = parser.diagnostics ++ found' ∧ found <+: found') ∧
      (tight.1 = loose.1 ∨ Relation.TransGen Expression.HasLeft loose.1 tight.1) := by
  intro tight loose
  have hcontinues : Outcome.Continues (parser.reader.read floor parser.cursor)
      (parser.reader.read tighter parser.cursor) :=
    Reader.continues_ofLevels parser.grammar _ hle parser.cursor
  obtain ⟨passed, hpassed⟩ := parser.reader.forward tighter parser.cursor
  obtain ⟨further, hfurther⟩ := hcontinues.cursor_suffix
  refine ⟨⟨passed, passed ++ further, hpassed.symm, ?_, List.prefix_append _ _⟩,
    ⟨_, _, rfl, rfl, hcontinues.events_prefix⟩,
    ⟨_, _, parser.diagnostics_run _, parser.diagnostics_run _,
      hcontinues.events_prefix.filterMap _⟩,
    Relation.reflTransGen_iff_eq_or_transGen.1 hcontinues.value_reaches⟩
  rw [List.append_assoc, ← hpassed, ← hfurther]
  rfl

/-- At the last level both right operands are too deep. The tight parse stops before the plus. -/
theorem Parser.expression_of_le_last_level :
    let name (literal : String) : Token := ⟨.identifier, literal⟩
    let parser : Parser := { Parser.ofTokens [name "a", .ofSymbol '*', name "b", .ofSymbol '+',
      name "c"] with depth := 255 }
    let tight := parser.expression .sum
    let loose := parser.expression .lowest
    Precedence.lowest ≤ Precedence.sum ∧ tight.2.cursor = [name "b", .ofSymbol '+', name "c"] ∧
      loose.2.cursor = [name "c"] ∧ tight.2.diagnostics = [⟨.nestingTooDeep 256, name "b"⟩] ∧
      loose.2.diagnostics = [⟨.nestingTooDeep 256, name "b"⟩, ⟨.nestingTooDeep 256, name "c"⟩] ∧
      tight.1 ≠ loose.1 ∧ Relation.TransGen Expression.HasLeft loose.1 tight.1 := by
  intro name parser tight loose
  have hle : Precedence.lowest ≤ Precedence.sum := by decide
  have hcursor : tight.2.cursor = [name "b", .ofSymbol '+', name "c"] := by decide +kernel
  have hcursor' : loose.2.cursor = [name "c"] := by decide +kernel
  have hfound : tight.2.diagnostics = [⟨.nestingTooDeep 256, name "b"⟩] := by decide +kernel
  have hfound' : loose.2.diagnostics =
      [⟨.nestingTooDeep 256, name "b"⟩, ⟨.nestingTooDeep 256, name "c"⟩] := by
    decide +kernel
  have hne : tight.1 ≠ loose.1 := by decide +kernel
  obtain ⟨-, -, -, hvalue⟩ := parser.expression_of_le hle
  exact ⟨hle, hcursor, hcursor', hfound, hfound', hne, hvalue.resolve_left hne⟩

end ExprLang
