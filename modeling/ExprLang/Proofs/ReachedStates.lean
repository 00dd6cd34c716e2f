import ExprLang.Proofs.ByteCursor
import ExprLang.Proofs.MachineRun
import Mathlib.Logic.Function.Iterate
import Mathlib.Logic.Relation

namespace ExprLang

open Parse

namespace Parser

variable {α : Type} {source : String} {parser before after later : Parser}

/-- A later state of a parse, with nothing about it changed but how far it has come. -/
structure Frame (before after : Parser) : Prop where
  depth_eq : after.depth = before.depth
  grammar_eq : after.grammar = before.grammar
  diagnostics_prefix : before.diagnostics <+: after.diagnostics
  exists_advances : ∃ n, after.cursor = (advance^[n] before).cursor

theorem cursor_iterate_advance (n : Nat) (parser : Parser) :
    (advance^[n] parser).cursor = parser.cursor.drop n := by
  induction n generalizing parser with
  | zero => rfl
  | succ n ih =>
    rw [Function.iterate_succ_apply, ih, ← List.drop_tail]
    rfl

theorem Frame.of_suffix (hdepth : after.depth = before.depth)
    (hgrammar : after.grammar = before.grammar)
    (hdiagnostics : before.diagnostics <+: after.diagnostics)
    (hcursor : after.cursor <:+ before.cursor) : before.Frame after := by
  refine ⟨hdepth, hgrammar, hdiagnostics, before.cursor.length - after.cursor.length, ?_⟩
  rw [cursor_iterate_advance]
  exact List.suffix_iff_eq_drop.1 hcursor

theorem Frame.cursor_suffix (h : before.Frame after) : after.cursor <:+ before.cursor := by
  obtain ⟨n, hn⟩ := h.exists_advances
  rw [hn, cursor_iterate_advance]
  exact List.drop_suffix n _

theorem Frame.trans (h : before.Frame after) (h' : after.Frame later) : before.Frame later :=
  .of_suffix (h'.depth_eq.trans h.depth_eq) (h'.grammar_eq.trans h.grammar_eq)
    (h.diagnostics_prefix.trans h'.diagnostics_prefix) (h'.cursor_suffix.trans h.cursor_suffix)

theorem frame_run {action : Parse α} (h : action.Forward) (parser : Parser) :
    parser.Frame (parser.run action).2 := by
  refine .of_suffix rfl rfl ?_ (h parser.cursor)
  rw [diagnostics_run]
  exact List.prefix_append _ _

theorem frame_perform (call : Call) (parser : Parser) :
    parser.Frame (call.perform parser).2 := by
  cases call with
  | expression floor => exact frame_run (parser.reader.forward floor) parser
  | operand floor => exact frame_run (.expression _ _ floor) parser
  | operators floor left => exact frame_run (.climb _ _ floor left) parser
  | binary left => exact frame_run (.binary _ _ left) parser
  | form start => exact frame_run (.form _ start) parser
  | parameters => exact frame_run .parameters parser
  | names => exact frame_run .names parser
  | statement => exact frame_run (.statement _) parser
  | binding => exact frame_run .binding parser
  | skipValue => exact frame_run .skipValue parser
  | result => exact frame_run .result parser
  | expressionStatement => exact frame_run (.expressionStatement _) parser
  | block => exact frame_run (.block _) parser
  | statements closer => exact frame_run (.statements _ closer) parser
  | program => exact (frame_run (.statements _ _) parser).trans (frame_run (.record _) _)

/-- What can be done to a parse from outside. -/
inductive Step : Parser → Parser → Prop
  | advance (parser : Parser) : Step parser parser.advance
  | expect (parser : Parser) (kind : Kind) : Step parser (parser.expect kind).2
  | enterNesting (parser : Parser) : Step parser parser.enterNesting.2
  | leaveNesting (parser : Parser) : Step parser parser.leaveNesting
  | report (parser : Parser) (cause : Cause) (token : Token) :
      Step parser (parser.report cause token)
  | setForm (parser : Parser) (kind : Kind) (form : Form) : Step parser (parser.setForm kind form)
  | setOperator (parser : Parser) {kind : Kind} (precedence : Precedence)
      (h : kind ≠ .endOfInput) : Step parser (parser.setOperator kind precedence)
  | restoreStandard (parser : Parser) : Step parser parser.restoreStandard
  | call (parser : Parser) (call : Call) : Step parser (call.perform parser).2

/-- The states that a parse of a text can be brought to. -/
def Reached (source : String) : Parser → Prop := Relation.ReflTransGen Step (ofString source)

theorem Step.depth_le (h : Step before after) (hbefore : before.depth ≤ maxNesting) :
    after.depth ≤ maxNesting := by
  cases h with
  | enterNesting =>
    rw [Parser.enterNesting]
    split
    · next hopen => exact hopen
    · exact hbefore
  | leaveNesting => exact Nat.le_trans (Nat.sub_le _ 1) hbefore
  | call call => exact (frame_perform call before).depth_eq.symm ▸ hbefore
  | advance | expect | report | setForm | setOperator | restoreStandard => exact hbefore

theorem Step.cursor_suffix (h : Step before after) : after.cursor <:+ before.cursor := by
  cases h with
  | advance => exact List.tail_suffix _
  | expect kind => exact Forward.expect kind _
  | enterNesting =>
    rw [Parser.enterNesting]
    split
    · exact List.suffix_rfl
    · exact Forward.tooDeep _
  | call call => exact (frame_perform call before).cursor_suffix
  | leaveNesting | report | setForm | setOperator | restoreStandard => exact List.suffix_rfl

theorem Reached.depth_le (h : Reached source parser) : parser.depth ≤ maxNesting := by
  induction h with
  | refl => exact Nat.zero_le _
  | tail _ hstep ih => exact hstep.depth_le ih

theorem Reached.length_le (h : Reached source parser) :
    parser.cursor.length ≤ source.utf8ByteSize := by
  have hsuffix : parser.cursor <:+ (Lexer.ofString source).tokens := by
    induction h with
    | refl => exact List.suffix_rfl
    | tail _ hstep ih => exact hstep.cursor_suffix.trans ih
  have hle := (Lexer.StandsAfter.start source).length_tokens_le
  exact Nat.le_trans hsuffix.length_le (Nat.le_trans (Nat.le_add_left _ _) hle)

/-- In every state that a parse can be brought to, whatever begins an expression there or joins two,
every call comes to an end. Fuel for the tokens that are left and for seven calls on each level is
enough, and the tokens that are left are no more than the bytes of the text. -/
theorem Reached.call_ends (h : Reached source parser) :
    parser.cursor.length ≤ source.utf8ByteSize ∧
      ∀ (call : Call) (fuel : Nat), parser.cursor.length + 7 * (maxNesting + 1) ≤ fuel →
        call.run fuel parser = some (call.perform parser) :=
  ⟨h.length_le, fun call _ hfuel => call.run_of_le hfuel⟩

/-- Where the end of the input begins an expression, only the levels come to an end. -/
theorem Reached.call_ends_at_endOfInput :
    let parser := (ofString "-").setForm .endOfInput .unary
    let call : Call := .expression .lowest
    Reached "-" parser ∧ call.run 1800 parser = some (call.perform parser) ∧
      (call.perform parser).2.diagnostics = [⟨.nestingTooDeep 256, .endOfInput⟩] := by
  intro parser call
  have h : Reached "-" parser := .single (.setForm (ofString "-") .endOfInput .unary)
  have hfuel : parser.cursor.length + 7 * (maxNesting + 1) ≤ 1800 := by decide +kernel
  exact ⟨h, h.call_ends.2 call 1800 hfuel, by decide +kernel⟩

/-- In every state that a parse can be brought to at most as many expressions are open as may be.
A call there, which opens and leaves levels by hand, changes nothing but how far the parse has come
and what has been reported, and a whole parse leaves all levels. -/
theorem Reached.frame_of_reached (h : Reached source parser) :
    parser.depth ≤ maxNesting ∧
      (∀ call : Call, ∃ value after, call.perform parser = (value, after) ∧ parser.Frame after ∧
        ∀ fuel, parser.cursor.length + 7 * (maxNesting + 1) ≤ fuel →
          call.run fuel parser = some (value, after)) ∧
      (parse source).2.depth = 0 := by
  have hcall (call : Call) : ∃ value after, call.perform parser = (value, after) ∧
      parser.Frame after ∧ ∀ fuel, parser.cursor.length + 7 * (maxNesting + 1) ≤ fuel →
        call.run fuel parser = some (value, after) :=
    ⟨_, _, rfl, frame_perform call parser, fun _ hfuel => call.run_of_le hfuel⟩
  have hprogram := frame_perform .program (ofString source)
  exact ⟨h.depth_le, hcall, hprogram.depth_eq⟩

/-- A group that is not closed leaves its level too. -/
theorem Reached.frame_of_reached_unclosed :
    let parser := (ofString "((a b").enterNesting.2
    Reached "((a b" parser ∧ parser.depth = 1 ∧ parser.Frame (parser.expression .lowest).2 ∧
      (parser.expression .lowest).2.diagnostics.length = 2 ∧
      (parser.expression .lowest).2.peek = .ofWord "b" := by
  intro parser
  have h : Reached "((a b" parser := .single (.enterNesting (ofString "((a b"))
  obtain ⟨value, after, hperform, hframe, -⟩ := h.frame_of_reached.2.1 (.expression .lowest)
  have hafter : (parser.expression .lowest).2 = after := congrArg Prod.snd hperform
  exact ⟨h, by decide +kernel, hafter ▸ hframe, by decide +kernel, by decide +kernel⟩

end Parser

end ExprLang
