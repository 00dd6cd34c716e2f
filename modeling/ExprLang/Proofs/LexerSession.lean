import ExprLang.Proofs.JoinedText
import ExprLang.Proofs.TokenStream

namespace ExprLang

namespace Lexer

/-- The calls that a lexer takes. A copy of it can be kept and put back. -/
inductive Call where
  | nextToken
  | next?
  | drain
  | save
  | restore
deriving DecidableEq

inductive Answer where
  | token (token : Token)
  | token? (token? : Option Token)
  | tokens (tokens : List Token)
  | nothing
deriving DecidableEq

/-- A lexer and the copy of it that is kept. -/
structure Session where
  lexer : Lexer
  kept : Lexer

/-- The same text, with `n` more bytes before it. -/
def shift (n : Nat) (lexer : Lexer) : Lexer := ⟨lexer.rest, n + lexer.position⟩

namespace Session

/-- A new lexer, which is kept until another is. -/
def ofString (source : String) : Session := ⟨.ofString source, .ofString source⟩

/-- What a call gives. -/
def answer (session : Session) : Call → Answer
  | .nextToken => .token session.lexer.nextToken.1
  | .next? => .token? session.lexer.next?.1
  | .drain => .tokens session.lexer.drain.1
  | .save | .restore => .nothing

/-- The session after a call. -/
def step (session : Session) : Call → Session
  | .nextToken => { session with lexer := session.lexer.nextToken.2 }
  | .next? => { session with lexer := session.lexer.next?.2 }
  | .drain => { session with lexer := session.lexer.drain.2 }
  | .save => { session with kept := session.lexer }
  | .restore => { session with lexer := session.kept }

/-- The session after the calls. -/
def after (session : Session) (calls : List Call) : Session := calls.foldl step session

/-- What each of the calls gives, and the lexer it leaves. -/
def run (session : Session) : List Call → List (Answer × Lexer)
  | [] => []
  | call :: calls =>
    (session.answer call, (session.step call).lexer) :: (session.step call).run calls

end Session

variable {lexer later : Lexer} {token : Token} {source : String} {session fresh : Session}
  {call : Call} {calls : List Call} {n : Nat}

theorem nextToken_shift (n : Nat) (lexer : Lexer) :
    (lexer.shift n).nextToken = (lexer.nextToken.1, lexer.nextToken.2.shift n) := by
  simp only [nextToken, skipBlanks, shift]
  split <;> simp only [Nat.add_assoc]

theorem next?_shift (n : Nat) (lexer : Lexer) :
    (lexer.shift n).next? = (lexer.next?.1, lexer.next?.2.shift n) := by
  simp only [next?, nextToken_shift]

theorem drain_of_none (h : lexer.next? = (none, later)) : lexer.drain = ([], later) := by
  rw [drain]
  split
  · next hnext =>
    cases h.symm.trans hnext
    rfl
  · next hnext => cases h.symm.trans hnext

theorem drain_of_some (h : lexer.next? = (some token, later)) :
    lexer.drain = (token :: later.drain.1, later.drain.2) := by
  rw [drain]
  split
  · next hnext => cases h.symm.trans hnext
  · next hnext =>
    cases h.symm.trans hnext
    rfl

theorem drain_shift (n : Nat) (lexer : Lexer) :
    (lexer.shift n).drain = (lexer.drain.1, lexer.drain.2.shift n) := by
  induction lexer using drain.induct with
  | case1 lexer later hnext =>
    have hshift : (lexer.shift n).next? = (none, later.shift n) := by rw [next?_shift, hnext]
    rw [drain_of_none hshift, drain_of_none hnext]
  | case2 lexer token later hnext _ _ _ _ ih =>
    have hshift : (lexer.shift n).next? = (some token, later.shift n) := by
      rw [next?_shift, hnext]
    rw [drain_of_some hshift, drain_of_some hnext, ih]

theorem next?_eq_none_iff : lexer.next?.1 = none ↔ lexer.nextToken.1 = .endOfInput := by
  have hend : lexer.nextToken.1.is .endOfInput = true ↔ lexer.nextToken.1 = .endOfInput :=
    ⟨fun h => (nextToken_of_endOfInput (Token.is_iff.1 h)).1, fun h => h ▸ rfl⟩
  simp [next?, ← hend]

/-- Reading every token leads to the end of the input. -/
theorem Reaches.drain (h : lexer.Reaches later) :
    lexer.Reaches later.drain.2 ∧ later.drain.2.rest = [] := by
  induction later using drain.induct with
  | case1 later last hnext =>
    have hlast : later.nextToken.2 = last := congrArg Prod.snd hnext
    have hend : later.nextToken.1 = .endOfInput := next?_eq_none_iff.1 (congrArg Prod.fst hnext)
    rw [drain_of_none hnext, ← hlast]
    exact ⟨.nextToken h, (nextToken_of_endOfInput (congrArg Token.kind hend)).2⟩
  | case2 later token next hnext _ _ _ _ ih =>
    have hlater : later.nextToken.2 = next := congrArg Prod.snd hnext
    rw [drain_of_some hnext]
    exact ih (hlater ▸ .nextToken h)

theorem next?_of_ne_endOfInput (h : lexer.nextToken.1 ≠ .endOfInput) :
    lexer.next?.1 = some lexer.nextToken.1 :=
  if_neg fun hend => h (nextToken_of_endOfInput (Token.is_iff.1 hend)).1

theorem next?_eq_head? (lexer : Lexer) : lexer.next?.1 = lexer.tokens.head? := by
  rw [tokens_eq, next?]
  split <;> rfl

/-- What is read of a text are its tokens, and then the end of the input for ever. -/
theorem getD_tokenize (source : String) (n : Nat) :
    (tokenize source).getD n .endOfInput = (ofString source).yield n := by
  rw [yield_eq, Cursor.current, List.headD_eq_head?_getD, List.head?_drop, tokenize,
    List.getD_eq_getElem?_getD, List.getElem?_append]
  split
  · rfl
  · next hn =>
    rw [List.getElem?_eq_none (Nat.le_of_not_lt hn)]
    cases n - (ofString source).tokens.length <;> rfl

namespace Session

/-- Both lexers of the session are lexers of the source. -/
structure Of (source : String) (session : Session) : Prop where
  lexer : (Lexer.ofString source).Reaches session.lexer
  kept : (Lexer.ofString source).Reaches session.kept

theorem Of.step (h : session.Of source) (call : Call) : (session.step call).Of source := by
  cases call with
  | nextToken => exact ⟨.nextToken h.lexer, h.kept⟩
  | next? => exact ⟨.next? h.lexer, h.kept⟩
  | drain => exact ⟨h.lexer.drain.1, h.kept⟩
  | save => exact ⟨h.lexer, h.lexer⟩
  | restore => exact ⟨h.kept, h.kept⟩

theorem Of.after (h : session.Of source) (calls : List Call) : (session.after calls).Of source := by
  induction calls generalizing session with
  | nil => exact h
  | cons call calls ih => exact ih (h.step call)

/-- What stands before the text changes no answer. -/
theorem answer_of_shift (h : session.lexer = fresh.lexer.shift n) (call : Call) :
    session.answer call = fresh.answer call := by
  cases call with
  | nextToken => rw [answer, answer, h, nextToken_shift]
  | next? => rw [answer, answer, h, next?_shift]
  | drain => rw [answer, answer, h, drain_shift]
  | save | restore => rfl

theorem lexer_step_of_shift (h : session.lexer = fresh.lexer.shift n) (hcall : call ≠ .restore) :
    (session.step call).lexer = (fresh.step call).lexer.shift n := by
  cases call with
  | nextToken => rw [step, step, h, nextToken_shift]
  | next? => rw [step, step, h, next?_shift]
  | drain => rw [step, step, h, drain_shift]
  | save => exact h
  | restore => exact absurd rfl hcall

theorem run_of_shift (h : session.lexer = fresh.lexer.shift n) (hcalls : .restore ∉ calls) :
    session.run calls = (fresh.run calls).map fun (answer, lexer) => (answer, lexer.shift n) := by
  induction calls generalizing session fresh with
  | nil => rfl
  | cons call calls ih =>
    rw [List.mem_cons, not_or] at hcalls
    have hstep := lexer_step_of_shift h (Ne.symm hcalls.1)
    rw [run, run, List.map_cons, answer_of_shift h, hstep, ih hstep hcalls.2]

theorem run_append (session : Session) (calls others : List Call) :
    session.run (calls ++ others) = session.run calls ++ (session.after calls).run others := by
  induction calls generalizing session with
  | nil => rfl
  | cons call calls ih =>
    rw [List.cons_append, run, run, ih, List.cons_append]
    rfl

theorem kept_after (session : Session) (hcalls : .save ∉ calls) :
    (session.after calls).kept = session.kept := by
  induction calls generalizing session with
  | nil => rfl
  | cons call calls ih =>
    rw [List.mem_cons, not_or] at hcalls
    have hstep : (session.step call).kept = session.kept := by
      cases call with
      | save => exact absurd rfl hcalls.1
      | nextToken | next? | drain | restore => rfl
    exact (ih (session.step call) hcalls.2).trans hstep

/-- Putting the copy back undoes all calls since it was made. -/
theorem run_restore (session : Session) (hcalls : .save ∉ calls) (others : List Call) :
    session.run (calls ++ .restore :: others) =
      session.run calls ++ (.nothing, session.kept) ::
        run ⟨session.kept, session.kept⟩ others := by
  have hstep : (session.after calls).step .restore = ⟨session.kept, session.kept⟩ := by
    rw [step, kept_after session hcalls]
  rw [run_append, run, hstep]
  rfl

/-- The calls that read one token give the tokens one after another. -/
theorem getElem?_run (session : Session)
    (hcalls : ∀ call ∈ calls, call = .nextToken ∨ call = .next?) (n : Nat) :
    (calls[n]? = some .nextToken →
        ((session.run calls).map Prod.fst)[n]? = some (.token (session.lexer.yield n))) ∧
      (calls[n]? = some .next? →
        ((session.run calls).map Prod.fst)[n]? = some (.token? session.lexer.tokens[n]?)) := by
  induction calls generalizing session n with
  | nil => exact ⟨nofun, nofun⟩
  | cons call calls ih =>
    obtain ⟨hcall, hcalls⟩ := List.forall_mem_cons.1 hcalls
    cases n with
    | zero =>
      constructor
      · rintro ⟨⟩
        rfl
      · rintro ⟨⟩
        have hhead := next?_eq_head? session.lexer
        rw [List.head?_eq_getElem?] at hhead
        rw [← hhead]
        rfl
    | succ n =>
      have hlexer : (session.step call).lexer = session.lexer.nextToken.2 := by
        rcases hcall with rfl | rfl <;> rfl
      have hrest := ih (session.step call) hcalls n
      rw [hlexer, session.lexer.nextToken_eq.2, List.getElem?_tail] at hrest
      exact hrest

/-- At any point of a session, until the copy is put back, the calls give what they give on a new
lexer for the text that is left, with all positions moved. When the copy is put back, it goes on
from where it was made as it did or would have done there. The ways to read one token agree, and so
do those to read all tokens, and from the start they all give the tokens of the text. -/
theorem run_resumes (source : String) (before : List Call) :
    let start := ofString source
    let session := start.after before
    let lexer := session.lexer
    (∀ calls : List Call, .restore ∉ calls → session.run calls =
        ((ofString lexer.remainder).run calls).map fun (answer, later) =>
          (answer, later.shift lexer.position)) ∧
      (∀ between calls : List Call, .save ∉ between →
        session.run (.save :: (between ++ .restore :: calls)) =
            session.run (.save :: between) ++ (.nothing, lexer) ::
              (session.step .save).run calls ∧
          start.run (between ++ .restore :: calls) =
            start.run between ++ (.nothing, .ofString source) :: start.run calls) ∧
      ((lexer.next?.1 = none ↔ lexer.nextToken.1 = .endOfInput) ∧
        (lexer.nextToken.1 ≠ .endOfInput → lexer.next?.1 = some lexer.nextToken.1) ∧
        lexer.next?.2 = lexer.nextToken.2) ∧
      (tokenize lexer.remainder = lexer.drain.1 ++ [.endOfInput] ∧
        lexer.drain.2.position = source.utf8ByteSize) ∧
      ∀ calls : List Call, (∀ call ∈ calls, call = .nextToken ∨ call = .next?) → ∀ n : Nat,
        (calls[n]? = some .nextToken → ((start.run calls).map Prod.fst)[n]? =
          some (.token ((tokenize source).getD n .endOfInput))) ∧
        (calls[n]? = some .next? → ((start.run calls).map Prod.fst)[n]? =
          some (.token? (tokenize source).dropLast[n]?)) := by
  intro start session lexer
  have hof : session.Of source := Of.after ⟨.refl, .refl⟩ before
  refine ⟨?_, ?_, ⟨next?_eq_none_iff, next?_of_ne_endOfInput, rfl⟩, ⟨?_, ?_⟩, ?_⟩
  · intro calls hcalls
    apply run_of_shift ?_ hcalls
    simp [shift, ofString, Lexer.ofString, remainder, lexer]
  · intro between calls hbetween
    have hrestore := run_restore (session.step .save) hbetween calls
    refine ⟨?_, run_restore start hbetween calls⟩
    rw [run, hrestore]
    rfl
  · rw [tokenize, tokens_ofString_remainder]
    rfl
  · obtain ⟨hreaches, hrest⟩ := hof.lexer.drain
    obtain ⟨passed, hstands⟩ := hreaches.standsAfter
    rw [hstands.utf8ByteSize_eq, remainder, hrest]
    rfl
  · intro calls hcalls n
    rw [getD_tokenize, dropLast_tokenize]
    exact getElem?_run start hcalls n

/-- The copy is made and put back in the middle of the text, behind a character of two bytes. -/
theorem run_resumes_accent :
    let start := ofString "é 1+"
    let session := start.after [.nextToken, .save, .next?, .restore]
    let between : List Call := [.nextToken, .drain]
    let calls : List Call := [.next?, .save, .drain, .nextToken]
    let single : List Call := [.next?, .nextToken, .nextToken, .next?]
    .restore ∉ calls ∧ session.lexer.position = 2 ∧
      session.run calls = [(.token? (some ⟨.integer, "1"⟩), ⟨['+'], 4⟩), (.nothing, ⟨['+'], 4⟩),
        (.tokens [.ofSymbol '+'], ⟨[], 5⟩), (.token .endOfInput, ⟨[], 5⟩)] ∧
      .save ∉ between ∧
      session.run (.save :: (between ++ .restore :: calls)) =
        session.run (.save :: between) ++ (.nothing, session.lexer) ::
          (session.step .save).run calls ∧
      (∀ call ∈ single, call = .nextToken ∨ call = .next?) ∧
      ((start.run single).map Prod.fst)[2]? = some (.token (.ofSymbol '+')) ∧
      ((start.run single).map Prod.fst)[3]? = some (.token? none) := by
  intro start session between calls single
  have hcalls : .restore ∉ calls := by decide
  have hposition : session.lexer.position = 2 := by decide +kernel
  have hbetween : .save ∉ between := by decide
  have hsingle : ∀ call ∈ single, call = .nextToken ∨ call = .next? := by decide
  obtain ⟨hshift, hrestore, -, -, htokens⟩ :=
    run_resumes "é 1+" [.nextToken, .save, .next?, .restore]
  have hplus := (htokens single hsingle 2).1 rfl
  have hend := (htokens single hsingle 3).2 rfl
  refine ⟨hcalls, hposition, (hshift calls hcalls).trans ?_, hbetween,
    (hrestore between calls hbetween).1, hsingle, hplus.trans ?_, hend.trans ?_⟩
  · decide +kernel
  · decide +kernel
  · decide +kernel

end Session

end Lexer

end ExprLang
