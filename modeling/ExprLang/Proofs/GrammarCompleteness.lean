import ExprLang.Proofs.PhraseGrammar

namespace ExprLang

open Parse

variable {reader : Reader} {floor : Precedence} {token last : Token} {e left : Expression}
  {c d rest : Cursor} {phrase : Phrase} {n : Nat}

/-- How a phrase can begin. -/
def Phrase.Opens : Phrase → Kind → Prop
  | .expression .., kind => ∃ start, Grammar.standard.form? kind = some start
  | .statement _, kind => kind ≠ .rBrace ∧ kind ≠ .endOfInput
  | .body _, _ => True
  | .block _, kind => kind = .lBrace

theorem Phrase.opens_statement_of_expression {l : Layer} {s : Statement} {kind : Kind}
    (h : (Phrase.expression l e).Opens kind) : (Phrase.statement s).Opens kind := by
  obtain ⟨start, h⟩ := h
  constructor <;> rintro rfl <;> cases h

theorem Derives.opens (h : Derives phrase c rest n) : phrase.Opens c.current.kind := by
  induction h with
  | identifier h | integer h | yes h | no h | group h | conditional h | alternative h
  | function h => exact ⟨_, by rw [Cursor.current_cons, h]; rfl⟩
  | unary h =>
    rcases h with h | h
    · exact ⟨.unary, by rw [Cursor.current_cons, h]; rfl⟩
    · exact ⟨.unary, by rw [Cursor.current_cons, h]; rfl⟩
  | binary _ _ _ ihleft _ => exact ihleft
  | loosen _ ih => exact ih
  | binding h | result h | resultValue h =>
    rw [Cursor.current_cons, h]
    exact ⟨by decide, by decide⟩
  | terminated _ _ ih | unterminated _ _ _ ih => exact Phrase.opens_statement_of_expression ih
  | nil | cons => trivial
  | block h => exact h

theorem climb_gives_of_joins {grammar : Grammar} (h : grammar.joins floor c.peek.kind = false) :
    (climb grammar reader floor left c).Gives left c := by
  rw [climb_eq, peek_bind]
  simp only [h, Bool.false_eq_true, ↓reduceIte]
  exact gives_pure left c

theorem climb_agrees_of_binary {grammar : Grammar} (hc : c.tail = token :: d)
    (h : grammar.joins floor token.kind = true)
    (hbinary : (binary grammar reader left (token :: d)).Gives e rest) :
    (climb grammar reader floor left c).Agrees (climb grammar reader floor e rest) := by
  have hpeek : c.peek = token := congrArg Cursor.current hc
  rw [climb_eq, peek_bind, hpeek]
  simp only [h, ↓reduceIte, advance_bind, hc]
  have hfold := agrees_bind (f := climb grammar reader floor) hbinary
  exact ⟨hfold.value_eq, hfold.cursor_eq, Outcome.clean_after_advanced.trans hfold.clean_iff⟩

theorem expression_agrees_of_form {grammar : Grammar} {start : Form}
    (h : grammar.form? token.kind = some start)
    (hform : (Parse.form reader start (token :: c)).Gives e d) :
    (expression grammar reader floor (token :: c)).Agrees (climb grammar reader floor e d) := by
  rw [expression_apply, Cursor.current_cons, h]
  exact agrees_bind hform

/-- An expression of literals, names and operators alone. -/
def Expression.OperatorsOnly : Expression → Prop
  | .absent | .identifier _ | .integer _ _ | .boolean _ _ => True
  | .unary _ _ operand => operand.OperatorsOnly
  | .binary _ left _ right => left.OperatorsOnly ∧ right.OperatorsOnly
  | .conditional .. | .function .. => False

/-- Where the cursor can stand after a phrase. It stands on the last token of an expression,
unless the end of the input closes a block of the expression. -/
structure Stops (e : Expression) (d rest : Cursor) : Prop where
  tail_eq : d.tail = rest
  ne_nil : e.OperatorsOnly → d ≠ []

theorem Stops.cons (e : Expression) (token : Token) (rest : Cursor) :
    Stops e (token :: rest) rest :=
  ⟨rfl, fun _ => List.cons_ne_nil _ _⟩

theorem Stops.peek_eq (h : Stops e d rest) : d.peek = rest.current :=
  congrArg Cursor.current h.tail_eq

/-- A phrase at a cursor is read without a diagnostic by every reader with enough levels, and is
given back as it is. An expression is left for the climb to go on with. -/
def Runs : Phrase → Cursor → Cursor → Nat → Prop
  | .expression l e, c, rest, n => 0 < n ∧ ∀ levels floor, n ≤ levels + 1 → .above floor ≤ l →
      l.EndsBefore rest.current.kind → ∃ d, Stops e d rest ∧
        (expression .standard (.ofLevels .standard levels) floor c).Agrees
          (climb .standard (.ofLevels .standard levels) floor e d)
  | .statement s, c, rest, n => ∀ levels, n ≤ levels →
      (statementStep (.ofLevels .standard levels) c).Gives (some s) rest
  | .body body, c, rest, n => ∀ levels closer, n ≤ levels →
      closer = .rBrace ∨ closer = .endOfInput →
      rest.current.kind = closer ∨ rest.current.kind = .endOfInput →
      (statements (.ofLevels .standard levels) closer c).Gives body rest
  | .block b, c, rest, n => ∀ levels, n ≤ levels → ∃ d : Cursor, d.tail = rest ∧
      (block (.ofLevels .standard levels) c).Gives b d

/-- An expression that the next token does not go on with is read as it is. -/
theorem Runs.read {l : Layer} (h : Runs (.expression l e) c rest n) (floor : Precedence)
    {levels : Nat} (hn : n ≤ levels) (hfloor : .above floor ≤ l)
    (hends : l.EndsBefore rest.current.kind)
    (hstop : Grammar.standard.joins floor rest.current.kind = false) :
    ∃ d, Stops e d rest ∧ ((Reader.ofLevels .standard levels).read floor c).Gives e d := by
  cases levels with
  | zero => exact absurd h.1 (Nat.not_lt_of_le hn)
  | succ levels =>
    obtain ⟨d, hd, hagrees⟩ := h.2 levels floor hn hfloor hends
    exact ⟨d, hd, hagrees.gives (climb_gives_of_joins (hd.peek_eq ▸ hstop))⟩

/-- An expression before a token that is no operator is read as it is. -/
theorem Runs.read_closed {closing : Token}
    (h : Runs (.expression .equality e) c (closing :: rest) n) {levels : Nat} (hn : n ≤ levels)
    (hclosing : closing.kind = .rParen) : ∃ last,
      ((Reader.ofLevels .standard levels).read .lowest c).Gives e (last :: closing :: rest) := by
  have hnone : Layer.ofOperator? (Cursor.current (closing :: rest)).kind = none := by
    rw [Cursor.current_cons, hclosing]
    rfl
  obtain ⟨d, hd, hgives⟩ := h.read .lowest hn (Layer.equality_le _)
    (Layer.endsBefore_of_eq_none hnone) (Layer.joins_eq_false_of_eq_none hnone)
  cases d with
  | nil => cases hd.tail_eq
  | cons last d => exact ⟨last, hd.tail_eq ▸ hgives⟩

/-- An operand is read first, whatever the floor. -/
theorem runs_of_form {l : Layer} {start : Form} (hpos : 0 < n)
    (hstart : Grammar.standard.form? token.kind = some start)
    (h : ∀ levels, n ≤ levels + 1 → ∃ d, Stops e d rest ∧
      (Parse.form (.ofLevels .standard levels) start (token :: c)).Gives e d) :
    Runs (.expression l e) (token :: c) rest n := by
  refine ⟨hpos, fun levels floor hn _ _ => ?_⟩
  obtain ⟨d, hd, hform⟩ := h levels hn
  exact ⟨d, hd, expression_agrees_of_form hstart hform⟩

theorem runs_of_literal {l : Layer} {start : Form}
    (hstart : Grammar.standard.form? token.kind = some start)
    (h : ∀ reader, (Parse.form reader start (token :: rest)).Gives e (token :: rest)) :
    Runs (.expression l e) (token :: rest) rest 1 :=
  runs_of_form Nat.one_pos hstart fun _ _ => ⟨_, .cons e token rest, h _⟩

theorem runs_integer {value : Int64} (hnumeral : token.kind = .integer)
    (hvalue : Numeral.Denotes token.literal value) :
    Runs (.expression .primary (.integer token value)) (token :: rest) rest 1 := by
  have hstart : Grammar.standard.form? token.kind = some .integer := by rw [hnumeral]; rfl
  apply runs_of_literal hstart
  intro _
  rw [Parse.form, integer, current_bind, Cursor.current_cons, Numeral.read?_eq_some_iff.2 hvalue]
  exact gives_pure _ _

theorem runs_boolean {value : Bool} (hstart : Grammar.standard.form? token.kind = some .boolean)
    (hvalue : token.is .trueWord = value) :
    Runs (.expression .primary (.boolean token value)) (token :: rest) rest 1 :=
  runs_of_literal hstart fun _ => hvalue ▸ gives_pure _ _

theorem runs_unary (hoperator : token.kind = .bang ∨ token.kind = .minus)
    (ih : Runs (.expression .unary e) c rest n) :
    Runs (.expression .unary (.unary token token.literal e)) (token :: c) rest (n + 1) := by
  have hstart : Grammar.standard.form? token.kind = some .unary := by
    rcases hoperator with h | h <;> rw [h] <;> rfl
  apply runs_of_form (Nat.succ_pos n) hstart
  intro levels hn
  have hends := Layer.endsBefore_product rest.current.kind
  obtain ⟨d, hd, hoperand⟩ := ih.read .unary (Nat.le_of_succ_le_succ hn) (Layer.le_refl _)
    (hends.of_le (by decide)) (Layer.joins_eq_false_of_endsBefore hends (by decide))
  refine ⟨d, ⟨hd.tail_eq, hd.ne_nil⟩, ?_⟩
  rw [Parse.form, unary, current_bind, advance_bind]
  apply Outcome.Gives.after_advanced
  apply gives_bind hoperand
  exact gives_pure _ _

theorem runs_group {closing : Token} (hopening : token.kind = .lParen)
    (ih : Runs (.expression .equality e) c (closing :: rest) n)
    (hclosing : closing.kind = .rParen) :
    Runs (.expression .primary e) (token :: c) rest (n + 1) := by
  have hstart : Grammar.standard.form? token.kind = some .group := by rw [hopening]; rfl
  apply runs_of_form (Nat.succ_pos n) hstart
  intro levels hn
  obtain ⟨last, hinner⟩ := ih.read_closed (Nat.le_of_succ_le_succ hn) hclosing
  refine ⟨_, .cons e closing rest, ?_⟩
  rw [Parse.form, group, advance_bind]
  apply Outcome.Gives.after_advanced
  apply gives_bind hinner
  exact gives_past hclosing (gives_pure _ _)

theorem runs_binary {l : Layer} {m : Nat}
    (hoperator : Layer.ofOperator? token.kind = some l)
    (ihleft : Runs (.expression l left) c (token :: d) m)
    (ihright : Runs (.expression l.tighter e) d rest n) :
    Runs (.expression l (.binary token left token.literal e)) c rest (max m (n + 1)) := by
  refine ⟨Nat.lt_of_lt_of_le ihleft.1 (Nat.le_max_left ..), fun levels floor hn hfloor hends => ?_⟩
  obtain ⟨hm, hn⟩ := Nat.max_le.1 hn
  -- the climb stands right before the operator with the left operand in hand
  obtain ⟨before, hbefore, hleft⟩ := ihleft.2 levels floor hm hfloor
    (Layer.endsBefore_of_ofOperator? hoperator)
  have habove := Layer.above_precedence_of_ofOperator? hoperator
  have hlt := Layer.not_tighter_le_of_ofOperator? hoperator
  obtain ⟨after, hafter, hright⟩ := ihright.read _ (Nat.le_of_succ_le_succ hn)
    (habove ▸ Layer.le_refl _) (hends.of_le l.le_tighter)
    (Layer.joins_eq_false_of_endsBefore hends (habove ▸ hlt))
  refine ⟨after, ⟨hafter.tail_eq, fun h => hafter.ne_nil h.2⟩, hleft.trans ?_⟩
  apply climb_agrees_of_binary hbefore.tail_eq (Layer.joins_of_le hoperator hfloor)
  rw [binary, current_bind, advance_bind, List.tail_cons, Cursor.current_cons]
  apply Outcome.Gives.after_advanced
  apply gives_bind hright
  exact gives_pure _ _

theorem runs_loosen {l : Layer} (ih : Runs (.expression l.tighter e) c rest n) :
    Runs (.expression l e) c rest n :=
  ⟨ih.1, fun levels floor hn hfloor hends =>
    ih.2 levels floor hn (Layer.le_trans hfloor l.le_tighter) (hends.of_le l.le_tighter)⟩

theorem names_gives {ids : List Identifier} (h : Names c ids rest) (last : Token) :
    ∃ closing, closing.kind = .rParen ∧ closing :: rest <:+ c ∧
      (names (last :: c)).Gives (some ids) (closing :: rest) := by
  induction h generalizing last with
  | @last name closing rest hname hclosing =>
    refine ⟨closing, hclosing, List.suffix_cons .., ?_⟩
    rw [names_eq]
    refine gives_past hname ?_
    rw [List.tail_cons, identifier_bind, peek_bind, Cursor.peek_cons, Cursor.current_cons]
    have hcomma : closing.is .comma = false := by simp [hclosing]
    simp only [hcomma, Bool.false_eq_true, ↓reduceIte]
    exact gives_past hclosing (gives_pure _ _)
  | @more name comma ids c rest hname hcomma hnames ih =>
    obtain ⟨closing, hkind, hsuffix, hclosing⟩ := ih comma
    refine ⟨closing, hkind, hsuffix.trans ⟨[name, comma], rfl⟩, ?_⟩
    rw [names_eq]
    refine gives_past hname ?_
    rw [List.tail_cons, identifier_bind, peek_bind, Cursor.peek_cons, Cursor.current_cons]
    simp only [Token.is_iff.2 hcomma, ↓reduceIte, advance_bind]
    apply Outcome.Gives.after_advanced
    apply gives_bind hclosing
    exact gives_pure _ _

theorem parameters_gives {ids : List Identifier} (h : Parameters c ids rest) (last : Token) :
    ∃ closing, closing.kind = .rParen ∧ closing :: rest <:+ c ∧
      (parameters (last :: c)).Gives (some ids) (closing :: rest) := by
  cases h with
  | @none closing _ hclosing =>
    refine ⟨closing, hclosing, List.suffix_rfl, ?_⟩
    rw [parameters, peek_bind, Cursor.peek_cons, Cursor.current_cons]
    simp only [Token.is_iff.2 hclosing, ↓reduceIte, advance_bind]
    exact (gives_pure _ _).after_advanced
  | some hnames =>
    obtain ⟨closing, hkind, hsuffix, hclosing⟩ := names_gives hnames last
    refine ⟨closing, hkind, hsuffix, ?_⟩
    have hname : c.current.kind = .identifier := by
      cases hnames <;> assumption
    rw [parameters, peek_bind, Cursor.peek_cons]
    have hnone : c.current.is .rParen = false := by simp [hname]
    simp only [hnone, Bool.false_eq_true, ↓reduceIte]
    exact hclosing

theorem runs_block {body : List Statement} (ih : Runs (.body body) c rest n)
    (hrest : rest.current.kind = .rBrace ∨ rest.current.kind = .endOfInput) :
    Runs (.block (.mk token body)) (token :: c) rest.tail n := by
  intro levels hn
  refine ⟨rest, rfl, ?_⟩
  rw [block, current_bind, advance_bind]
  apply Outcome.Gives.after_advanced
  apply gives_bind (ih levels .rBrace hn (.inl rfl) hrest)
  exact ⟨rfl, rfl, rfl⟩

/-- A conditional up to the end of its first block; the rest depends on the word that follows. -/
theorem conditional_gives {opening closing : Token} {b : Block} {d' : Cursor} {tree : Expression}
    (hopening : opening.kind = .lParen)
    (hcondition : (reader.read .lowest c).Gives e (last :: closing :: d))
    (hclosing : closing.kind = .rParen) (hbrace : d.current.kind = .lBrace)
    (hb : (block reader d).Gives b d')
    (h : ((if d'.peek.is .elseWord then do
        advance
        past .lBrace .absent do
          return .conditional token e b (some (← block reader))
      else
        return .conditional token e b none : Parse Expression) d').Gives tree rest) :
    (conditional reader (token :: opening :: c)).Gives tree rest := by
  rw [conditional, current_bind]
  refine gives_past hopening ?_
  rw [List.tail_cons, advance_bind]
  apply Outcome.Gives.after_advanced
  apply gives_bind hcondition
  refine gives_past hclosing (gives_past hbrace ?_)
  exact gives_bind hb h

theorem runs_conditional {opening closing : Token} {b : Block} {m : Nat}
    (hword : token.kind = .ifWord) (hopening : opening.kind = .lParen)
    (ih : Runs (.expression .equality e) c (closing :: d) m) (hclosing : closing.kind = .rParen)
    (hbrace : d.current.kind = .lBrace) (ihb : Runs (.block b) d rest n)
    (hrest : rest.current.kind ≠ .elseWord) :
    Runs (.expression .primary (.conditional token e b none)) (token :: opening :: c) rest
      (max m n + 1) := by
  have hstart : Grammar.standard.form? token.kind = some .conditional := by rw [hword]; rfl
  apply runs_of_form (Nat.succ_pos _) hstart
  intro levels hn
  obtain ⟨hm, hn⟩ := Nat.max_le.1 (Nat.le_of_succ_le_succ hn)
  obtain ⟨last, hcondition⟩ := ih.read_closed hm hclosing
  obtain ⟨d', rfl, hb⟩ := ihb levels hn
  refine ⟨d', ⟨rfl, False.elim⟩, conditional_gives hopening hcondition hclosing hbrace hb ?_⟩
  have hother : d'.peek.is .elseWord = false := Token.is_eq_false_iff.2 hrest
  simp only [hother, Bool.false_eq_true, ↓reduceIte]
  exact gives_pure _ _

theorem runs_alternative {opening closing other : Token} {b b' : Block} {d' : Cursor} {m n' : Nat}
    (hword : token.kind = .ifWord) (hopening : opening.kind = .lParen)
    (ih : Runs (.expression .equality e) c (closing :: d) m) (hclosing : closing.kind = .rParen)
    (hbrace : d.current.kind = .lBrace) (ihb : Runs (.block b) d (other :: d') n)
    (hother : other.kind = .elseWord) (hbrace' : d'.current.kind = .lBrace)
    (ihb' : Runs (.block b') d' rest n') :
    Runs (.expression .primary (.conditional token e b (some b'))) (token :: opening :: c) rest
      (max m (max n n') + 1) := by
  have hstart : Grammar.standard.form? token.kind = some .conditional := by rw [hword]; rfl
  apply runs_of_form (Nat.succ_pos _) hstart
  intro levels hn
  obtain ⟨hm, hn, hn'⟩ : m ≤ levels ∧ n ≤ levels ∧ n' ≤ levels := by omega
  obtain ⟨last, hcondition⟩ := ih.read_closed hm hclosing
  obtain ⟨before, hbefore, hb⟩ := ihb levels hn
  obtain ⟨after, rfl, hb'⟩ := ihb' levels hn'
  refine ⟨after, ⟨rfl, False.elim⟩, conditional_gives hopening hcondition hclosing hbrace hb ?_⟩
  have hpeek : before.peek.is .elseWord = true :=
    Token.is_iff.2 (congrArg (Token.kind ∘ Cursor.current) hbefore |>.trans hother)
  simp only [hpeek, ↓reduceIte, advance_bind, hbefore]
  apply Outcome.Gives.after_advanced
  refine gives_past hbrace' (gives_bind hb' ?_)
  exact gives_pure _ _

theorem runs_function {opening : Token} {ids : List Identifier} {b : Block}
    (hword : token.kind = .fnWord) (hopening : opening.kind = .lParen)
    (hnames : Parameters c ids d) (hbrace : d.current.kind = .lBrace)
    (ihb : Runs (.block b) d rest n) :
    Runs (.expression .primary (.function token ids b)) (token :: opening :: c) rest (n + 1) := by
  have hstart : Grammar.standard.form? token.kind = some .function := by rw [hword]; rfl
  apply runs_of_form (Nat.succ_pos _) hstart
  intro levels hn
  obtain ⟨closing, -, -, hparameters⟩ := parameters_gives hnames opening
  obtain ⟨d', rfl, hb⟩ := ihb levels (Nat.le_of_succ_le_succ hn)
  refine ⟨d', ⟨rfl, False.elim⟩, ?_⟩
  rw [Parse.form, function, current_bind]
  refine gives_past hopening (gives_bind hparameters (gives_past hbrace ?_))
  apply gives_bind hb
  exact gives_pure _ _

theorem repeatUntil_gives_nil {α : Type} {closer : Kind} {step : Parse α} {hstep : step.Advances}
    (h : rest.current.kind = closer ∨ rest.current.kind = .endOfInput) :
    (repeatUntil closer step hstep rest).Gives [] rest := by
  rw [repeatUntil_apply, if_pos (by simpa using h)]
  exact ⟨rfl, rfl, rfl⟩

theorem repeatUntil_gives_cons {α : Type} {closer : Kind} {step : Parse α} {hstep : step.Advances}
    {first : α} {others : List α}
    (h : c.current.kind ≠ closer ∧ c.current.kind ≠ .endOfInput) (hfirst : (step c).Gives first d)
    (hothers : (repeatUntil closer step hstep d).Gives others rest) :
    (repeatUntil closer step hstep c).Gives (first :: others) rest := by
  rw [repeatUntil_apply, if_neg (by simpa using h)]
  refine gives_bind hfirst (gives_bind hothers ?_)
  exact gives_pure _ _

theorem skipValue_gives {skipped : List Token}
    (hskipped : ∀ token ∈ skipped, token.kind ≠ .semicolon ∧ token.kind ≠ .endOfInput)
    (hrest : rest.current.kind = .semicolon ∨ rest.current.kind = .endOfInput) :
    (skipValue (skipped ++ rest)).Gives () rest := by
  suffices h : ∃ units,
      (repeatUntil .semicolon advance .advance (skipped ++ rest)).Gives units rest by
    obtain ⟨units, h⟩ := h
    exact gives_bind h (gives_pure _ _)
  induction skipped with
  | nil => exact ⟨[], repeatUntil_gives_nil hrest⟩
  | cons token skipped ih =>
    obtain ⟨htoken, hskipped⟩ := List.forall_mem_cons.1 hskipped
    obtain ⟨units, h⟩ := ih hskipped
    exact ⟨() :: units, repeatUntil_gives_cons htoken ⟨rfl, rfl, rfl⟩ h⟩

theorem statementStep_gives {s : Statement} (h : (statement reader c).Gives (some s) d) :
    (statementStep reader c).Gives (some s) d.tail :=
  gives_bind h ⟨rfl, rfl, rfl⟩

theorem binding_gives {name assign : Token} {skipped : List Token} (word : Token)
    (hname : name.kind = .identifier) (hassign : assign.kind = .assign)
    (hskipped : ∀ token ∈ skipped, token.kind ≠ .semicolon ∧ token.kind ≠ .endOfInput)
    (hrest : rest.current.kind = .semicolon ∨ rest.current.kind = .endOfInput) :
    (binding (word :: name :: assign :: (skipped ++ rest))).Gives
      (some (.binding word (.ofToken name) .absent)) rest := by
  rw [binding, current_bind]
  refine gives_bind (a := some (.binding word (.ofToken name) .absent)) (d := rest) ?_ ?_
  · refine gives_past hname ?_
    rw [List.tail_cons, identifier_bind]
    refine gives_past hassign ?_
    rw [advance_bind]
    apply Outcome.Gives.after_advanced
    apply gives_bind (skipValue_gives hskipped hrest)
    exact gives_pure _ _
  · exact gives_pure _ _

theorem runs_binding {name assign : Token} {skipped : List Token} (hword : token.kind = .letWord)
    (hname : name.kind = .identifier) (hassign : assign.kind = .assign)
    (hskipped : ∀ token ∈ skipped, token.kind ≠ .semicolon ∧ token.kind ≠ .endOfInput)
    (hrest : rest.current.kind = .semicolon ∨ rest.current.kind = .endOfInput) :
    Runs (.statement (.binding token (.ofToken name) .absent))
      (token :: name :: assign :: (skipped ++ rest)) rest.tail 0 := by
  intro levels _
  apply statementStep_gives
  rw [statement_of_letWord hword]
  exact binding_gives token hname hassign hskipped hrest

theorem runs_result (hword : token.kind = .returnWord) (hrest : rest.current.kind = .semicolon) :
    Runs (.statement (.result token .absent)) (token :: rest) rest.tail 0 := by
  intro levels _
  apply statementStep_gives
  rw [statement_of_returnWord hword]
  refine gives_bind ?_ (gives_pure _ _)
  rw [result, current_bind, advance_bind, current_bind, List.tail_cons]
  simp only [Token.is_iff.2 hrest, ↓reduceIte]
  exact (gives_pure _ _).after_advanced

theorem runs_resultValue (hword : token.kind = .returnWord)
    (hrest : rest.current.kind ≠ .semicolon) :
    Runs (.statement (.result token .absent)) (token :: rest) rest.tail.tail 0 := by
  intro levels _
  apply statementStep_gives
  rw [statement_of_returnWord hword]
  refine gives_bind ?_ (gives_pure _ _)
  rw [result, current_bind, advance_bind, current_bind, List.tail_cons]
  simp only [Token.is_eq_false_iff.2 hrest, Bool.false_eq_true, ↓reduceIte, advance_bind]
  exact (gives_pure _ _).after_advanced.after_advanced

theorem runs_terminated {semicolon : Token} {start : Form}
    (hstart : Grammar.standard.form? c.current.kind = some start)
    (ih : Runs (.expression .equality e) c (semicolon :: rest) n)
    (hsemicolon : semicolon.kind = .semicolon) :
    Runs (.statement (.expression c.current e)) c rest n := by
  intro levels hn
  have hnone : Layer.ofOperator? (Cursor.current (semicolon :: rest)).kind = none := by
    rw [Cursor.current_cons, hsemicolon]
    rfl
  obtain ⟨d, hd, hread⟩ := ih.read .lowest hn (Layer.equality_le _)
    (Layer.endsBefore_of_eq_none hnone) (Layer.joins_eq_false_of_eq_none hnone)
  apply statementStep_gives (d := semicolon :: rest)
  rw [statement_of_form? hstart]
  refine gives_bind ?_ (gives_pure _ _)
  rw [expressionStatement, current_bind]
  apply gives_bind hread
  rw [peek_bind, hd.peek_eq, Cursor.current_cons]
  simp only [Token.is_iff.2 hsemicolon, ↓reduceIte, advance_bind, hd.tail_eq]
  exact (gives_pure _ _).after_advanced

theorem runs_unterminated {start : Form}
    (hstart : Grammar.standard.form? c.current.kind = some start)
    (ih : Runs (.expression .equality e) c rest n) (hsemicolon : rest.current.kind ≠ .semicolon)
    (hoperator : Layer.ofOperator? rest.current.kind = none) :
    Runs (.statement (.expression c.current e)) c rest n := by
  intro levels hn
  obtain ⟨d, hd, hread⟩ := ih.read .lowest hn (Layer.equality_le _)
    (Layer.endsBefore_of_eq_none hoperator) (Layer.joins_eq_false_of_eq_none hoperator)
  apply hd.tail_eq ▸ statementStep_gives (d := d)
  rw [statement_of_form? hstart]
  refine gives_bind ?_ (gives_pure _ _)
  rw [expressionStatement, current_bind]
  apply gives_bind hread
  rw [peek_bind, hd.peek_eq]
  simp only [Token.is_eq_false_iff.2 hsemicolon, Bool.false_eq_true, ↓reduceIte]
  exact gives_pure _ _

theorem runs_nil : Runs (.body []) rest rest 0 := by
  intro levels closer _ _ hrest
  exact gives_bind (repeatUntil_gives_nil hrest) (gives_pure _ _)

theorem runs_cons {s : Statement} {body : List Statement} {m : Nat}
    (hopens : (Phrase.statement s).Opens c.current.kind) (ihs : Runs (.statement s) c d m)
    (ihbody : Runs (.body body) d rest n) : Runs (.body (s :: body)) c rest (max m n) := by
  intro levels closer hn hcloser hrest
  obtain ⟨hm, hn⟩ := Nat.max_le.1 hn
  have hstop : c.current.kind ≠ closer ∧ c.current.kind ≠ .endOfInput := by
    refine ⟨?_, hopens.2⟩
    rcases hcloser with rfl | rfl
    · exact hopens.1
    · exact hopens.2
  obtain ⟨others, rfl, hothers⟩ := gives_map_iff.1 (ihbody levels closer hn hcloser hrest)
  exact gives_map_iff.2 ⟨_, rfl, repeatUntil_gives_cons hstop (ihs levels hm) hothers⟩

/-- Every phrase of the grammar is read without a diagnostic and is given back as it is. -/
theorem Derives.runs (h : Derives phrase c rest n) : Runs phrase c rest n := by
  induction h with
  | identifier hname =>
    exact runs_of_literal (by rw [hname]; rfl) fun _ => gives_map_iff.2 ⟨_, rfl, gives_pure _ _⟩
  | integer hnumeral hvalue => exact runs_integer hnumeral hvalue
  | yes hword => exact runs_boolean (by rw [hword]; rfl) (Token.is_iff.2 hword)
  | no hword => exact runs_boolean (by rw [hword]; rfl) (by simp [hword])
  | group hopening _ hclosing ih => exact runs_group hopening ih hclosing
  | conditional hword hopening _ hclosing hb hrest ih ihb =>
    exact runs_conditional hword hopening ih hclosing hb.opens ihb hrest
  | alternative hword hopening _ hclosing hb hother hb' ih ihb ihb' =>
    exact runs_alternative hword hopening ih hclosing hb.opens ihb hother hb'.opens ihb'
  | function hword hopening hnames hb ihb =>
    exact runs_function hword hopening hnames hb.opens ihb
  | unary hoperator _ ih => exact runs_unary hoperator ih
  | binary hoperator _ _ ihleft ihright => exact runs_binary hoperator ihleft ihright
  | loosen _ ih => exact runs_loosen ih
  | binding hword hname hassign hskipped hrest =>
    exact runs_binding hword hname hassign hskipped hrest
  | result hword hrest => exact runs_result hword hrest
  | resultValue hword hrest => exact runs_resultValue hword hrest
  | terminated he hsemicolon ih =>
    obtain ⟨start, hstart⟩ := he.opens
    exact runs_terminated hstart ih hsemicolon
  | unterminated he hsemicolon hoperator ih =>
    obtain ⟨start, hstart⟩ := he.opens
    exact runs_unterminated hstart ih hsemicolon hoperator
  | nil => exact runs_nil
  | cons hs _ ihs ihbody => exact runs_cons hs.opens ihs ihbody
  | block _ _ hrest ih => exact runs_block ih hrest

end ExprLang
