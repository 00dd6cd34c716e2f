import ExprLang.Proofs.DiagnosticOrder
import ExprLang.Proofs.ParameterList
import ExprLang.Proofs.TreeConsistency

namespace ExprLang

open Parse

/-- The token is reported as one where no expression can be read. -/
def Token.Unread (diagnostics : List Diagnostic) (token : Token) : Prop :=
  ⟨.noExpression token.kind, token⟩ ∈ diagnostics ∨
    ⟨.nestingTooDeep maxNesting, token⟩ ∈ diagnostics

/-- Why nothing is made of an operand that ends with `last`, but for the parentheses `closers` that
close it. With `next` the token after `last`, the operand is a numeral that is too great, or it asks
for another token than `next`, or it is no expression and stands in parentheses. -/
inductive OperandLost (diagnostics : List Diagnostic) (last : Token) (closers : List Token)
    (next : Token) : Prop
  | numeral (hkind : last.kind = .integer)
      (hvalue : Numeral.limit < Numeral.value last.literal.toList)
      (hmem : ⟨.integerOutOfRange last.literal, last⟩ ∈ diagnostics)
  | construct {expected : Kind} (hmem : ⟨.unexpectedToken expected next.kind, next⟩ ∈ diagnostics)
  | unread (hclosers : closers ≠ []) (hlast : last.Unread diagnostics)

/-- An operand is lost right before the rest of the tokens. -/
def LostBefore (tokens : List Token) (diagnostics : List Diagnostic) (rest : Cursor) : Prop :=
  ∃ (before : List Token) (last : Token) (closers : List Token),
    tokens = before ++ last :: (closers ++ rest) ∧
      (∀ closing ∈ closers, closing.kind = .rParen) ∧
      OperandLost diagnostics last closers (Cursor.current (closers ++ rest))

/-- The token right before the rest is one where no expression can be read. -/
def UnreadBefore (tokens : List Token) (diagnostics : List Diagnostic) (rest : Cursor) : Prop :=
  ∃ (before : List Token) (last : Token), tokens = before ++ last :: rest ∧
    last.Unread diagnostics

/-- Every operator in the node that has no left operand stands where one is lost. -/
def Node.Explained (tokens : List Token) (diagnostics : List Diagnostic) (node : Node) : Prop :=
  ∀ token operator right, node.Contains (.expression (.binary token .absent operator right)) →
    ∃ rest, LostBefore tokens diagnostics (token :: rest)

/-- All that is missing in an expression is explained. If it is missing itself and the input goes
on, then for the given reason. -/
structure Expression.Explained (tokens : List Token) (diagnostics : List Diagnostic)
    (reason : Cursor → Prop) (e : Expression) (d : Cursor) : Prop where
  node : Node.Explained tokens diagnostics (.expression e)
  missing : e = .absent → d.peek.kind ≠ .endOfInput → reason d.tail

/-- The expression is explained as an operand. -/
abbrev Expression.ExplainedOperand (tokens : List Token) (diagnostics : List Diagnostic) :
    Expression → Cursor → Prop :=
  Explained tokens diagnostics (LostBefore tokens diagnostics)

/-- The expression is explained as far as its reading goes: no parentheses close it yet. -/
abbrev Expression.ExplainedRead (tokens : List Token) (diagnostics : List Diagnostic) :
    Expression → Cursor → Prop :=
  Explained tokens diagnostics fun rest =>
    LostBefore tokens diagnostics rest ∨ UnreadBefore tokens diagnostics rest

/-- The outcome of an action satisfies the condition, if all that it reports is known. -/
def Parse.Ensures {α : Type} (p : Parse α) (diagnostics : List Diagnostic) (c : Cursor)
    (post : α → Cursor → Prop) : Prop :=
  (p c).diagnostics ⊆ diagnostics → post (p c).value (p c).cursor

section Explained

variable {α β : Type} {p : Parse α} {f : α → Parse β} {mid : α → Cursor → Prop}
  {post : β → Cursor → Prop} {tokens more : List Token} {diagnostics : List Diagnostic}
  {token closing : Token} {kind expected : Kind} {c d rest : Cursor} {e left : Expression}
  {node : Node} {reason : Cursor → Prop} {reader : Reader} {floor : Precedence}

theorem ensures_bind (hp : p.Ensures diagnostics c mid)
    (hf : mid (p c).value (p c).cursor →
      (f (p c).value).Ensures diagnostics (p c).cursor post) :
    (p >>= f).Ensures diagnostics c post := by
  intro hknown
  rw [diagnostics_bind, List.append_subset] at hknown
  exact hf (hp hknown.1) hknown.2

theorem ensures_current_bind {f : Token → Parse β} :
    (current >>= f).Ensures diagnostics c post ↔
      (f (Cursor.current c)).Ensures diagnostics c post := Iff.rfl

theorem ensures_peek_bind {f : Token → Parse β} :
    (peek >>= f).Ensures diagnostics c post ↔
      (f (Cursor.peek c)).Ensures diagnostics c post := Iff.rfl

theorem ensures_advance_bind {f : Unit → Parse β} :
    (advance >>= f).Ensures diagnostics c post ↔ (f ()).Ensures diagnostics c.tail post := Iff.rfl

theorem ensures_map {g : α → β} (h : p.Ensures diagnostics c fun a d => post (g a) d) :
    (g <$> p).Ensures diagnostics c post := by
  intro hknown
  rw [map_apply] at hknown ⊢
  exact h hknown

theorem LostBefore.of_unexpected (hc : c <:+ tokens) (hpeek : c.peek.kind ≠ .endOfInput)
    (hmem : ⟨.unexpectedToken expected c.peek.kind, c.peek⟩ ∈ diagnostics) :
    LostBefore tokens diagnostics c.tail := by
  obtain ⟨last, next, rest, rfl⟩ := Cursor.exists_of_peek hpeek
  obtain ⟨before, rfl⟩ := hc
  exact ⟨before, last, [], rfl, nofun, .construct hmem⟩

/-- An operand in parentheses is lost where it is lost without them. -/
theorem LostBefore.close (h : LostBefore tokens diagnostics (closing :: rest))
    (hclosing : closing.kind = .rParen) : LostBefore tokens diagnostics rest := by
  obtain ⟨before, last, closers, htokens, hclosers, hlost⟩ := h
  have hassoc : closers ++ closing :: rest = closers ++ [closing] ++ rest := by simp
  rw [hassoc] at htokens hlost
  refine ⟨before, last, closers ++ [closing], htokens, ?_, ?_⟩
  · intro token hmem
    rcases List.mem_append.1 hmem with hmem | hmem
    · exact hclosers token hmem
    · rwa [List.mem_singleton.1 hmem]
  · cases hlost with
    | numeral hkind hvalue hmem => exact .numeral hkind hvalue hmem
    | construct hmem => exact .construct hmem
    | unread _ hlast => exact .unread (by simp) hlast

theorem UnreadBefore.close (h : UnreadBefore tokens diagnostics (closing :: rest))
    (hclosing : closing.kind = .rParen) : LostBefore tokens diagnostics rest := by
  obtain ⟨before, last, htokens, hlast⟩ := h
  exact ⟨before, last, [closing], htokens, by simpa using hclosing, .unread (by simp) hlast⟩

theorem LostBefore.append (h : LostBefore tokens diagnostics (token :: rest)) :
    LostBefore (tokens ++ more) diagnostics (token :: (rest ++ more)) := by
  obtain ⟨before, last, closers, rfl, hclosers, hlost⟩ := h
  refine ⟨before, last, closers, by simp, hclosers, ?_⟩
  cases closers with
  | nil => exact hlost
  | cons closing closers => exact hlost

/-- A node is explained if it lacks no left operand itself and its parts are explained. -/
theorem Node.Explained.of_parts
    (hself : ∀ token operator right, node = .expression (.binary token .absent operator right) →
      ∃ rest, LostBefore tokens diagnostics (token :: rest))
    (hparts : ∀ part, node.HasPart part → part.Explained tokens diagnostics) :
    node.Explained tokens diagnostics := by
  intro token operator right hcontains
  rcases Relation.ReflTransGen.cases_head hcontains with hnode | ⟨part, hpart, hrest⟩
  · exact hself token operator right hnode
  · exact hparts part hpart token operator right hrest

theorem explained_absent : Node.Explained tokens diagnostics (.expression .absent) := by
  apply Node.Explained.of_parts
  · rintro _ _ _ ⟨⟩
  · rintro _ ⟨⟩

theorem explained_identifier {id : Identifier} :
    Node.Explained tokens diagnostics (.expression (.identifier id)) := by
  apply Node.Explained.of_parts
  · rintro _ _ _ ⟨⟩
  · rintro _ ⟨⟩

theorem explained_integer {value : Int64} :
    Node.Explained tokens diagnostics (.expression (.integer token value)) := by
  apply Node.Explained.of_parts
  · rintro _ _ _ ⟨⟩
  · rintro _ ⟨⟩

theorem explained_boolean {value : Bool} :
    Node.Explained tokens diagnostics (.expression (.boolean token value)) := by
  apply Node.Explained.of_parts
  · rintro _ _ _ ⟨⟩
  · rintro _ ⟨⟩

theorem explained_unary {operator : String} (h : Node.Explained tokens diagnostics (.expression e)) :
    Node.Explained tokens diagnostics (.expression (.unary token operator e)) := by
  apply Node.Explained.of_parts
  · rintro _ _ _ ⟨⟩
  · intro part hpart
    cases hpart
    exact h

theorem explained_conditional {consequence : Block} {alternative : Option Block}
    (hcondition : Node.Explained tokens diagnostics (.expression e))
    (hconsequence : Node.Explained tokens diagnostics (.block consequence))
    (halternative : ∀ b ∈ alternative, Node.Explained tokens diagnostics (.block b)) :
    Node.Explained tokens diagnostics
      (.expression (.conditional token e consequence alternative)) := by
  apply Node.Explained.of_parts
  · rintro _ _ _ ⟨⟩
  · intro part hpart
    cases hpart with
    | condition => exact hcondition
    | consequence => exact hconsequence
    | alternative => exact halternative _ rfl

theorem explained_function {ids : List Identifier} {body : Block}
    (h : Node.Explained tokens diagnostics (.block body)) :
    Node.Explained tokens diagnostics (.expression (.function token ids body)) := by
  apply Node.Explained.of_parts
  · rintro _ _ _ ⟨⟩
  · intro part hpart
    cases hpart
    exact h

theorem explained_binding {closer : Kind} {id : Identifier} :
    Node.Explained tokens diagnostics (.statement closer (.binding token id .absent)) := by
  apply Node.Explained.of_parts
  · rintro _ _ _ ⟨⟩
  · intro part hpart
    cases hpart
    exact explained_absent

theorem explained_result {closer : Kind} :
    Node.Explained tokens diagnostics (.statement closer (.result token .absent)) := by
  apply Node.Explained.of_parts
  · rintro _ _ _ ⟨⟩
  · intro part hpart
    cases hpart
    exact explained_absent

theorem explained_statement {closer : Kind}
    (h : Node.Explained tokens diagnostics (.expression e)) :
    Node.Explained tokens diagnostics (.statement closer (.expression token e)) := by
  apply Node.Explained.of_parts
  · rintro _ _ _ ⟨⟩
  · intro part hpart
    cases hpart
    exact h

theorem explained_block {body : List Statement}
    (h : ∀ statement ∈ body, Node.Explained tokens diagnostics (.statement .rBrace statement)) :
    Node.Explained tokens diagnostics (.block (.mk token body)) := by
  apply Node.Explained.of_parts
  · rintro _ _ _ ⟨⟩
  · intro part hpart
    cases hpart with
    | statement hmem => exact h _ hmem

/-- An expression that has a token is not missing. -/
theorem Expression.Explained.of_token (h : Node.Explained tokens diagnostics (.expression e))
    (htoken : e.token? = some token) : e.Explained tokens diagnostics reason d := by
  refine ⟨h, ?_⟩
  rintro rfl
  cases htoken

theorem Expression.Explained.mono {reason' : Cursor → Prop}
    (h : e.Explained tokens diagnostics reason d) (hreason : ∀ {rest}, reason rest → reason' rest) :
    e.Explained tokens diagnostics reason' d :=
  ⟨h.node, fun habsent hpeek => hreason (h.missing habsent hpeek)⟩

/-- Where nothing can be read the current token is one of no expression. -/
theorem explained_unread (hc : c <:+ tokens) (hcurrent : c.current.Unread diagnostics) :
    Expression.absent.ExplainedRead tokens diagnostics c := by
  refine ⟨explained_absent, fun _ hpeek => .inr ?_⟩
  obtain ⟨last, next, rest, rfl⟩ := Cursor.exists_of_peek hpeek
  obtain ⟨before, rfl⟩ := hc
  exact ⟨before, last, rfl, hcurrent⟩

/-- The reader explains what it misses wherever it reads. -/
def Reader.Explains (tokens : List Token) (diagnostics : List Diagnostic) (reader : Reader) :
    Prop :=
  ∀ floor c, c <:+ tokens →
    (reader.read floor).Ensures diagnostics c (Expression.ExplainedRead tokens diagnostics)

/-- What is not read past a token that is not there is lost before it. -/
theorem ensures_past {p : Parse Expression} (hc : c <:+ tokens)
    (hp : c.peek.kind = kind → p.Ensures diagnostics c.tail
      (Expression.ExplainedOperand tokens diagnostics)) :
    (past kind .absent p).Ensures diagnostics c
      (Expression.ExplainedOperand tokens diagnostics) := by
  by_cases h : c.peek.kind = kind
  · rw [Parse.Ensures, past_of_peek h]
    exact hp h
  · rw [Parse.Ensures, past_of_peek_ne h]
    intro hknown
    have hmem : ⟨.unexpectedToken kind c.peek.kind, c.peek⟩ ∈ diagnostics :=
      hknown List.mem_cons_self
    exact ⟨explained_absent, fun _ hpeek => .of_unexpected hc hpeek hmem⟩

theorem ensures_integer (hlexed : ∀ token ∈ tokens, token.Lexed) (hc : c <:+ tokens)
    (hkind : c.current.kind = .integer) :
    integer.Ensures diagnostics c (Expression.ExplainedOperand tokens diagnostics) := by
  intro hknown
  cases hread : Numeral.read? c.current.literal with
  | some n =>
    rw [integer_of_some hread]
    exact .of_token explained_integer rfl
  | none =>
    rw [integer_of_none hread] at hknown ⊢
    refine ⟨explained_absent, fun _ _ => ?_⟩
    obtain ⟨numeral, rest, rfl⟩ := Cursor.exists_of_current_eq hkind
    obtain ⟨before, rfl⟩ := hc
    have hnumeral := hlexed numeral (List.mem_append_right _ List.mem_cons_self)
    have hrange : Diagnostic.TrueAt _ 0 := hnumeral.outOfRange hkind hread
    obtain ⟨-, -, hvalue⟩ := hrange
    exact ⟨before, numeral, [], rfl, nofun, .numeral hkind hvalue (hknown List.mem_cons_self)⟩

theorem ensures_unary (hR : reader.Explains tokens diagnostics) (hc : c <:+ tokens) :
    (unary reader).Ensures diagnostics c (Expression.ExplainedOperand tokens diagnostics) := by
  rw [unary, ensures_current_bind, ensures_advance_bind]
  refine ensures_bind (hR .unary _ ((List.tail_suffix c).trans hc)) fun hoperand _ => ?_
  exact .of_token (explained_unary hoperand.node) rfl

theorem ensures_group (hR : reader.Explains tokens diagnostics) (hc : c <:+ tokens) :
    (group reader).Ensures diagnostics c (Expression.ExplainedOperand tokens diagnostics) := by
  have htail := (List.tail_suffix c).trans hc
  rw [group, ensures_advance_bind]
  refine ensures_bind (hR .lowest _ htail) fun hinner => ?_
  apply ensures_past ((reader.forward _ _).trans htail)
  intro hclosing _
  refine ⟨hinner.node, fun habsent _ => ?_⟩
  have hpeek : (Cursor.peek (reader.read .lowest c.tail).cursor).kind ≠ .endOfInput := by
    simp [hclosing]
  have hreason := hinner.missing habsent hpeek
  obtain ⟨last, closing, rest, hcursor⟩ := Cursor.exists_of_peek hpeek
  rw [hcursor] at hclosing hreason ⊢
  rcases hreason with hlost | hunread
  · exact hlost.close hclosing
  · exact hunread.close hclosing

theorem ensures_parameters (hc : c <:+ tokens) : parameters.Ensures diagnostics c fun ids? d =>
    ids? = none → d.peek.kind ≠ .endOfInput → LostBefore tokens diagnostics d.tail := by
  intro hknown hnone hpeek
  rcases parameters_cases c with ⟨ids, rest, hparameters⟩ | ⟨names, _, -, -, -, hrefuses⟩
  · obtain ⟨_, -, -, hread⟩ := parameters_gives_of_tail hparameters
    rw [hread.value_eq] at hnone
    cases hnone
  · rw [hrefuses.diagnostics_eq] at hknown
    rw [hrefuses.cursor_eq] at hpeek ⊢
    have hsuffix := (List.drop_suffix names.length c).trans hc
    exact .of_unexpected hsuffix hpeek (hknown List.mem_cons_self)

theorem ensures_expressionStatement (hR : reader.Explains tokens diagnostics)
    (hc : c <:+ tokens) : (expressionStatement reader).Ensures diagnostics c fun tree _ =>
      ∀ closer, Node.Explained tokens diagnostics (.statement closer tree) := by
  rw [expressionStatement, ensures_current_bind]
  refine ensures_bind (hR .lowest c hc) fun hvalue => ?_
  rw [ensures_peek_bind]
  split
  · exact fun _ closer => explained_statement hvalue.node
  · exact fun _ closer => explained_statement hvalue.node

theorem ensures_statement (hR : reader.Explains tokens diagnostics) (hc : c <:+ tokens) :
    (statement reader).Ensures diagnostics c fun statement? _ =>
      ∀ tree ∈ statement?, ∀ closer,
        Node.Explained tokens diagnostics (.statement closer tree) := by
  rw [statement, ensures_current_bind]
  split
  · intro _ tree htree closer
    obtain ⟨-, rfl⟩ := value_binding tree htree
    exact explained_binding
  · apply ensures_map
    rintro _ tree ⟨⟩ closer
    rw [value_result]
    exact explained_result
  · apply ensures_map
    rintro hknown tree ⟨⟩
    exact ensures_expressionStatement hR hc hknown

theorem ensures_statements (hR : reader.Explains tokens diagnostics) (closer : Kind)
    (hc : c <:+ tokens) :
    (statements reader closer).Ensures diagnostics c fun body _ =>
      ∀ tree ∈ body, ∀ closer, Node.Explained tokens diagnostics (.statement closer tree) := by
  induction hlength : c.length using Nat.strongRecOn generalizing c with
  | ind length ih =>
    rw [statements_eq, ensures_current_bind]
    split
    · rintro _ tree ⟨⟩
    · next hstop =>
      have hlt := hlength ▸ length_statementStep_lt reader (ne_endOfInput_of_not_stop hstop)
      have hrest := (List.tail_suffix _).trans ((Forward.statement reader c).trans hc)
      refine ensures_bind (ensures_statement hR hc) fun hfirst => ?_
      rw [ensures_advance_bind]
      refine ensures_bind (ih _ hlt hrest rfl) fun hothers _ tree htree => ?_
      rcases List.mem_append.1 htree with hmem | hmem
      · exact hfirst tree (Option.mem_toList.1 hmem)
      · exact hothers tree hmem

theorem ensures_block (hR : reader.Explains tokens diagnostics) (hc : c <:+ tokens) :
    (block reader).Ensures diagnostics c fun b _ =>
      Node.Explained tokens diagnostics (.block b) := by
  rw [block, ensures_current_bind, ensures_advance_bind]
  refine ensures_bind (ensures_statements hR .rBrace ((List.tail_suffix c).trans hc))
    fun hbody _ => ?_
  exact explained_block fun tree hmem => hbody tree hmem .rBrace

theorem ensures_conditional (hR : reader.Explains tokens diagnostics) (hc : c <:+ tokens) :
    (conditional reader).Ensures diagnostics c
      (Expression.ExplainedOperand tokens diagnostics) := by
  rw [conditional, ensures_current_bind]
  apply ensures_past hc
  intro _
  have hopened := (List.tail_suffix _).trans ((List.tail_suffix c).trans hc)
  rw [ensures_advance_bind]
  refine ensures_bind (hR .lowest _ hopened) fun hcondition => ?_
  have hread := (reader.forward .lowest _).trans hopened
  apply ensures_past hread
  intro _
  have hclosed := (List.tail_suffix _).trans hread
  apply ensures_past hclosed
  intro _
  have hbrace := (List.tail_suffix _).trans hclosed
  refine ensures_bind (ensures_block hR hbrace) fun hconsequence => ?_
  have hend := (Forward.block reader _).trans hbrace
  rw [ensures_peek_bind]
  split
  · rw [ensures_advance_bind]
    have hother := (List.tail_suffix _).trans hend
    apply ensures_past hother
    intro _
    have hother := (List.tail_suffix _).trans hother
    refine ensures_bind (ensures_block hR hother) fun halternative _ => .of_token ?_ rfl
    apply explained_conditional hcondition.node hconsequence
    intro b hb
    cases hb
    exact halternative
  · refine fun _ => .of_token ?_ rfl
    apply explained_conditional hcondition.node hconsequence
    intro b hb
    cases hb

theorem ensures_function (hR : reader.Explains tokens diagnostics) (hc : c <:+ tokens) :
    (function reader).Ensures diagnostics c (Expression.ExplainedOperand tokens diagnostics) := by
  rw [function, ensures_current_bind]
  apply ensures_past hc
  intro _
  have hopened := (List.tail_suffix c).trans hc
  refine ensures_bind (ensures_parameters hopened) fun hnames => ?_
  have hread := (Forward.parameters _).trans hopened
  cases hvalue : (parameters c.tail).value with
  | none => exact fun _ => ⟨explained_absent, fun _ => hnames hvalue⟩
  | some ids =>
    apply ensures_past hread
    intro _
    refine ensures_bind (ensures_block hR ((List.tail_suffix _).trans hread)) fun hbody _ => ?_
    exact .of_token (explained_function hbody) rfl

theorem ensures_form (hlexed : ∀ token ∈ tokens, token.Lexed)
    (hR : reader.Explains tokens diagnostics) (hc : c <:+ tokens) {start : Form}
    (hstart : Grammar.standard.form? c.current.kind = some start) :
    (Parse.form reader start).Ensures diagnostics c
      (Expression.ExplainedOperand tokens diagnostics) := by
  cases start with
  | identifier => exact fun _ => .of_token explained_identifier rfl
  | integer => exact ensures_integer hlexed hc (Form.kind_of_standard?_eq_integer hstart)
  | boolean => exact fun _ => .of_token explained_boolean rfl
  | unary => exact ensures_unary hR hc
  | group => exact ensures_group hR hc
  | conditional => exact ensures_conditional hR hc
  | function => exact ensures_function hR hc

/-- An operator is explained with its operands, since it is a token that goes on. -/
theorem ensures_binary (hR : reader.Explains tokens diagnostics) (hc : c <:+ tokens)
    (hpeek : c.peek.kind ≠ .endOfInput) (hleft : left.ExplainedOperand tokens diagnostics c) :
    (binary .standard reader left).Ensures diagnostics c.tail
      (Expression.ExplainedOperand tokens diagnostics) := by
  obtain ⟨last, operator, rest, rfl⟩ := Cursor.exists_of_peek hpeek
  have hrest : rest <:+ tokens := (List.suffix_append [last, operator] rest).trans hc
  rw [binary, ensures_current_bind, ensures_advance_bind]
  refine ensures_bind (hR _ rest hrest) fun hright _ => .of_token (.of_parts ?_ ?_) rfl
  · rintro token name right ⟨⟩
    exact ⟨rest, hleft.missing rfl hpeek⟩
  · intro part hpart
    cases hpart with
    | left => exact hleft.node
    | right => exact hright.node

theorem ensures_climb (hR : reader.Explains tokens diagnostics) (floor : Precedence)
    (hc : c <:+ tokens) (hleft : left.ExplainedOperand tokens diagnostics c) :
    (climb .standard reader floor left).Ensures diagnostics c
      (Expression.ExplainedOperand tokens diagnostics) := by
  induction hlength : c.length using Nat.strongRecOn generalizing c left with
  | ind length ih =>
    rw [climb_eq, ensures_peek_bind]
    split
    · next hjoins =>
      have hforward := Forward.binary .standard reader left c.tail
      have hlt := hlength ▸ length_lt_of_joins hjoins hforward
      have htail := (List.tail_suffix c).trans hc
      rw [ensures_advance_bind]
      refine ensures_bind (ensures_binary hR hc (Grammar.ne_endOfInput_of_joins hjoins) hleft)
        fun hjoined => ?_
      exact ih _ hlt (hforward.trans htail) hjoined rfl
    · exact fun _ => hleft

theorem ensures_expression (hlexed : ∀ token ∈ tokens, token.Lexed)
    (hR : reader.Explains tokens diagnostics) (hc : c <:+ tokens) :
    (expression .standard reader floor).Ensures diagnostics c
      (Expression.ExplainedRead tokens diagnostics) := by
  rw [expression, ensures_current_bind]
  cases hstart : Grammar.standard.form? c.current.kind with
  | none =>
    intro hknown
    exact explained_unread hc (.inl (hknown List.mem_cons_self))
  | some start =>
    refine ensures_bind (ensures_form hlexed hR hc hstart) fun hoperand => ?_
    have hclimb := ensures_climb hR floor ((Forward.form reader start c).trans hc) hoperand
    intro hknown
    exact (hclimb hknown).mono .inl

end Explained

theorem Reader.explains_ofLevels {tokens : List Token} (hlexed : ∀ token ∈ tokens, token.Lexed)
    (diagnostics : List Diagnostic) (levels : Nat) :
    (Reader.ofLevels .standard levels).Explains tokens diagnostics := by
  induction levels with
  | zero =>
    intro floor c hc hknown
    exact explained_unread hc (.inr (hknown List.mem_cons_self))
  | succ levels ih =>
    intro floor c hc
    exact ensures_expression hlexed ih hc

/-- Where an operator has no left operand in a program, with errors or without, an operand is lost
right before it and reported. -/
theorem parse_operand_lost (source : String) : ∀ statement ∈ (parse source).1.statements,
    ∀ token operator right, Node.Contains (.statement .endOfInput statement)
      (.expression (.binary token .absent operator right)) →
    ∃ rest, LostBefore (tokenize source) (parse source).2.diagnostics (token :: rest) := by
  intro statement hmem token operator right hcontains
  have hlexed := (Lexer.ofString source).lexes.lexed_of_mem
  have hreader := Reader.explains_ofLevels hlexed (readTokens source).diagnostics maxNesting
  have hstatements := ensures_statements hreader .endOfInput List.suffix_rfl (List.Subset.refl _)
  obtain ⟨rest, hlost⟩ := hstatements statement hmem .endOfInput token operator right hcontains
  rw [parse_diagnostics]
  exact ⟨_, hlost.append⟩

/-- No numeral is near this operator. -/
theorem parse_operand_lost_bracket :
    let sum : Expression :=
      .binary (.ofSymbol '+') .absent "+" (.integer ⟨.integer, "1"⟩ 1)
    let whole : Statement := .expression (.ofSymbol '(') sum
    whole ∈ (parse "(]) + 1").1.statements ∧
      Node.Contains (.statement .endOfInput whole) (.expression sum) ∧
      ∃ rest, LostBefore (tokenize "(]) + 1") (parse "(]) + 1").2.diagnostics
        (.ofSymbol '+' :: rest) := by
  intro sum whole
  have hmem : whole ∈ (parse "(]) + 1").1.statements := by decide +kernel
  have hsum : Node.Contains (.statement .endOfInput whole) (.expression sum) := .single .value
  exact ⟨hmem, hsum, parse_operand_lost _ whole hmem _ _ _ hsum⟩

/-- An operand can be lost without a numeral. -/
theorem exists_operand_lost_without_numeral :
    ∃ source statement token operator right, statement ∈ (parse source).1.statements ∧
      Node.Contains (.statement .endOfInput statement)
        (.expression (.binary token .absent operator right)) ∧
      ¬ ∃ before numeral after, tokenize source = before ++ numeral :: token :: after ∧
        numeral.kind = .integer := by
  let one : Token := ⟨.integer, "1"⟩
  let sum : Expression := .binary (.ofSymbol '+') .absent "+" (.integer one 1)
  have hmem : .expression (.ofWord "if") sum ∈ (parse "if + 1").1.statements := by decide +kernel
  have htokens : tokenize "if + 1" = [.ofWord "if", .ofSymbol '+', one, .endOfInput] := by
    decide +kernel
  refine ⟨"if + 1", _, _, _, _, hmem, .single .value, ?_⟩
  rintro ⟨before, numeral, after, hsplit, hkind⟩
  rw [htokens] at hsplit
  rcases before with _ | ⟨first, _ | ⟨second, _ | ⟨third, before⟩⟩⟩ <;>
    simp only [List.nil_append, List.cons_append, List.cons.injEq] at hsplit
  · obtain ⟨rfl, -⟩ := hsplit
    exact absurd hkind (by decide)
  · obtain ⟨-, rfl, -⟩ := hsplit
    exact absurd hkind (by decide)
  · obtain ⟨-, -, -, hend, -⟩ := hsplit
    exact absurd hend (by decide)
  · obtain ⟨-, -, -, hend⟩ := hsplit
    have hlength := congrArg List.length hend
    simp at hlength
    omega

end ExprLang
