import ExprLang.Proofs.CleanRun
import ExprLang.Proofs.DecimalNumeral

namespace ExprLang

open Parse

/-- A node of a program. A statement is taken together with the kind of token that ends the
statements around it. -/
inductive Node where
  | expression (tree : Expression)
  | statement (closer : Kind) (tree : Statement)
  | block (tree : Block)

/-- An identifier named by one of the known tokens. -/
def Identifier.Known (known : Token → Prop) (id : Identifier) : Prop :=
  ∃ name, known name ∧ name.kind = .identifier ∧ id = .ofToken name

/-- The node can be read with `levels` expressions open at once, each of its tokens being one of the
known. -/
inductive Node.Built (known : Token → Prop) : Nat → Node → Prop
  | absent {n : Nat} : Built known n (.expression .absent)
  | identifier {n : Nat} {id : Identifier} (hid : id.Known known) (hn : 0 < n) :
      Built known n (.expression (.identifier id))
  | integer {n : Nat} {numeral : Token} {value : Int64} (hnumeral : known numeral)
      (hkind : numeral.kind = .integer) (hvalue : Numeral.Denotes numeral.literal value)
      (hn : 0 < n) : Built known n (.expression (.integer numeral value))
  | boolean {n : Nat} {word : Token} (hword : known word)
      (hkind : word.kind = .trueWord ∨ word.kind = .falseWord) (hn : 0 < n) :
      Built known n (.expression (.boolean word (word.is .trueWord)))
  | unary {m n : Nat} {operator : Token} {operand : Expression} (hoperator : known operator)
      (hkind : operator.kind = .bang ∨ operator.kind = .minus)
      (hoperand : Built known m (.expression operand)) (hm : m < n) :
      Built known n (.expression (.unary operator operator.literal operand))
  | binary {m n : Nat} {operator : Token} {left right : Expression} (hoperator : known operator)
      (hkind : Precedence.standard? operator.kind ≠ none)
      (hleft : Built known n (.expression left)) (hright : Built known m (.expression right))
      (hm : m < n) : Built known n (.expression (.binary operator left operator.literal right))
  | conditional {m n : Nat} {word : Token} {condition : Expression} {consequence : Block}
      {alternative : Option Block} (hword : known word) (hkind : word.kind = .ifWord)
      (hcondition : Built known m (.expression condition))
      (hconsequence : Built known m (.block consequence))
      (halternative : ∀ block ∈ alternative, Built known m (.block block)) (hm : m < n) :
      Built known n (.expression (.conditional word condition consequence alternative))
  | function {m n : Nat} {word : Token} {ids : List Identifier} {body : Block}
      (hword : known word) (hkind : word.kind = .fnWord)
      (hids : ∀ id ∈ ids, id.Known known)
      (hbody : Built known m (.block body)) (hm : m < n) :
      Built known n (.expression (.function word ids body))
  | binding {n : Nat} {closer : Kind} {word : Token} {id : Identifier} (hword : known word)
      (hkind : word.kind = .letWord) (hid : id.Known known) :
      Built known n (.statement closer (.binding word id .absent))
  | result {n : Nat} {closer : Kind} {word : Token} (hword : known word)
      (hkind : word.kind = .returnWord) :
      Built known n (.statement closer (.result word .absent))
  | statement {n : Nat} {closer : Kind} {token : Token} {value : Expression}
      (hkind : token.kind ∉ [.letWord, .returnWord, .endOfInput, closer])
      (hvalue : Built known n (.expression value)) :
      Built known n (.statement closer (.expression token value))
  | block {n : Nat} {brace : Token} {body : List Statement} (hbrace : known brace)
      (hkind : brace.kind = .lBrace)
      (hbody : ∀ statement ∈ body, Built known n (.statement .rBrace statement)) :
      Built known n (.block (.mk brace body))

theorem Node.Built.mono {known : Token → Prop} {m n : Nat} {node : Node}
    (h : node.Built known m) (hle : m ≤ n) : node.Built known n := by
  induction h with
  | absent => exact .absent
  | identifier hid hm => exact .identifier hid (Nat.lt_of_lt_of_le hm hle)
  | integer hnumeral hkind hvalue hm =>
    exact .integer hnumeral hkind hvalue (Nat.lt_of_lt_of_le hm hle)
  | boolean hword hkind hm => exact .boolean hword hkind (Nat.lt_of_lt_of_le hm hle)
  | unary hoperator hkind hoperand hm _ =>
    exact .unary hoperator hkind hoperand (Nat.lt_of_lt_of_le hm hle)
  | binary hoperator hkind _ hright hm ihleft _ =>
    exact .binary hoperator hkind (ihleft hle) hright (Nat.lt_of_lt_of_le hm hle)
  | conditional hword hkind hcondition hconsequence halternative hm _ _ _ =>
    exact .conditional hword hkind hcondition hconsequence halternative
      (Nat.lt_of_lt_of_le hm hle)
  | function hword hkind hids hbody hm _ =>
    exact .function hword hkind hids hbody (Nat.lt_of_lt_of_le hm hle)
  | binding hword hkind hid => exact .binding hword hkind hid
  | result hword hkind => exact .result hword hkind
  | statement hkind _ ih => exact .statement hkind (ih hle)
  | block hbrace hkind _ ih =>
    exact .block hbrace hkind fun statement hmem => ih statement hmem hle

/-- All tokens that are left are known. -/
def Cursor.Known (known : Token → Prop) (c : Cursor) : Prop := ∀ token ∈ c, known token

section Built

variable {α : Type} {known : Token → Prop} {n : Nat} {c d : Cursor} {reader : Reader}
  {kind closer : Kind} {nothing : α} {p : Parse α}

theorem Cursor.Known.of_suffix (h : c.Known known) (hd : d <:+ c) : d.Known known :=
  fun token hmem => h token (hd.subset hmem)

theorem Cursor.Known.tail (h : c.Known known) : Known known c.tail :=
  h.of_suffix (List.tail_suffix c)

theorem Cursor.Known.current (h : c.Known known) (hkind : c.current.kind ≠ .endOfInput) :
    known c.current := by
  obtain ⟨token, rest, rfl⟩ := Cursor.exists_of_current hkind
  exact h token List.mem_cons_self

theorem Cursor.Known.current_eq (h : c.Known known) (hkind : c.current.kind = kind)
    (hne : kind ≠ .endOfInput := by decide) : known c.current :=
  h.current (hkind ▸ hne)

/-- The reader reads trees of at most `n` levels from known tokens. -/
def Reader.Builds (known : Token → Prop) (n : Nat) (reader : Reader) : Prop :=
  ∀ floor (c : Cursor), c.Known known →
    Node.Built known n (.expression (reader.read floor c).value)

/-- What holds of nothing and of what is read past a token holds of what is read. -/
theorem value_past {P : α → Prop} (hnothing : P nothing)
    (hp : c.peek.kind = kind → P (p c.tail).value) : P (past kind nothing p c).value := by
  by_cases h : c.peek.kind = kind
  · rw [past_of_peek h]
    exact hp h
  · rw [past_of_peek_ne h]
    exact hnothing

theorem built_past {p : Parse Expression}
    (hp : c.peek.kind = kind → Node.Built known n (.expression (p c.tail).value)) :
    Node.Built known n (.expression (past kind .absent p c).value) :=
  value_past (P := fun e => Node.Built known n (.expression e)) .absent hp

theorem built_integer (hc : c.Known known) (hkind : c.current.kind = .integer) :
    Node.Built known (n + 1) (.expression (integer c).value) := by
  rw [integer, current_bind]
  cases hvalue : Numeral.read? c.current.literal with
  | none => exact .absent
  | some value =>
    exact .integer (hc.current_eq hkind) hkind (Numeral.read?_eq_some_iff.1 hvalue) n.succ_pos

theorem built_unary (hR : reader.Builds known n) (hc : c.Known known)
    (hkind : c.current.kind = .bang ∨ c.current.kind = .minus) :
    Node.Built known (n + 1) (.expression (unary reader c).value) := by
  have hoperator : c.current.kind ≠ .endOfInput := by
    rcases hkind with h | h <;> simp [h]
  exact .unary (hc.current hoperator) hkind (hR .unary _ hc.tail) n.lt_succ_self

theorem built_group (hR : reader.Builds known n) (hc : c.Known known) :
    Node.Built known (n + 1) (.expression (group reader c).value) := by
  have hinner := hR .lowest _ hc.tail
  exact built_past fun _ => hinner.mono n.le_succ

theorem known_identifier (hc : c.Known known) (hkind : c.current.kind = .identifier) :
    (Identifier.ofToken c.current).Known known :=
  ⟨c.current, hc.current_eq hkind, hkind, rfl⟩

theorem known_names (hc : c.Known known) :
    ∀ ids ∈ (names c).value, ∀ id ∈ ids, id.Known known := by
  induction hlength : c.length using Nat.strongRecOn generalizing c with
  | ind length ih =>
    rw [names_eq]
    apply value_past (P := fun ids? => ∀ ids ∈ ids?, ∀ id ∈ ids, Identifier.Known known id)
    · nofun
    · intro hname
      obtain ⟨before, name, c, rfl⟩ := Cursor.exists_of_peek_eq hname
      have hid := known_identifier hc.tail hname
      rw [List.tail_cons, identifier_bind, peek_bind]
      split
      · have hlt : c.length < length := by
          simp only [List.length_cons] at hlength
          omega
        rw [advance_bind, Outcome.value_after, value_bind]
        intro ids hids
        obtain ⟨others, hothers, rfl⟩ := Option.map_eq_some_iff.1 hids
        exact List.forall_mem_cons.2 ⟨hid, ih _ hlt hc.tail.tail rfl others hothers⟩
      · apply value_past (P := fun ids? => ∀ ids ∈ ids?, ∀ id ∈ ids, Identifier.Known known id)
        · nofun
        · rintro _ ids ⟨⟩
          exact List.forall_mem_singleton.2 hid

theorem known_parameters (hc : c.Known known) :
    ∀ ids ∈ (parameters c).value, ∀ id ∈ ids, id.Known known := by
  rw [parameters, peek_bind]
  split
  · rintro ids ⟨⟩
    nofun
  · exact known_names hc

/-- A binding that is read has a name, and never a value. -/
theorem value_binding : ∀ statement ∈ (binding c).value,
    c.peek.kind = .identifier ∧ statement = .binding c.current (.ofToken c.peek) .absent := by
  have hvalue (read? : Option Statement) (token : Token) (d : Cursor) :
      ((if read?.isNone then record (.bindingDropped token) >>= fun _ => pure read?
        else pure read? : Parse (Option Statement)) d).value = read? := by
    split <;> rfl
  rw [binding, current_bind, value_bind, hvalue]
  apply value_past (P := fun read? : Option Statement => ∀ statement ∈ read?,
    c.peek.kind = .identifier ∧ statement = .binding c.current (.ofToken c.peek) .absent)
  · nofun
  · intro hname
    apply value_past (P := fun read? : Option Statement => ∀ statement ∈ read?,
      c.peek.kind = .identifier ∧ statement = .binding c.current (.ofToken c.peek) .absent)
    · nofun
    · rintro _ statement ⟨⟩
      exact ⟨hname, rfl⟩

theorem value_result (c : Cursor) : (result c).value = .result c.current .absent := by
  rw [result, current_bind, advance_bind, Outcome.value_after, current_bind]
  split <;> rfl

theorem value_expressionStatement (reader : Reader) (c : Cursor) :
    (expressionStatement reader c).value =
      .expression c.current (reader.read .lowest c).value := by
  rw [expressionStatement, current_bind, value_bind, peek_bind]
  split <;> rfl

theorem built_statement (hR : reader.Builds known n) (hc : c.Known known)
    (hcloser : c.current.kind ≠ closer) (hend : c.current.kind ≠ .endOfInput) :
    ∀ tree ∈ (statement reader c).value, Node.Built known n (.statement closer tree) := by
  rw [statement_apply]
  split
  · next hlet =>
    intro tree htree
    obtain ⟨hname, rfl⟩ := value_binding tree htree
    exact .binding (hc.current_eq hlet) hlet (known_identifier hc.tail hname)
  · next hlet =>
    split
    · next hreturn =>
      rintro tree ⟨⟩
      rw [value_result]
      exact .result (hc.current_eq hreturn) hreturn
    · next hreturn =>
      rintro tree ⟨⟩
      rw [value_expressionStatement]
      exact .statement (by simp [hlet, hreturn, hend, hcloser]) (hR .lowest c hc)

theorem built_statements (hR : reader.Builds known n) (closer : Kind) (hc : c.Known known) :
    ∀ tree ∈ (statements reader closer c).value, Node.Built known n (.statement closer tree) := by
  induction hlength : c.length using Nat.strongRecOn generalizing c with
  | ind length ih =>
    rw [statements_eq, current_bind]
    split
    · nofun
    · next hstop =>
      have hlt := hlength ▸ length_statementStep_lt reader (ne_endOfInput_of_not_stop hstop)
      rw [Bool.or_eq_true, Token.is_iff, Token.is_iff, not_or] at hstop
      have hfirst := built_statement hR hc hstop.1 hstop.2
      have hrest : Cursor.Known known (statement reader c).cursor.tail :=
        (hc.of_suffix (Forward.statement reader c)).tail
      intro tree htree
      rcases List.mem_append.1 htree with hmem | hmem
      · exact hfirst tree (Option.mem_toList.1 hmem)
      · exact ih _ hlt hrest rfl tree hmem

theorem built_block (hR : reader.Builds known n) (hc : c.Known known)
    (hkind : c.current.kind = .lBrace) : Node.Built known n (.block (block reader c).value) :=
  .block (hc.current_eq hkind) hkind (built_statements hR .rBrace hc.tail)

theorem built_conditional (hR : reader.Builds known n) (hc : c.Known known)
    (hkind : c.current.kind = .ifWord) :
    Node.Built known (n + 1) (.expression (conditional reader c).value) := by
  rw [conditional, current_bind]
  apply built_past
  intro _
  have hcondition := hR .lowest _ hc.tail.tail
  have hrest := hc.tail.tail.of_suffix (reader.forward .lowest c.tail.tail)
  rw [advance_bind, Outcome.value_after, value_bind]
  apply built_past
  intro _
  apply built_past
  intro hbrace
  have hconsequence := built_block hR hrest.tail.tail hbrace
  have hrest' := hrest.tail.tail.of_suffix (Forward.block reader _)
  rw [value_bind, peek_bind]
  split
  · rw [advance_bind, Outcome.value_after]
    apply built_past
    intro hbrace'
    have halternative := built_block hR hrest'.tail.tail hbrace'
    refine .conditional (hc.current_eq hkind) hkind hcondition hconsequence ?_ n.lt_succ_self
    rintro block ⟨⟩
    exact halternative
  · exact .conditional (hc.current_eq hkind) hkind hcondition hconsequence nofun n.lt_succ_self

theorem built_function (hR : reader.Builds known n) (hc : c.Known known)
    (hkind : c.current.kind = .fnWord) :
    Node.Built known (n + 1) (.expression (function reader c).value) := by
  rw [function, current_bind]
  apply built_past
  intro _
  have hids := known_parameters hc.tail
  have hrest := hc.tail.of_suffix (Forward.parameters c.tail)
  rw [value_bind]
  cases hvalue : (parameters c.tail).value with
  | none => exact .absent
  | some ids =>
    apply built_past
    intro hbrace
    have hbody := built_block hR hrest.tail hbrace
    exact .function (hc.current_eq hkind) hkind (hids ids hvalue) hbody n.lt_succ_self

theorem built_form (hR : reader.Builds known n) (hc : c.Known known) {start : Form}
    (hstart : Grammar.standard.form? c.current.kind = some start) :
    Node.Built known (n + 1) (.expression (Parse.form reader start c).value) := by
  cases hkind : c.current.kind <;> rw [hkind] at hstart <;> cases hstart
  case identifier => exact .identifier (known_identifier hc hkind) n.succ_pos
  case integer => exact built_integer hc hkind
  case trueWord => exact .boolean (hc.current_eq hkind) (.inl hkind) n.succ_pos
  case falseWord => exact .boolean (hc.current_eq hkind) (.inr hkind) n.succ_pos
  case bang => exact built_unary hR hc (.inl hkind)
  case minus => exact built_unary hR hc (.inr hkind)
  case lParen => exact built_group hR hc
  case ifWord => exact built_conditional hR hc hkind
  case fnWord => exact built_function hR hc hkind

/-- What joins two expressions in the standard grammar is one of its operators. -/
theorem Precedence.standard?_ne_none_of_joins {floor : Precedence}
    (h : Grammar.standard.joins floor kind = true) : Precedence.standard? kind ≠ none := by
  intro hnone
  have hlowest : Grammar.standard.precedence kind = .lowest := by
    change (Precedence.standard? kind).getD .lowest = .lowest
    rw [hnone, Option.getD_none]
  rw [Grammar.joins, hlowest, Bool.and_eq_true, decide_eq_true_eq] at h
  exact Nat.not_lt_zero _ h.2

theorem built_climb (hR : reader.Builds known n) (floor : Precedence) {left : Expression}
    (hleft : Node.Built known (n + 1) (.expression left)) (hc : c.Known known) :
    Node.Built known (n + 1) (.expression (climb .standard reader floor left c).value) := by
  induction hlength : c.length using Nat.strongRecOn generalizing c left with
  | ind length ih =>
    rw [climb_eq, peek_bind]
    split
    · next hjoins =>
      have hforward := Forward.binary .standard reader left c.tail
      have hlt := hlength ▸ length_lt_of_joins hjoins hforward
      have hright := hR (Grammar.standard.precedence c.peek.kind) _ hc.tail.tail
      have hjoined : Node.Built known (n + 1)
          (.expression (binary .standard reader left c.tail).value) :=
        .binary (hc.tail.current (Grammar.ne_endOfInput_of_joins hjoins))
          (Precedence.standard?_ne_none_of_joins hjoins) hleft hright n.lt_succ_self
      exact ih _ hlt hjoined (hc.tail.of_suffix hforward) rfl
    · exact hleft

theorem built_expression (hR : reader.Builds known n) (floor : Precedence) (hc : c.Known known) :
    Node.Built known (n + 1) (.expression (expression .standard reader floor c).value) := by
  rw [expression, current_bind]
  cases hform : Grammar.standard.form? c.current.kind with
  | none => exact .absent
  | some start =>
    exact built_climb hR floor (built_form hR hc hform) (hc.of_suffix (Forward.form reader start c))

end Built

theorem Reader.builds_ofLevels (known : Token → Prop) (levels : Nat) :
    (Reader.ofLevels .standard levels).Builds known levels := by
  induction levels with
  | zero => exact fun _ _ _ => .absent
  | succ levels ih => exact fun floor _ hc => built_expression ih floor hc

end ExprLang
