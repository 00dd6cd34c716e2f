import ExprLang.Proofs.GrammarCompleteness

namespace ExprLang

open Parse

/-- Names with operators between them: the first name, and every operator with the name after it. -/
structure Chain where
  first : Token
  links : List (Token × Token)

namespace Chain

def names (chain : Chain) : List Token := chain.first :: chain.links.map Prod.snd

def operators (chain : Chain) : List Token := chain.links.map Prod.fst

def linkTokens (links : List (Token × Token)) : List Token :=
  links.flatMap fun (operator, name) => [operator, name]

def tokens (chain : Chain) : List Token := chain.first :: linkTokens chain.links

/-- The last name. -/
def last (chain : Chain) : Token := (chain.links.map Prod.snd).getLastD chain.first

variable {first operator name : Token} {links others : List (Token × Token)}

theorem last_append : last ⟨first, links ++ others⟩ = last ⟨last ⟨first, links⟩, others⟩ := by
  induction links generalizing first with
  | nil => rfl
  | cons link links ih =>
    simp only [last, List.cons_append, List.map_cons, List.getLastD_cons]
    exact ih

end Chain

namespace Expression

/-- The tree has the names and the operators of the chain, from left to right. -/
inductive InOrder : Expression → Chain → Prop
  | name (token : Token) : InOrder (.identifier (.ofToken token)) ⟨token, []⟩
  | join {operator first second : Token} {left right : Expression}
      {before after : List (Token × Token)} (hleft : InOrder left ⟨first, before⟩)
      (hright : InOrder right ⟨second, after⟩) :
      InOrder (.binary operator left operator.literal right)
        ⟨first, before ++ (operator, second) :: after⟩

/-- The operators that join the operands of a tree, from left to right. -/
def operators : Expression → List Token
  | .binary token left _ right => left.operators ++ token :: right.operators
  | _ => []

@[simp] theorem operators_identifier (id : Identifier) : (identifier id).operators = [] := rfl

/-- Every operator binds no tighter than those in its left operand and less tightly than those in
its right one. -/
def BoundBy (grammar : Grammar) : Expression → Prop
  | .binary token left _ right =>
    (∀ operator ∈ left.operators,
        grammar.precedence token.kind ≤ grammar.precedence operator.kind) ∧
      (∀ operator ∈ right.operators,
        grammar.precedence token.kind < grammar.precedence operator.kind) ∧
      left.BoundBy grammar ∧ right.BoundBy grammar
  | _ => True

end Expression

section Order

variable {α : Type} {grammar : Grammar} {chain : Chain} {e e' : Expression} {first : Token}
  {links : List (Token × Token)}

/-- Where a list is cut at two elements, the cuts are the same or each lies in a part of the
other. -/
theorem append_cons_cases {before before' after after' : List α} {x x' : α}
    (h : before ++ x :: after = before' ++ x' :: after') :
    (before = before' ∧ x = x' ∧ after = after') ∨
      (x ∈ before' ∧ x' ∈ after) ∨ (x' ∈ before ∧ x ∈ after') := by
  rcases List.append_eq_append_iff.1 h with ⟨cut, rfl, hcut⟩ | ⟨cut, rfl, hcut⟩
  · cases cut with
    | nil =>
      cases hcut
      exact .inl ⟨(List.append_nil before).symm, rfl, rfl⟩
    | cons y cut =>
      cases hcut
      exact .inr (.inl ⟨by simp, by simp⟩)
  · cases cut with
    | nil =>
      cases hcut
      exact .inl ⟨List.append_nil before', rfl, rfl⟩
    | cons y cut =>
      cases hcut
      exact .inr (.inr ⟨by simp, by simp⟩)

/-- A list is cut where a condition on its elements first fails. -/
theorem exists_cut (p : α → Bool) (l : List α) : ∃ inner outer, l = inner ++ outer ∧
    (∀ x ∈ inner, p x = true) ∧ ∀ x ∈ outer.head?, p x = false := by
  have hstop := List.head?_dropWhile_not p l
  have hinner : ∀ x ∈ l.takeWhile p, p x = true := List.all_eq_true.1 List.all_takeWhile
  refine ⟨l.takeWhile p, l.dropWhile p, List.takeWhile_append_dropWhile.symm, hinner, ?_⟩
  intro x hx
  rwa [hx] at hstop

theorem Expression.InOrder.operators_eq (h : e.InOrder chain) : e.operators = chain.operators := by
  induction h with
  | name token => rfl
  | join _ _ ihleft ihright =>
    simp only [Expression.operators, ihleft, ihright, Chain.operators, List.map_append,
      List.map_cons]

theorem Expression.InOrder.exists_join (h : e.InOrder ⟨first, links⟩) :
    (links = [] ∧ e = .identifier (.ofToken first)) ∨
      ∃ operator second left right before after, links = before ++ (operator, second) :: after ∧
        e = .binary operator left operator.literal right ∧
        left.InOrder ⟨first, before⟩ ∧ right.InOrder ⟨second, after⟩ := by
  generalize hchain : (⟨first, links⟩ : Chain) = chain at h
  cases h with
  | name token =>
    cases hchain
    exact .inl ⟨rfl, rfl⟩
  | join hleft hright =>
    cases hchain
    exact .inr ⟨_, _, _, _, _, _, rfl, rfl, hleft, hright⟩

/-- How tightly the operators bind leaves one tree for a chain. -/
theorem Expression.InOrder.eq_of_boundBy (h : e.InOrder chain) (h' : e'.InOrder chain)
    (hbound : e.BoundBy grammar) (hbound' : e'.BoundBy grammar) : e = e' := by
  induction h generalizing e' with
  | name token =>
    rcases h'.exists_join with ⟨-, rfl⟩ | ⟨_, _, _, _, _, _, hlinks, -⟩
    · rfl
    · cases (List.append_ne_nil_of_right_ne_nil _ (List.cons_ne_nil _ _)) hlinks.symm
  | @join operator first second left right before after hleft hright ihleft ihright =>
    rcases h'.exists_join with ⟨hlinks, -⟩ | ⟨operator', second', left', right', before', after',
      hlinks, rfl, hleft', hright'⟩
    · cases (List.append_ne_nil_of_right_ne_nil _ (List.cons_ne_nil _ _)) hlinks
    · obtain ⟨hle, hlt, hboundleft, hboundright⟩ := hbound
      obtain ⟨hle', hlt', hboundleft', hboundright'⟩ := hbound'
      have hmem {link : Token × Token} {links : List (Token × Token)} {e : Expression}
          {first : Token} (he : e.InOrder ⟨first, links⟩) (hlink : link ∈ links) :
          link.1 ∈ e.operators :=
        he.operators_eq ▸ List.mem_map_of_mem hlink
      rcases append_cons_cases hlinks with ⟨rfl, hlink, rfl⟩ | ⟨hbefore', hafter⟩ |
        ⟨hbefore, hafter'⟩
      · cases hlink
        rw [ihleft hleft' hboundleft hboundleft', ihright hright' hboundright hboundright']
      · -- an operator to the right of one and to the left of the other would bind both ways
        have hless := hlt _ (hmem hright hafter)
        have hmore := hle' _ (hmem hleft' hbefore')
        exact absurd hless (Nat.not_lt_of_le hmore)
      · have hless := hlt' _ (hmem hright' hafter')
        have hmore := hle _ (hmem hleft hbefore)
        exact absurd hless (Nat.not_lt_of_le hmore)

end Order

section Joins

variable {grammar : Grammar} {floor tighter : Precedence} {kind : Kind}

theorem Grammar.joins_iff :
    grammar.joins floor kind = true ↔ kind ≠ .semicolon ∧ floor < grammar.precedence kind := by
  simp [joins]

theorem Grammar.joins_of_le (h : grammar.joins tighter kind = true) (hle : floor ≤ tighter) :
    grammar.joins floor kind = true := by
  rw [joins_iff] at h ⊢
  exact ⟨h.1, Nat.lt_of_le_of_lt hle h.2⟩

/-- An operator that joins above a floor but not above a tighter one binds no tighter than that. -/
theorem Grammar.precedence_le_of_joins (h : grammar.joins floor kind = true)
    (htighter : grammar.joins tighter kind = false) : grammar.precedence kind ≤ tighter := by
  rw [joins_iff] at h
  rw [← Bool.not_eq_true, joins_iff, not_and] at htighter
  exact Nat.le_of_not_lt (htighter h.1)

theorem Precedence.rank_le (p : Precedence) : p.rank ≤ 6 := by
  cases p <;> decide

/-- The grammar after tokens have been made operators, one after another. -/
def Grammar.setOperators (grammar : Grammar) (operators : List (Kind × Precedence)) : Grammar :=
  operators.foldl (fun grammar (kind, precedence) => grammar.setOperator kind precedence) grammar

theorem Grammar.form?_setOperators (operators : List (Kind × Precedence)) :
    (grammar.setOperators operators).form? = grammar.form? := by
  induction operators generalizing grammar with
  | nil => rfl
  | cons operator operators ih => exact ih

end Joins

/-- The reader reads a chain whose operators bind tighter than the floor as the tree that they
bind, up to a token that does not join it. -/
def Reader.ReadsChains (grammar : Grammar) (reader : Reader) (floor : Precedence) : Prop :=
  ∀ (chain : Chain) (rest : Cursor), (∀ name ∈ chain.names, name.kind = .identifier) →
    (∀ operator ∈ chain.operators, grammar.joins floor operator.kind = true) →
    grammar.joins floor rest.current.kind = false →
    ∃ tree : Expression, tree.InOrder chain ∧ tree.BoundBy grammar ∧
      (reader.read floor (chain.tokens ++ rest)).Gives tree (chain.last :: rest)

section Chain

variable {grammar : Grammar} {reader : Reader} {floor : Precedence} {left : Expression}
  {first token operator name : Token} {before links : List (Token × Token)} {rest : Cursor}

/-- The tree of a left operand, none of whose operators binds looser than the next, and of a right
operand, whose operators all join above that one. -/
theorem Expression.InOrder.boundBy_join {right : Expression} (hright : right.InOrder ⟨name, links⟩)
    (hjoins : ∀ link ∈ links, grammar.joins (grammar.precedence operator.kind) link.1.kind = true)
    (hnext : ∀ token ∈ left.operators,
      grammar.precedence operator.kind ≤ grammar.precedence token.kind)
    (hboundLeft : left.BoundBy grammar) (hboundRight : right.BoundBy grammar) :
    (Expression.binary operator left operator.literal right).BoundBy grammar := by
  refine ⟨hnext, ?_, hboundLeft, hboundRight⟩
  intro token htoken
  rw [hright.operators_eq] at htoken
  obtain ⟨link, hlink, rfl⟩ := List.mem_map.1 htoken
  exact (Grammar.joins_iff.1 (hjoins link hlink)).2

/-- The operator at the top of a tree is the loosest, or one of the loosest. -/
theorem Expression.BoundBy.le_of_mem {right : Expression} {text : String}
    (h : (Expression.binary operator left text right).BoundBy grammar) :
    ∀ token ∈ (Expression.binary operator left text right).operators,
      grammar.precedence operator.kind ≤ grammar.precedence token.kind := by
  obtain ⟨hle, hlt, -⟩ := h
  intro token htoken
  rcases List.mem_append.1 htoken with htoken | htoken
  · exact hle token htoken
  · rcases List.mem_cons.1 htoken with rfl | htoken
    · exact Nat.le_refl _
    · exact Nat.le_of_lt (hlt token htoken)

/-- What ends a chain above a floor ends it above every tighter one. -/
theorem joins_current_linkTokens {tighter : Precedence} (hle : floor ≤ tighter)
    (hlinks : ∀ link ∈ links.head?, grammar.joins tighter link.1.kind = false)
    (hrest : grammar.joins floor rest.current.kind = false) :
    grammar.joins tighter (Cursor.current (Chain.linkTokens links ++ rest)).kind = false := by
  cases links with
  | nil =>
    rw [← Bool.not_eq_true] at hrest ⊢
    intro hjoins
    exact hrest (Grammar.joins_of_le hjoins hle)
  | cons link links => exact hlinks link rfl

theorem gives_form_identifier (token : Token) (c : Cursor) :
    (Parse.form reader .identifier (token :: c)).Gives (.identifier (.ofToken token))
      (token :: c) :=
  gives_pure _ _

theorem binary_gives_chain (left : Expression)
    (hreader : reader.ReadsChains grammar (grammar.precedence operator.kind))
    (hnames : ∀ token ∈ Chain.names ⟨name, links⟩, token.kind = .identifier)
    (hjoins : ∀ link ∈ links, grammar.joins (grammar.precedence operator.kind) link.1.kind = true)
    (hrest : grammar.joins (grammar.precedence operator.kind) rest.current.kind = false) :
    ∃ right : Expression, right.InOrder ⟨name, links⟩ ∧ right.BoundBy grammar ∧
      (binary grammar reader left (operator :: (Chain.tokens ⟨name, links⟩ ++ rest))).Gives
        (.binary operator left operator.literal right) (Chain.last ⟨name, links⟩ :: rest) := by
  have hoperators : ∀ token ∈ Chain.operators ⟨name, links⟩,
      grammar.joins (grammar.precedence operator.kind) token.kind = true := by
    intro token htoken
    obtain ⟨link, hlink, rfl⟩ := List.mem_map.1 htoken
    exact hjoins link hlink
  obtain ⟨right, horder, hbound, hread⟩ := hreader ⟨name, links⟩ rest hnames hoperators hrest
  refine ⟨right, horder, hbound, ?_⟩
  rw [binary, current_bind, advance_bind]
  apply Outcome.Gives.after_advanced
  apply gives_bind hread
  exact gives_pure _ _

/-- The climb goes on with a tree that has the names and operators so far, none of which binds
looser than the next operator. -/
theorem climb_gives_chain (token : Token)
    (hreader : ∀ tighter, floor < tighter → reader.ReadsChains grammar tighter)
    (hleft : left.InOrder ⟨first, before⟩) (hbound : left.BoundBy grammar)
    (hnames : ∀ link ∈ links, link.2.kind = .identifier)
    (hjoins : ∀ link ∈ links, grammar.joins floor link.1.kind = true)
    (hnext : ∀ link ∈ links.head?, ∀ operator ∈ left.operators,
      grammar.precedence link.1.kind ≤ grammar.precedence operator.kind)
    (hrest : grammar.joins floor rest.current.kind = false) :
    ∃ tree : Expression, tree.InOrder ⟨first, before ++ links⟩ ∧ tree.BoundBy grammar ∧
      (climb grammar reader floor left (Chain.tokens ⟨token, links⟩ ++ rest)).Gives tree
        (Chain.last ⟨token, links⟩ :: rest) := by
  induction hlength : links.length using Nat.strongRecOn generalizing left before token links with
  | ind n ih =>
    cases links with
    | nil =>
      rw [List.append_nil]
      exact ⟨left, hleft, hbound, climb_gives_of_joins hrest⟩
    | cons link links =>
      obtain ⟨operator, name⟩ := link
      obtain ⟨hjoin, hjoins⟩ := List.forall_mem_cons.1 hjoins
      obtain ⟨hname, hnames⟩ := List.forall_mem_cons.1 hnames
      have hfloor := (Grammar.joins_iff.1 hjoin).2
      -- the right operand takes the links that bind tighter than its operator
      obtain ⟨inner, outer, rfl, hinner, houter⟩ := exists_cut
        (fun link => grammar.joins (grammar.precedence operator.kind) link.1.kind) links
      obtain ⟨hnamesInner, hnamesOuter⟩ := List.forall_mem_append.1 hnames
      obtain ⟨-, hjoinsOuter⟩ := List.forall_mem_append.1 hjoins
      have hoperands : ∀ token ∈ Chain.names ⟨name, inner⟩, token.kind = .identifier :=
        List.forall_mem_cons.2 ⟨hname, List.forall_mem_map.2 hnamesInner⟩
      have hstop := joins_current_linkTokens (Nat.le_of_lt hfloor) houter hrest
      obtain ⟨right, hright, hboundRight, hbinary⟩ :=
        binary_gives_chain left (hreader _ hfloor) hoperands hinner hstop
      have hjoined := hright.boundBy_join hinner (hnext _ rfl) hbound hboundRight
      have hnextOuter : ∀ link ∈ outer.head?,
          ∀ token ∈ (Expression.binary operator left operator.literal right).operators,
            grammar.precedence link.1.kind ≤ grammar.precedence token.kind := by
        intro link hlink token htoken
        have hjoinsLink := hjoinsOuter link (List.mem_of_mem_head? hlink)
        have hle := Grammar.precedence_le_of_joins hjoinsLink (houter link hlink)
        exact Nat.le_trans hle (hjoined.le_of_mem token htoken)
      have hlt : outer.length < n := by
        rw [List.length_cons, List.length_append] at hlength
        omega
      obtain ⟨tree, htree, htreeBound, hclimb⟩ := ih _ hlt (Chain.last ⟨name, inner⟩)
        (.join hleft hright) hjoined hnamesOuter hjoinsOuter hnextOuter rfl
      rw [List.append_assoc, List.cons_append] at htree
      refine ⟨tree, htree, htreeBound, ?_⟩
      have hcursor : Chain.tokens ⟨token, (operator, name) :: (inner ++ outer)⟩ ++ rest =
          token :: operator ::
            (Chain.tokens ⟨name, inner⟩ ++ (Chain.linkTokens outer ++ rest)) := by
        simp [Chain.tokens, Chain.linkTokens]
      have hlast : Chain.last ⟨token, (operator, name) :: (inner ++ outer)⟩ =
          Chain.last ⟨Chain.last ⟨name, inner⟩, outer⟩ := by
        rw [← Chain.last_append]
        simp only [Chain.last, List.map_cons, List.getLastD_cons]
      rw [hcursor, hlast]
      exact (climb_agrees_of_binary rfl hjoin hbinary).gives hclimb

end Chain

/-- Every right operand is read above a tighter floor than the last, and there are seven. -/
theorem Reader.readsChains_ofLevels {grammar : Grammar}
    (hform : grammar.form? .identifier = some .identifier) (levels : Nat) {floor : Precedence}
    (hlevels : 7 ≤ levels + floor.rank) :
    (Reader.ofLevels grammar levels).ReadsChains grammar floor := by
  induction levels generalizing floor with
  | zero =>
    have hrank := floor.rank_le
    omega
  | succ levels ih =>
    intro chain rest hnames hjoins hrest
    obtain ⟨first, links⟩ := chain
    obtain ⟨hfirst, hnames⟩ := List.forall_mem_cons.1 hnames
    have hreader : ∀ tighter, floor < tighter →
        (Reader.ofLevels grammar levels).ReadsChains grammar tighter := by
      intro tighter hlt
      have hlt : floor.rank < tighter.rank := hlt
      exact ih (by omega)
    have hstart : grammar.form? first.kind = some .identifier := by rw [hfirst, hform]
    have hnames : ∀ link ∈ links, link.2.kind = .identifier :=
      fun _ hlink => hnames _ (List.mem_map_of_mem hlink)
    have hjoins : ∀ link ∈ links, grammar.joins floor link.1.kind = true :=
      fun _ hlink => hjoins _ (List.mem_map_of_mem hlink)
    have hnext : ∀ link ∈ links.head?,
        ∀ operator ∈ (Expression.identifier (.ofToken first)).operators,
          grammar.precedence link.1.kind ≤ grammar.precedence operator.kind := by
      intro link _ operator hoperator
      rw [Expression.operators_identifier] at hoperator
      cases hoperator
    obtain ⟨tree, htree, hbound, hclimb⟩ :=
      climb_gives_chain first hreader (.name first) trivial hnames hjoins hnext hrest
    exact ⟨tree, htree, hbound,
      (expression_agrees_of_form hstart (gives_form_identifier first _)).gives hclimb⟩

/-- Whatever tokens have been made operators, a chain of names is read without a diagnostic as the
one tree of its names and operators that the grammar binds. However long the chain is, seven levels
are enough. -/
theorem Parser.expression_chain (parser : Parser) (operators : List (Kind × Precedence))
    (hgrammar : parser.grammar = Grammar.standard.setOperators operators) (floor : Precedence)
    (hdepth : parser.depth + 7 ≤ maxNesting) (chain : Chain) (rest : Cursor)
    (hcursor : parser.cursor = chain.tokens ++ rest)
    (hnames : ∀ name ∈ chain.names, name.kind = .identifier)
    (hoperators : ∀ operator ∈ chain.operators, operator.kind ≠ .semicolon ∧
      floor < parser.grammar.precedence operator.kind)
    (hrest : rest.current.kind = .semicolon ∨
      parser.grammar.precedence rest.current.kind ≤ floor) :
    (parser.expression floor).2.diagnostics = parser.diagnostics ∧
      (parser.expression floor).2.cursor = chain.last :: rest ∧
      ∀ tree : Expression, tree.InOrder chain ∧ tree.BoundBy parser.grammar ↔
        tree = (parser.expression floor).1 := by
  have hform : parser.grammar.form? .identifier = some .identifier := by
    rw [hgrammar, Grammar.form?_setOperators]
    rfl
  have hstop : parser.grammar.joins floor rest.current.kind = false := by
    rw [← Bool.not_eq_true, Grammar.joins_iff]
    intro hjoins
    rcases hrest with hsemicolon | hle
    · exact hjoins.1 hsemicolon
    · exact Nat.not_lt_of_le hle hjoins.2
  have hlevels : 7 ≤ maxNesting - parser.depth + floor.rank := by omega
  obtain ⟨tree, htree, hbound, hread⟩ := Reader.readsChains_ofLevels hform _ hlevels chain rest
    hnames (fun operator hmem => Grammar.joins_iff.2 (hoperators operator hmem)) hstop
  rw [← hcursor] at hread
  have hvalue : (parser.expression floor).1 = tree := hread.value_eq
  refine ⟨(parser.diagnostics_run_eq_iff _).2 hread.clean, hread.cursor_eq, ?_⟩
  intro other
  rw [hvalue]
  constructor
  · intro hother
    exact hother.1.eq_of_boundBy htree hother.2 hbound
  · intro hother
    rw [hother]
    exact ⟨htree, hbound⟩

/-- Here names are operators too, and a comma and a plus bind tightest of all. -/
theorem Parser.expression_chain_names :
    let operators : List (Kind × Precedence) :=
      [(.plus, .equality), (.identifier, .unary), (.comma, .call), (.plus, .call)]
    let name (literal : String) : Token := ⟨.identifier, literal⟩
    let chain : Chain := ⟨name "a", [(name "b", name "c"), (.ofSymbol '+', name "d"),
      (.ofSymbol ',', name "e")]⟩
    let parser : Parser := { Parser.ofTokens (chain.tokens ++ [.ofSymbol '*']) with
      grammar := Grammar.standard.setOperators operators, depth := 249 }
    parser.depth + 7 ≤ maxNesting ∧ (∀ token ∈ chain.names, token.kind = .identifier) ∧
      (∀ token ∈ chain.operators, token.kind ≠ .semicolon ∧
        .product < parser.grammar.precedence token.kind) ∧
      parser.grammar.precedence .asterisk ≤ .product ∧
      (parser.expression .product).2.diagnostics = parser.diagnostics ∧
      (parser.expression .product).2.cursor = [name "e", .ofSymbol '*'] ∧
      (parser.expression .product).1 =
        .binary (name "b") (.identifier (.ofToken (name "a"))) "b"
          (.binary (.ofSymbol ',')
            (.binary (.ofSymbol '+') (.identifier (.ofToken (name "c"))) "+"
              (.identifier (.ofToken (name "d"))))
            "," (.identifier (.ofToken (name "e")))) := by
  intro operators name chain parser
  have hdepth : parser.depth + 7 ≤ maxNesting := by decide
  have hnames : ∀ token ∈ chain.names, token.kind = .identifier := by decide
  have hoperators : ∀ token ∈ chain.operators, token.kind ≠ .semicolon ∧
      .product < parser.grammar.precedence token.kind := by decide
  have hrest : parser.grammar.precedence .asterisk ≤ .product := by decide
  obtain ⟨hclean, hcursor, htree⟩ := Parser.expression_chain parser operators rfl .product hdepth
    chain [.ofSymbol '*'] rfl hnames hoperators (.inr hrest)
  refine ⟨hdepth, hnames, hoperators, hrest, hclean, hcursor, ((htree _).1 ⟨?_, ?_⟩).symm⟩
  · exact .join (.name _) (.join (.join (.name _) (.name _)) (.name _))
  · simp only [Expression.BoundBy, Expression.operators]
    decide

end ExprLang
