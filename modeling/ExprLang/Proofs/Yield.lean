import ExprLang.Proofs.GrammarSoundness
import ExprLang.Proofs.Lexemes

namespace ExprLang

open Parse
open scoped List

mutual

/-- The tokens of a tree's nodes in their order. -/
def Expression.yield : Expression → List Token
  | .absent => []
  | .identifier id => [id.token]
  | .integer token _ | .boolean token _ => [token]
  | .unary token _ operand => token :: operand.yield
  | .binary token left _ right => left.yield ++ token :: right.yield
  | .conditional token condition consequence alternative =>
    token :: (condition.yield ++ (consequence.yield ++ Block.alternativeYield alternative))
  | .function token parameters body => token :: (parameters.map Identifier.token ++ body.yield)

/-- The token of an expression statement is one of the expression's, and is left out. -/
def Statement.yield : Statement → List Token
  | .binding token name _ => [token, name.token]
  | .result token _ => [token]
  | .expression _ value => value.yield
  | .block body => body.yield

def Block.yield : Block → List Token
  | .mk token statements => token :: Statement.allYield statements

def Block.alternativeYield : Option Block → List Token
  | none => []
  | some block => block.yield

def Statement.allYield : List Statement → List Token
  | [] => []
  | statement :: statements => statement.yield ++ Statement.allYield statements

end

def Program.yield (program : Program) : List Token := Statement.allYield program.statements

def Phrase.yield : Phrase → List Token
  | .expression _ e => e.yield
  | .statement s => s.yield
  | .body trees => Statement.allYield trees
  | .block b => b.yield

/-- The kinds of the tokens that leave no node. -/
def Kind.nodeless : List Kind :=
  [.lParen, .rParen, .rBrace, .comma, .semicolon, .elseWord, .endOfInput]

/-- The tokens that leave a node. -/
def kept (tokens : List Token) : List Token := tokens.filter fun token => token.kind ∉ Kind.nodeless

variable {reader : Reader} {token : Token} {tokens whole : List Token} {c d rest : Cursor}
  {phrase : Phrase} {n : Nat}

theorem kept_cons_of_mem {kind : Kind} (h : token.kind = kind)
    (hkind : kind ∈ Kind.nodeless := by decide) : kept (token :: tokens) = kept tokens :=
  List.filter_cons_of_neg (by simpa [h] using hkind)

theorem kept_cons_of_not_mem {kind : Kind} (h : token.kind = kind)
    (hkind : kind ∉ Kind.nodeless := by decide) : kept (token :: tokens) = token :: kept tokens :=
  List.filter_cons_of_pos (by simpa [h] using hkind)

theorem Kind.not_mem_nodeless_of_ofOperator? {kind : Kind} {l : Layer}
    (h : Layer.ofOperator? kind = some l) : kind ∉ Kind.nodeless := by
  cases kind <;> first | decide | cases h

theorem Names.kept_eq {ids : List Identifier} (h : Names c ids rest) :
    kept c = ids.map Identifier.token ++ kept rest := by
  induction h with
  | last hname hclosing =>
    rw [kept_cons_of_not_mem hname, kept_cons_of_mem hclosing]
    rfl
  | more hname hcomma _ ih =>
    rw [kept_cons_of_not_mem hname, kept_cons_of_mem hcomma,
      ih]
    rfl

theorem Parameters.kept_eq {ids : List Identifier} (h : Parameters c ids rest) :
    kept c = ids.map Identifier.token ++ kept rest := by
  cases h with
  | none hclosing => exact kept_cons_of_mem hclosing
  | some hnames => exact hnames.kept_eq

/-- No binding and no result, which pass over tokens. -/
def PassesNone (tokens : List Token) : Prop :=
  ∀ token ∈ tokens, token.kind ≠ .letWord ∧ token.kind ≠ .returnWord

theorem PassesNone.of_suffix (h : PassesNone c) (hsuffix : rest <:+ c) : PassesNone rest :=
  fun token htoken => h token (hsuffix.subset htoken)

theorem PassesNone.tail (h : PassesNone (token :: c)) : PassesNone c :=
  h.of_suffix (List.suffix_cons token c)

/-- A phrase without bindings and results has a node for each token that is kept. -/
theorem Derives.kept_eq (h : Derives phrase c rest n) (hpasses : PassesNone c) :
    kept c = phrase.yield ++ kept rest := by
  induction h with
  | identifier h | integer h | yes h | no h => exact kept_cons_of_not_mem h
  | group hopening he hclosing ih =>
    rw [kept_cons_of_mem hopening, ih hpasses.tail, kept_cons_of_mem hclosing]
    rfl
  | conditional hword hopening he hclosing _ _ ih ihb =>
    have hrest := hpasses.tail.tail.of_suffix he.suffix
    rw [kept_cons_of_not_mem hword, kept_cons_of_mem hopening, ih hpasses.tail.tail,
      kept_cons_of_mem hclosing, ihb hrest.tail]
    simp [Phrase.yield, Expression.yield, Block.alternativeYield]
  | alternative hword hopening he hclosing hb hother _ ih ihb ihb' =>
    have hd := hpasses.tail.tail.of_suffix he.suffix
    have hd' := hd.tail.of_suffix hb.suffix
    rw [kept_cons_of_not_mem hword, kept_cons_of_mem hopening, ih hpasses.tail.tail,
      kept_cons_of_mem hclosing, ihb hd.tail, kept_cons_of_mem hother, ihb' hd'.tail]
    simp [Phrase.yield, Expression.yield, Block.alternativeYield]
  | function hword hopening hnames _ ihb =>
    have hd := hpasses.tail.tail.of_suffix hnames.suffix
    rw [kept_cons_of_not_mem hword, kept_cons_of_mem hopening, hnames.kept_eq, ihb hd]
    simp [Phrase.yield, Expression.yield]
  | @unary operator e c rest n hoperator _ ih =>
    have hkept : kept (operator :: c) = operator :: kept c := by
      rcases hoperator with h | h
      · exact kept_cons_of_not_mem h
      · exact kept_cons_of_not_mem h
    rw [hkept, ih hpasses.tail]
    rfl
  | binary hoperator hleft _ ihleft ihright =>
    have hd := hpasses.of_suffix hleft.suffix
    rw [ihleft hpasses, kept_cons_of_not_mem rfl (Kind.not_mem_nodeless_of_ofOperator? hoperator),
      ihright hd.tail]
    simp [Phrase.yield, Expression.yield]
  | loosen _ ih => exact ih hpasses
  | binding hword => exact absurd hword (hpasses _ List.mem_cons_self).1
  | result hword | resultValue hword => exact absurd hword (hpasses _ List.mem_cons_self).2
  | terminated he hsemicolon ih =>
    rw [ih hpasses, kept_cons_of_mem hsemicolon]
    rfl
  | unterminated _ _ _ ih => exact ih hpasses
  | nil => rfl
  | cons hs _ ihs ihbody =>
    rw [ihs hpasses, ihbody (hpasses.of_suffix hs.suffix)]
    simp [Phrase.yield, Statement.allYield]
  | @block opening body c rest n hopening _ hrest ih =>
    have htail : kept rest = kept rest.tail := by
      cases rest with
      | nil => rfl
      | cons closing rest =>
        rcases hrest with h | h
        · exact kept_cons_of_mem h
        · exact kept_cons_of_mem h
    rw [kept_cons_of_not_mem hopening, ih hpasses.tail, htail]
    rfl

/-- What an action gives and what it leaves after its last token are tokens of `whole`, in the
order they have there. -/
def Parse.Keeps {α : Type} (yield : α → List Token) (p : Parse α) (c : Cursor)
    (whole : List Token) : Prop :=
  yield (p c).value ++ (p c).cursor.tail <+ whole

def Reader.Keeps (reader : Reader) : Prop :=
  ∀ floor c, (reader.read floor).Keeps Expression.yield c c

section Keeps

variable {α : Type} {yield : α → List Token} {nothing : α} {p : Parse α} {kind : Kind}

variable {β : Type} {f : β → Parse α} {q : Parse β}

theorem keeps_bind : (q >>= f).Keeps yield c whole ↔
    (f (q c).value).Keeps yield (q c).cursor whole := Iff.rfl

theorem keeps_current_bind {f : Token → Parse α} :
    (current >>= f).Keeps yield c whole ↔ (f (Cursor.current c)).Keeps yield c whole := Iff.rfl

theorem keeps_peek_bind {f : Token → Parse α} :
    (peek >>= f).Keeps yield c whole ↔ (f (Cursor.peek c)).Keeps yield c whole := Iff.rfl

theorem keeps_advance_bind {f : Unit → Parse α} :
    (advance >>= f).Keeps yield c whole ↔ (f ()).Keeps yield c.tail whole := Iff.rfl

theorem keeps_identifier_bind {f : Identifier → Parse α} : (identifier >>= f).Keeps yield c whole ↔
    (f (.ofToken (Cursor.current c))).Keeps yield c whole := Iff.rfl

theorem append_sublist {front before after : List Token} (h : front ++ before <+ whole)
    (hafter : after <+ before) : front ++ after <+ whole :=
  (hafter.append_left front).trans h

theorem keeps_past (hnothing : yield nothing = []) (hc : c.tail <+ whole)
    (hp : c.peek.kind = kind → p.Keeps yield c.tail whole) :
    (past kind nothing p).Keeps yield c whole := by
  by_cases h : c.peek.kind = kind
  · rw [Parse.Keeps, past_of_peek h]
    exact hp h
  · rw [Parse.Keeps, past_of_peek_ne h, hnothing]
    exact hc

theorem keeps_identifier (token : Token) (c : Cursor) :
    (Expression.identifier <$> identifier).Keeps Expression.yield (token :: c) (token :: c) :=
  List.Sublist.refl _

theorem keeps_integer (token : Token) (c : Cursor) :
    integer.Keeps Expression.yield (token :: c) (token :: c) := by
  rw [Parse.Keeps, integer, current_bind, Cursor.current_cons]
  cases Numeral.read? token.literal with
  | none => exact List.sublist_cons_self token c
  | some value => exact List.Sublist.refl _

theorem keeps_boolean (token : Token) (c : Cursor) :
    boolean.Keeps Expression.yield (token :: c) (token :: c) :=
  List.Sublist.refl _

theorem keeps_unary (hR : reader.Keeps) (token : Token) (c : Cursor) :
    (unary reader).Keeps Expression.yield (token :: c) (token :: c) :=
  (hR .unary c).cons_cons token

theorem keeps_group (hR : reader.Keeps) (token : Token) (c : Cursor) :
    (group reader).Keeps Expression.yield (token :: c) (token :: c) := by
  have hinner := (hR .lowest c).trans (List.sublist_cons_self token c)
  have hrest := (List.sublist_append_right _ _).trans hinner
  have hpast : (past .rParen .absent (pure ((reader.read .lowest c).value))).Keeps Expression.yield
      (reader.read .lowest c).cursor (token :: c) :=
    keeps_past rfl hrest fun _ => append_sublist hinner (List.tail_sublist _)
  exact hpast

/-- The names of the parameters, with the token before them left out. -/
theorem keeps_names (c : Cursor) :
    names.Keeps (fun ids => (ids.getD []).map Identifier.token) c c.tail := by
  induction hlength : c.length using Nat.strongRecOn generalizing c with
  | ind n ih =>
    rw [names_eq]
    apply keeps_past rfl (List.Sublist.refl _)
    intro hname
    obtain ⟨before, name, c, rfl⟩ := Cursor.exists_of_peek_eq hname
    rw [List.tail_cons, Parse.Keeps, identifier_bind, peek_bind, Cursor.peek_cons,
      Cursor.current_cons]
    by_cases hcomma : c.current.kind = .comma
    · obtain ⟨comma, c, rfl⟩ := Cursor.exists_of_current_eq hcomma
      simp only [Token.is_iff.2 hcomma, ↓reduceIte, advance_bind, List.tail_cons]
      have hlt : (comma :: c).length < n := by
        simp only [List.length_cons] at hlength ⊢
        omega
      have hnames := ih _ hlt (comma :: c) rfl
      rw [Parse.Keeps] at hnames
      simp only [Outcome.value_after, Outcome.cursor_after, value_bind, cursor_bind, pure_apply]
      cases hvalue : (names (comma :: c)).value with
      | none =>
        rw [hvalue] at hnames
        exact (hnames.cons comma).cons name
      | some ids =>
        rw [hvalue] at hnames
        exact (hnames.cons comma).cons_cons name
    · simp only [Token.is_eq_false_iff.2 hcomma, Bool.false_eq_true, ↓reduceIte]
      have hlast : (past .rParen none (pure (some [Identifier.ofToken name]))).Keeps
          (fun ids => (ids.getD []).map Identifier.token) (name :: c) (name :: c) :=
        keeps_past rfl (List.sublist_cons_self _ _) fun _ => (List.tail_sublist c).cons_cons name
      exact hlast

theorem keeps_parameters (c : Cursor) :
    parameters.Keeps (fun ids => (ids.getD []).map Identifier.token) c c.tail := by
  rw [parameters, Parse.Keeps, peek_bind]
  split
  · exact List.tail_sublist _
  · exact keeps_names c

/-- What a reader's blocks give, each read at its first token. -/
def BlockKeeps (reader : Reader) : Prop :=
  ∀ token c, (block reader).Keeps Block.yield (token :: c) (token :: c)

theorem keeps_function (hblock : BlockKeeps reader) (token : Token) (c : Cursor) :
    (function reader).Keeps Expression.yield (token :: c) (token :: c) := by
  rw [function, keeps_current_bind, Cursor.current_cons]
  apply keeps_past rfl (List.sublist_cons_self _ _)
  intro _
  rw [List.tail_cons, keeps_bind]
  have hnames := (keeps_parameters c).trans (List.tail_sublist c)
  have hrest := (List.sublist_append_right _ _).trans hnames
  cases hvalue : (parameters c).value with
  | none => exact hrest.cons token
  | some ids =>
    rw [hvalue] at hnames
    apply keeps_past rfl (hrest.cons token)
    intro hbrace
    obtain ⟨last, brace, d, hd⟩ := Cursor.exists_of_peek_eq hbrace
    rw [hd] at hnames ⊢
    have hbody := (append_sublist hnames (hblock brace d)).cons_cons token
    rw [← List.append_assoc, ← List.cons_append] at hbody
    exact hbody

theorem keeps_conditional (hR : reader.Keeps) (hblock : BlockKeeps reader) (token : Token)
    (c : Cursor) : (conditional reader).Keeps Expression.yield (token :: c) (token :: c) := by
  rw [conditional, keeps_current_bind, Cursor.current_cons]
  apply keeps_past rfl (List.sublist_cons_self _ _)
  intro _
  rw [List.tail_cons, keeps_advance_bind, keeps_bind]
  have hcondition := (hR .lowest c.tail).trans (List.tail_sublist c)
  generalize reader.read .lowest c.tail = condition at *
  have hrest := (List.sublist_append_right _ _).trans hcondition
  apply keeps_past rfl (hrest.cons token)
  intro _
  apply keeps_past rfl (((List.tail_sublist _).trans hrest).cons token)
  intro hbrace
  obtain ⟨last, brace, d, hd⟩ := Cursor.exists_of_peek_eq hbrace
  have hopening := append_sublist hcondition (List.tail_sublist _)
  rw [hd, List.tail_cons] at hopening ⊢
  rw [keeps_bind, keeps_peek_bind]
  have hconsequence := append_sublist hopening (hblock brace d)
  rw [← List.append_assoc] at hconsequence
  generalize block reader (brace :: d) = consequence at *
  split
  · have hrest' := (List.sublist_append_right _ _).trans hconsequence
    have hother := append_sublist hconsequence (List.tail_sublist _)
    rw [keeps_advance_bind]
    apply keeps_past rfl (((List.tail_sublist _).trans hrest').cons token)
    intro hbrace'
    obtain ⟨last', brace', d', hd'⟩ := Cursor.exists_of_peek_eq hbrace'
    rw [hd', List.tail_cons] at hother ⊢
    have halternative := (append_sublist hother (hblock brace' d')).cons_cons token
    simpa [Parse.Keeps, Expression.yield, Block.alternativeYield] using halternative
  · have hnone := hconsequence.cons_cons token
    simpa [Parse.Keeps, Expression.yield, Block.alternativeYield] using hnone

theorem keeps_form (hR : reader.Keeps) (hblock : BlockKeeps reader) (start : Form)
    (token : Token) (c : Cursor) :
    (Parse.form reader start).Keeps Expression.yield (token :: c) (token :: c) := by
  cases start with
  | identifier => exact keeps_identifier token c
  | integer => exact keeps_integer token c
  | boolean => exact keeps_boolean token c
  | unary => exact keeps_unary hR token c
  | group => exact keeps_group hR token c
  | conditional => exact keeps_conditional hR hblock token c
  | function => exact keeps_function hblock token c

theorem keeps_binary {grammar : Grammar} (hR : reader.Keeps) (left : Expression) (token : Token)
    (c : Cursor) : (binary grammar reader left).Keeps Expression.yield (token :: c)
      (left.yield ++ token :: c) := by
  have hright := ((hR (grammar.precedence token.kind) c).cons_cons token).append_left left.yield
  rw [← List.cons_append, ← List.append_assoc] at hright
  exact hright

theorem keeps_climb {grammar : Grammar} {floor : Precedence} {left : Expression}
    (hR : reader.Keeps) (h : left.yield ++ c.tail <+ whole) :
    (climb grammar reader floor left).Keeps Expression.yield c whole := by
  induction hlength : c.length using Nat.strongRecOn generalizing c left with
  | ind n ih =>
    rw [climb_eq, keeps_peek_bind]
    by_cases hjoins : grammar.joins floor c.peek.kind = true
    · have hlt := hlength ▸ length_lt_of_joins hjoins (Forward.binary grammar reader left c.tail)
      obtain ⟨before, operator, d, rfl⟩ :=
        Cursor.exists_of_peek (Grammar.ne_endOfInput_of_joins hjoins)
      simp only [hjoins, ↓reduceIte]
      rw [keeps_advance_bind, keeps_bind]
      exact ih _ hlt ((keeps_binary hR left operator d).trans h) rfl
    · simp only [hjoins, Bool.false_eq_true, ↓reduceIte]
      exact h

theorem keeps_expression (hR : reader.Keeps) (hblock : BlockKeeps reader) (floor : Precedence)
    (c : Cursor) : (expression .standard reader floor).Keeps Expression.yield c c := by
  rw [expression, keeps_current_bind]
  cases hform : Grammar.standard.form? c.current.kind with
  | none => exact List.tail_sublist c
  | some start =>
    have hend : c.current.kind ≠ .endOfInput := by
      intro hend
      rw [hend] at hform
      cases hform
    obtain ⟨token, c, rfl⟩ := Cursor.exists_of_current hend
    rw [keeps_bind]
    exact keeps_climb hR (keeps_form hR hblock start token c)

theorem keeps_result (token : Token) (c : Cursor) :
    result.Keeps Statement.yield (token :: c) (token :: c) := by
  rw [result, keeps_current_bind, keeps_advance_bind, keeps_current_bind, List.tail_cons]
  split
  · exact (List.tail_sublist _).cons_cons token
  · exact ((List.tail_sublist _).trans (List.tail_sublist _)).cons_cons token

theorem keeps_expressionStatement (hR : reader.Keeps) (c : Cursor) :
    (expressionStatement reader).Keeps Statement.yield c c := by
  rw [expressionStatement, keeps_current_bind, keeps_bind, keeps_peek_bind]
  split
  · exact append_sublist (hR .lowest c) (List.tail_sublist _)
  · exact hR .lowest c

/-- What a statement that may have been dropped gives. -/
def Statement.yield? (read? : Option Statement) : List Token := read?.elim [] Statement.yield

theorem keeps_binding (token : Token) (c : Cursor) :
    binding.Keeps Statement.yield? (token :: c) (token :: c) := by
  have hdropped {read? : Option Statement} {d : Cursor}
      (h : Statement.yield? read? ++ d.tail <+ token :: c) :
      (if read?.isNone = true then record (.bindingDropped token) >>= fun _ => pure read?
        else pure read?).Keeps Statement.yield? d (token :: c) := by
    cases read? <;> exact h
  rw [binding, keeps_current_bind, Cursor.current_cons, keeps_bind]
  apply hdropped
  change (past _ _ _).Keeps Statement.yield? (token :: c) (token :: c)
  apply keeps_past rfl (List.sublist_cons_self _ _)
  intro hname
  obtain ⟨before, name, c, hc⟩ := Cursor.exists_of_peek_eq hname
  cases hc
  rw [List.tail_cons, keeps_identifier_bind, Cursor.current_cons]
  apply keeps_past rfl ((List.sublist_cons_self _ _).cons token)
  intro _
  rw [List.tail_cons, keeps_advance_bind, keeps_bind]
  have hrest := (List.tail_sublist _).trans ((Forward.skipValue c.tail).sublist)
  exact ((hrest.trans (List.tail_sublist c)).cons_cons name).cons_cons token

theorem keeps_statement (hR : reader.Keeps) (c : Cursor) :
    (statement reader).Keeps Statement.yield? c c := by
  rw [Parse.Keeps, statement_apply]
  split
  · next hlet =>
    obtain ⟨word, c, rfl⟩ := Cursor.exists_of_current_eq hlet
    exact keeps_binding word c
  · split
    · next hreturn =>
      obtain ⟨word, c, rfl⟩ := Cursor.exists_of_current_eq hreturn
      rw [map_apply]
      exact keeps_result word c
    · rw [map_apply]
      exact keeps_expressionStatement hR c

theorem Statement.allYield_filterMap_cons (read? : Option Statement)
    (others : List (Option Statement)) :
    Statement.allYield ((read? :: others).filterMap id) =
      Statement.yield? read? ++ Statement.allYield (others.filterMap id) := by
  cases read? <;> rfl

theorem yield_statements_sublist (hR : reader.Keeps) (closer : Kind) (c : Cursor) :
    Statement.allYield (statements reader closer c).value ++ (statements reader closer c).cursor <+
      c := by
  rw [statements, map_apply]
  induction hlength : c.length using Nat.strongRecOn generalizing c with
  | ind n ih =>
    rw [repeatUntil_apply]
    split
    · exact List.Sublist.refl _
    · next hstop =>
      have hlt := hlength ▸ length_statementStep_lt reader (ne_endOfInput_of_not_stop hstop)
      have hothers := append_sublist (keeps_statement hR c) (ih _ hlt _ rfl)
      rw [← List.append_assoc, ← Statement.allYield_filterMap_cons] at hothers
      exact hothers

theorem blockKeeps (hR : reader.Keeps) : BlockKeeps reader := by
  intro token c
  rw [block, keeps_current_bind, keeps_advance_bind, keeps_bind]
  have hbody := append_sublist (yield_statements_sublist hR .rBrace c) (List.tail_sublist _)
  exact hbody.cons_cons token

end Keeps

theorem Reader.keeps_ofLevels (levels : Nat) : (Reader.ofLevels .standard levels).Keeps := by
  induction levels with
  | zero => exact fun _ c => List.tail_sublist c
  | succ levels ih => exact fun floor c => keeps_expression ih (blockKeeps ih) floor c

/-- The nodes of a parsed program are tokens of the text in their order; without bindings, results
and diagnostics they are all its tokens that are kept. -/
theorem parse_yield (source : String) :
    (parse source).1.yield <+ tokenize source ∧
      (PassesNone (tokenize source) → (parse source).2.diagnostics = [] →
        (parse source).1.yield = kept (tokenize source)) := by
  have hkeeps := yield_statements_sublist (Reader.keeps_ofLevels maxNesting) .endOfInput
    (Lexer.ofString source).tokens
  constructor
  · exact ((List.sublist_append_left _ _).trans hkeeps).trans (List.sublist_append_left _ _)
  · intro hpasses hdiagnostics
    have hclean := parse_diagnostics_eq_nil_iff.1 hdiagnostics
    obtain ⟨hend, n, -, hbody⟩ := statements_of_clean (Reader.sound_ofLevels maxNesting) hclean
    rw [or_self] at hend
    have hnil : (statements (.ofLevels .standard maxNesting) .endOfInput
        (Lexer.ofString source).tokens).cursor = [] := by
      have hsuffix := Forward.statements (.ofLevels .standard maxNesting) .endOfInput
        (Lexer.ofString source).tokens
      apply Classical.byContradiction
      intro hne
      obtain ⟨token, rest, hc⟩ := List.exists_cons_of_ne_nil hne
      rw [hc] at hsuffix hend
      have hmem := hsuffix.subset List.mem_cons_self
      exact Lexer.kind_ne_endOfInput_of_mem_tokens hmem hend
    rw [hnil] at hbody
    have htokens : PassesNone (Lexer.ofString source).tokens :=
      fun token htoken => hpasses token (List.mem_append_left _ htoken)
    have hkept := hbody.kept_eq htokens
    have htokenize : kept (tokenize source) = kept (Lexer.ofString source).tokens := by
      rw [tokenize, kept, List.filter_append]
      exact List.append_nil _
    rw [htokenize, hkept]
    exact (List.append_nil _).symm

theorem parse_yield_conditional :
    PassesNone (tokenize "if (a) { b; }") ∧ (parse "if (a) { b; }").2.diagnostics = [] ∧
      (parse "if (a) { b; }").1.yield =
        [.ofWord "if", .ofWord "a", .ofSymbol '{', .ofWord "b"] := by
  have hpasses : PassesNone (tokenize "if (a) { b; }") := by
    have htokens : (tokenize "if (a) { b; }").all
        (fun token => token.kind != .letWord && token.kind != .returnWord) = true := by
      decide +kernel
    simpa [PassesNone] using htokens
  have hclean : (parse "if (a) { b; }").2.diagnostics = [] := by decide +kernel
  refine ⟨hpasses, hclean, ((parse_yield _).2 hpasses hclean).trans ?_⟩
  decide +kernel

end ExprLang
