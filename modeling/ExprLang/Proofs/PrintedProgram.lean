import ExprLang.Proofs.GrammarCompleteness
import ExprLang.Proofs.Lexemes

namespace ExprLang

/-- The names of a function's parameters with commas between them. -/
def Identifier.written : List Identifier → List Token
  | [] => []
  | [name] => [name.token]
  | name :: next :: names => name.token :: .ofSymbol ',' :: Identifier.written (next :: names)

mutual

/-- The tokens of an expression in print, with every operator, conditional and function in
parentheses of its own. -/
def Expression.written : Expression → List Token
  | .absent => []
  | .identifier id => [id.token]
  | .integer token _ | .boolean token _ => [token]
  | .unary token _ operand => .ofSymbol '(' :: token :: (operand.written ++ [.ofSymbol ')'])
  | .binary token left _ right =>
    .ofSymbol '(' :: (left.written ++ token :: (right.written ++ [.ofSymbol ')']))
  | .conditional token condition consequence alternative =>
    .ofSymbol '(' :: token :: .ofSymbol '(' :: (condition.written ++ .ofSymbol ')' ::
      (consequence.written ++ (Block.alternativeWritten alternative ++ [.ofSymbol ')'])))
  | .function token parameters body =>
    .ofSymbol '(' :: token :: .ofSymbol '(' :: (Identifier.written parameters ++ .ofSymbol ')' ::
      (body.written ++ [.ofSymbol ')']))

/-- The tokens of a statement in print. Bindings and results have no value. -/
def Statement.written : Statement → List Token
  | .binding token name _ => [token, name.token, .ofSymbol '=', .ofSymbol ';']
  | .result token _ => [token, .ofSymbol ';']
  | .expression _ value => value.written ++ [.ofSymbol ';']
  | .block _ => []

def Block.written : Block → List Token
  | .mk token statements => token :: (Statement.allWritten statements ++ [.ofSymbol '}'])

def Block.alternativeWritten : Option Block → List Token
  | none => []
  | some block => .ofWord "else" :: block.written

def Statement.allWritten : List Statement → List Token
  | [] => []
  | statement :: statements => statement.written ++ Statement.allWritten statements

end

mutual

/-- How many expressions are open at once in an expression in print. -/
def Expression.levels : Expression → Nat
  | .absent | .identifier _ | .integer _ _ | .boolean _ _ => 1
  | .unary _ _ operand => operand.levels + 2
  | .binary _ left _ right => max left.levels (right.levels + 1) + 1
  | .conditional _ condition consequence alternative =>
    max condition.levels (max consequence.levels (Block.alternativeLevels alternative)) + 2
  | .function _ _ body => body.levels + 2

def Statement.levels : Statement → Nat
  | .binding .. | .result .. | .block _ => 0
  | .expression _ value => value.levels

def Block.levels : Block → Nat
  | .mk _ statements => Statement.allLevels statements

def Block.alternativeLevels : Option Block → Nat
  | none => 0
  | some block => block.levels

def Statement.allLevels : List Statement → Nat
  | [] => 0
  | statement :: statements => max statement.levels (Statement.allLevels statements)

end

/-- A token of the given kind as it is read off a text. -/
structure Token.LexedAs (token : Token) (kind : Kind) : Prop where
  lexed : token.Lexed
  kind_eq : token.kind = kind

/-- A name as it is read off a text. -/
structure Identifier.WellFormed (id : Identifier) : Prop where
  token : id.token.LexedAs .identifier
  name_eq : id.name = id.token.literal

mutual

/-- An expression with all its parts, with the tokens that are read off a text for them. -/
def Expression.WellFormed : Expression → Prop
  | .absent => False
  | .identifier id => id.WellFormed
  | .integer token value => token.LexedAs .integer ∧ Numeral.Denotes token.literal value
  | .boolean token value => token.LexedAs (if value then .trueWord else .falseWord)
  | .unary token operator operand =>
    (token.LexedAs .bang ∨ token.LexedAs .minus) ∧ operator = token.literal ∧ operand.WellFormed
  | .binary token left operator right =>
    (token.Lexed ∧ (Layer.ofOperator? token.kind).isSome) ∧ operator = token.literal ∧
      left.WellFormed ∧ right.WellFormed
  | .conditional token condition consequence alternative =>
    token.LexedAs .ifWord ∧ condition.WellFormed ∧ consequence.WellFormed ∧
      Block.AlternativeWellFormed alternative
  | .function token parameters body =>
    token.LexedAs .fnWord ∧ (∀ name ∈ parameters, name.WellFormed) ∧ body.WellFormed

/-- A statement as it is read. Bindings and results have no value, an expression begins with the
statement's token, and no block is a statement. -/
def Statement.WellFormed : Statement → Prop
  | .binding token name value => token.LexedAs .letWord ∧ name.WellFormed ∧ value = .absent
  | .result token value => token.LexedAs .returnWord ∧ value = .absent
  | .expression token value => value.WellFormed ∧ value.written.head? = some token
  | .block _ => False

def Block.WellFormed : Block → Prop
  | .mk token statements => token.LexedAs .lBrace ∧ Statement.AllWellFormed statements

def Block.AlternativeWellFormed : Option Block → Prop
  | none => True
  | some block => block.WellFormed

def Statement.AllWellFormed : List Statement → Prop
  | [] => True
  | statement :: statements => statement.WellFormed ∧ Statement.AllWellFormed statements

end

namespace Program

/-- A program in print, with one space between its tokens. -/
def printed (program : Program) : String :=
  " ".intercalate ((Statement.allWritten program.statements).map Token.literal)

def levels (program : Program) : Nat := Statement.allLevels program.statements

def WellFormed (program : Program) : Prop := Statement.AllWellFormed program.statements

end Program

def AllLexed (tokens : List Token) : Prop := ∀ token ∈ tokens, token.Lexed

@[simp] theorem allLexed_nil : AllLexed [] := by simp [AllLexed]

@[simp] theorem allLexed_cons {token : Token} {tokens : List Token} :
    AllLexed (token :: tokens) ↔ token.Lexed ∧ AllLexed tokens :=
  List.forall_mem_cons

@[simp] theorem allLexed_append {tokens others : List Token} :
    AllLexed (tokens ++ others) ↔ AllLexed tokens ∧ AllLexed others :=
  List.forall_mem_append

@[simp] theorem lexed_lParen : (Token.ofSymbol '(').Lexed := .symbol rfl rfl rfl

@[simp] theorem lexed_rParen : (Token.ofSymbol ')').Lexed := .symbol rfl rfl rfl

@[simp] theorem lexed_rBrace : (Token.ofSymbol '}').Lexed := .symbol rfl rfl rfl

@[simp] theorem lexed_comma : (Token.ofSymbol ',').Lexed := .symbol rfl rfl rfl

@[simp] theorem lexed_semicolon : (Token.ofSymbol ';').Lexed := .symbol rfl rfl rfl

@[simp] theorem lexed_assign : (Token.ofSymbol '=').Lexed := .symbol rfl rfl rfl

@[simp] theorem lexed_elseWord : (Token.ofWord "else").Lexed :=
  .ofWord (rfl : (isWordStart 'e' && ['l', 's', 'e'].all isWordPart) = true)

theorem Identifier.allLexed {names : List Identifier} (h : ∀ name ∈ names, name.WellFormed) :
    AllLexed (Identifier.written names) := by
  induction names with
  | nil => exact allLexed_nil
  | cons name names ih =>
    obtain ⟨hname, hnames⟩ := List.forall_mem_cons.1 h
    cases names with
    | nil => simp [Identifier.written, hname.token.lexed]
    | cons next names => simp [Identifier.written, hname.token.lexed, ih hnames]

mutual

theorem Expression.WellFormed.allLexed {e : Expression} (h : e.WellFormed) :
    AllLexed e.written := by
  match e, h with
  | .identifier id, h => simp [Expression.written, h.token.lexed]
  | .integer token value, h => simp [Expression.written, h.1.lexed]
  | .boolean token value, h => simp [Expression.written, Token.LexedAs.lexed h]
  | .unary token operator operand, ⟨htoken, _, hoperand⟩ =>
    have htoken : token.Lexed := htoken.elim (·.lexed) (·.lexed)
    simp [Expression.written, htoken, hoperand.allLexed]
  | .binary token left operator right, ⟨htoken, _, hleft, hright⟩ =>
    simp [Expression.written, htoken.1, hleft.allLexed, hright.allLexed]
  | .conditional token condition consequence alternative, ⟨htoken, hcondition, hblock, hother⟩ =>
    simp [Expression.written, htoken.lexed, hcondition.allLexed, hblock.allLexed, hother.allLexed]
  | .function token parameters body, ⟨htoken, hnames, hbody⟩ =>
    simp [Expression.written, htoken.lexed, Identifier.allLexed hnames, hbody.allLexed]

theorem Statement.WellFormed.allLexed {s : Statement} (h : s.WellFormed) :
    AllLexed s.written := by
  match s, h with
  | .binding token name value, ⟨htoken, hname, _⟩ =>
    simp [Statement.written, htoken.lexed, hname.token.lexed]
  | .result token value, ⟨htoken, _⟩ => simp [Statement.written, htoken.lexed]
  | .expression token value, ⟨hvalue, _⟩ => simp [Statement.written, hvalue.allLexed]

theorem Block.WellFormed.allLexed {b : Block} (h : b.WellFormed) : AllLexed b.written := by
  match b, h with
  | .mk token statements, ⟨htoken, hstatements⟩ =>
    simp [Block.written, htoken.lexed, hstatements.allLexed]

theorem Block.AlternativeWellFormed.allLexed {alternative : Option Block}
    (h : Block.AlternativeWellFormed alternative) :
    AllLexed (Block.alternativeWritten alternative) := by
  match alternative, h with
  | none, _ => exact allLexed_nil
  | some block, h => simp [Block.alternativeWritten, Block.WellFormed.allLexed h]

theorem Statement.AllWellFormed.allLexed {statements : List Statement}
    (h : Statement.AllWellFormed statements) : AllLexed (Statement.allWritten statements) := by
  match statements, h with
  | [], _ => exact allLexed_nil
  | statement :: statements, ⟨hstatement, hstatements⟩ =>
    simp [Statement.allWritten, hstatement.allLexed, hstatements.allLexed]

end

theorem Program.WellFormed.tokens {program : Program} (h : program.WellFormed) :
    (Lexer.ofString program.printed).tokens = Statement.allWritten program.statements :=
  Lexer.tokens_intercalate h.allLexed

theorem Identifier.WellFormed.ofToken_token {id : Identifier} (h : id.WellFormed) :
    Identifier.ofToken id.token = id := by
  rw [Identifier.ofToken, ← h.name_eq]

theorem Identifier.names {name : Identifier} {names : List Identifier}
    (h : ∀ id ∈ name :: names, id.WellFormed) (rest : Cursor) :
    Names (Identifier.written (name :: names) ++ .ofSymbol ')' :: rest) (name :: names) rest := by
  induction names generalizing name with
  | nil =>
    have hname := h name List.mem_cons_self
    have hlast : Names (name.token :: .ofSymbol ')' :: rest) [.ofToken name.token] rest :=
      .last hname.token.kind_eq rfl
    rwa [hname.ofToken_token] at hlast
  | cons next names ih =>
    obtain ⟨hname, hnames⟩ := List.forall_mem_cons.1 h
    have hmore := Names.more hname.token.kind_eq (rfl : (Token.ofSymbol ',').kind = _) (ih hnames)
    rwa [hname.ofToken_token] at hmore

theorem Identifier.parameters {names : List Identifier} (h : ∀ name ∈ names, name.WellFormed)
    (rest : Cursor) :
    Parameters (Identifier.written names ++ .ofSymbol ')' :: rest) names rest := by
  cases names with
  | nil => exact .none rfl
  | cons name names => exact .some (Identifier.names h rest)

/-- An expression in parentheses of its own is one of every layer. -/
theorem Derives.parenthesized {k : Layer} {e : Expression} {c rest : Cursor} {n : Nat}
    (h : Derives (.expression k e) c (.ofSymbol ')' :: rest) n) (l : Layer) :
    Derives (.expression l e) (.ofSymbol '(' :: c) rest (n + 1) :=
  .loosen_of_le l.le_primary (.group rfl (h.loosen_of_le k.equality_le) rfl)

mutual

/-- A well-formed expression in print is an expression of every layer. -/
theorem Expression.WellFormed.derives {e : Expression} (h : e.WellFormed) (l : Layer)
    (rest : Cursor) : Derives (.expression l e) (e.written ++ rest) rest e.levels := by
  match e, h with
  | .identifier id, h =>
    have hname : id.WellFormed := h
    rw [← hname.ofToken_token]
    exact .loosen_of_le l.le_primary (.identifier hname.token.kind_eq)
  | .integer token value, ⟨htoken, hvalue⟩ =>
    exact .loosen_of_le l.le_primary (.integer htoken.kind_eq hvalue)
  | .boolean token true, h => exact .loosen_of_le l.le_primary (.yes h.kind_eq)
  | .boolean token false, h => exact .loosen_of_le l.le_primary (.no h.kind_eq)
  | .unary token operator operand, ⟨htoken, hoperator, hoperand⟩ =>
    subst hoperator
    have hkind := htoken.imp (·.kind_eq) (·.kind_eq)
    have he := Derives.unary hkind (hoperand.derives .unary (.ofSymbol ')' :: rest))
    simpa [Expression.written, Expression.levels] using he.parenthesized l
  | .binary token left operator right, ⟨htoken, hoperator, hleft, hright⟩ =>
    subst hoperator
    obtain ⟨k, hk⟩ := Option.isSome_iff_exists.1 htoken.2
    have hl := hleft.derives k (token :: (right.written ++ .ofSymbol ')' :: rest))
    have he := Derives.binary hk hl (hright.derives k.tighter (.ofSymbol ')' :: rest))
    simpa [Expression.written, Expression.levels] using he.parenthesized l
  | .conditional token condition consequence none, ⟨htoken, hcondition, hblock, _⟩ =>
    have hc := hcondition.derives .equality
      (.ofSymbol ')' :: (consequence.written ++ .ofSymbol ')' :: rest))
    have he := Derives.conditional htoken.kind_eq (rfl : (Token.ofSymbol '(').kind = _) hc rfl
      (hblock.derives (.ofSymbol ')' :: rest)) nofun
    simpa [Expression.written, Expression.levels, Block.alternativeWritten,
      Block.alternativeLevels] using he.parenthesized l
  | .conditional token condition consequence (some other), ⟨htoken, hcondition, hblock, hother⟩ =>
    have hother' : other.WellFormed := hother
    have hc := hcondition.derives .equality (.ofSymbol ')' :: (consequence.written ++
      .ofWord "else" :: (other.written ++ .ofSymbol ')' :: rest)))
    have he := Derives.alternative htoken.kind_eq (rfl : (Token.ofSymbol '(').kind = _) hc rfl
      (hblock.derives _) rfl (hother'.derives _)
    simpa [Expression.written, Expression.levels, Block.alternativeWritten,
      Block.alternativeLevels] using he.parenthesized l
  | .function token parameters body, ⟨htoken, hnames, hbody⟩ =>
    have he := Derives.function htoken.kind_eq (rfl : (Token.ofSymbol '(').kind = _)
      (Identifier.parameters hnames _) (hbody.derives (.ofSymbol ')' :: rest))
    simpa [Expression.written, Expression.levels] using he.parenthesized l

theorem Statement.WellFormed.derives {s : Statement} (h : s.WellFormed) (rest : Cursor) :
    Derives (.statement s) (s.written ++ rest) rest s.levels := by
  match s, h with
  | .binding token name value, ⟨htoken, hname, hvalue⟩ =>
    subst hvalue
    rw [← hname.ofToken_token]
    have hskipped : ∀ token ∈ ([] : List Token),
        token.kind ≠ .semicolon ∧ token.kind ≠ .endOfInput := by simp
    exact .binding htoken.kind_eq hname.token.kind_eq rfl hskipped (.inl rfl)
  | .result token value, ⟨htoken, hvalue⟩ =>
    subst hvalue
    exact .result htoken.kind_eq rfl
  | .expression token value, ⟨hvalue, hhead⟩ =>
    have hs := Derives.terminated (hvalue.derives .equality (.ofSymbol ';' :: rest)) rfl
    simpa [Statement.written, Statement.levels, Cursor.current, hhead] using hs

theorem Block.WellFormed.derives {b : Block} (h : b.WellFormed) (rest : Cursor) :
    Derives (.block b) (b.written ++ rest) rest b.levels := by
  match b, h with
  | .mk token statements, ⟨htoken, hstatements⟩ =>
    have hb := Derives.block htoken.kind_eq (hstatements.derives (.ofSymbol '}' :: rest)) (.inl rfl)
    simpa [Block.written, Block.levels] using hb

theorem Statement.AllWellFormed.derives {statements : List Statement}
    (h : Statement.AllWellFormed statements) (rest : Cursor) :
    Derives (.body statements) (Statement.allWritten statements ++ rest) rest
      (Statement.allLevels statements) := by
  match statements, h with
  | [], _ => exact .nil
  | statement :: statements, ⟨hstatement, hstatements⟩ =>
    have hbody := Derives.cons (hstatement.derives _) (hstatements.derives rest)
    simpa [Statement.allWritten, Statement.allLevels] using hbody

end

/-- A well-formed program in print is read as it is, if it does not nest too deep. -/
theorem parse_printed {program : Program} (h : program.WellFormed)
    (hlevels : program.levels ≤ maxNesting) :
    (parse program.printed).1 = program ∧ (parse program.printed).2.diagnostics = [] := by
  have hbody := (h.derives []).runs maxNesting .endOfInput hlevels (.inr rfl) (.inr rfl)
  rw [List.append_nil, ← h.tokens] at hbody
  exact ⟨congrArg Program.mk hbody.value_eq, parse_diagnostics_eq_nil_iff.2 hbody.clean⟩

theorem parse_printed_conditional :
    let program : Program := ⟨[.expression (.ofSymbol '(') (.conditional (.ofWord "if")
      (.identifier (.ofToken (.ofWord "x")))
      (.mk (.ofSymbol '{') [.result (.ofWord "return") .absent]) none)]⟩
    program.WellFormed ∧ program.levels ≤ maxNesting ∧
      program.printed = "( if ( x ) { return ; } ) ;" ∧
      (parse program.printed).1 = program ∧ (parse program.printed).2.diagnostics = [] := by
  intro program
  have hif : (Token.ofWord "if").Lexed :=
    .ofWord (rfl : (isWordStart 'i' && ['f'].all isWordPart) = true)
  have hx : (Token.ofWord "x").Lexed :=
    .ofWord (rfl : (isWordStart 'x' && [].all isWordPart) = true)
  have hreturn : (Token.ofWord "return").Lexed :=
    .ofWord (rfl : (isWordStart 'r' && ['e', 't', 'u', 'r', 'n'].all isWordPart) = true)
  have hprogram : program.WellFormed :=
    ⟨⟨⟨⟨hif, rfl⟩, ⟨⟨hx, rfl⟩, rfl⟩, ⟨⟨.symbol rfl rfl rfl, rfl⟩, ⟨⟨hreturn, rfl⟩, rfl⟩, trivial⟩,
      trivial⟩, rfl⟩, trivial⟩
  have hlevels : program.levels ≤ maxNesting := by decide
  exact ⟨hprogram, hlevels, by decide, parse_printed hprogram hlevels⟩

end ExprLang
