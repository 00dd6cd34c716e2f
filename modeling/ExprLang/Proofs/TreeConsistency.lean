import ExprLang.Tree.Equality
import ExprLang.Proofs.BuiltTree
import ExprLang.Proofs.Tokenization
import Mathlib.Logic.Relation

namespace ExprLang

open Parse

/-- Moving from a node to one that it is directly made of. -/
inductive Node.HasPart : Node → Node → Prop
  | operand {token : Token} {operator : String} {operand : Expression} :
      HasPart (.expression (.unary token operator operand)) (.expression operand)
  | left {token : Token} {operator : String} {left right : Expression} :
      HasPart (.expression (.binary token left operator right)) (.expression left)
  | right {token : Token} {operator : String} {left right : Expression} :
      HasPart (.expression (.binary token left operator right)) (.expression right)
  | condition {token : Token} {condition : Expression} {consequence : Block}
      {alternative : Option Block} :
      HasPart (.expression (.conditional token condition consequence alternative))
        (.expression condition)
  | consequence {token : Token} {condition : Expression} {consequence : Block}
      {alternative : Option Block} :
      HasPart (.expression (.conditional token condition consequence alternative))
        (.block consequence)
  | alternative {token : Token} {condition : Expression} {consequence alternative : Block} :
      HasPart (.expression (.conditional token condition consequence (some alternative)))
        (.block alternative)
  | body {token : Token} {parameters : List Identifier} {body : Block} :
      HasPart (.expression (.function token parameters body)) (.block body)
  | bound {closer : Kind} {token : Token} {name : Identifier} {value : Expression} :
      HasPart (.statement closer (.binding token name value)) (.expression value)
  | returned {closer : Kind} {token : Token} {value : Expression} :
      HasPart (.statement closer (.result token value)) (.expression value)
  | value {closer : Kind} {token : Token} {value : Expression} :
      HasPart (.statement closer (.expression token value)) (.expression value)
  | inner {closer : Kind} {body : Block} :
      HasPart (.statement closer (.block body)) (.block body)
  | statement {token : Token} {statements : List Statement} {statement : Statement}
      (hmem : statement ∈ statements) :
      HasPart (.block (.mk token statements)) (.statement .rBrace statement)

/-- The node is the other one or has it somewhere among its parts. -/
def Node.Contains : Node → Node → Prop := Relation.ReflTransGen HasPart

/-- The name of an identifier is what its token says, a word that is not reserved. -/
structure Identifier.Consistent (id : Identifier) : Prop where
  kind_eq : id.token.kind = .identifier
  name_eq : id.name = id.token.literal
  word : IsWord id.name
  not_reserved : ∀ kind, (id.name, kind) ∉ Kind.reserved

/-- What a node says agrees with the token it was read at. The parts of the node are left out, but
for names and for what must be absent. -/
def Node.Consistent : Node → Prop
  | .statement _ (.binding token name value) =>
    token = ⟨.letWord, "let"⟩ ∧ name.Consistent ∧ value = .absent
  | .statement _ (.result token value) => token = ⟨.returnWord, "return"⟩ ∧ value = .absent
  | .statement closer (.expression token _) =>
    token.kind ∉ [.letWord, .returnWord, .endOfInput, closer]
  | .statement _ (.block _) => False
  | .block (.mk token _) => token = ⟨.lBrace, "\x7b"⟩
  | .expression .absent => True
  | .expression (.identifier id) => id.Consistent
  | .expression (.integer token value) =>
    token.kind = .integer ∧ Numeral.Denotes token.literal value ∧
      0 ≤ value.toInt ∧ value.toInt ≤ Numeral.limit
  | .expression (.boolean token value) =>
    (value = true ↔ token = ⟨.trueWord, "true"⟩) ∧
      (value = false ↔ token = ⟨.falseWord, "false"⟩)
  | .expression (.unary token operator _) =>
    operator = token.literal ∧ token.kind ∈ [.bang, .minus]
  | .expression (.binary token _ operator _) =>
    operator = token.literal ∧ token.kind ∈
      [.equal, .notEqual, .lessThan, .greaterThan, .plus, .minus, .asterisk, .slash]
  | .expression (.conditional token _ _ _) => token = ⟨.ifWord, "if"⟩
  | .expression (.function token parameters _) =>
    token = ⟨.fnWord, "fn"⟩ ∧ ∀ id ∈ parameters, id.Consistent

variable {known : Token → Prop} {n : Nat} {node part : Node} {token : Token} {kind : Kind}
  {id : Identifier}

/-- A part of a node can be read where the node can. -/
theorem Node.Built.of_hasPart (h : node.Built known n) (hpart : node.HasPart part) :
    part.Built known n := by
  cases hpart with
  | operand =>
    cases h with
    | unary _ _ hoperand hm => exact hoperand.mono (Nat.le_of_lt hm)
  | left =>
    cases h with
    | binary _ _ hleft _ _ => exact hleft
  | right =>
    cases h with
    | binary _ _ _ hright hm => exact hright.mono (Nat.le_of_lt hm)
  | condition =>
    cases h with
    | conditional _ _ hcondition _ _ hm => exact hcondition.mono (Nat.le_of_lt hm)
  | consequence =>
    cases h with
    | conditional _ _ _ hconsequence _ hm => exact hconsequence.mono (Nat.le_of_lt hm)
  | alternative =>
    cases h with
    | conditional _ _ _ _ halternative hm => exact (halternative _ rfl).mono (Nat.le_of_lt hm)
  | body =>
    cases h with
    | function _ _ _ hbody hm => exact hbody.mono (Nat.le_of_lt hm)
  | bound =>
    cases h with
    | binding => exact .absent
  | returned =>
    cases h with
    | result => exact .absent
  | value =>
    cases h with
    | statement _ hvalue => exact hvalue
  | inner => cases h
  | statement hmem =>
    cases h with
    | block _ _ hbody => exact hbody _ hmem

theorem Node.Built.of_contains (h : node.Built known n) (hpart : node.Contains part) :
    part.Built known n := by
  induction hpart with
  | refl => exact h
  | tail _ hstep ih => exact ih.of_hasPart hstep

theorem Identifier.Known.consistent (h : id.Known Token.Lexed) : id.Consistent := by
  obtain ⟨name, hlexed, hkind, rfl⟩ := h
  cases hlexed.wellFormed with
  | proper hproper =>
    cases hproper with
    | spelt hspelt =>
      cases hkind
      cases hspelt
    | identifier hword hreserved =>
      exact ⟨rfl, rfl, hword, fun kind hmem => hreserved kind (Kind.spelling?_of_mem hmem)⟩
    | integer => cases hkind
  | illegal => cases hkind

theorem Precedence.mem_of_standard?_ne_none (h : Precedence.standard? kind ≠ none) :
    kind ∈ [.equal, .notEqual, .lessThan, .greaterThan, .plus, .minus, .asterisk, .slash] := by
  cases kind <;> first | decide | exact absurd rfl h

theorem boolean_consistent {word : Token} (h : word.Lexed)
    (hkind : word.kind = .trueWord ∨ word.kind = .falseWord) :
    Node.Consistent (.expression (.boolean word (word.is .trueWord))) := by
  rcases hkind with hkind | hkind
  · obtain rfl := h.eq_of_spelling? hkind rfl
    exact ⟨by decide, by decide⟩
  · obtain rfl := h.eq_of_spelling? hkind rfl
    exact ⟨by decide, by decide⟩

/-- A node that is read from the tokens of a text is consistent. -/
theorem Node.Built.consistent (h : node.Built Token.Lexed n) : node.Consistent := by
  cases h with
  | absent => trivial
  | identifier hid _ => exact hid.consistent
  | integer _ hkind hvalue _ =>
    have hle := hvalue.value_le
    have heq := hvalue.value_eq
    exact ⟨hkind, hvalue, by omega, by omega⟩
  | boolean hword hkind _ => exact boolean_consistent hword hkind
  | unary _ hkind _ _ => exact ⟨rfl, by simpa using hkind⟩
  | binary _ hkind _ _ _ => exact ⟨rfl, Precedence.mem_of_standard?_ne_none hkind⟩
  | conditional hword hkind _ _ _ _ => exact hword.eq_of_spelling? hkind rfl
  | function hword hkind hids _ _ =>
    exact ⟨hword.eq_of_spelling? hkind rfl, fun id hmem => (hids id hmem).consistent⟩
  | binding hword hkind hid => exact ⟨hword.eq_of_spelling? hkind rfl, hid.consistent, rfl⟩
  | result hword hkind => exact ⟨hword.eq_of_spelling? hkind rfl, rfl⟩
  | statement hkind _ => exact hkind
  | block hbrace hkind _ => exact hbrace.eq_of_spelling? hkind rfl

/-- Every node of a program, with errors or without, is consistent. -/
theorem parse_consistent (source : String) : ∀ statement ∈ (parse source).1.statements,
    ∀ node, Node.Contains (.statement .endOfInput statement) node → node.Consistent := by
  intro statement hmem node hnode
  have hlexed : Cursor.Known Token.Lexed (Lexer.ofString source).tokens :=
    (Lexer.ofString source).lexes.lexed_of_mem
  have hbuilds := Reader.builds_ofLevels Token.Lexed maxNesting
  have hbuilt := built_statements hbuilds .endOfInput hlexed statement hmem
  exact (hbuilt.of_contains hnode).consistent

/-- The numeral in a block that is not closed, next to a character that begins no expression. -/
theorem parse_consistent_unclosed :
    let seven : Expression := .integer ⟨.integer, "7"⟩ 7
    let first : Statement := .expression (.ofSymbol '-') (.unary (.ofSymbol '-') "-" seven)
    let second : Statement := .expression (.ofSymbol ']') .absent
    let name : Expression := .identifier (.ofToken (.ofWord "a"))
    let whole : Statement := .expression (.ofWord "if")
      (.conditional (.ofWord "if") name (.mk (.ofSymbol '{') [first, second]) none)
    whole ∈ (parse "if (a) \x7b -7; ]").1.statements ∧
      Node.Contains (.statement .endOfInput whole) (.expression seven) ∧
      Node.Consistent (.expression seven) := by
  intro seven first second name whole
  have hmem : whole ∈ (parse "if (a) \x7b -7; ]").1.statements := by decide +kernel
  have hfirst : Node.Contains (.statement .rBrace first) (.expression seven) :=
    .head .value (.single .operand)
  have hseven : Node.Contains (.statement .endOfInput whole) (.expression seven) :=
    .head .value (.head .consequence (.head (.statement List.mem_cons_self) hfirst))
  exact ⟨hmem, hseven, parse_consistent _ whole hmem _ hseven⟩

end ExprLang
