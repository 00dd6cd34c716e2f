import ExprLang.Proofs.ByteCursor
import ExprLang.Proofs.Moves

namespace ExprLang

namespace Lexer

variable {lexer lexer' : Lexer} {n : Nat}

/-- The token that is read after `n` others. After the last it is the end of the input, again and
again. -/
def yield (lexer : Lexer) (n : Nat) : Token := (skip n lexer).nextToken.1

/-- Reading takes the first of the tokens and leaves the others. -/
theorem nextToken_eq (lexer : Lexer) : lexer.nextToken.1 = Cursor.current lexer.tokens ∧
    lexer.nextToken.2.tokens = lexer.tokens.tail := by
  rw [tokens_eq lexer]
  split
  · next hend =>
    obtain ⟨htoken, hrest⟩ := nextToken_of_endOfInput (Token.is_iff.1 hend)
    rw [tokens_eq, nextToken_of_nil hrest]
    exact ⟨htoken, rfl⟩
  · exact ⟨rfl, rfl⟩

theorem yield_eq (lexer : Lexer) (n : Nat) :
    lexer.yield n = Cursor.current (lexer.tokens.drop n) := by
  induction n generalizing lexer with
  | zero => exact lexer.nextToken_eq.1
  | succ n ih =>
    have hnext : lexer.yield (n + 1) = lexer.nextToken.2.yield n := rfl
    rw [hnext, ih, lexer.nextToken_eq.2, List.drop_tail]

/-- The tokens are all that is read before the end of the input. -/
theorem getElem?_tokens (lexer : Lexer) (n : Nat) : lexer.tokens[n]? =
    if (lexer.yield n).is .endOfInput then none else some (lexer.yield n) := by
  rw [← List.head?_drop, yield_eq]
  cases hdrop : lexer.tokens.drop n with
  | nil => rfl
  | cons token rest =>
    have hmem : token ∈ lexer.tokens := List.mem_of_mem_drop (hdrop ▸ List.mem_cons_self)
    have hkind := kind_ne_endOfInput_of_mem_tokens hmem
    simp [hkind]

theorem tokens_eq_of_yield (h : ∀ n, lexer.yield n = lexer'.yield n) :
    lexer.tokens = lexer'.tokens := by
  apply List.ext_getElem?
  intro n
  rw [getElem?_tokens, getElem?_tokens, h]

/-- The text that is left decides what is read of it, wherever it stands. -/
theorem tokens_ofString_remainder (lexer : Lexer) :
    (ofString lexer.remainder).tokens = lexer.tokens := by
  rw [ofString, remainder, String.toList_ofList]
  exact lexer.lexes.tokens_eq 0

end Lexer

theorem Tokenization.tokens_eq {source : String} {tokens : List Token}
    (h : Tokenization source tokens) : (Lexer.ofString source).tokens = tokens :=
  (tokenization_iff_lexes.1 h).tokens_eq 0

theorem Parser.program_ofLexer (lexer : Lexer) :
    (ofLexer lexer).program = parse lexer.remainder := by
  rw [parse, ofString, ofLexer, ofLexer, lexer.tokens_ofString_remainder]

theorem Cursor.views_eq_map (c : Cursor) (n : Nat) : c.views n =
    (List.range n).map fun k => (current (c.drop (k + 1)), current (c.drop (k + 2))) := by
  induction n generalizing c with
  | zero => rfl
  | succ n ih =>
    have htail : c.tail.tail = c.drop 2 := by rw [← List.drop_one, List.drop_tail]
    rw [views, ih, List.range_succ_eq_map, List.map_cons, List.map_map]
    simp [peek, htail, Function.comp_def]

/-- Each move brings into view the token it reads, beside the one that was read before. -/
theorem Cursor.views_yield (lexer : Lexer) (n : Nat) :
    views (.endOfInput :: .endOfInput :: lexer.tokens) n =
      List.zip (.endOfInput :: (List.range n).map lexer.yield)
        ((List.range n).map lexer.yield) := by
  rw [views_eq_map]
  apply List.ext_getElem
  · simp
  · intro k _ _
    cases k <;> simp [Lexer.yield_eq]

end ExprLang
