import ExprLang.Proofs.GrammarCompleteness
import ExprLang.Proofs.GrammarSoundness

namespace ExprLang

open Parse

variable {l : Layer} {w : List Token} {e : Expression} {c rest : Cursor} {phrase : Phrase}
  {n levels : Nat} {floor : Precedence}

/-- The layered grammar of the operator expressions: `Generates l w e n` if the layer generates
the word with the given tree, with `n` expressions open at once. Each operator associates to the
left, and parentheses leave no node. -/
inductive Generates : Layer → List Token → Expression → Nat → Prop
  | identifier {name : Token} (hname : name.kind = .identifier) :
      Generates .primary [name] (.identifier (.ofToken name)) 1
  | integer {numeral : Token} {value : Int64} (hnumeral : numeral.kind = .integer)
      (hvalue : Numeral.Denotes numeral.literal value) :
      Generates .primary [numeral] (.integer numeral value) 1
  | yes {word : Token} (hword : word.kind = .trueWord) :
      Generates .primary [word] (.boolean word true) 1
  | no {word : Token} (hword : word.kind = .falseWord) :
      Generates .primary [word] (.boolean word false) 1
  | group {opening closing : Token} {w : List Token} {e : Expression} {n : Nat}
      (hopening : opening.kind = .lParen) (he : Generates .equality w e n)
      (hclosing : closing.kind = .rParen) :
      Generates .primary (opening :: (w ++ [closing])) e (1 + n)
  | unary {operator : Token} {w : List Token} {e : Expression} {n : Nat}
      (hoperator : operator.kind = .bang ∨ operator.kind = .minus) (he : Generates .unary w e n) :
      Generates .unary (operator :: w) (.unary operator operator.literal e) (1 + n)
  | binary {l : Layer} {operator : Token} {v w : List Token} {left right : Expression} {m n : Nat}
      (hoperator : Layer.ofOperator? operator.kind = some l) (hleft : Generates l v left m)
      (hright : Generates l.tighter w right n) :
      Generates l (v ++ operator :: w) (.binary operator left operator.literal right)
        (max m (1 + n))
  | loosen {l : Layer} {w : List Token} {e : Expression} {n : Nat}
      (he : Generates l.tighter w e n) : Generates l w e n

theorem Generates.derives (h : Generates l w e n) (rest : Cursor) :
    Derives (.expression l e) (w ++ rest) rest n := by
  induction h generalizing rest with
  | identifier hname => exact .identifier hname
  | integer hnumeral hvalue => exact .integer hnumeral hvalue
  | yes hword => exact .yes hword
  | no hword => exact .no hword
  | group hopening _ hclosing ih =>
    rw [Nat.add_comm, List.cons_append, List.append_assoc]
    exact .group hopening (ih _) hclosing
  | unary hoperator _ ih =>
    rw [Nat.add_comm]
    exact .unary hoperator (ih _)
  | binary hoperator _ _ ihleft ihright =>
    rw [Nat.add_comm, List.append_assoc]
    exact .binary hoperator (ihleft _) (ihright _)
  | loosen _ ih => exact .loosen (ih _)

theorem Generates.operatorsOnly (h : Generates l w e n) : e.OperatorsOnly := by
  induction h with
  | identifier | integer | yes | no => trivial
  | group _ _ _ ih => exact ih
  | unary _ _ ih => exact ih
  | binary _ _ _ ihleft ihright => exact ⟨ihleft, ihright⟩
  | loosen _ ih => exact ih

/-- What the layered grammar has to say of a phrase that is written as a word. -/
def Phrase.GeneratedBy : Phrase → List Token → Nat → Prop
  | .expression l e, w, n => Generates l w e n
  | _, _, _ => True

theorem exists_word {p : List Token → Prop} (h : rest <:+ c) (hp : ∀ w, p w) :
    ∃ w, c = w ++ rest ∧ p w :=
  h.elim fun w hw => ⟨w, hw.symm, hp w⟩

/-- A phrase without conditionals and functions is one that its layer generates. -/
theorem Derives.generates (h : Derives phrase c rest n) : ∃ w, c = w ++ rest ∧
    ((∀ token ∈ w, token.kind ≠ .ifWord ∧ token.kind ≠ .fnWord) → phrase.GeneratedBy w n) := by
  induction h with
  | @identifier name _ hname => exact ⟨[name], rfl, fun _ => .identifier hname⟩
  | @integer numeral _ _ hnumeral hvalue =>
    exact ⟨[numeral], rfl, fun _ => .integer hnumeral hvalue⟩
  | @yes word _ hword => exact ⟨[word], rfl, fun _ => .yes hword⟩
  | @no word _ hword => exact ⟨[word], rfl, fun _ => .no hword⟩
  | @group opening closing e c rest n hopening _ hclosing ih =>
    obtain ⟨w, rfl, ih⟩ := ih
    refine ⟨opening :: (w ++ [closing]), by simp, fun hw => ?_⟩
    have he := ih fun token htoken => hw token (by simp [htoken])
    exact Nat.add_comm 1 n ▸ .group hopening he hclosing
  | @conditional word opening _ _ _ _ _ rest _ _ hword _ he _ hb =>
    obtain ⟨w, hw⟩ := (hb.suffix.trans (List.suffix_cons _ _)).trans he.suffix
    refine ⟨word :: opening :: w, by simp [hw], fun hkinds => ?_⟩
    exact absurd hword (hkinds word List.mem_cons_self).1
  | @alternative word opening _ _ _ _ _ _ _ _ rest _ _ _ hword _ he _ hb _ hb' =>
    obtain ⟨w, hw⟩ := (hb'.suffix.trans ((List.suffix_cons _ _).trans hb.suffix)).trans
      ((List.suffix_cons _ _).trans he.suffix)
    refine ⟨word :: opening :: w, by simp [hw], fun hkinds => ?_⟩
    exact absurd hword (hkinds word List.mem_cons_self).1
  | @function word opening _ _ _ _ rest _ hword _ hnames hb =>
    obtain ⟨w, hw⟩ := hb.suffix.trans hnames.suffix
    refine ⟨word :: opening :: w, by simp [hw], fun hkinds => ?_⟩
    exact absurd hword (hkinds word List.mem_cons_self).2
  | @unary operator e c rest n hoperator _ ih =>
    obtain ⟨w, rfl, ih⟩ := ih
    refine ⟨operator :: w, rfl, fun hw => ?_⟩
    have he := ih fun token htoken => hw token (List.mem_cons_of_mem _ htoken)
    exact Nat.add_comm 1 n ▸ .unary hoperator he
  | @binary l operator left right c d rest m n hoperator _ _ ihleft ihright =>
    obtain ⟨v, rfl, ihleft⟩ := ihleft
    obtain ⟨w, rfl, ihright⟩ := ihright
    refine ⟨v ++ operator :: w, by simp, fun hw => ?_⟩
    have hleft := ihleft fun token htoken => hw token (by simp [htoken])
    have hright := ihright fun token htoken => hw token (by simp [htoken])
    exact Nat.add_comm 1 n ▸ .binary hoperator hleft hright
  | loosen _ ih =>
    obtain ⟨w, rfl, ih⟩ := ih
    exact ⟨w, rfl, fun hw => .loosen (ih hw)⟩
  | binding hword hname hassign hskipped hrest =>
    exact exists_word (Derives.binding hword hname hassign hskipped hrest).suffix fun _ _ => trivial
  | result hword hrest => exact exists_word (Derives.result hword hrest).suffix fun _ _ => trivial
  | resultValue hword hrest =>
    exact exists_word (Derives.resultValue hword hrest).suffix fun _ _ => trivial
  | terminated he hsemicolon =>
    exact exists_word (he.terminated hsemicolon).suffix fun _ _ => trivial
  | unterminated he => exact exists_word he.suffix fun _ _ => trivial
  | nil => exact exists_word List.suffix_rfl fun _ _ => trivial
  | cons hs hbody => exact exists_word (hs.cons hbody).suffix fun _ _ => trivial
  | block hopening hbody hrest =>
    exact exists_word (hbody.block hopening hrest).suffix fun _ _ => trivial

/-- A reader with fewer levels than a word needs reports one that is too deep. -/
theorem not_clean_read_of_lt
    (h : ∀ levels, levels + 1 < n →
      ¬ (expression .standard (.ofLevels .standard levels) floor c).Clean)
    (hlt : levels < n) : ¬ ((Reader.ofLevels .standard levels).read floor c).Clean := by
  cases levels with
  | zero =>
    intro hclean
    exact not_clean_report _ _ _ (clean_bind.1 (clean_bind.1 hclean).2).1
  | succ levels => exact h levels hlt

theorem not_clean_expression_of_form {reader : Reader} {start : Form} {token : Token}
    (hstart : Grammar.standard.form? token.kind = some start)
    (h : ¬ (Parse.form reader start (token :: c)).Clean) :
    ¬ (expression .standard reader floor (token :: c)).Clean := by
  rw [expression_apply, Cursor.current_cons, hstart]
  intro hclean
  exact h (clean_bind.1 hclean).1

theorem not_clean_climb_of_binary {reader : Reader} {left : Expression} {token : Token} {d : Cursor}
    (hc : c.tail = token :: d) (hjoins : Grammar.standard.joins floor token.kind = true)
    (h : ¬ (binary .standard reader left (token :: d)).Clean) :
    ¬ (climb .standard reader floor left c).Clean := by
  have hpeek : c.peek = token := congrArg Cursor.current hc
  rw [climb_eq, peek_bind, hpeek]
  simp only [hjoins, ↓reduceIte, advance_bind, hc]
  intro hclean
  exact h (clean_bind.1 (Outcome.clean_after_advanced.1 hclean)).1

theorem Generates.not_clean (h : Generates l w e n) (rest : Cursor) (hlt : levels + 1 < n)
    (hfloor : .above floor ≤ l) :
    ¬ (expression .standard (.ofLevels .standard levels) floor (w ++ rest)).Clean := by
  induction h generalizing rest levels floor with
  | identifier | integer | yes | no => omega
  | @group opening closing w e n hopening _ hclosing ih =>
    have hstart : Grammar.standard.form? opening.kind = some .group := by rw [hopening]; rfl
    rw [List.cons_append, List.append_assoc]
    apply not_clean_expression_of_form hstart
    intro hclean
    have hread := (clean_bind.1 (Outcome.clean_after_advanced.1 hclean)).1
    exact not_clean_read_of_lt (fun _ h => ih _ h (Layer.equality_le _)) (by omega) hread
  | @unary operator w e n hoperator _ ih =>
    have hstart : Grammar.standard.form? operator.kind = some .unary := by
      rcases hoperator with h | h <;> rw [h] <;> rfl
    apply not_clean_expression_of_form hstart
    intro hclean
    have hread := (clean_bind.1 (Outcome.clean_after_advanced.1 hclean)).1
    exact not_clean_read_of_lt (fun _ h => ih _ h (Layer.le_refl _)) (by omega) hread
  | @binary l operator v w left right m n hoperator hleft _ ihleft ihright =>
    rw [List.append_assoc]
    -- either the left operand is too deep by itself, or it is read and the right one is too deep
    by_cases hm : levels + 1 < m
    · exact ihleft _ hm hfloor
    · have hends : l.EndsBefore (Cursor.current (operator :: w ++ rest)).kind :=
        Layer.endsBefore_of_ofOperator? hoperator
      obtain ⟨d, hd, hagrees⟩ :=
        (hleft.derives (operator :: w ++ rest)).runs.2 levels floor (by omega) hfloor hends
      rw [hagrees.clean_iff]
      have hjoins := Layer.joins_of_le hoperator hfloor
      apply not_clean_climb_of_binary hd.tail_eq hjoins
      intro hclean
      have hread := (clean_bind.1 (Outcome.clean_after_advanced.1 hclean)).1
      have habove := Layer.above_precedence_of_ofOperator? hoperator
      refine not_clean_read_of_lt (fun _ h => ihright _ h ?_) (by omega) hread
      exact habove ▸ Layer.le_refl _
  | loosen _ ih => exact ih rest hlt (Layer.le_trans hfloor (Layer.le_tighter _))

/-- A word before a token that is no operator is read as the tree it is generated with, up to its
last token. -/
theorem Generates.read_gives (h : Generates .equality w e n)
    (hrest : Layer.ofOperator? rest.current.kind = none) (hn : n ≤ levels) :
    ∃ last, w.getLast? = some last ∧
      ((Reader.ofLevels .standard levels).read .lowest (w ++ rest)).Gives e (last :: rest) := by
  obtain ⟨d, hd, hread⟩ := (h.derives rest).runs.read .lowest hn (Layer.equality_le _)
    (Layer.endsBefore_of_eq_none hrest) (Layer.joins_eq_false_of_eq_none hrest)
  obtain ⟨last, d, rfl⟩ := List.exists_cons_of_ne_nil (hd.ne_nil h.operatorsOnly)
  obtain rfl : d = rest := hd.tail_eq
  refine ⟨last, ?_, hread⟩
  obtain ⟨passed, hpassed⟩ := (Reader.ofLevels .standard levels).forward .lowest (w ++ d)
  rw [hread.cursor_eq, List.append_cons, List.append_cancel_right_eq] at hpassed
  rw [← hpassed, List.getLast?_concat]

/-- An expression is read without a diagnostic exactly when the layered grammar generates what is
read and the levels that are left are enough for it. -/
theorem Generates.clean_read_iff (h : Generates .equality w e n)
    (hrest : Layer.ofOperator? rest.current.kind = none) :
    ((Reader.ofLevels .standard levels).read .lowest (w ++ rest)).Clean ↔ n ≤ levels := by
  constructor
  · intro hclean
    refine Nat.le_of_not_lt fun hlt => not_clean_read_of_lt (fun k hk => ?_) hlt hclean
    exact h.not_clean rest hk (Layer.equality_le _)
  · intro hn
    obtain ⟨last, -, hread⟩ := h.read_gives hrest hn
    exact hread.clean

/-- Precedence climbing reads the layered grammar: a word before a token that is no operator is
read without a diagnostic exactly if the levels suffice, and then as its tree and up to its last
token; and whatever is read without a diagnostic is such a word, if it holds no conditional and
no function. -/
theorem Parser.expression_lowest_layered (parser : Parser) (hgrammar : parser.grammar = .standard) :
    (∀ w rest e n, parser.cursor = w ++ rest → Generates .equality w e n →
      Layer.ofOperator? rest.current.kind = none →
      ((parser.expression .lowest).2.diagnostics = parser.diagnostics ↔
          parser.depth + n ≤ maxNesting) ∧
        (parser.depth + n ≤ maxNesting →
          (parser.expression .lowest).1 = e ∧
            w.getLast? = some (parser.expression .lowest).2.current ∧
            (parser.expression .lowest).2.peek = rest.current ∧
            (parser.expression .lowest).2.cursor.tail = rest ∧
            (parser.expression .lowest).2.depth = parser.depth)) ∧
    ((parser.expression .lowest).2.diagnostics = parser.diagnostics →
      ∃ w, parser.cursor = w ++ (parser.expression .lowest).2.cursor.tail ∧
        Layer.ofOperator? (parser.expression .lowest).2.peek.kind = none ∧
        ((∀ token ∈ w, token.kind ≠ .ifWord ∧ token.kind ≠ .fnWord) →
          ∃ n, Generates .equality w (parser.expression .lowest).1 n ∧
            parser.depth + n ≤ maxNesting ∧
            w.getLast? = some (parser.expression .lowest).2.current)) := by
  have hlevels {n : Nat} (hpos : 0 < n) :
      n ≤ maxNesting - parser.depth ↔ parser.depth + n ≤ maxNesting := by omega
  have hreader : parser.reader = .ofLevels .standard (maxNesting - parser.depth) := by
    rw [Parser.reader, hgrammar]
  simp only [Parser.expression, Parser.diagnostics_run_eq_iff, hreader]
  refine ⟨fun w rest e n hcursor h hrest => ?_, fun hclean => ?_⟩
  · have hpos : 0 < n := (h.derives rest).runs.1
    rw [hcursor, h.clean_read_iff hrest, hlevels hpos]
    refine ⟨Iff.rfl, fun hn => ?_⟩
    obtain ⟨last, hlast, hread⟩ := h.read_gives hrest ((hlevels hpos).2 hn)
    simp only [Parser.run, Parser.current, Parser.peek, hcursor, hread.value_eq, hread.cursor_eq]
    exact ⟨trivial, hlast, rfl, rfl, trivial⟩
  · obtain ⟨hjoins, n, hn, he⟩ := Reader.sound_ofLevels _ .lowest _ hclean
    have hnone := Layer.ofOperator?_eq_none_of_joins hjoins
    obtain ⟨w, hw, hgenerates⟩ := he.generates
    refine ⟨w, hw, hnone, fun hkinds => ?_⟩
    have h : Generates .equality w _ n := hgenerates hkinds
    obtain ⟨last, hlast, hread⟩ := h.read_gives hnone hn
    rw [← hw] at hread
    refine ⟨n, h, (hlevels (h.derives []).runs.1).1 hn, hlast.trans ?_⟩
    rw [Parser.current, Parser.cursor_run, hread.cursor_eq, Cursor.current_cons]

theorem Parser.expression_lowest_layered_quotient :
    let parser := Parser.ofTokens
      [⟨.minus, "-"⟩, ⟨.identifier, "a"⟩, ⟨.slash, "/"⟩, ⟨.identifier, "b"⟩, ⟨.semicolon, ";"⟩]
    parser.grammar = .standard ∧
      (parser.expression .lowest).2.diagnostics = parser.diagnostics ∧
      (parser.expression .lowest).1 =
        .binary ⟨.slash, "/"⟩ (.unary ⟨.minus, "-"⟩ "-" (.identifier (.ofToken ⟨.identifier, "a"⟩)))
          "/" (.identifier (.ofToken ⟨.identifier, "b"⟩)) ∧
      ∃ w, parser.cursor = w ++ (parser.expression .lowest).2.cursor.tail := by
  intro parser
  have hoperands : Generates .product
      [⟨.minus, "-"⟩, ⟨.identifier, "a"⟩, ⟨.slash, "/"⟩, ⟨.identifier, "b"⟩] _ _ :=
    .binary (v := [_, _]) rfl (.loosen (.unary (.inr rfl) (.loosen (.identifier rfl))))
      (.loosen (.identifier rfl))
  have hword := (Parser.expression_lowest_layered parser rfl).1 _ [⟨.semicolon, ";"⟩] _ _ rfl
    (.loosen (.loosen (.loosen hoperands))) rfl
  have hclean := hword.1.2 (by decide)
  obtain ⟨w, hw, -⟩ := (Parser.expression_lowest_layered parser rfl).2 hclean
  exact ⟨rfl, hclean, (hword.2 (by decide)).1, w, hw⟩

end ExprLang
