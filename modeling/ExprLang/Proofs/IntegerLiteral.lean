import ExprLang.Proofs.DecimalNumeral
import ExprLang.Proofs.Tokenization
import Mathlib.Data.Nat.Digits.Defs

namespace ExprLang

open Parse

/-- The number that a numeral stands for, each digit by its place. -/
def Numeral.decimal (numeral : String) : Nat :=
  Nat.ofDigits 10 (numeral.toList.reverse.map fun digit => digit.toNat - '0'.toNat)

/-- The text is read as the one number, without a diagnostic. -/
def ReadsNumber (text : String) (m : Nat) : Prop :=
  ∃ n : Int64, n.toInt = m ∧
    (parse text).1 = ⟨[.expression ⟨.integer, text⟩ (.integer ⟨.integer, text⟩ n)]⟩ ∧
    (parse text).2.diagnostics = []

/-- The text is read as one statement without an expression, and reported as too great a number. -/
def ReadsNoNumber (text : String) : Prop :=
  (parse text).1 = ⟨[.expression ⟨.integer, text⟩ .absent]⟩ ∧
    (parse text).2.diagnostics = [⟨.integerOutOfRange text, ⟨.integer, text⟩⟩]

theorem Numeral.value_eq_decimal (numeral : String) : value numeral.toList = decimal numeral := by
  rw [value, List.foldl_eq_foldr_reverse, decimal, Nat.ofDigits_eq_foldr, List.foldr_map]
  simp only [Nat.cast_id, Nat.add_comm]

theorem Numeral.decimal_toString (m : Nat) : decimal (toString m) = m := by
  rw [← value_eq_decimal, Nat.toString_eq_repr, Nat.toList_repr]
  exact Nat.ofDigitChars_ten_toDigits

section Numerals

variable {numeral source : String} {start : Form} {reader : Reader} {floor : Precedence}
  {grammar : Grammar} {c : Cursor}

theorem isNumeral_iff : IsNumeral numeral ↔
    numeral.toList ≠ [] ∧ ∀ digit ∈ numeral.toList, digit.isDigit = true := by
  constructor
  · intro h
    obtain ⟨c, cs, htext, hc, hcs⟩ := h
    rw [htext]
    exact ⟨List.cons_ne_nil c cs, List.forall_mem_cons.2 ⟨hc, hcs⟩⟩
  · intro h
    obtain ⟨c, cs, htext⟩ := List.exists_cons_of_ne_nil h.1
    rw [htext] at h
    exact ⟨c, cs, htext, List.forall_mem_cons.1 h.2⟩

theorem isNumeral_toString (m : Nat) : IsNumeral (toString m) := by
  rw [isNumeral_iff, Nat.toString_eq_repr, Nat.toList_repr]
  exact ⟨Nat.toDigits_ne_nil, fun digit => Nat.isDigit_of_mem_toDigits (by decide) (by decide)⟩

theorem IsNumeral.read?_of_lt (h : IsNumeral numeral) (hlt : Numeral.decimal numeral < 2 ^ 63) :
    ∃ n : Int64, n.toInt = Numeral.decimal numeral ∧ Numeral.read? numeral = some n := by
  obtain ⟨hne, hdigits⟩ := isNumeral_iff.1 h
  have hn := Numeral.toInt_ofNat_of_le (Nat.le_of_lt_succ hlt)
  refine ⟨_, hn, Numeral.read?_eq_some_iff.2 ⟨hne, hdigits, ?_⟩⟩
  rw [hn, Numeral.value_eq_decimal]

theorem Numeral.read?_of_le (hle : 2 ^ 63 ≤ decimal numeral) : read? numeral = none := by
  cases hread : read? numeral with
  | none => rfl
  | some n =>
    have hlimit := (read?_eq_some_iff.1 hread).value_le
    rw [value_eq_decimal] at hlimit
    exact absurd (Nat.lt_succ_of_le hlimit) (Nat.not_lt_of_le hle)

theorem IsNumeral.lexes (h : IsNumeral numeral) : Lexes numeral.toList [⟨.integer, numeral⟩] := by
  have hends : Kind.integer.EndsAt [] := nofun
  have hnumeral := Lexes.cons_token (Token.Proper.integer h).lexed hends (.nil nofun)
  rwa [List.append_nil] at hnumeral

theorem IsNumeral.tokens_eq (h : IsNumeral numeral) :
    (Lexer.ofString numeral).tokens = [⟨.integer, numeral⟩] :=
  h.lexes.tokens_eq 0

theorem IsNumeral.tokens_minus (h : IsNumeral numeral) :
    (Lexer.ofString ("-" ++ numeral)).tokens = [.ofSymbol '-', ⟨.integer, numeral⟩] := by
  have hends : Kind.minus.EndsAt numeral.toList := fun _ _ => rfl
  have hminus := Lexes.cons_token (.symbol rfl rfl rfl : (Token.ofSymbol '-').Lexed) hends h.lexes
  exact Lexes.tokens_eq (by simpa [Token.ofSymbol] using hminus) 0

/-- An operand after which the input ends is the whole expression. -/
theorem expression_of_end (start : Form) (hstart : grammar.form? c.current.kind = some start)
    (hend : (Parse.form reader start c).cursor.tail = []) :
    expression grammar reader floor c = Parse.form reader start c := by
  have hpeek : Cursor.peek (Parse.form reader start c).cursor = .endOfInput :=
    congrArg Cursor.current hend
  have hstop : grammar.joins floor (Cursor.peek (Parse.form reader start c).cursor).kind ≠ true :=
    fun hjoins => Grammar.ne_endOfInput_of_joins hjoins (congrArg Token.kind hpeek)
  have hclimb (left : Expression) :
      climb grammar reader floor left (Parse.form reader start c).cursor =
        ⟨left, (Parse.form reader start c).cursor, []⟩ := by
    rw [climb, dif_neg hstop]
  simp only [expression_apply, hstart, bind_apply, hclimb, List.append_nil]

theorem expressionStatement_of_end (hend : (reader.read .lowest c).cursor.tail = []) :
    expressionStatement reader c = (reader.read .lowest c).map (.expression c.current) := by
  have hpeek : Cursor.peek (reader.read .lowest c).cursor = .endOfInput :=
    congrArg Cursor.current hend
  have hopen : Token.endOfInput.kind ≠ .semicolon := by decide
  simp [expressionStatement, hpeek, hopen, Outcome.map]

/-- An expression after which the input ends is the only statement. -/
theorem statements_of_end (hstart : Grammar.standard.form? c.current.kind = some start)
    (hend : (reader.read .lowest c).cursor.tail = []) :
    (statements reader .endOfInput c).value =
        [.expression c.current (reader.read .lowest c).value] ∧
      (statements reader .endOfInput c).diagnostics = (reader.read .lowest c).diagnostics := by
  have hopen : c.current.kind ≠ .endOfInput := by
    intro hkind
    rw [hkind] at hstart
    cases hstart
  have hrest : statements reader .endOfInput [] = ⟨[], [], []⟩ := by rw [statements_eq]; rfl
  have hstatement : statement reader c =
      (reader.read .lowest c).map fun e => some (.expression c.current e) := by
    rw [statement_of_form? hstart, map_apply, expressionStatement_of_end hend]
    rfl
  rw [statements_eq, current_bind, if_neg (by simpa using hopen), value_bind, diagnostics_bind,
    hstatement]
  constructor
  · simp [Outcome.map, hend, hrest]
  · simp [Outcome.map, Outcome.diagnostics, hend, hrest, Event.diagnostic?]

/-- A text that is one operand is read as it. -/
theorem parse_of_form {levels : Nat} {outcome : Outcome Expression}
    (hlevels : maxNesting = levels + 1) (htokens : (Lexer.ofString source).tokens = c)
    (hstart : Grammar.standard.form? c.current.kind = some start)
    (hform : Parse.form (.ofLevels .standard levels) start c = outcome)
    (hend : outcome.cursor.tail = []) :
    (parse source).1 = ⟨[.expression c.current outcome.value]⟩ ∧
      (parse source).2.diagnostics = outcome.diagnostics := by
  subst hform
  have hread : (Reader.ofLevels .standard maxNesting).read .lowest c =
      Parse.form (.ofLevels .standard levels) start c := by
    rw [hlevels]
    exact expression_of_end start hstart hend
  obtain ⟨hvalue, hdiagnostics⟩ := statements_of_end hstart (hread ▸ hend)
  rw [hread, ← htokens] at hvalue hdiagnostics
  rw [parse_diagnostics, ← htokens]
  exact ⟨congrArg Program.mk hvalue, hdiagnostics⟩

/-- A numeral at the end stays the current token. -/
theorem tail_cursor_integer (token : Token) : (integer [token]).cursor.tail = [] := by
  cases h : Numeral.read? token.literal with
  | none => rw [integer_of_none (c := [token]) h]; rfl
  | some n => rw [integer_of_some (c := [token]) h]; rfl

theorem parse_integer (h : IsNumeral numeral) :
    (parse numeral).1 = ⟨[.expression ⟨.integer, numeral⟩ (integer [⟨.integer, numeral⟩]).value]⟩ ∧
      (parse numeral).2.diagnostics = (integer [⟨.integer, numeral⟩]).diagnostics := by
  have hlevels : maxNesting = maxNesting - 1 + 1 := rfl
  have hstart : Grammar.standard.form? .integer = some .integer := rfl
  exact parse_of_form hlevels h.tokens_eq hstart rfl (tail_cursor_integer _)

/-- Behind a minus sign the same is reported of a numeral. -/
theorem parse_minus_integer (h : IsNumeral numeral) : (parse ("-" ++ numeral)).2.diagnostics =
    (integer [⟨.integer, numeral⟩]).diagnostics := by
  have hlevels : maxNesting = maxNesting - 2 + 1 + 1 := rfl
  have hstart : Grammar.standard.form? .minus = some .unary := rfl
  have hend := tail_cursor_integer ⟨.integer, numeral⟩
  have hoperand : (Reader.ofLevels .standard (maxNesting - 2 + 1)).read .unary
      [⟨.integer, numeral⟩] = integer [⟨.integer, numeral⟩] :=
    expression_of_end .integer rfl hend
  have hunary : unary (.ofLevels .standard (maxNesting - 2 + 1))
      [.ofSymbol '-', ⟨.integer, numeral⟩] =
        ((integer [⟨.integer, numeral⟩]).map (.unary (.ofSymbol '-') "-")).after
          [.advanced ⟨.integer, numeral⟩ .endOfInput] := by
    have hliteral : (Token.ofSymbol '-').literal = "-" := rfl
    simp [unary, hoperand, hliteral, Outcome.map, Outcome.after]
  exact (parse_of_form hlevels h.tokens_minus hstart hunary hend).2

theorem IsNumeral.readsNumber (h : IsNumeral numeral) (hlt : Numeral.decimal numeral < 2 ^ 63) :
    ReadsNumber numeral (Numeral.decimal numeral) := by
  obtain ⟨n, hn, hread⟩ := h.read?_of_lt hlt
  have hparse := parse_integer h
  rw [integer_of_some (c := [⟨.integer, numeral⟩]) hread] at hparse
  exact ⟨n, hn, hparse⟩

theorem IsNumeral.readsNoNumber (h : IsNumeral numeral) (hle : 2 ^ 63 ≤ Numeral.decimal numeral) :
    ReadsNoNumber numeral := by
  have hread := Numeral.read?_of_le hle
  have hparse := parse_integer h
  rw [integer_of_none (c := [⟨.integer, numeral⟩]) hread] at hparse
  exact hparse

theorem IsNumeral.minus_clean_iff (h : IsNumeral numeral) :
    (parse ("-" ++ numeral)).2.diagnostics = [] ↔ Numeral.decimal numeral < 2 ^ 63 := by
  rw [parse_minus_integer h, ← (parse_integer h).2]
  constructor
  · intro hclean
    apply Nat.lt_of_not_le
    intro hle
    rw [(h.readsNoNumber hle).2] at hclean
    cases hclean
  · intro hlt
    obtain ⟨n, -, -, hclean⟩ := h.readsNumber hlt
    exact hclean

end Numerals

/-- A numeral of any length is read as the number it stands for below `2 ^ 63`, and reported from
there on; every number below `2 ^ 63` has such a numeral. A minus sign is no part of a numeral, so
that the least number of 64 bits has none. -/
theorem parse_numeral :
    (∀ numeral, IsNumeral numeral →
      (Numeral.decimal numeral < 2 ^ 63 → ReadsNumber numeral (Numeral.decimal numeral)) ∧
      (2 ^ 63 ≤ Numeral.decimal numeral → ReadsNoNumber numeral) ∧
      ((parse ("-" ++ numeral)).2.diagnostics = [] ↔ Numeral.decimal numeral < 2 ^ 63)) ∧
    (∀ m < 2 ^ 63, ReadsNumber (toString m) m) ∧
    (parse (toString (-2 ^ 63 : Int))).2.diagnostics ≠ [] := by
  refine ⟨fun numeral h => ⟨h.readsNumber, h.readsNoNumber, h.minus_clean_iff⟩, ?_, ?_⟩
  · intro m hm
    have hdecimal := Numeral.decimal_toString m
    have hread := (isNumeral_toString m).readsNumber (hdecimal.symm ▸ hm)
    rwa [hdecimal] at hread
  · have htext : toString (-2 ^ 63 : Int) = "-" ++ toString (2 ^ 63) := rfl
    rw [htext]
    intro hclean
    have hlt := (isNumeral_toString (2 ^ 63)).minus_clean_iff.1 hclean
    rw [Numeral.decimal_toString] at hlt
    exact Nat.lt_irrefl _ hlt

/-- The greatest number, with zeros before it, and the next one. -/
theorem parse_numeral_limit :
    let greatest := "009223372036854775807"
    let next := "9223372036854775808"
    IsNumeral greatest ∧ Numeral.decimal greatest = 2 ^ 63 - 1 ∧
      ReadsNumber greatest (2 ^ 63 - 1) ∧
      IsNumeral next ∧ Numeral.decimal next = 2 ^ 63 ∧ ReadsNoNumber next := by
  intro greatest next
  have hgreatest : IsNumeral "009223372036854775807" := ⟨'0', _, rfl, rfl, List.all_eq_true.1 rfl⟩
  have hnext : IsNumeral "9223372036854775808" := ⟨'9', _, rfl, rfl, List.all_eq_true.1 rfl⟩
  have hlt : Numeral.decimal greatest = 2 ^ 63 - 1 := by
    rw [← Numeral.value_eq_decimal]
    decide
  have hle : Numeral.decimal next = 2 ^ 63 := by
    rw [← Numeral.value_eq_decimal]
    decide
  have hread := (parse_numeral.1 greatest hgreatest).1
  have hrefused := (parse_numeral.1 next hnext).2.1
  rw [hlt] at hread
  rw [hle] at hrefused
  exact ⟨hgreatest, hlt, hread (by decide), hnext, hle, hrefused (Nat.le_refl _)⟩

end ExprLang
