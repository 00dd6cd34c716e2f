import ExprLang.Numeral

namespace ExprLang.Numeral

variable {numeral : String} {n : Int64}

/-- The numeral is one or more decimal digits, and they stand for the number. -/
structure Denotes (numeral : String) (n : Int64) : Prop where
  ne_nil : numeral.toList ≠ []
  digits : ∀ digit ∈ numeral.toList, digit.isDigit
  value_eq : n.toInt = value numeral.toList

theorem toInt_ofNat_of_le {m : Nat} (h : m ≤ limit) : (Int64.ofNat m).toInt = m :=
  Int64.toInt_ofNat_of_lt (Nat.lt_succ_of_le h)

theorem Denotes.value_le (h : Denotes numeral n) : value numeral.toList ≤ limit := by
  have hlt := n.toInt_lt
  have heq := h.value_eq
  simp only [limit]
  omega

/-- The numerals that can be read are those that denote a number, and what is read is the number. -/
theorem read?_eq_some_iff : read? numeral = some n ↔ Denotes numeral n := by
  simp only [read?]
  constructor
  · intro h
    split at h
    · next hnumeral =>
      simp only [Bool.and_eq_true, Bool.not_eq_eq_eq_not, Bool.not_true, List.isEmpty_eq_false_iff,
        List.all_eq_true, decide_eq_true_eq] at hnumeral
      obtain ⟨⟨hne, hdigits⟩, hle⟩ := hnumeral
      cases h
      exact ⟨hne, hdigits, toInt_ofNat_of_le hle⟩
    · cases h
  · intro h
    rw [if_pos]
    · refine congrArg some (Int64.toInt_inj.1 ?_)
      rw [toInt_ofNat_of_le h.value_le, h.value_eq]
    · simpa [h.ne_nil, h.value_le] using h.digits

end ExprLang.Numeral
