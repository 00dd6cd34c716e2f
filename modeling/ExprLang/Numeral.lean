namespace ExprLang.Numeral

/-- The number a run of decimal digits stands for, the most significant digit first. -/
def value (digits : List Char) : Nat :=
  digits.foldl (fun n digit => 10 * n + (digit.toNat - '0'.toNat)) 0

/-- The greatest number that 64 bits hold with a sign. -/
def limit : Nat := 9223372036854775807

/-- The value of a numeral: one or more decimal digits that stay within the limit. -/
def read? (numeral : String) : Option Int64 :=
  let digits := numeral.toList
  if !digits.isEmpty && digits.all Char.isDigit && value digits ≤ limit then
    some (.ofNat (value digits))
  else
    none

end ExprLang.Numeral
