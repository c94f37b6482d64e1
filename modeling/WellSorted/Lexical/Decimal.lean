/-!
# Exact decimals

A decimal is `mantissa / 10 ^ places`. The fraction never ends in a zero, so decimals that denote
the same number are equal. It is written with at least one digit after the point.
-/

namespace WellSorted

structure Decimal where
  mantissa : Nat
  places : Nat
  reduced : places = 0 ∨ mantissa % 10 ≠ 0
deriving DecidableEq

namespace Decimal

/-- Drop the zeros at the end of the fraction. -/
def reduce (mantissa : Nat) : Nat → Decimal
  | 0 => ⟨mantissa, 0, .inl rfl⟩
  | places + 1 =>
    if h : mantissa % 10 = 0 then reduce (mantissa / 10) places
    else ⟨mantissa, places + 1, .inr h⟩

/-- `n` written with at least `width` digits. -/
def padded (n width : Nat) : List Char :=
  let digits := Nat.toDigits 10 n
  List.replicate (width - digits.length) '0' ++ digits

def chars (d : Decimal) : List Char :=
  if d.places = 0 then Nat.toDigits 10 d.mantissa ++ ['.', '0']
  else
    let unit := Nat.pow 10 d.places
    Nat.toDigits 10 (d.mantissa / unit) ++ '.' :: padded (d.mantissa % unit) d.places

end Decimal

end WellSorted
