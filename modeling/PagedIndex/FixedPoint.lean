/-!
Decimal text of nonnegative binary fractions with a fixed number of places. The exact value is
rounded to the nearest text; a half goes to the even digit.
-/

namespace PagedIndex.FixedPoint

/-- The nearest integer to a quotient; of two equally near ones the even one. -/
def roundDiv (num den : Nat) : Nat :=
  let quotient := num / den
  let rest := 2 * (num % den)
  if rest < den then quotient
  else if den < rest then quotient + 1
  else if quotient % 2 = 0 then quotient else quotient + 1

/-- The numerator and denominator of a finite double of positive sign. -/
def fraction (x : Float) : Nat × Nat :=
  let bits := x.toBits.toNat
  let exponent := bits / (1 <<< 52) % (1 <<< 11)
  let mantissa := bits % (1 <<< 52)
  if exponent = 0 then (mantissa, 1 <<< 1074)
  else
    let significand := mantissa + (1 <<< 52)
    if 1075 ≤ exponent then (significand <<< (exponent - 1075), 1)
    else (significand, 1 <<< (1075 - exponent))

def hundredths (x : Float) : String :=
  let (num, den) := fraction x
  let scaled := roundDiv (100 * num) den
  let places := scaled % 100
  let padding := if places < 10 then "0" else ""
  s!"{scaled / 100}.{padding}{places}"

end PagedIndex.FixedPoint
