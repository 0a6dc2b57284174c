import YNet.Cpp.Number

-- A `double` is a number in the binary64 format.
structure Double where
  bits : UInt64
  deriving DecidableEq

namespace Cpp

-- The nearest natural number to a fraction, or the even one of two that are equally near.
def roundHalfEven (num den : Nat) : Nat :=
  let q := num / den
  let r := num % den
  if 2 * r < den ∨ (2 * r = den ∧ q % 2 = 0) then q else q + 1

end Cpp

namespace Double

def negative (x : Double) : Bool :=
  2 ^ 63 ≤ x.bits.toNat

def exponent (x : Double) : Nat :=
  x.bits.toNat / 2 ^ 52 % 2 ^ 11

def fraction (x : Double) : Nat :=
  x.bits.toNat % 2 ^ 52

-- The absolute value of a finite number as a multiple of the smallest positive one, which is `2 ^ -1074`.
def magnitude (x : Double) : Nat :=
  if x.exponent = 0 then x.fraction else (2 ^ 52 + x.fraction) * 2 ^ (x.exponent - 1)

-- Both zeros are equal to `0.0`.
def isZero (x : Double) : Bool :=
  x.exponent = 0 && x.fraction = 0

-- The number with a given sign that is the nearest to `num / den`.
def nearest (neg : Bool) (num den : Nat) : Nat :=
  let num := num * 2 ^ 1074
  let shift := Nat.log2 (num / den) - 52
  (if neg then 2 ^ 63 else 0) + shift * 2 ^ 52 + Cpp.roundHalfEven num (den * 2 ^ shift)

-- `strtod` sets an error code for numbers that round to infinity, and for the ones that are not
-- represented exactly because they are too small.
def overflows (num den : Nat) : Bool :=
  0x7FF * 2 ^ 52 ≤ nearest false num den

def underflows (num den : Nat) : Bool :=
  num * 2 ^ 1074 % den ≠ 0 && 4 * (num * 2 ^ 1074) < (2 ^ 54 - 1) * den

end Double

namespace Cpp

-- `std::to_string` on floating point numbers.
def doubleToString (x : Double) : Bytes :=
  if x.negative then 0x2D :: text else text
where
  micros := roundHalfEven (x.magnitude * 10 ^ 6) (2 ^ 1074)
  digits := natToString (micros % 10 ^ 6)
  text : Bytes :=
    if x.exponent < 0x7FF then
      natToString (micros / 10 ^ 6) ++ 0x2E :: (List.replicate (6 - digits.length) 0x30 ++ digits)
    else if x.fraction = 0 then "inf"
    else "nan"

-- The digits behind a decimal point.
def fractionDigits : Bytes → Bytes
  | []     => []
  | c :: s => if c = 0x2E then digitPrefix 10 s else []

-- `std::stod` on texts that contain neither an exponent nor a hexadecimal prefix.
def stod (s : Bytes) : Except Exn Double :=
  let (neg, s) := sign (s.dropWhile isspace)
  let whole := digitPrefix 10 s
  let frac := fractionDigits (s.drop whole.length)
  let num := ofDigits 10 (whole ++ frac)
  let den := 10 ^ frac.length
  if whole = [] ∧ frac = [] then .error .invalidArgument
  else if Double.overflows num den ∨ Double.underflows num den then .error .outOfRange
  else .ok ⟨.ofNat (Double.nearest neg num den)⟩

end Cpp
