import Mathlib

-- Numbers as sequences of bytes, the most significant byte first.
namespace BigEndian

variable {w n : Nat}

def encode : Nat → Nat → List UInt8
  | 0, _     => []
  | w + 1, n => UInt8.ofNat (n >>> (8 * w)) :: encode w n

def decode (bytes : List UInt8) : Nat :=
  bytes.foldl (fun n b => n <<< 8 ||| b.toNat) 0

theorem length_encode : (encode w n).length = w := by
  induction w
  case zero       => rfl
  case succ w hi  => exact congrArg (· + 1) hi

theorem shiftLeft_or (n : Nat) (b : UInt8) : n <<< 8 ||| b.toNat = n * 256 + b.toNat := by
  rw [← Nat.shiftLeft_add_eq_or_of_lt b.toNat_lt, Nat.shiftLeft_eq]

theorem foldl_encode (a : Nat) : (encode w n).foldl (fun n b => n <<< 8 ||| b.toNat) a = a * 256 ^ w + n % 256 ^ w := by
  induction w generalizing a
  case zero      => simp [encode, Nat.mod_one]
  case succ w hi =>
    have hb : (UInt8.ofNat (n >>> (8 * w))).toNat = n / 256 ^ w % 256 := by
      rw [UInt8.toNat_ofNat', Nat.shiftRight_eq_div_pow, Nat.pow_mul]
    rw [encode, List.foldl_cons, hi, shiftLeft_or, hb, Nat.mod_pow_succ]
    ring

theorem decode_encode (h : n < 256 ^ w) : decode (encode w n) = n := by
  rw [decode, foldl_encode, Nat.mod_eq_of_lt h, Nat.zero_mul, Nat.zero_add]

end BigEndian
