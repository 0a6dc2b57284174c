import YNet.Cpp.Double
import YNet.Lib.Nearest

open Cpp

theorem Cpp.nearest_roundHalfEven (num : Nat) (hd : 0 < den) : Nearest num den (roundHalfEven num den) := by
  have he : num / den * den + num % den = num := Nat.div_add_mod' num den
  have hr : num % den < den := Nat.mod_lt num hd
  unfold roundHalfEven
  dsimp only
  generalize num / den = q, num % den = r at *
  split
  case isTrue h =>
    have : 2 * r ≤ den := h.elim le_of_lt fun h => h.1.le
    constructor <;> linarith
  case isFalse h =>
    have := (not_or.mp h).1
    constructor <;> linarith

namespace Double

variable {x y : Double}

def IsFinite (x : Double) : Prop :=
  x.exponent < 0x7FF

-- The bits of a number with `M * 2 ^ s` for its absolute value, where `M` has 53 binary digits, or less
-- if `s` is zero. With one more digit, `M` is the next power of two.
structure IsParts (s M : Nat) : Prop where
  le     : M ≤ 2 ^ 53
  normal : s = 0 ∨ 2 ^ 52 ≤ M
  finite : s * 2 ^ 52 + M < 0x7FF * 2 ^ 52

def signBit (neg : Bool) : Nat :=
  if neg then 2 ^ 63 else 0

def ofParts (neg : Bool) (s M : Nat) : Double :=
  ⟨.ofNat (signBit neg + s * 2 ^ 52 + M)⟩

theorem IsParts.toNat_bits (h : IsParts s M) (neg : Bool) : (ofParts neg s M).bits.toNat = signBit neg + s * 2 ^ 52 + M := by
  have hf := h.finite
  have hs : signBit neg ≤ 2 ^ 63 := by
    unfold signBit
    split <;> omega
  rw [ofParts, UInt64.toNat_ofNat']
  omega

theorem IsParts.negative (h : IsParts s M) (neg : Bool) : (ofParts neg s M).negative = neg := by
  have hf := h.finite
  rw [Double.negative, h.toNat_bits]
  cases neg <;> simp only [signBit] <;> simp <;> omega

theorem IsParts.isFinite (h : IsParts s M) (neg : Bool) : (ofParts neg s M).IsFinite := by
  have hf := h.finite
  rw [IsFinite, exponent, h.toNat_bits]
  cases neg <;> simp only [signBit] <;> simp <;> omega

theorem IsParts.fields (h : IsParts s M) (neg : Bool) :
    (ofParts neg s M).exponent = s + M / 2 ^ 52 ∧ (ofParts neg s M).fraction = M % 2 ^ 52 := by
  have hf := h.finite
  rw [exponent, fraction, h.toNat_bits]
  cases neg <;> simp only [signBit, if_true, if_false, Bool.false_eq_true] <;> omega

theorem IsParts.magnitude (h : IsParts s M) (neg : Bool) : (ofParts neg s M).magnitude = M * 2 ^ s := by
  have ⟨he, hf⟩ := h.fields neg
  rw [Double.magnitude, he, hf]
  by_cases hM : M < 2 ^ 52
  case pos =>
    have hs : s = 0 := h.normal.resolve_right (Nat.not_le.mpr hM)
    rw [hs, Nat.div_eq_of_lt hM, Nat.mod_eq_of_lt hM, if_pos rfl, pow_zero, Nat.mul_one]
  case neg =>
    rw [if_neg (by omega)]
    have hle := h.le
    rcases Nat.lt_or_eq_of_le hle with hlt | rfl
    · have hd : M / 2 ^ 52 = 1 := by omega
      have hm : 2 ^ 52 + M % 2 ^ 52 = M := by omega
      rw [hd, hm, Nat.add_sub_cancel]
    · have he : s + 2 ^ 53 / 2 ^ 52 - 1 = s + 1 := by omega
      rw [he, pow_succ]
      omega

theorem exists_parts (h : x.IsFinite) :
    ∃ s M, IsParts s M ∧ M < 2 ^ 53 ∧ x = ofParts x.negative s M ∧ x.magnitude = M * 2 ^ s := by
  have hb := x.bits.toNat_lt
  have hbits (s M : Nat) (hp : x.bits.toNat = signBit x.negative + s * 2 ^ 52 + M) : x = ofParts x.negative s M := by
    rw [ofParts, ← hp, UInt64.ofNat_toNat]
  unfold IsFinite exponent at h
  by_cases he : x.exponent = 0
  case pos =>
    have hp : IsParts 0 x.fraction := by
      unfold fraction
      exact ⟨by omega, .inl rfl, by omega⟩
    refine ⟨0, x.fraction, hp, by unfold fraction; omega, hbits _ _ ?_, by simp [Double.magnitude, he]⟩
    unfold exponent at he
    unfold fraction signBit negative
    split <;> simp_all <;> omega
  case neg =>
    have hp : IsParts (x.exponent - 1) (2 ^ 52 + x.fraction) := by
      unfold fraction exponent
      exact ⟨by omega, .inr (by omega), by omega⟩
    refine ⟨_, _, hp, by unfold fraction; omega, hbits _ _ ?_, by rw [Double.magnitude, if_neg he]⟩
    unfold exponent at he ⊢
    unfold fraction signBit negative
    split <;> simp_all <;> omega

-- The fraction that `nearest` rounds to, in multiples of the smallest positive number.
def scaled (num : Nat) : Nat :=
  num * 2 ^ 1074

def shift (num den : Nat) : Nat :=
  Nat.log2 (scaled num / den) - 52

def mantissa (num den : Nat) : Nat :=
  roundHalfEven (scaled num) (den * 2 ^ shift num den)

theorem nearest_eq (neg : Bool) (num den : Nat) :
    nearest neg num den = signBit neg + shift num den * 2 ^ 52 + mantissa num den :=
  rfl

theorem nearest_mantissa (hd : 0 < den) : Nearest (scaled num) (den * 2 ^ shift num den) (mantissa num den) :=
  nearest_roundHalfEven _ (Nat.mul_pos hd (Nat.two_pow_pos _))

theorem scaled_lt (hd : 0 < den) : scaled num < den * 2 ^ (shift num den + 53) := by
  have hl : scaled num / den < 2 ^ (shift num den + 53) :=
    calc scaled num / den < 2 ^ (Nat.log2 (scaled num / den) + 1) := Nat.lt_log2_self
      _ ≤ 2 ^ (shift num den + 53) := Nat.pow_le_pow_right (by decide) (by unfold shift; omega)
  rw [Nat.mul_comm]
  exact (Nat.div_lt_iff_lt_mul hd).mp hl

theorem le_scaled (h : shift num den ≠ 0) : den * 2 ^ (shift num den + 52) ≤ scaled num := by
  have hne : scaled num / den ≠ 0 := by
    intro h0
    simp [shift, h0] at h
  have hl : 2 ^ (shift num den + 52) ≤ scaled num / den := by
    have he : shift num den + 52 = Nat.log2 (scaled num / den) := by
      unfold shift at h ⊢
      omega
    rw [he]
    exact Nat.log2_self_le hne
  exact (Nat.mul_le_mul_left den hl).trans (Nat.mul_div_le ..)

theorem mantissa_le (hd : 0 < den) : mantissa num den ≤ 2 ^ 53 := by
  refine (nearest_mantissa hd).le_of_le (Nat.mul_pos hd (Nat.two_pow_pos _)) ?_
  have : scaled num < den * 2 ^ (shift num den + 53) := scaled_lt hd
  rw [pow_add] at this
  linarith

theorem le_mantissa (hd : 0 < den) (h : shift num den ≠ 0) : 2 ^ 52 ≤ mantissa num den := by
  refine (nearest_mantissa hd).le_of_ge (Nat.mul_pos hd (Nat.two_pow_pos _)) ?_
  have : den * 2 ^ (shift num den + 52) ≤ scaled num := le_scaled h
  rw [pow_add] at this
  linarith

theorem isParts_of_not_overflows (hd : 0 < den) (h : ¬overflows num den) : IsParts (shift num den) (mantissa num den) := by
  refine ⟨mantissa_le hd, (eq_or_ne _ 0).imp_right (le_mantissa hd), ?_⟩
  simpa only [overflows, nearest_eq, signBit, Bool.false_eq_true, if_false, Nat.zero_add, decide_eq_true_eq, not_le]
    using h

theorem parts_unique (h : IsParts s M) (hM' : M' < 2 ^ 53)
    (he : M * 2 ^ s = M' * 2 ^ s') : s ≤ s' := by
  by_contra! hlt
  have hge : 2 ^ 52 ≤ M := h.normal.resolve_left (by omega)
  have : 2 ^ (53 + s') < 2 ^ (53 + s') :=
    calc 2 ^ (53 + s') ≤ 2 ^ (52 + s) := Nat.pow_le_pow_right (by decide) (by omega)
      _ = 2 ^ 52 * 2 ^ s := pow_add ..
      _ ≤ M * 2 ^ s := Nat.mul_le_mul_right _ hge
      _ = M' * 2 ^ s' := he
      _ < 2 ^ 53 * 2 ^ s' := Nat.mul_lt_mul_of_pos_right hM' (Nat.two_pow_pos _)
      _ = 2 ^ (53 + s') := (pow_add ..).symm
  exact lt_irrefl _ this

theorem ext_magnitude (hx : x.IsFinite) (hy : y.IsFinite) (hn : x.negative = y.negative)
    (hm : x.magnitude = y.magnitude) : x = y := by
  obtain ⟨s, M, hp, hM, hx, he⟩ := exists_parts hx
  obtain ⟨s', M', hp', hM', hy, he'⟩ := exists_parts hy
  rw [he, he'] at hm
  have hs : s = s' := le_antisymm (parts_unique hp hM' hm) (parts_unique hp' hM hm.symm)
  subst hs
  rw [hx, hy, hn, Nat.eq_of_mul_eq_mul_right (Nat.two_pow_pos _) hm]

section Text

-- The text of a number counts in millionths.
def micros (x : Double) : Nat :=
  roundHalfEven (x.magnitude * 10 ^ 6) (2 ^ 1074)

-- The number that is read from the text.
def reread (x : Double) : Double :=
  ofParts x.negative (shift x.micros (10 ^ 6)) (mantissa x.micros (10 ^ 6))

theorem nearest_micros (x : Double) : Nearest (x.magnitude * 10 ^ 6) (2 ^ 1074) x.micros :=
  nearest_roundHalfEven _ (Nat.two_pow_pos _)

-- The distance between the numbers with a common exponent is no power of ten.
theorem spacing_lt (h : s ≤ 1054) : 10 ^ 6 * 2 ^ s < 2 ^ 1074 :=
  calc 10 ^ 6 * 2 ^ s < 2 ^ 20 * 2 ^ s := Nat.mul_lt_mul_of_pos_right (by decide) (Nat.two_pow_pos _)
    _ = 2 ^ (20 + s) := (pow_add ..).symm
    _ ≤ 2 ^ 1074 := Nat.pow_le_pow_right (by decide) (by omega)

theorem spacing_gt (h : 1054 < s) : 2 ^ 1074 < 10 ^ 6 * 2 ^ s :=
  calc 2 ^ 1074 ≤ 2 ^ (19 + s) := Nat.pow_le_pow_right (by decide) (by omega)
    _ = 2 ^ 19 * 2 ^ s := pow_add ..
    _ < 10 ^ 6 * 2 ^ s := Nat.mul_lt_mul_of_pos_right (by decide) (Nat.two_pow_pos _)

-- Where the numbers are further apart than the millionths, the number is a multiple of their distance.
theorem exists_multiple (h : x.IsFinite) (hs : 1054 < shift x.micros (10 ^ 6)) :
    ∃ j, x.magnitude = j * 2 ^ shift x.micros (10 ^ 6) := by
  obtain ⟨sx, Mx, _, hMx, _, hx⟩ := exists_parts h
  have hnear := (nearest_micros x).2
  have hspace := spacing_gt hs
  have hle : 10 ^ 6 * 2 ^ (shift x.micros (10 ^ 6) + 52) ≤ scaled x.micros := le_scaled (by omega)
  generalize shift x.micros (10 ^ 6) = s at *
  rcases Nat.lt_or_ge sx s with hlt | hge
  · -- Then the number would be too small for the exponent that its text has.
    have h2 : 2 * 2 ^ sx ≤ 2 ^ s := by
      rw [← pow_succ']
      exact Nat.pow_le_pow_right (by decide) hlt
    have hX : x.magnitude + 2 ^ sx ≤ 2 ^ 53 * 2 ^ sx := by
      rw [hx, ← Nat.succ_mul]
      exact Nat.mul_le_mul_right _ hMx
    unfold scaled at hle
    rw [pow_add] at hle
    generalize (2 : Nat) ^ 1074 = T at *
    exfalso
    linarith
  · refine ⟨Mx * 2 ^ (sx - s), ?_⟩
    rw [hx, Nat.mul_assoc, ← pow_add, Nat.sub_add_cancel hge]

-- A number that is too large for millionths is the one that is read.
theorem magnitude_eq (h : x.IsFinite) (hs : 1054 < shift x.micros (10 ^ 6)) :
    x.magnitude = mantissa x.micros (10 ^ 6) * 2 ^ shift x.micros (10 ^ 6) := by
  obtain ⟨j, hj⟩ := exists_multiple h hs
  have hn := nearest_micros x
  have hm : Nearest (scaled x.micros) _ (mantissa x.micros (10 ^ 6)) := nearest_mantissa (by decide)
  have he : x.magnitude * 10 ^ 6 = j * (10 ^ 6 * 2 ^ shift x.micros (10 ^ 6)) := by rw [hj]; ring
  rw [he] at hn
  rw [hn.eq_of_coarser (spacing_gt hs) hm, hj]

theorem isParts_reread (h : x.IsFinite) : IsParts (shift x.micros (10 ^ 6)) (mantissa x.micros (10 ^ 6)) := by
  have hle : mantissa x.micros (10 ^ 6) ≤ 2 ^ 53 := mantissa_le (by decide)
  have hge : shift x.micros (10 ^ 6) ≠ 0 → 2 ^ 52 ≤ mantissa x.micros (10 ^ 6) := le_mantissa (by decide)
  refine ⟨hle, (eq_or_ne _ 0).imp_right hge, ?_⟩
  by_cases hs : 1054 < shift x.micros (10 ^ 6)
  case neg => omega
  case pos =>
    have he := magnitude_eq h hs
    have hge := hge (by omega)
    obtain ⟨sx, Mx, hp, hMx, _, hx⟩ := exists_parts h
    have hf := hp.finite
    have hn := hp.normal
    rw [hx] at he
    generalize shift x.micros (10 ^ 6) = s, mantissa x.micros (10 ^ 6) = M at *
    have hlt : 2 ^ (52 + s) < 2 ^ (53 + sx) :=
      calc 2 ^ (52 + s) = 2 ^ 52 * 2 ^ s := pow_add ..
        _ ≤ M * 2 ^ s := Nat.mul_le_mul_right _ hge
        _ = Mx * 2 ^ sx := he.symm
        _ < 2 ^ 53 * 2 ^ sx := Nat.mul_lt_mul_of_pos_right hMx (Nat.two_pow_pos _)
        _ = 2 ^ (53 + sx) := (pow_add ..).symm
    have hss : 52 + s < 53 + sx := (Nat.pow_lt_pow_iff_right (by decide)).mp hlt
    -- With the greatest exponent, both have the same 53 digits.
    have hsx : sx ≤ 2045 := by omega
    rcases Nat.lt_or_eq_of_le (Nat.lt_succ_iff.mp (show s < sx + 1 by omega)) with hss | rfl
    · linarith
    · rw [← Nat.eq_of_mul_eq_mul_right (Nat.two_pow_pos _) he]
      exact hf

theorem negative_reread (h : x.IsFinite) : x.reread.negative = x.negative :=
  (isParts_reread h).negative _

theorem isFinite_reread (h : x.IsFinite) : x.reread.IsFinite :=
  (isParts_reread h).isFinite _

theorem micros_reread (h : x.IsFinite) : x.reread.micros = x.micros := by
  have hn : Nearest (x.reread.magnitude * 10 ^ 6) (2 ^ 1074) x.reread.micros := nearest_micros _
  have hm : Nearest (scaled x.micros) (10 ^ 6 * 2 ^ shift x.micros (10 ^ 6)) (mantissa x.micros (10 ^ 6)) :=
    nearest_mantissa (by decide)
  have he : x.reread.magnitude = mantissa x.micros (10 ^ 6) * 2 ^ shift x.micros (10 ^ 6) :=
    (isParts_reread h).magnitude _
  by_cases hs : 1054 < shift x.micros (10 ^ 6)
  case pos => rw [micros, he, ← magnitude_eq h hs, micros]
  case neg =>
    rw [he, Nat.mul_assoc, Nat.mul_comm (2 ^ _)] at hn
    exact hm.eq_of_finer (spacing_lt (by omega)) hn

-- What is read from the text has the same text.
theorem reread_reread (h : x.IsFinite) : x.reread.reread = x.reread := by
  rw [reread, negative_reread h, micros_reread h, reread]

theorem doubleToString_reread (h : x.IsFinite) : doubleToString x.reread = doubleToString x := by
  have hf := isFinite_reread h
  have hm : roundHalfEven (x.reread.magnitude * 10 ^ 6) (2 ^ 1074) =
      roundHalfEven (x.magnitude * 10 ^ 6) (2 ^ 1074) := micros_reread h
  unfold IsFinite at h hf
  simp only [doubleToString, doubleToString.text, doubleToString.digits, doubleToString.micros, negative_reread h, hm,
    if_pos h, if_pos hf]

theorem reread_eq_of_shift (h : x.IsFinite) (hs : 1054 < shift x.micros (10 ^ 6)) : x.reread = x := by
  refine ext_magnitude (isFinite_reread h) h (negative_reread h) ?_
  rw [magnitude_eq h hs]
  exact (isParts_reread h).magnitude _

-- From 2 ^ 33 on, a number is given exactly by its text.
theorem reread_eq (h : x.IsFinite) (hx : 2 ^ 33 * 2 ^ 1074 ≤ x.magnitude) : x.reread = x := by
  refine reread_eq_of_shift h ?_
  have hm : 2 ^ 33 * 10 ^ 6 ≤ x.micros := by
    refine (nearest_micros x).le_of_ge (Nat.two_pow_pos _) ?_
    rw [Nat.mul_right_comm]
    exact Nat.mul_le_mul_right _ hx
  by_contra! hs
  have hlt : scaled x.micros < 10 ^ 6 * 2 ^ (shift x.micros (10 ^ 6) + 53) := scaled_lt (by decide)
  have : 2 ^ (33 + 1074) < 2 ^ (1054 + 53) :=
    calc 2 ^ (33 + 1074) = 2 ^ 33 * 2 ^ 1074 := pow_add ..
      _ < 2 ^ (shift x.micros (10 ^ 6) + 53) := by
        refine Nat.lt_of_mul_lt_mul_left (a := 10 ^ 6) (lt_of_le_of_lt ?_ hlt)
        rw [← Nat.mul_assoc, Nat.mul_comm (10 ^ 6)]
        exact Nat.mul_le_mul_right _ hm
      _ ≤ 2 ^ (1054 + 53) := Nat.pow_le_pow_right (by decide) (by omega)
  exact lt_irrefl _ this

-- The number that is read differs from the one that was written by one millionth at most.
theorem reread_near (h : x.IsFinite) : x.magnitude * 10 ^ 6 ≤ x.reread.magnitude * 10 ^ 6 + 2 ^ 1074 ∧
    x.reread.magnitude * 10 ^ 6 ≤ x.magnitude * 10 ^ 6 + 2 ^ 1074 := by
  by_cases hs : 1054 < shift x.micros (10 ^ 6)
  case pos =>
    rw [reread_eq_of_shift h hs]
    exact ⟨Nat.le_add_right .., Nat.le_add_right ..⟩
  case neg =>
    have he : x.reread.magnitude = mantissa x.micros (10 ^ 6) * 2 ^ shift x.micros (10 ^ 6) :=
      (isParts_reread h).magnitude _
    have hm : Nearest (scaled x.micros) (10 ^ 6 * 2 ^ shift x.micros (10 ^ 6)) (mantissa x.micros (10 ^ 6)) :=
      nearest_mantissa (by decide)
    rw [he, Nat.mul_assoc, Nat.mul_comm (2 ^ _)]
    exact (nearest_micros x).dist_le hm (spacing_lt (by omega)).le

-- The numbers that are the nearest ones to a number of millionths.
def OfMicros (x : Double) : Prop :=
  ∃ n, x.bits.toNat = nearest x.negative n (10 ^ 6)

theorem IsFinite.not_overflows (h : x.IsFinite) (he : x.bits.toNat = nearest x.negative n (10 ^ 6)) :
    ¬overflows n (10 ^ 6) := by
  have hb := x.bits.toNat_lt
  unfold IsFinite exponent at h
  simp only [overflows, nearest_eq, signBit, Bool.false_eq_true, if_false, Nat.zero_add, decide_eq_true_eq, not_le]
  rw [nearest_eq, signBit, negative] at he
  simp only [decide_eq_true_eq] at he
  split at he <;> omega

-- A number is read back from its text exactly if it is one of them.
theorem reread_eq_iff (h : x.IsFinite) : x.reread = x ↔ x.OfMicros := by
  constructor
  case mp =>
    intro he
    refine ⟨x.micros, ?_⟩
    have hb := (isParts_reread h).toNat_bits x.negative
    rwa [← reread, he] at hb
  case mpr =>
    rintro ⟨n, he⟩
    have hp : IsParts (shift n (10 ^ 6)) (mantissa n (10 ^ 6)) :=
      isParts_of_not_overflows (by decide) (h.not_overflows he)
    have hx : x = ofParts x.negative (shift n (10 ^ 6)) (mantissa n (10 ^ 6)) := by
      rw [ofParts, ← nearest_eq, ← he, UInt64.ofNat_toNat]
    have hm : x.magnitude = mantissa n (10 ^ 6) * 2 ^ shift n (10 ^ 6) := by
      rw [hx]
      exact hp.magnitude _
    by_cases hs : 1054 < shift n (10 ^ 6)
    case pos =>
      refine reread_eq h ?_
      calc 2 ^ 33 * 2 ^ 1074 = 2 ^ 52 * 2 ^ 1055 := by rw [← pow_add, ← pow_add]
        _ ≤ mantissa n (10 ^ 6) * 2 ^ shift n (10 ^ 6) :=
          Nat.mul_le_mul (le_mantissa (by decide) (by omega)) (Nat.pow_le_pow_right (by decide) hs)
        _ = x.magnitude := hm.symm
    case neg =>
      have hn := nearest_micros x
      have hmn : Nearest (scaled n) (10 ^ 6 * 2 ^ shift n (10 ^ 6)) (mantissa n (10 ^ 6)) := nearest_mantissa (by decide)
      rw [hm, Nat.mul_assoc, Nat.mul_comm (2 ^ _)] at hn
      rw [reread, hmn.eq_of_finer (spacing_lt (by omega)) hn, ← hx]

end Text

end Double

namespace Cpp

theorem ofDigits_append_eq (a b : Bytes) : ofDigits base (a ++ b) = ofDigits base a * base ^ b.length + ofDigits base b := by
  induction b using List.reverseRecOn with
  | nil                     => simp [ofDigits]
  | append_singleton b d hi =>
    rw [← List.append_assoc, ofDigits_append, hi, ofDigits_append]
    simp only [List.foldl_cons, List.foldl_nil, List.length_append, List.length_singleton, pow_succ]
    ring

theorem ofDigits_replicate (n : Nat) : ofDigits 10 (List.replicate n 0x30) = 0 := by
  induction n with
  | zero      => rfl
  | succ n hi =>
    rw [List.replicate_succ', ofDigits_append, hi]
    rfl

theorem length_natToString (h : n < 10 ^ k) (hk : k ≠ 0) : (natToString n).length ≤ k := by
  unfold natToString
  split_ifs with h0
  · simpa using Nat.one_le_iff_ne_zero.mpr hk
  · rw [List.length_reverse, List.length_map]
    exact (Nat.digits_length_le_iff (by decide) n).mpr h

-- The six digits behind the decimal point.
def sixDigits (n : Nat) : Bytes :=
  List.replicate (6 - (natToString n).length) 0x30 ++ natToString n

theorem isdigit_of_mem_sixDigits : ∀ c ∈ sixDigits n, isdigit c := by
  intro c hc
  rcases List.mem_append.mp hc with hc | hc
  · rw [List.eq_of_mem_replicate hc]
    decide
  · exact natToString_digits c hc

theorem length_sixDigits (h : n < 10 ^ 6) : (sixDigits n).length = 6 := by
  have := length_natToString h (by decide)
  rw [sixDigits, List.length_append, List.length_replicate]
  omega

theorem ofDigits_sixDigits : ofDigits 10 (sixDigits n) = n := by
  rw [sixDigits, ofDigits_append_eq, ofDigits_replicate, ofDigits_natToString, Nat.zero_mul, Nat.zero_add]

theorem digitPrefix_of_digits {ds : Bytes} (h : ∀ c ∈ ds, isdigit c) : digitPrefix 10 ds = ds := by
  rw [digitPrefix, List.takeWhile_eq_self_iff]
  exact fun c hc => decide_eq_true (digitValue_lt_ten_iff.mpr (h c hc))

variable {x : Double}

-- The text of the absolute value of a finite number.
def absText (x : Double) : Bytes :=
  natToString (x.micros / 10 ^ 6) ++ 0x2E :: sixDigits (x.micros % 10 ^ 6)

theorem doubleToString_of_finite (h : x.IsFinite) :
    doubleToString x = if x.negative then 0x2D :: absText x else absText x := by
  unfold Double.IsFinite at h
  simp only [doubleToString, doubleToString.text, if_pos h]
  rfl

theorem sign_absText (x : Double) : sign ((absText x).dropWhile isspace) = (false, absText x) := by
  unfold absText
  cases hn : natToString (x.micros / 10 ^ 6) with
  | nil       => exact absurd hn natToString_ne_nil
  | cons c ds =>
    have hc : isdigit c := natToString_digits c (hn ▸ List.mem_cons_self)
    rw [List.cons_append, List.dropWhile_cons_of_neg (by simp [isspace_of_isdigit hc]), sign_of_isdigit hc]

theorem sign_doubleToString (h : x.IsFinite) :
    sign ((doubleToString x).dropWhile isspace) = (x.negative, absText x) := by
  rw [doubleToString_of_finite h]
  cases x.negative with
  | true  => rfl
  | false => exact sign_absText x

theorem not_overflows (h : x.IsFinite) : ¬Double.overflows x.micros (10 ^ 6) := by
  have := (Double.isParts_reread h).finite
  simp only [Double.overflows, Double.nearest_eq, Double.signBit]
  simpa using this

theorem isFinite_of_stod (h : stod s = .ok x) : x.IsFinite := by
  unfold stod at h
  dsimp only at h
  generalize sign (s.dropWhile isspace) = r at h
  generalize ofDigits 10 _ = num, List.length (fractionDigits _) = k at h
  split_ifs at h with _ hr
  have hp : Double.IsParts (Double.shift num (10 ^ k)) (Double.mantissa num (10 ^ k)) :=
    Double.isParts_of_not_overflows (Nat.pow_pos (by decide)) (not_or.mp hr).1
  rw [Double.nearest_eq] at h
  have hf : (Double.ofParts r.1 (Double.shift num (10 ^ k)) (Double.mantissa num (10 ^ k))).IsFinite := hp.isFinite r.1
  cases h
  exact hf

theorem not_underflows : ¬Double.underflows n (10 ^ 6) := by
  rcases Nat.eq_zero_or_pos n with rfl | hn
  · simp [Double.underflows]
  · have hle : (2 ^ 54 - 1) * 10 ^ 6 ≤ 4 * (n * 2 ^ 1074) :=
      calc (2 ^ 54 - 1) * 10 ^ 6 ≤ 2 ^ 80 := by decide
        _ ≤ 2 ^ 1074 := Nat.pow_le_pow_right (by decide) (by decide)
        _ ≤ n * 2 ^ 1074 := Nat.le_mul_of_pos_left _ hn
        _ ≤ 4 * (n * 2 ^ 1074) := Nat.le_mul_of_pos_left _ (by decide)
    rw [Double.underflows, decide_eq_false (Nat.not_lt.mpr hle), Bool.and_false]
    exact Bool.false_ne_true

-- The text of a finite number can be read.
theorem stod_of_finite (h : x.IsFinite) : stod (doubleToString x) = .ok x.reread := by
  have hdot : digitPrefix 10 (absText x) = natToString (x.micros / 10 ^ 6) := digitPrefix_natToString (by simp; decide)
  have hfrac : fractionDigits ((absText x).drop (natToString (x.micros / 10 ^ 6)).length) = sixDigits (x.micros % 10 ^ 6) := by
    rw [absText, List.drop_left, fractionDigits, if_pos rfl, digitPrefix_of_digits isdigit_of_mem_sixDigits]
  have hlen := length_sixDigits (Nat.mod_lt x.micros (by decide : 0 < 10 ^ 6))
  have hnum : ofDigits 10 (natToString (x.micros / 10 ^ 6) ++ sixDigits (x.micros % 10 ^ 6)) = x.micros := by
    rw [ofDigits_append_eq, ofDigits_natToString, ofDigits_sixDigits, hlen, Nat.div_add_mod']
  unfold stod
  simp only [sign_doubleToString h, hdot, hfrac, hlen, hnum]
  rw [if_neg (by simp [natToString_ne_nil]), if_neg (not_or.mpr ⟨not_overflows h, not_underflows⟩)]
  rfl

-- What is read from the text of a finite number has the same text and the same sign, is one millionth off at
-- most, and is the number itself from 2 ^ 33 on.
theorem stod_doubleToString (h : x.IsFinite) : ∃ y, stod (doubleToString x) = .ok y ∧ y.IsFinite ∧
    doubleToString y = doubleToString x ∧ y.negative = x.negative ∧
    x.magnitude * 10 ^ 6 ≤ y.magnitude * 10 ^ 6 + 2 ^ 1074 ∧ y.magnitude * 10 ^ 6 ≤ x.magnitude * 10 ^ 6 + 2 ^ 1074 ∧
    (2 ^ 33 * 2 ^ 1074 ≤ x.magnitude → y = x) := by
  have ⟨h₁, h₂⟩ := Double.reread_near h
  exact ⟨x.reread, stod_of_finite h, Double.isFinite_reread h, Double.doubleToString_reread h, Double.negative_reread h,
    h₁, h₂, Double.reread_eq h⟩

theorem stod_doubleToString_tenth : ∃ y, stod (doubleToString ⟨0x3FB999999999999A⟩) = .ok y ∧
    doubleToString y = doubleToString ⟨0x3FB999999999999A⟩ :=
  have ⟨y, hy, _, ht, _⟩ := stod_doubleToString (x := ⟨0x3FB999999999999A⟩) (by unfold Double.IsFinite; decide)
  ⟨y, hy, ht⟩

end Cpp
