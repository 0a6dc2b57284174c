import YNet.Cpp.Bytes

namespace Cpp

-- The character classes of `<cctype>` in the C locale. They are false for all bytes above 127.

def isspace (c : UInt8) : Bool :=
  c = 0x20 || (0x09 ≤ c && c ≤ 0x0D)

def isdigit (c : UInt8) : Bool :=
  0x30 ≤ c && c ≤ 0x39

def isalnum (c : UInt8) : Bool :=
  isdigit c || (0x41 ≤ c && c ≤ 0x5A) || (0x61 ≤ c && c ≤ 0x7A)

-- A digit of the format `%X`.
def upperHexDigit (d : Nat) : UInt8 :=
  if d < 10 then .ofNat (0x30 + d) else .ofNat (0x41 + d - 10)

-- A digit of the format `%x`.
def lowerHexDigit (d : Nat) : UInt8 :=
  if d < 10 then .ofNat (0x30 + d) else .ofNat (0x61 + d - 10)

-- The value of a digit in bases up to 36, and 36 for all other bytes.
def digitValue (c : UInt8) : Nat :=
  if isdigit c then c.toNat - 0x30
  else if 0x41 ≤ c && c ≤ 0x5A then c.toNat - 0x41 + 10
  else if 0x61 ≤ c && c ≤ 0x7A then c.toNat - 0x61 + 10
  else 36

def isxdigit (c : UInt8) : Bool :=
  digitValue c < 16

def ofDigits (base : Nat) (ds : Bytes) : Nat :=
  ds.foldl (fun n c => n * base + digitValue c) 0

def digitPrefix (base : Nat) (s : Bytes) : Bytes :=
  s.takeWhile (digitValue · < base)

-- The optional sign in front of a number.
def sign : Bytes → Bool × Bytes
  | []     => (false, [])
  | c :: s => if c = 0x2D then (true, s) else if c = 0x2B then (false, s) else (false, c :: s)

-- In base 16 the digits can be preceded by `0x` or `0X`.
def skipHexPrefix : Bytes → Bytes
  | z :: x :: d :: s =>
    if z = 0x30 ∧ (x = 0x78 ∨ x = 0x58) ∧ isxdigit d then d :: s else z :: x :: d :: s
  | s => s

-- The conversion that `strtol` and its relatives share: blanks, a sign, and the longest run of
-- digits. What follows the digits is ignored. The result is `none` when there are no digits.
def strto (base : Nat) (s : Bytes) : Option (Bool × Nat) :=
  let (neg, s) := sign (s.dropWhile isspace)
  let ds := digitPrefix base (if base = 16 then skipHexPrefix s else s)
  if ds = [] then none else some (neg, ofDigits base ds)

def signed (neg : Bool) (n : Nat) : Int :=
  if neg then -n else n

def stoi (s : Bytes) (base : Nat := 10) : Except Exn Int :=
  match strto base s with
  | none          => .error .invalidArgument
  | some (neg, n) =>
    if -2 ^ 31 ≤ signed neg n ∧ signed neg n < 2 ^ 31 then .ok (signed neg n)
    else .error .outOfRange

def stoll (s : Bytes) : Except Exn Int64 :=
  match strto 10 s with
  | none          => .error .invalidArgument
  | some (neg, n) =>
    if -2 ^ 63 ≤ signed neg n ∧ signed neg n < 2 ^ 63 then .ok (.ofInt (signed neg n))
    else .error .outOfRange

-- A negative number is no error here, it is negated as an `unsigned long`.
def stoul (s : Bytes) (base : Nat := 10) : Except Exn Nat :=
  match strto base s with
  | none          => .error .invalidArgument
  | some (neg, n) =>
    if n < 2 ^ 64 then .ok (if neg then (2 ^ 64 - n) % 2 ^ 64 else n)
    else .error .outOfRange

-- `std::from_chars` for a `size_t`: neither blanks nor a sign are allowed. The result is `none`
-- when an error code is set.
def fromChars (s : Bytes) : Option Nat :=
  let ds := digitPrefix 10 s
  if ds ≠ [] ∧ ofDigits 10 ds < 2 ^ 64 then some (ofDigits 10 ds) else none

def natToString (n : Nat) : Bytes :=
  if n = 0 then [0x30] else ((Nat.digits 10 n).map fun d => UInt8.ofNat (0x30 + d)).reverse

-- `std::to_string` on integers.
def toString (n : Int) : Bytes :=
  if n < 0 then 0x2D :: natToString n.natAbs else natToString n.natAbs

@[simp]
theorem signed_false : signed false n = n :=
  rfl

@[simp]
theorem signed_true : signed true n = -n :=
  rfl

theorem isdigit_iff : isdigit c ↔ 48 ≤ c.toNat ∧ c.toNat ≤ 57 := by
  simp [isdigit, UInt8.le_iff_toNat_le]

theorem digitValue_lt_ten_iff : digitValue c < 10 ↔ isdigit c := by
  unfold digitValue
  split
  case isTrue h =>
    have := isdigit_iff.mp h
    simp only [h, iff_true]
    omega
  case isFalse h =>
    simp only [h, iff_false, Bool.false_eq_true]
    split_ifs <;> omega

theorem toNat_ofNat_digit (h : d < 10) : (UInt8.ofNat (0x30 + d)).toNat = 0x30 + d := by
  simp only [UInt8.toNat_ofNat']
  omega

theorem isdigit_ofNat (h : d < 10) : isdigit (UInt8.ofNat (0x30 + d)) := by
  rw [isdigit_iff, toNat_ofNat_digit h]
  omega

theorem digitValue_ofNat (h : d < 10) : digitValue (UInt8.ofNat (0x30 + d)) = d := by
  simp only [digitValue, isdigit_ofNat h, if_true, toNat_ofNat_digit h]
  omega

theorem digitPrefix_append {a b : Bytes} (ha : ∀ c ∈ a, digitValue c < base)
    (hb : ∀ c ∈ b.head?, base ≤ digitValue c) : digitPrefix base (a ++ b) = a := by
  rw [digitPrefix, List.takeWhile_append_of_pos (by simpa using ha)]
  cases b
  case nil      => simp
  case cons c b => simp_all

theorem ofDigits_append {a b : Bytes} :
    ofDigits base (a ++ b) = b.foldl (fun n c => n * base + digitValue c) (ofDigits base a) := by
  simp [ofDigits]

theorem ofDigits_reverse_digits {ds : List Nat} (h : ∀ d ∈ ds, d < 10) :
    ofDigits 10 (ds.map fun d => UInt8.ofNat (0x30 + d)).reverse = Nat.ofDigits 10 ds := by
  induction ds
  case nil => rfl
  case cons d ds hi =>
    rw [List.forall_mem_cons] at h
    simp only [List.map_cons, List.reverse_cons, ofDigits_append, hi h.2, Nat.ofDigits_cons,
      List.foldl_cons, List.foldl_nil, digitValue_ofNat h.1]
    omega

theorem natToString_digits : ∀ c ∈ natToString n, isdigit c := by
  intro c hc
  unfold natToString at hc
  split_ifs at hc
  case pos => simp_all; decide
  case neg =>
    simp only [List.mem_reverse, List.mem_map] at hc
    have ⟨d, hd, he⟩ := hc
    exact he ▸ isdigit_ofNat (Nat.digits_lt_base (by decide) hd)

theorem natToString_ne_nil : natToString n ≠ [] := by
  unfold natToString
  split_ifs <;> simp_all [Nat.digits_ne_nil_iff_ne_zero]

theorem ofDigits_natToString : ofDigits 10 (natToString n) = n := by
  unfold natToString
  split_ifs with h
  · simp [h, ofDigits, digitValue, isdigit]
  · rw [ofDigits_reverse_digits fun _ => Nat.digits_lt_base (by decide), Nat.ofDigits_digits]

theorem digitPrefix_natToString {s : Bytes} (h : ∀ c ∈ s.head?, ¬isdigit c) :
    digitPrefix 10 (natToString n ++ s) = natToString n := by
  apply digitPrefix_append
  · exact fun c hc => digitValue_lt_ten_iff.mpr (natToString_digits c hc)
  · exact fun c hc => Nat.not_lt.mp <| digitValue_lt_ten_iff.not.mpr (h c hc)

theorem isxdigit_iff : isxdigit c ↔
    (48 ≤ c.toNat ∧ c.toNat ≤ 57) ∨ (65 ≤ c.toNat ∧ c.toNat ≤ 70) ∨ (97 ≤ c.toNat ∧ c.toNat ≤ 102) := by
  simp only [isxdigit, digitValue, isdigit, Bool.and_eq_true, decide_eq_true_eq,
    UInt8.le_iff_toNat_le, UInt8.reduceToNat]
  split_ifs <;> omega

theorem isspace_iff : isspace c ↔ c.toNat = 32 ∨ (9 ≤ c.toNat ∧ c.toNat ≤ 13) := by
  simp [isspace, UInt8.le_iff_toNat_le, ← UInt8.toNat_inj]

theorem isspace_of_isxdigit (h : isxdigit c) : isspace c = false := by
  rw [isxdigit_iff] at h
  rw [← Bool.not_eq_true, isspace_iff]
  omega

theorem sign_of_isxdigit (h : isxdigit c) : sign (c :: s) = (false, c :: s) := by
  rw [isxdigit_iff] at h
  have : c ≠ 0x2D ∧ c ≠ 0x2B := by
    constructor <;> (rintro rfl; simp at h)
  simp [sign, this]

theorem digitValue_lt_of_isxdigit (h : isxdigit c) : digitValue c < 16 := by
  simpa [isxdigit] using h

-- A pair of hexadecimal digits is the only input on which `stoi` sees both bytes as digits.
theorem stoi_hex (ha : isxdigit a) (hb : isxdigit b) :
    stoi [a, b] 16 = .ok (digitValue a * 16 + digitValue b : Nat) := by
  have ha' := digitValue_lt_of_isxdigit ha
  have hb' := digitValue_lt_of_isxdigit hb
  have : strto 16 [a, b] = some (false, digitValue a * 16 + digitValue b) := by
    simp [strto, isspace_of_isxdigit ha, sign_of_isxdigit ha, skipHexPrefix, digitPrefix, ha', hb',
      ofDigits]
  simp only [stoi, this, signed_false]
  exact if_pos (by omega)

theorem ofInt_toNat (c : UInt8) : UInt8.ofInt c.toNat = c := by
  have := c.toNat_lt
  rw [← UInt8.toNat_inj, UInt8.ofInt, UInt8.toNat_ofNat']
  omega

theorem fromChars_natToString (h : n < 2 ^ 64) : fromChars (natToString n) = some n := by
  have := digitPrefix_natToString (n := n) (s := []) (by simp)
  rw [List.append_nil] at this
  simp only [fromChars, this, natToString_ne_nil, ofDigits_natToString, h, ne_eq,
    not_false_eq_true, and_self, if_true]

theorem isspace_of_isdigit (h : isdigit c) : isspace c = false := by
  rw [isdigit_iff] at h
  rw [← Bool.not_eq_true, isspace_iff]
  omega

theorem sign_of_isdigit (h : isdigit c) : sign (c :: s) = (false, c :: s) := by
  rw [isdigit_iff] at h
  have : c ≠ 0x2D ∧ c ≠ 0x2B := by
    constructor <;> (rintro rfl; simp at h)
  simp [sign, this]

theorem strto_of_digit (h : isdigit c) :
    strto 10 (c :: s) = some (false, ofDigits 10 (digitPrefix 10 (c :: s))) := by
  have hc : digitValue c < 10 := digitValue_lt_ten_iff.mpr h
  simp [strto, isspace_of_isdigit h, sign_of_isdigit h, digitPrefix, hc]

theorem strto_natToString {s : Bytes} (h : ∀ c ∈ s.head?, ¬isdigit c) :
    strto 10 (natToString n ++ s) = some (false, n) := by
  cases hn : natToString n with
  | nil       => exact absurd hn natToString_ne_nil
  | cons c ds =>
    have hc : isdigit c := natToString_digits c (hn ▸ List.mem_cons_self)
    rw [List.cons_append, strto_of_digit hc, ← List.cons_append, ← hn, digitPrefix_natToString h,
      ofDigits_natToString]

theorem strto_minus_natToString {s : Bytes} (h : ∀ c ∈ s.head?, ¬isdigit c) :
    strto 10 (0x2D :: (natToString n ++ s)) = some (true, n) := by
  have hs : isspace 0x2D = false := by decide
  have hp : sign (0x2D :: (natToString n ++ s)) = (true, natToString n ++ s) := rfl
  simp [strto, hs, hp, digitPrefix_natToString h, natToString_ne_nil, ofDigits_natToString]

-- The conversion reads back an integer in front of anything but a digit.
theorem strto_toString {s : Bytes} (h : ∀ c ∈ s.head?, ¬isdigit c) :
    (strto 10 (toString n ++ s)).map (fun r => signed r.1 r.2) = some n := by
  rw [toString]
  split
  case isTrue hn =>
    rw [List.cons_append, strto_minus_natToString h, Option.map_some, signed_true, Int.ofNat_natAbs_of_nonpos hn.le,
      neg_neg]
  case isFalse hn => rw [strto_natToString h, Option.map_some, signed_false, Int.natAbs_of_nonneg (not_lt.mp hn)]

theorem toString_natCast (n : Nat) : toString n = natToString n := by
  rw [toString, if_neg (by omega), Int.natAbs_natCast]

theorem natToString_injective : Function.Injective natToString :=
  fun m n h => by rw [← ofDigits_natToString (n := m), h, ofDigits_natToString]

theorem length_natToString_le (h : m ≤ n) : (natToString m).length ≤ (natToString n).length := by
  by_cases hm : m = 0
  case pos =>
    have hl : (natToString m).length = 1 := by simp [natToString, hm]
    rw [hl]
    exact List.length_pos_iff.mpr natToString_ne_nil
  case neg =>
    have hn : n ≠ 0 := by omega
    simp only [natToString, if_neg hm, if_neg hn, List.length_reverse, List.length_map]
    exact Nat.le_length_digits_le 10 m n h

theorem ofDigits_lt_pow {ds : Bytes} (h : ∀ c ∈ ds, digitValue c < base) : ofDigits base ds < base ^ ds.length := by
  induction ds using List.reverseRecOn with
  | nil                      => simp [ofDigits]
  | append_singleton ds d hi =>
    have hd : digitValue d < base := h d (by simp)
    have hi := hi fun c hc => h c (List.mem_append_left _ hc)
    calc ofDigits base (ds ++ [d]) = ofDigits base ds * base + digitValue d := by simp [ofDigits_append]
      _ < (ofDigits base ds + 1) * base := by rw [Nat.add_mul]; omega
      _ ≤ base ^ ds.length * base := Nat.mul_le_mul_right _ hi
      _ = base ^ (ds ++ [d]).length := by rw [List.length_append, List.length_singleton, Nat.pow_succ]

theorem length_sign_le (s : Bytes) : (sign s).2.length ≤ s.length := by
  unfold sign
  split
  · simp
  · split_ifs <;> simp

theorem length_skipHexPrefix_le (s : Bytes) : (skipHexPrefix s).length ≤ s.length := by
  unfold skipHexPrefix
  split
  · split_ifs <;> simp
  · simp

theorem strto_lt (h : strto 16 s = some (neg, n)) : n < 16 ^ s.length := by
  unfold strto at h
  simp only [if_true] at h
  generalize hs : skipHexPrefix (sign (s.dropWhile isspace)).2 = t at h
  split_ifs at h
  simp only [Option.some.injEq, Prod.mk.injEq] at h
  have hlt : ofDigits 16 (digitPrefix 16 t) < 16 ^ (digitPrefix 16 t).length :=
    ofDigits_lt_pow fun c hc => by simpa using List.mem_takeWhile_imp hc
  have hp : (digitPrefix 16 t).length ≤ t.length := (List.takeWhile_prefix _).length_le
  have ht := hs ▸ length_skipHexPrefix_le (sign (s.dropWhile isspace)).2
  have hg := length_sign_le (s.dropWhile isspace)
  have hd : (s.dropWhile isspace).length ≤ s.length := List.length_dropWhile_le ..
  rw [h.2] at hlt
  exact hlt.trans_le (Nat.pow_le_pow_right (by decide) (by omega))

-- A number of at most 16 hexadecimal digits is in the range of an `unsigned long`.
theorem stoul_ok_iff (h : s.length ≤ 16) : (∃ n, stoul s 16 = .ok n) ↔ (strto 16 s).isSome := by
  unfold stoul
  cases hs : strto 16 s with
  | none   => simp
  | some r =>
    have hlt : r.2 < 2 ^ 64 := (strto_lt hs).trans_le (Nat.pow_le_pow_right (n := 16) (by decide) h)
    simp only [if_pos hlt, Option.isSome_some, iff_true]
    exact ⟨_, rfl⟩

-- Both conversions give the same for a text that begins with a digit.
theorem stoul_of_digit (h : isdigit c) : (stoul (c :: s)).toOption = fromChars (c :: s) := by
  have hn : digitPrefix 10 (c :: s) ≠ [] := by simp [digitPrefix, digitValue_lt_ten_iff.mpr h]
  simp only [stoul, strto_of_digit h, fromChars, hn, ne_eq, not_false_eq_true, true_and]
  split <;> rfl

end Cpp
