import Mathlib

-- The base 64 encoding of bytes, with padding.
namespace Base64

section Bits

variable {l l' : List Bool} {w n : Nat}

-- The bits of a number, and the number that bits stand for. The most significant bit comes first.
def toBits : Nat → Nat → List Bool
  | 0, _     => []
  | w + 1, n => n.testBit w :: toBits w n

def ofBits : List Bool → Nat
  | []     => 0
  | b :: l => 2 ^ l.length * b.toNat + ofBits l

@[simp]
theorem length_toBits : (toBits w n).length = w := by
  induction w with
  | zero      => rfl
  | succ w hi => exact congrArg (· + 1) hi

theorem ofBits_toBits : ofBits (toBits w n) = n % 2 ^ w := by
  induction w with
  | zero      => simp [toBits, ofBits, Nat.mod_one]
  | succ w hi => rw [toBits, ofBits, length_toBits, hi, Nat.mod_pow_succ, Nat.toNat_testBit, Nat.add_comm]

theorem ofBits_lt : ofBits l < 2 ^ l.length := by
  induction l with
  | nil         => simp [ofBits]
  | cons b l hi =>
    rw [ofBits, List.length_cons, Nat.pow_succ]
    cases b <;> simp only [Bool.toNat_true, Bool.toNat_false] <;> omega

theorem toBits_congr (h : ∀ i < w, n.testBit i = m.testBit i) : toBits w n = toBits w m := by
  induction w with
  | zero      => rfl
  | succ w hi => rw [toBits, toBits, h w w.lt_succ_self, hi fun i hl => h i (hl.trans w.lt_succ_self)]

theorem toBits_append (h : m < 2 ^ k) : toBits w n ++ toBits k m = toBits (w + k) (2 ^ k * n + m) := by
  induction w with
  | zero      =>
    rw [Nat.zero_add]
    exact toBits_congr fun i hi => by rw [Nat.testBit_two_pow_mul_add n h, if_pos hi]
  | succ w hi =>
    have hb : (2 ^ k * n + m).testBit (w + k) = n.testBit w := by
      rw [Nat.testBit_two_pow_mul_add n h, if_neg (by omega), Nat.add_sub_cancel]
    rw [Nat.succ_add, toBits, toBits, List.cons_append, hi, hb]

theorem toBits_ofBits : toBits l.length (ofBits l) = l := by
  induction l with
  | nil         => rfl
  | cons b l hi =>
    have hl : ofBits l < 2 ^ l.length := ofBits_lt
    have hb : (ofBits (b :: l)).testBit l.length = b := by
      rw [ofBits, Nat.testBit_two_pow_mul_add _ hl, if_neg (by omega), Nat.sub_self]
      cases b <;> rfl
    have ht : toBits l.length (ofBits (b :: l)) = toBits l.length (ofBits l) :=
      toBits_congr fun i hi => by rw [ofBits, Nat.testBit_two_pow_mul_add _ hl, if_pos hi]
    rw [List.length_cons, toBits, hb, ht, hi]

theorem ofBits_inj (hl : l.length = l'.length) (h : ofBits l = ofBits l') : l = l' := by
  rw [← toBits_ofBits (l := l), ← toBits_ofBits (l := l'), hl, h]

theorem replicate_false : List.replicate k false = toBits k 0 := by
  induction k with
  | zero      => rfl
  | succ k hi => rw [List.replicate_succ, hi, toBits, Nat.zero_testBit]

end Bits

section Groups

variable {l l' : List Bool}

-- The numbers that the groups of six bits stand for.
def groups : List Bool → List Nat
  | a :: b :: c :: d :: e :: f :: l => ofBits [a, b, c, d, e, f] :: groups l
  | _                               => []

-- The first six bits of a number.
theorem groups_toBits : groups (toBits (w + 6) n) = n / 2 ^ w % 64 :: groups (toBits w n) := by
  have h : toBits 6 (n / 2 ^ w)
      = [n.testBit (w + 5), n.testBit (w + 4), n.testBit (w + 3), n.testBit (w + 2), n.testBit (w + 1), n.testBit w] := by
    simp only [toBits, Nat.testBit_div_two_pow, Nat.add_comm, Nat.add_zero]
  have := ofBits_toBits (w := 6) (n := n / 2 ^ w)
  rw [h] at this
  exact congrArg (· :: groups (toBits w n)) this

theorem exists_group (h : 6 ≤ l.length) : ∃ a b c d e f l', l = a :: b :: c :: d :: e :: f :: l' := by
  rcases l with _ | ⟨a, _ | ⟨b, _ | ⟨c, _ | ⟨d, _ | ⟨e, _ | ⟨f, l⟩⟩⟩⟩⟩⟩
  case cons.cons.cons.cons.cons.cons => exact ⟨a, b, c, d, e, f, l, rfl⟩
  all_goals
    simp only [List.length_cons, List.length_nil] at h
    omega

theorem length_groups : (groups l).length = l.length / 6 := by
  fun_induction groups l with
  | case1 a b c d e f l hi =>
    simp only [List.length_cons, hi]
    omega
  | case2 l hl =>
    have : ¬6 ≤ l.length := fun h =>
      have ⟨a, b, c, d, e, f, l', he⟩ := exists_group h
      hl a b c d e f l' he
    rw [List.length_nil]
    omega

theorem groups_append (h : 6 ∣ l.length) : groups (l ++ l') = groups l ++ groups l' := by
  fun_induction groups l with
  | case1 a b c d e f l hi => exact congrArg (_ :: ·) (hi ((Nat.dvd_add_left (Nat.dvd_refl 6)).mp h))
  | case2 l hl             =>
    by_cases hn : l = []
    case pos => rw [hn]; rfl
    case neg =>
      have ⟨a, b, c, d, e, f, l', he⟩ := exists_group (Nat.le_of_dvd (List.length_pos_iff.mpr hn) h)
      exact absurd he (hl a b c d e f l')

theorem groups_inj (hl : l.length = l'.length) (hd : 6 ∣ l.length) (h : groups l = groups l') : l = l' := by
  fun_induction groups l generalizing l' with
  | case1 a b c d e f l hi =>
    have ⟨a', b', c', d', e', f', l', he⟩ := exists_group (hl.symm ▸ Nat.le_add_left 6 l.length : 6 ≤ l'.length)
    subst he
    have ⟨h₁, h₂⟩ := List.cons.inj h
    have h₁ : [a, b, c, d, e, f] = [a', b', c', d', e', f'] := ofBits_inj rfl h₁
    have h₂ := hi (by simpa using hl) ((Nat.dvd_add_left (Nat.dvd_refl 6)).mp hd) h₂
    exact congrArg₂ (· ++ ·) h₁ h₂
  | case2 l hn =>
    by_cases he : l = []
    case pos =>
      subst he
      exact (List.length_eq_zero_iff.mp hl.symm).symm
    case neg =>
      have ⟨a, b, c, d, e, f, l', he⟩ := exists_group (Nat.le_of_dvd (List.length_pos_iff.mpr he) hd)
      exact absurd he (hn a b c d e f l')

theorem lt_of_mem_groups (h : n ∈ groups l) : n < 64 := by
  fun_induction groups l with
  | case1 a b c d e f l hi =>
    rcases List.mem_cons.mp h with rfl | h
    · exact ofBits_lt
    · exact hi h
  | case2 => contradiction

end Groups

section Encode

variable {α : Type} {l l' : List α} {s t : List UInt8}

-- The list is filled up to a multiple of some length.
def pad (k : Nat) (x : α) (l : List α) : List α :=
  l ++ List.replicate ((k - l.length % k) % k) x

theorem pad_append (h : k ∣ l.length) : pad k x (l ++ l') = l ++ pad k x l' := by
  have ⟨m, hm⟩ := h
  rw [pad, pad, List.append_assoc, List.length_append, hm, Nat.mul_add_mod]

theorem dvd_length_pad (hk : 0 < k) : k ∣ (pad k x l).length := by
  have hl := Nat.mod_lt l.length hk
  rw [pad, List.length_append, List.length_replicate]
  rcases Nat.eq_zero_or_pos (l.length % k) with h | h
  · simpa [h] using Nat.dvd_of_mod_eq_zero h
  · have := Nat.div_add_mod l.length k
    rw [Nat.mod_eq_of_lt (Nat.sub_lt hk h)]
    exact ⟨l.length / k + 1, by rw [Nat.mul_succ]; omega⟩

theorem pad_inj (hl : l.length = l'.length) (h : pad k x l = pad k x l') : l = l' :=
  (List.append_inj h hl).1

def alphabet : List UInt8 :=
  "ABCDEFGHIJKLMNOPQRSTUVWXYZabcdefghijklmnopqrstuvwxyz0123456789+/".toUTF8.toList

def digit (n : Nat) : UInt8 :=
  alphabet.getD n 0

def bits (s : List UInt8) : List Bool :=
  s.flatMap fun b => toBits 8 b.toNat

-- The bits are taken in groups of six, filled up with zeros, and the digits in groups of four.
def digits (s : List UInt8) : List UInt8 :=
  (groups (pad 6 false (bits s))).map digit

def encode (s : List UInt8) : List UInt8 :=
  pad 4 0x3D (digits s)

theorem idxOf_digit (h : n < 64) : alphabet.idxOf (digit n) = n := by
  have : ∀ n : Fin 64, alphabet.idxOf (digit n) = n := by decide +kernel
  exact this ⟨n, h⟩

theorem map_idxOf_digits : (digits s).map alphabet.idxOf = groups (pad 6 false (bits s)) := by
  rw [digits, List.map_map]
  exact (List.map_congr_left fun n hn => idxOf_digit (lt_of_mem_groups hn)).trans (List.map_id _)

theorem length_bits : (bits s).length = 8 * s.length := by
  simp [bits, List.length_flatMap, Nat.mul_comm]

theorem bits_inj (hl : s.length = t.length) (h : bits s = bits t) : s = t := by
  induction s generalizing t with
  | nil         => exact (List.length_eq_zero_iff.mp hl.symm).symm
  | cons b s hi =>
    cases t with
    | nil      => contradiction
    | cons c t =>
      have ⟨h₁, h₂⟩ := List.append_inj h (by simp)
      have hb := congrArg ofBits h₁
      rw [ofBits_toBits, ofBits_toBits, Nat.mod_eq_of_lt b.toNat_lt, Nat.mod_eq_of_lt c.toNat_lt] at hb
      rw [UInt8.toNat_inj.mp hb, hi (Nat.succ.inj hl) h₂]

theorem length_digits : (digits s).length = (pad 6 false (bits s)).length / 6 := by
  rw [digits, List.length_map, length_groups]

theorem digits_inj (hl : s.length = t.length) (h : digits s = digits t) : s = t := by
  have hp : (pad 6 false (bits s)).length = (pad 6 false (bits t)).length := by
    simp [pad, length_bits, hl]
  have hg : groups (pad 6 false (bits s)) = groups (pad 6 false (bits t)) := by
    rw [← map_idxOf_digits, ← map_idxOf_digits, h]
  exact bits_inj hl (pad_inj (by simp [length_bits, hl]) (groups_inj hp (dvd_length_pad (by decide)) hg))

theorem encode_inj (hl : s.length = t.length) (h : encode s = encode t) : s = t := by
  refine digits_inj hl (pad_inj ?_ h)
  simp [length_digits, pad, length_bits, hl]

-- The four digits of a number of 24 bits.
def quad (n : Nat) : List UInt8 :=
  [digit (n / 2 ^ 18 % 64), digit (n / 2 ^ 12 % 64), digit (n / 2 ^ 6 % 64), digit (n % 64)]

theorem groups_toBits_zero : groups (toBits 0 n) = [] :=
  rfl

theorem digits_triple : digits (a :: b :: c :: s)
    = quad (2 ^ 16 * a.toNat + 2 ^ 8 * b.toNat + c.toNat) ++ digits s := by
  have h : bits (a :: b :: c :: s) = toBits 24 (2 ^ 16 * a.toNat + 2 ^ 8 * b.toNat + c.toNat) ++ bits s := by
    have hb := toBits_append (w := 8) (n := a.toNat) b.toNat_lt
    have hc := toBits_append (w := 16) (n := 2 ^ 8 * a.toNat + b.toNat) c.toNat_lt
    simp only [bits, List.flatMap_cons, ← List.append_assoc, hb, hc]
    congr 3
    omega
  rw [digits, h, pad_append (by simp), groups_append (by simp), List.map_append]
  simp only [groups_toBits (w := 18), groups_toBits (w := 12), groups_toBits (w := 6), groups_toBits (w := 0),
    groups_toBits_zero, List.map_cons, List.map_nil, pow_zero, Nat.div_one]
  rfl

theorem digits_pair : digits [a, b] = (quad (2 ^ 16 * a.toNat + 2 ^ 8 * b.toNat)).take 3 := by
  have h : pad 6 false (bits [a, b]) = toBits 18 (2 ^ 10 * a.toNat + 2 ^ 2 * b.toNat) := by
    have hb := toBits_append (w := 8) (n := a.toNat) b.toNat_lt
    have hz := toBits_append (w := 16) (n := 2 ^ 8 * a.toNat + b.toNat) (k := 2) (m := 0) (by decide)
    simp only [bits, pad, List.flatMap_cons, List.flatMap_nil, List.append_nil, hb, length_toBits,
      replicate_false, hz]
    congr 1
    omega
  rw [digits, h]
  have h₁ : (2 ^ 10 * a.toNat + 2 ^ 2 * b.toNat) / 2 ^ 12 = (2 ^ 16 * a.toNat + 2 ^ 8 * b.toNat) / 2 ^ 18 := by omega
  have h₂ : (2 ^ 10 * a.toNat + 2 ^ 2 * b.toNat) / 2 ^ 6 = (2 ^ 16 * a.toNat + 2 ^ 8 * b.toNat) / 2 ^ 12 := by omega
  have h₃ : (2 ^ 10 * a.toNat + 2 ^ 2 * b.toNat) / 2 ^ 0 = (2 ^ 16 * a.toNat + 2 ^ 8 * b.toNat) / 2 ^ 6 := by omega
  simp only [groups_toBits (w := 12), groups_toBits (w := 6), groups_toBits (w := 0), groups_toBits_zero,
    List.map_cons, List.map_nil, quad, List.take_succ_cons, List.take_zero, h₁, h₂, h₃]

theorem digits_single : digits [a] = (quad (2 ^ 16 * a.toNat)).take 2 := by
  have h : pad 6 false (bits [a]) = toBits 12 (2 ^ 4 * a.toNat) := by
    have hz := toBits_append (w := 8) (n := a.toNat) (k := 4) (m := 0) (by decide)
    simp only [bits, pad, List.flatMap_cons, List.flatMap_nil, List.append_nil, length_toBits,
      replicate_false, hz]
    rfl
  rw [digits, h]
  have h₁ : 2 ^ 4 * a.toNat / 2 ^ 6 = 2 ^ 16 * a.toNat / 2 ^ 18 := by omega
  have h₂ : 2 ^ 4 * a.toNat / 2 ^ 0 = 2 ^ 16 * a.toNat / 2 ^ 12 := by omega
  simp only [groups_toBits (w := 6), groups_toBits (w := 0), groups_toBits_zero, List.map_cons, List.map_nil,
    quad, List.take_succ_cons, List.take_zero, h₁, h₂]

theorem encode_triple : encode (a :: b :: c :: s)
    = quad (2 ^ 16 * a.toNat + 2 ^ 8 * b.toNat + c.toNat) ++ encode s := by
  rw [encode, digits_triple, pad_append (Nat.dvd_refl 4), encode]

theorem encode_pair : encode [a, b] = (quad (2 ^ 16 * a.toNat + 2 ^ 8 * b.toNat)).take 3 ++ [0x3D] := by
  rw [encode, digits_pair]
  rfl

theorem encode_single : encode [a] = (quad (2 ^ 16 * a.toNat)).take 2 ++ [0x3D, 0x3D] := by
  rw [encode, digits_single]
  rfl

theorem digit_mem (h : n < 64) : digit n ∈ alphabet := by
  have hl : n < alphabet.length := h.trans_eq (by decide +kernel)
  rw [digit, List.getD_eq_getElem _ _ hl]
  exact List.getElem_mem hl

theorem mem_digits (h : b ∈ digits s) : b ∈ alphabet := by
  have ⟨n, hn, he⟩ := List.mem_map.mp h
  exact he ▸ digit_mem (lt_of_mem_groups hn)

theorem mem_encode (h : b ∈ encode s) : b ∈ alphabet ∨ b = 0x3D := by
  rcases List.mem_append.mp h with h | h
  · exact .inl (mem_digits h)
  · exact .inr (List.eq_of_mem_replicate h)

theorem length_pad : (pad k x l).length = l.length + (k - l.length % k) % k := by
  rw [pad, List.length_append, List.length_replicate]

theorem length_digits_eq : (digits s).length = (8 * s.length + (6 - 8 * s.length % 6) % 6) / 6 := by
  rw [length_digits, length_pad, length_bits]

theorem length_encode : (encode s).length = 4 * (s.length ⌈/⌉ 3) := by
  rw [encode, length_pad, length_digits_eq, Nat.ceilDiv_eq_add_pred_div]
  omega

theorem encode_eq : encode s = digits s ++ List.replicate ((3 - s.length % 3) % 3) 0x3D := by
  have h : (4 - (digits s).length % 4) % 4 = (3 - s.length % 3) % 3 := by
    rw [length_digits_eq]
    have : s.length % 3 = 0 ∨ s.length % 3 = 1 ∨ s.length % 3 = 2 := by omega
    rcases this with h | h | h <;> omega
  rw [encode, pad, h]

end Encode

section Decode

variable {s t : List UInt8}

def value (c : UInt8) : Option Nat :=
  if c ∈ alphabet then some (alphabet.idxOf c) else none

-- The bits that the last digit in front of the padding adds to whole bytes have to be zero.
def decodeSingle (a b : UInt8) : Option (List UInt8) := do
  let x ← value a
  let y ← value b
  if y % 16 = 0 then some [.ofNat (4 * x + y / 16)] else none

def decodePair (a b c : UInt8) : Option (List UInt8) := do
  let x ← value a
  let y ← value b
  let z ← value c
  if z % 4 = 0 then some [.ofNat (4 * x + y / 16), .ofNat (16 * (y % 16) + z / 4)] else none

def decodeTriple (a b c d : UInt8) : Option (List UInt8) := do
  let x ← value a
  let y ← value b
  let z ← value c
  let w ← value d
  some [.ofNat (4 * x + y / 16), .ofNat (16 * (y % 16) + z / 4), .ofNat (64 * (z % 4) + w)]

-- Padding is accepted in the last group only.
def decode : List UInt8 → Option (List UInt8)
  | []                  => some []
  | a :: b :: c :: d :: t =>
    if t = [] ∧ d = 0x3D then if c = 0x3D then decodeSingle a b else decodePair a b c
    else do return (← decodeTriple a b c d) ++ (← decode t)
  | _                   => none

theorem value_digit (h : n < 64) : value (digit n) = some n := by
  rw [value, if_pos (digit_mem h), idxOf_digit h]

theorem digit_ne_pad (h : n < 64) : digit n ≠ 0x3D := by
  have : (0x3D : UInt8) ∉ alphabet := by decide +kernel
  exact fun he => this (he ▸ digit_mem h)

theorem ofNat_eq {b : UInt8} (h : n = b.toNat) : UInt8.ofNat n = b := by
  rw [h, UInt8.ofNat_toNat]

theorem decode_quad : decode (quad (2 ^ 16 * a.toNat + 2 ^ 8 * b.toNat + c.toNat) ++ t)
    = (decode t).map ([a, b, c] ++ ·) := by
  have ha := a.toNat_lt
  have hb := b.toNat_lt
  have hc := c.toNat_lt
  have hlt (n : Nat) : n % 64 < 64 := Nat.mod_lt n (by decide)
  have h₁ := ofNat_eq (b := a) (n := 4 * ((2 ^ 16 * a.toNat + 2 ^ 8 * b.toNat + c.toNat) / 2 ^ 18 % 64)
    + (2 ^ 16 * a.toNat + 2 ^ 8 * b.toNat + c.toNat) / 2 ^ 12 % 64 / 16) (by omega)
  have h₂ := ofNat_eq (b := b) (n := 16 * ((2 ^ 16 * a.toNat + 2 ^ 8 * b.toNat + c.toNat) / 2 ^ 12 % 64 % 16)
    + (2 ^ 16 * a.toNat + 2 ^ 8 * b.toNat + c.toNat) / 2 ^ 6 % 64 / 4) (by omega)
  have h₃ := ofNat_eq (b := c) (n := 64 * ((2 ^ 16 * a.toNat + 2 ^ 8 * b.toNat + c.toNat) / 2 ^ 6 % 64 % 4)
    + (2 ^ 16 * a.toNat + 2 ^ 8 * b.toNat + c.toNat) % 64) (by omega)
  have ht : decodeTriple (digit ((2 ^ 16 * a.toNat + 2 ^ 8 * b.toNat + c.toNat) / 2 ^ 18 % 64))
      (digit ((2 ^ 16 * a.toNat + 2 ^ 8 * b.toNat + c.toNat) / 2 ^ 12 % 64))
      (digit ((2 ^ 16 * a.toNat + 2 ^ 8 * b.toNat + c.toNat) / 2 ^ 6 % 64))
      (digit ((2 ^ 16 * a.toNat + 2 ^ 8 * b.toNat + c.toNat) % 64)) = some [a, b, c] := by
    simp only [decodeTriple, value_digit (hlt _), Option.bind_eq_bind, Option.bind_some, h₁, h₂, h₃]
  rw [quad, List.cons_append, List.cons_append, List.cons_append, List.cons_append, List.nil_append, decode,
    if_neg fun h => digit_ne_pad (hlt _) h.2, ht]
  cases decode t <;> rfl

theorem decode_pair : decode ((quad (2 ^ 16 * a.toNat + 2 ^ 8 * b.toNat)).take 3 ++ [0x3D]) = some [a, b] := by
  have ha := a.toNat_lt
  have hb := b.toNat_lt
  have hlt (n : Nat) : n % 64 < 64 := Nat.mod_lt n (by decide)
  have h₁ := ofNat_eq (b := a) (n := 4 * ((2 ^ 16 * a.toNat + 2 ^ 8 * b.toNat) / 2 ^ 18 % 64)
    + (2 ^ 16 * a.toNat + 2 ^ 8 * b.toNat) / 2 ^ 12 % 64 / 16) (by omega)
  have h₂ := ofNat_eq (b := b) (n := 16 * ((2 ^ 16 * a.toNat + 2 ^ 8 * b.toNat) / 2 ^ 12 % 64 % 16)
    + (2 ^ 16 * a.toNat + 2 ^ 8 * b.toNat) / 2 ^ 6 % 64 / 4) (by omega)
  have hz : (2 ^ 16 * a.toNat + 2 ^ 8 * b.toNat) / 2 ^ 6 % 64 % 4 = 0 := by omega
  rw [quad, List.take_succ_cons, List.take_succ_cons, List.take_succ_cons, List.take_zero, List.cons_append,
    List.cons_append, List.cons_append, List.nil_append, decode, if_pos ⟨rfl, rfl⟩, if_neg (digit_ne_pad (hlt _)),
    decodePair]
  simp only [value_digit (hlt _), Option.bind_eq_bind, Option.bind_some, hz, if_true, h₁, h₂]

theorem decode_single : decode ((quad (2 ^ 16 * a.toNat)).take 2 ++ [0x3D, 0x3D]) = some [a] := by
  have ha := a.toNat_lt
  have hlt (n : Nat) : n % 64 < 64 := Nat.mod_lt n (by decide)
  have h₁ := ofNat_eq (b := a) (n := 4 * (2 ^ 16 * a.toNat / 2 ^ 18 % 64) + 2 ^ 16 * a.toNat / 2 ^ 12 % 64 / 16)
    (by omega)
  have hz : 2 ^ 16 * a.toNat / 2 ^ 12 % 64 % 16 = 0 := by omega
  rw [quad, List.take_succ_cons, List.take_succ_cons, List.take_zero, List.cons_append, List.cons_append,
    List.nil_append, decode, if_pos ⟨rfl, rfl⟩, if_pos rfl, decodeSingle]
  simp only [value_digit (hlt _), Option.bind_eq_bind, Option.bind_some, hz, if_true, h₁]

-- The bytes are encoded three at a time.
theorem decode_encode : (s : List UInt8) → decode (encode s) = some s
  | []               => rfl
  | [a]              => by rw [encode_single, decode_single]
  | [a, b]           => by rw [encode_pair, decode_pair]
  | a :: b :: c :: s => by rw [encode_triple, decode_quad, decode_encode s]; rfl

end Decode

end Base64
