import Mathlib

-- The encodings of a sequence of characters in units of 8 and of 16 bits.
namespace Unicode

variable {c c' : Char} {cs : List Char}

def utf8 (cs : List Char) : List UInt8 :=
  cs.flatMap String.utf8EncodeChar

def surrogates (n : Nat) : List Nat :=
  [0xD800 + (n - 0x10000) / 0x400, 0xDC00 + (n - 0x10000) % 0x400]

-- A character above `0xFFFF` is represented by two units.
def utf16Char (c : Char) : List Nat :=
  if c.toNat < 0x10000 then [c.toNat] else surrogates c.toNat

def utf16 (cs : List Char) : List Nat :=
  cs.flatMap utf16Char

@[simp]
theorem utf8_cons : utf8 (c :: cs) = String.utf8EncodeChar c ++ utf8 cs :=
  List.flatMap_cons

@[simp]
theorem utf16_cons : utf16 (c :: cs) = utf16Char c ++ utf16 cs :=
  List.flatMap_cons

theorem toNat_lt (c : Char) : c.toNat < 0x110000 := by
  rcases c.valid with h | h
  · exact h.trans (by decide)
  · exact h.2

theorem utf16Char_of_lt (h : c.toNat < 0x10000) : utf16Char c = [c.toNat] :=
  if_pos h

theorem utf16Char_of_le (h : 0x10000 ≤ c.toNat) : utf16Char c = surrogates c.toNat :=
  if_neg (by omega)

theorem length_utf8_of_le (h : 0x10000 ≤ c.toNat) : (String.utf8EncodeChar c).length = 4 := by
  rw [String.length_utf8EncodeChar, Char.utf8Size_eq_four_iff, UInt32.lt_iff_toNat_lt]
  exact h

theorem decode_append (c : Char) (s : List UInt8) :
    ByteArray.utf8DecodeChar? (String.utf8EncodeChar c ++ s).toByteArray 0 = some c := by
  rw [List.toByteArray_append]
  exact ByteArray.utf8DecodeChar?_utf8EncodeChar_append

-- No encoding of a character is the beginning of another one.
theorem encode_unique (h : String.utf8EncodeChar c ++ s = String.utf8EncodeChar c' ++ s') : c = c' ∧ s = s' := by
  have hc := decode_append c s
  rw [h, decode_append] at hc
  obtain rfl := Option.some.inj hc
  exact ⟨rfl, List.append_cancel_left h⟩

theorem encode_of_lt (h : c.toNat < 0x80) : String.utf8EncodeChar c = [UInt8.ofNat c.toNat] := by
  have hv : c.val.toNat = c.toNat := rfl
  rw [String.utf8EncodeChar, hv, if_pos (by omega : c.toNat ≤ 0x7F)]

theorem encode_of_le (h : 0x80 ≤ c.toNat) : ∀ b ∈ String.utf8EncodeChar c, 0x80 ≤ b := by
  have hv : c.val.toNat = c.toNat := rfl
  rw [String.utf8EncodeChar, hv]
  generalize c.toNat = n at h ⊢
  have hn : ¬n ≤ 0x7f := by omega
  simp only [if_neg hn]
  split_ifs
  all_goals
    simp only [List.forall_mem_cons, UInt8.le_iff_toNat_le, UInt8.toNat_ofNat']
    simp
    omega

theorem toNat_not_surrogate (c : Char) : c.toNat < 0xD800 ∨ 0xDFFF < c.toNat := by
  rcases c.valid with h | h
  · exact .inl h
  · exact .inr h.1

theorem utf16Char_unique (h : utf16Char c ++ s = utf16Char c' ++ s') : c = c' ∧ s = s' := by
  have hc := toNat_not_surrogate c
  have hc' := toNat_not_surrogate c'
  have hl := toNat_lt c
  have hl' := toNat_lt c'
  rcases Nat.lt_or_ge c.toNat 0x10000 with h₁ | h₁ <;> rcases Nat.lt_or_ge c'.toNat 0x10000 with h₂ | h₂
  · rw [utf16Char_of_lt h₁, utf16Char_of_lt h₂] at h
    have ⟨hn, hs⟩ := List.cons.inj h
    exact ⟨Char.toNat_inj.mp hn, hs⟩
  · rw [utf16Char_of_lt h₁, utf16Char_of_le h₂] at h
    have hn := (List.cons.inj h).1
    omega
  · rw [utf16Char_of_le h₁, utf16Char_of_lt h₂] at h
    have hn := (List.cons.inj h).1
    omega
  · rw [utf16Char_of_le h₁, utf16Char_of_le h₂] at h
    have ⟨hn, h⟩ := List.cons.inj h
    have ⟨hm, hs⟩ := List.cons.inj h
    exact ⟨Char.toNat_inj.mp (by omega), hs⟩

theorem utf16_injective : Function.Injective utf16 := by
  intro cs cs' h
  have hne (c : Char) (cs : List Char) : utf16 (c :: cs) ≠ [] := by
    rw [utf16_cons, utf16Char]
    split_ifs <;> simp [surrogates]
  induction cs generalizing cs' with
  | nil          =>
    cases cs' with
    | nil       => rfl
    | cons c cs => exact absurd h.symm (hne c cs)
  | cons c cs hi =>
    cases cs' with
    | nil         => exact absurd h (hne c cs)
    | cons c' cs' =>
      rw [utf16_cons, utf16_cons] at h
      have ⟨hc, hs⟩ := utf16Char_unique h
      rw [hc, hi hs]

end Unicode
