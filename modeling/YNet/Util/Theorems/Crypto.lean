import YNet.Lib.Base64
import YNet.Util.Crypto

namespace YNet

theorem length_toHex : (toHex s).length = 2 * s.length := by
  simp [toHex, List.length_flatMap, Nat.mul_comm]

theorem lowerHexDigit_mem (h : d < 16) : Cpp.lowerHexDigit d ∈ ("0123456789abcdef" : Bytes) := by
  have : ∀ d : Fin 16, Cpp.lowerHexDigit d ∈ ("0123456789abcdef" : Bytes) := by decide +kernel
  exact this ⟨d, h⟩

theorem mem_toHex (h : b ∈ toHex s) : b ∈ ("0123456789abcdef" : Bytes) := by
  have ⟨c, _, hb⟩ := List.mem_flatMap.mp h
  have hc := c.toNat_lt
  rcases List.mem_cons.mp hb with rfl | hb
  · exact lowerHexDigit_mem (Nat.div_lt_of_lt_mul hc)
  · exact List.mem_singleton.mp hb ▸ lowerHexDigit_mem (Nat.mod_lt _ (by decide))

theorem table_eq : table = Base64.alphabet := by
  decide +kernel

theorem toNat_triple (b0 b1 b2 : UInt8) :
    (b0.toUInt32 <<< 16 ||| b1.toUInt32 <<< 8 ||| b2.toUInt32).toNat
      = 2 ^ 16 * b0.toNat + 2 ^ 8 * b1.toNat + b2.toNat := by
  have h0 := b0.toNat_lt
  have h1 := b1.toNat_lt
  have h2 := b2.toNat_lt
  have hs0 : (b0.toUInt32 <<< 16).toNat = b0.toNat <<< 16 := by
    simp [Nat.shiftLeft_eq]
    omega
  have hs1 : (b1.toUInt32 <<< 8).toNat = b1.toNat <<< 8 := by
    simp [Nat.shiftLeft_eq]
    omega
  have h₁ : b1.toNat <<< 8 ||| b2.toNat = b1.toNat <<< 8 + b2.toNat :=
    (Nat.shiftLeft_add_eq_or_of_lt h2 _).symm
  have hlt : b1.toNat <<< 8 + b2.toNat < 2 ^ 16 := by
    rw [Nat.shiftLeft_eq]
    omega
  rw [UInt32.toNat_or, UInt32.toNat_or, hs0, hs1, UInt8.toNat_toUInt32, Nat.or_assoc, h₁,
    ← Nat.shiftLeft_add_eq_or_of_lt hlt, Nat.shiftLeft_eq, Nat.shiftLeft_eq]
  omega

theorem base64Group_eq : base64Group b0 b1 b2
    = Base64.quad (2 ^ 16 * b0.toNat + 2 ^ 8 * b1.toNat + b2.toNat) := by
  have hm (n : Nat) : n &&& 63 = n % 64 := Nat.and_two_pow_sub_one_eq_mod n 6
  simp only [base64Group, Base64.quad, Base64.digit, table_eq, UInt32.toNat_and, UInt32.toNat_shiftRight,
    toNat_triple, UInt32.reduceToNat, Nat.reduceMod, Nat.shiftRight_eq_div_pow, hm]

theorem length_base64Group : (base64Group b0 b1 b2).length = 4 :=
  rfl

theorem two_le_length_base64Groups (h : s ≠ []) : 2 ≤ (base64Groups s).length := by
  fun_induction base64Groups s with
  | case1 => contradiction
  | case2 => simp [length_base64Group]
  | case3 => simp [length_base64Group]
  | case4 =>
    rw [List.length_append, length_base64Group]
    omega

theorem base64Encode_triple : base64Encode (b0 :: b1 :: b2 :: bs) = base64Group b0 b1 b2 ++ base64Encode bs := by
  have hmod : (b0 :: b1 :: b2 :: bs).length % 3 = bs.length % 3 := Nat.add_mod_right bs.length 3
  simp only [base64Encode, hmod, base64Groups]
  by_cases hb : bs = []
  case pos =>
    rw [hb]
    rfl
  case neg =>
    -- The digits that are replaced are those of the last group.
    have hl := two_le_length_base64Groups hb
    have h (i : Nat) (hi : i ≤ 2) : (base64Group b0 b1 b2 ++ base64Groups bs).length - i
        = (base64Group b0 b1 b2).length + ((base64Groups bs).length - i) := by
      rw [List.length_append]
      omega
    rw [h 2 (by decide), h 1 (by decide), List.set_append_right _ _ (Nat.le_add_right ..),
      List.set_append_right _ _ (Nat.le_add_right ..), List.set_append_right _ _ (Nat.le_add_right ..),
      Nat.add_sub_cancel_left, Nat.add_sub_cancel_left]
    split_ifs <;> rfl

-- What the loop appends, and then the replacement of the last digits.
theorem base64Encode_eq : base64Encode s = Base64.encode s := by
  fun_induction base64Groups s with
  | case1                => rfl
  | case2 b0             =>
    have h : base64Encode [b0] = (base64Group b0 0 0).take 2 ++ [Ascii.equals, Ascii.equals] := rfl
    rw [h, base64Group_eq, Base64.encode_single]
    rfl
  | case3 b0 b1          =>
    have h : base64Encode [b0, b1] = (base64Group b0 b1 0).take 3 ++ [Ascii.equals] := rfl
    rw [h, base64Group_eq, Base64.encode_pair]
    rfl
  | case4 b0 b1 b2 bs hi => rw [base64Encode_triple, Base64.encode_triple, base64Group_eq, hi]

-- The digits stand in front of the padding, and the input can be read off from them.
theorem base64Encode_standard (s : Bytes) :
    (base64Encode s).length = 4 * (s.length ⌈/⌉ 3) ∧
    (∃ t : Bytes, base64Encode s = t ++ List.replicate ((3 - s.length % 3) % 3) Ascii.equals ∧ ∀ b ∈ t, b ∈ Base64.alphabet) ∧
    Base64.decode (base64Encode s) = some s := by
  rw [base64Encode_eq]
  exact ⟨Base64.length_encode, ⟨_, Base64.encode_eq, fun _ => Base64.mem_digits⟩, Base64.decode_encode s⟩

end YNet
