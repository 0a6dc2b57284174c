import YNet.Lib.Unicode
import YNet.Util.Theorems.Json

open Cpp Unicode

namespace YNet.Json

-- A text that consists of \u escapes only, and the units that they stand for.
inductive Escaped : List Nat → Bytes → Prop
  | nil : Escaped [] []
  | cons : (∀ x ∈ [a, b, c, d], isxdigit x) → (Escaped us t) →
    Escaped (ofDigits 16 [a, b, c, d] :: us) (Ascii.backslash :: 'u'.toUInt8 :: a :: b :: c :: d :: t)

section Units

variable {cs : List Char}

theorem ofDigits_lt (h : ∀ x ∈ [a, b, c, d], isxdigit x) : ofDigits 16 [a, b, c, d] < 2 ^ 16 := by
  simp only [List.forall_mem_cons] at h
  have ⟨ha, hb, hc, hd, _⟩ := h
  have ha := digitValue_lt_of_isxdigit ha
  have hb := digitValue_lt_of_isxdigit hb
  have hc := digitValue_lt_of_isxdigit hc
  have hd := digitValue_lt_of_isxdigit hd
  simp only [ofDigits, List.foldl_cons, List.foldl_nil]
  omega

theorem stoul_digits (h : ∀ x ∈ [a, b, c, d], isxdigit x) :
    stoul [a, b, c, d] 16 = .ok (ofDigits 16 [a, b, c, d]) := by
  have hlt := ofDigits_lt h
  have hd : digitPrefix 16 [a, b, c, d] = [a, b, c, d] :=
    List.takeWhile_eq_self_iff.mpr fun x hx => by simpa using digitValue_lt_of_isxdigit (h x hx)
  have hx : ¬(b = 0x78 ∨ b = 0x58) := by
    have h := h b (by simp)
    rintro (rfl | rfl) <;> exact absurd h (by decide)
  have hs : skipHexPrefix [a, b, c, d] = [a, b, c, d] := by
    simp [skipHexPrefix, hx]
  have ha := h a (by simp)
  have : strto 16 [a, b, c, d] = some (false, ofDigits 16 [a, b, c, d]) := by
    simp [strto, isspace_of_isxdigit ha, sign_of_isxdigit ha, hs, hd]
  simp only [stoul, this]
  rw [if_pos (by omega)]
  rfl

theorem parseChars_unicode (h : ∀ x ∈ [a, b, c, d], isxdigit x) :
    parseChars (Ascii.backslash :: 'u'.toUInt8 :: a :: b :: c :: d :: s)
      = (parseChars s).map fun r => (encodeUnit (ofDigits 16 [a, b, c, d]) ++ r.1, r.2) := by
  rw [parseChars.eq_def]
  have hq : ¬Ascii.backslash = Ascii.quote := by decide
  simp only [if_neg hq, if_true, stoul_digits h, Except.mapError, bind, Except.bind, Nat.mod_eq_of_lt (ofDigits_lt h)]
  cases parseChars s <;> rfl

theorem parseChars_escapes (h : Escaped us t) :
    parseChars (t ++ Ascii.quote :: rest) = .ok (us.flatMap encodeUnit, some rest) := by
  induction h with
  | nil         => exact parseChars_quote
  | cons hd _ hi =>
    simp only [List.cons_append]
    rw [parseChars_unicode hd, hi]
    rfl

theorem parse_escapes (h : Escaped us t) :
    parse (Ascii.quote :: (t ++ [Ascii.quote])) = .ok (.string (us.flatMap encodeUnit)) := by
  have hs : skipWhitespace (Ascii.quote :: (t ++ [Ascii.quote])) = Ascii.quote :: (t ++ [Ascii.quote]) := rfl
  rw [parse, hs, parseValue, if_pos rfl, parseChars_escapes h]
  rfl

theorem or_eq_add (n : Nat) (h : m < 2 ^ k) : 2 ^ k * n ||| m = m + 2 ^ k * n := by
  rw [← Nat.two_pow_add_eq_or_of_lt h, Nat.add_comm]

theorem and_mask (n : Nat) : n &&& 0x3F = n % 64 :=
  Nat.and_two_pow_sub_one_eq_mod n 6

-- Below the surrogates pairs the code computes the bytes of UTF-8.
theorem encodeUnit_of_lt {c : Char} (h : c.toNat < 0x10000) : encodeUnit c.toNat = String.utf8EncodeChar c := by
  have hv : c.val.toNat = c.toNat := rfl
  have htail (m : Nat) : 0x80 ||| m % 64 = m % 64 + 0x80 :=
    or_eq_add (k := 6) 2 (Nat.mod_lt m (by decide))
  rw [String.utf8EncodeChar, encodeUnit, hv]
  generalize c.toNat = n at h ⊢
  simp only [Nat.shiftRight_eq_div_pow, and_mask, htail]
  rcases Nat.lt_or_ge n 0x80 with h₁ | h₁
  · rw [if_pos h₁, if_pos (by omega : n ≤ 0x7F)]
  · rw [if_neg (by omega : ¬n < 0x80), if_neg (by omega : ¬n ≤ 0x7F)]
    rcases Nat.lt_or_ge n 0x800 with h₂ | h₂
    · have hhead : 0xC0 ||| n / 2 ^ 6 = n / 64 % 0x20 + 0xC0 := by
        rw [Nat.mod_eq_of_lt (by omega)]
        exact or_eq_add (k := 6) 3 (by omega)
      rw [if_pos h₂, if_pos (by omega : n ≤ 0x7FF), hhead]
    · have hhead : 0xE0 ||| n / 2 ^ 12 = n / 4096 % 0x10 + 0xE0 := by
        rw [Nat.mod_eq_of_lt (by omega)]
        exact or_eq_add (k := 4) 14 (by omega)
      rw [if_neg (by omega : ¬n < 0x800), if_neg (by omega : ¬n ≤ 0x7FF), if_pos (by omega : n ≤ 0xFFFF), hhead]

theorem length_encodeUnit_of_le (h : 0x800 ≤ n) : (encodeUnit n).length = 3 := by
  rw [encodeUnit, if_neg (by omega), if_neg (by omega)]
  rfl

-- Each character above `0xFFFF` becomes two sequences of three bytes.
theorem length_units (cs : List Char) : ((utf16 cs).flatMap encodeUnit).length
    = (utf8 cs).length + 2 * cs.countP (fun c => 0x10000 ≤ c.toNat) := by
  induction cs with
  | nil          => rfl
  | cons c cs hi =>
    rw [utf16_cons, utf8_cons, List.flatMap_append, List.length_append, List.length_append, hi, List.countP_cons]
    by_cases h : c.toNat < 0x10000
    case pos =>
      rw [utf16Char_of_lt h, List.flatMap_singleton, encodeUnit_of_lt h, if_neg (by simpa using h)]
      omega
    case neg =>
      have hle := not_lt.mp h
      have hs : ((surrogates c.toNat).flatMap encodeUnit).length = 6 := by
        simp only [surrogates, List.flatMap_cons, List.flatMap_nil, List.append_nil, List.length_append]
        rw [length_encodeUnit_of_le (by omega), length_encodeUnit_of_le (by omega)]
      rw [utf16Char_of_le hle, hs, length_utf8_of_le hle, if_pos (by simpa using hle)]
      omega

theorem units_eq_iff : (utf16 cs).flatMap encodeUnit = utf8 cs ↔ ∀ c ∈ cs, c.toNat < 0x10000 := by
  constructor
  · intro h
    have hl := congrArg List.length h
    rw [length_units] at hl
    have hz : cs.countP (fun c => 0x10000 ≤ c.toNat) = 0 := by omega
    simpa using List.countP_eq_zero.mp hz
  · intro h
    induction cs with
    | nil          => rfl
    | cons c cs hi =>
      have ⟨hc, hs⟩ := List.forall_mem_cons.mp h
      rw [utf16_cons, utf8_cons, List.flatMap_append, utf16Char_of_lt hc, List.flatMap_singleton, encodeUnit_of_lt hc, hi hs]

end Units

-- The two halves of a surrogate pair are not put together.
theorem parse_escaped_iff (h : Escaped (utf16 cs) t) :
    parse (Ascii.quote :: (t ++ [Ascii.quote])) = .ok (.string (utf8 cs)) ↔ ∀ c ∈ cs, c.toNat < 0x10000 := by
  rw [parse_escapes h, Except.ok.injEq, JsonValue.string.injEq]
  exact units_eq_iff

-- U+1F600 as a pair of escapes.
def pairText : Bytes :=
  "\\ud83d\\ude00"

theorem pairText_escaped : Escaped (utf16 [Char.ofNat 0x1F600]) pairText := by
  have hu : utf16 [Char.ofNat 0x1F600] = [ofDigits 16 "d83d", ofDigits 16 "de00"] := by decide +kernel
  rw [hu]
  exact .cons (by decide +kernel) (.cons (by decide +kernel) .nil)

-- The letter U+00E9 and the sign U+20AC, with digits in both cases.
def plainText : Bytes :=
  "\\u00e9\\u20aC"

theorem plainText_escaped : Escaped (utf16 [Char.ofNat 0xE9, Char.ofNat 0x20AC]) plainText := by
  have hu : utf16 [Char.ofNat 0xE9, Char.ofNat 0x20AC] = [ofDigits 16 "00e9", ofDigits 16 "20aC"] := by decide +kernel
  rw [hu]
  exact .cons (by decide +kernel) (.cons (by decide +kernel) .nil)

theorem parse_escaped_iff_plain : parse (Ascii.quote :: (plainText ++ [Ascii.quote]))
    = .ok (.string (utf8 [Char.ofNat 0xE9, Char.ofNat 0x20AC])) :=
  (parse_escaped_iff plainText_escaped).mpr (by simp)

theorem not_parse_escaped : ¬∀ cs t, Escaped (utf16 cs) t →
    parse (Ascii.quote :: (t ++ [Ascii.quote])) = .ok (.string (utf8 cs)) := by
  intro h
  have he := h _ _ pairText_escaped
  rw [parse_escapes pairText_escaped] at he
  exact absurd (JsonValue.string.inj (Except.ok.inj he)) (by decide +kernel)

end YNet.Json
