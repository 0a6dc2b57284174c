import YNet.Util.Theorems.Url

open Cpp

namespace YNet

-- The decoding of escapes with two hexadecimal digits and of plus signs. Everything else is copied.
def strictDecode : Bytes → Bytes
  | []     => []
  | c :: s =>
    if c = Ascii.percent then
      match s with
      | a :: b :: t =>
        if isxdigit a ∧ isxdigit b then UInt8.ofNat (digitValue a * 16 + digitValue b) :: strictDecode t
        else c :: strictDecode (a :: b :: t)
      | s => c :: strictDecode s
    else if c = Ascii.plus then Ascii.space :: strictDecode s
    else c :: strictDecode s

-- The pairs of bytes that `stoi` converts although they are not two hexadecimal digits.
def Loose (a b : UInt8) : Prop :=
  (isxdigit a ∧ ¬isxdigit b) ∨ ((isspace a ∨ a = Ascii.plus ∨ a = Ascii.minus) ∧ isxdigit b)

theorem isxdigit_not_space (h : isxdigit c) : ¬isspace c ∧ c ≠ Ascii.plus ∧ c ≠ Ascii.minus ∧ c ≠ Ascii.percent := by
  have : ∀ c, isxdigit c → ¬isspace c ∧ c ≠ Ascii.plus ∧ c ≠ Ascii.minus ∧ c ≠ Ascii.percent := by
    decide +kernel
  exact this c h

-- A single hexadecimal digit has a value that is not the one of a percent sign, with either sign.
theorem ofInt_signed_ne (neg : Bool) (h : n < 16) : UInt8.ofInt (signed neg n) ≠ Ascii.percent := by
  have : ∀ neg, ∀ n < 16, UInt8.ofInt (signed neg n) ≠ Ascii.percent := by decide +kernel
  exact this neg n h

theorem stoi_of_strto {s : Bytes} (h : strto 16 s = some (neg, n)) (hn : n < 16) :
    stoi s 16 = .ok (signed neg n) := by
  have hr : -2 ^ 31 ≤ signed neg n ∧ signed neg n < 2 ^ 31 := by
    cases neg <;> simp <;> omega
  simp only [stoi, h, if_pos hr]

section Strto

variable {a b : UInt8}

theorem strto_single (hb : isxdigit b) : strto 16 [b] = some (false, digitValue b) := by
  have hd := digitValue_lt_of_isxdigit hb
  simp [strto, isspace_of_isxdigit hb, sign_of_isxdigit hb, skipHexPrefix, digitPrefix, hd, ofDigits]

theorem strto_single_none (hb : ¬isxdigit b) : strto 16 [b] = none := by
  have hd : ¬digitValue b < 16 := by simpa [isxdigit] using hb
  by_cases hs : isspace b
  case pos => simp [strto, hs, sign, skipHexPrefix, digitPrefix]
  case neg =>
    by_cases hg : b = Ascii.plus ∨ b = Ascii.minus
    case pos =>
      cases hg
      case inl h => subst h; decide
      case inr h => subst h; decide
    case neg =>
      rw [not_or] at hg
      simp [strto, hs, sign, hg.1, hg.2, skipHexPrefix, digitPrefix, hd]

theorem strto_space (ha : isspace a) : strto 16 [a, b] = strto 16 [b] := by
  simp [strto, ha]

theorem strto_sign (ha : a = Ascii.plus ∨ a = Ascii.minus) :
    strto 16 [a, b] = if isxdigit b then some (decide (a = Ascii.minus), digitValue b) else none := by
  have hd : digitValue b < 16 ↔ isxdigit b := by simp [isxdigit]
  have hs : ¬isspace a ∧ sign [a, b] = (decide (a = Ascii.minus), [b]) := by
    cases ha
    case inl h => subst h; exact ⟨by decide, rfl⟩
    case inr h => subst h; exact ⟨by decide, rfl⟩
  split
  case isTrue hb  => simp [strto, hs.1, hs.2, skipHexPrefix, digitPrefix, hd, hb, ofDigits]
  case isFalse hb => simp [strto, hs.1, hs.2, skipHexPrefix, digitPrefix, hd, hb]

theorem strto_digit (ha : isxdigit a) (hb : ¬isxdigit b) : strto 16 [a, b] = some (false, digitValue a) := by
  have hd := digitValue_lt_of_isxdigit ha
  have hd' : ¬digitValue b < 16 := by simpa [isxdigit] using hb
  simp [strto, isspace_of_isxdigit ha, sign_of_isxdigit ha, skipHexPrefix, digitPrefix, hd, hd', ofDigits]

theorem strto_other (ha : ¬isxdigit a) (hs : ¬(isspace a ∨ a = Ascii.plus ∨ a = Ascii.minus)) :
    strto 16 [a, b] = none := by
  have hd : ¬digitValue a < 16 := by simpa [isxdigit] using ha
  simp only [not_or] at hs
  simp [strto, hs.1, sign, hs.2.1, hs.2.2, skipHexPrefix, digitPrefix, hd]

theorem stoi_loose (h : Loose a b) : ∃ v, stoi [a, b] 16 = .ok v ∧ UInt8.ofInt v ≠ Ascii.percent := by
  have ⟨neg, n, hn, hs⟩ : ∃ neg n, n < 16 ∧ strto 16 [a, b] = some (neg, n) := by
    cases h
    case inl h => exact ⟨_, _, digitValue_lt_of_isxdigit h.1, strto_digit h.1 h.2⟩
    case inr h =>
      have hb := digitValue_lt_of_isxdigit h.2
      cases h.1
      case inl ha => exact ⟨_, _, hb, (strto_space ha).trans (strto_single h.2)⟩
      case inr ha => exact ⟨_, _, hb, (strto_sign ha).trans (if_pos h.2)⟩
  exact ⟨_, stoi_of_strto hs hn, ofInt_signed_ne neg hn⟩

theorem stoi_error (h₁ : ¬(isxdigit a ∧ isxdigit b)) (h₂ : ¬Loose a b) :
    stoi [a, b] 16 = .error .invalidArgument := by
  have hs : strto 16 [a, b] = none := by
    have ha : ¬isxdigit a := fun ha => by
      by_cases hb : isxdigit b
      case pos => exact h₁ ⟨ha, hb⟩
      case neg => exact h₂ (.inl ⟨ha, hb⟩)
    by_cases hb : isxdigit b
    case pos => exact strto_other ha fun h => h₂ (.inr ⟨h, hb⟩)
    case neg =>
      by_cases hp : isspace a
      case pos => exact (strto_space hp).trans (strto_single_none hb)
      case neg =>
        by_cases hg : a = Ascii.plus ∨ a = Ascii.minus
        case pos => exact (strto_sign hg).trans (if_neg hb)
        case neg => exact strto_other ha fun h => h.elim hp hg
  simp only [stoi, hs]

end Strto

-- A text in which no percent sign is followed by such a pair.
def HasNoLoose (s : Bytes) : Prop :=
  ∀ a b, [Ascii.percent, a, b] <:+: s → ¬Loose a b

theorem hasNoLoose_of_short {s : Bytes} (h : s.length < 3) : HasNoLoose s :=
  fun _ _ hi => absurd hi.length_le (by simpa using h)

theorem hasNoLoose_cons_of_ne {s : Bytes} (hc : c ≠ Ascii.percent) : HasNoLoose (c :: s) ↔ HasNoLoose s := by
  have hp (a b : UInt8) : ¬[Ascii.percent, a, b] <+: c :: s :=
    fun h => hc (List.cons_prefix_cons.mp h).1.symm
  simp only [HasNoLoose, List.infix_cons_iff, hp, false_or]

theorem hasNoLoose_percent {s : Bytes} (hl : ¬Loose a b) :
    HasNoLoose (Ascii.percent :: a :: b :: s) ↔ HasNoLoose (a :: b :: s) := by
  refine ⟨fun h a b hi => h a b (List.infix_cons hi), fun h a' b' hi => ?_⟩
  cases List.infix_cons_iff.mp hi
  case inr hi => exact h a' b' hi
  case inl hi =>
    have he := (List.cons_prefix_cons.mp hi).2
    have ⟨ha, he⟩ := List.cons_prefix_cons.mp he
    exact ha ▸ (List.cons_prefix_cons.mp he).1 ▸ hl

theorem hasNoLoose_percent_short {s : Bytes} (hs : ∀ a b t, s ≠ a :: b :: t) :
    HasNoLoose (Ascii.percent :: s) ∧ HasNoLoose s := by
  have hl : s.length < 2 := by
    cases s with
    | nil      => simp
    | cons a t =>
      cases t with
      | nil      => simp
      | cons b t => exact absurd rfl (hs a b t)
  exact ⟨hasNoLoose_of_short (by rw [List.length_cons]; omega), hasNoLoose_of_short (by omega)⟩

theorem ofInt_natCast (n : Nat) : UInt8.ofInt (n : Int) = UInt8.ofNat n := by
  rw [← UInt8.toNat_inj, UInt8.ofInt, UInt8.toNat_ofNat', UInt8.toNat_ofNat']
  omega

theorem urlDecode_of_ok (h : stoi [a, b] 16 = .ok v) :
    urlDecode (Ascii.percent :: a :: b :: t) = UInt8.ofInt v :: urlDecode t := by
  rw [urlDecode.eq_def]
  simp only [if_true, h]

theorem urlDecode_of_error (h : stoi [a, b] 16 = .error e) :
    urlDecode (Ascii.percent :: a :: b :: t) = Ascii.percent :: urlDecode (a :: b :: t) := by
  rw [urlDecode.eq_def]
  simp only [if_true, h]

theorem urlDecode_of_short {s : Bytes} (h : ∀ a b t, s = a :: b :: t → False) :
    urlDecode (Ascii.percent :: s) = Ascii.percent :: urlDecode s := by
  rw [urlDecode.eq_def]
  simp only [if_true]

-- The texts on which both decodings agree.
theorem urlDecode_eq_strictDecode_iff : urlDecode s = strictDecode s ↔ HasNoLoose s := by
  fun_induction strictDecode s with
  | case1 => simp [urlDecode, hasNoLoose_of_short]
  | case2 a b t h hi =>
    have ha := isxdigit_not_space h.1
    have hb := isxdigit_not_space h.2
    have hl : ¬Loose a b := by
      rintro (hl | hl)
      · exact hl.2 h.2
      · rcases hl.1 with hs | hs | hs
        · exact ha.1 hs
        · exact ha.2.1 hs
        · exact ha.2.2.1 hs
    rw [urlDecode_escape h.1 h.2, ofInt_natCast, hasNoLoose_percent hl,
      hasNoLoose_cons_of_ne ha.2.2.2, hasNoLoose_cons_of_ne hb.2.2.2, ← hi, List.cons_inj_right]
  | case3 a b t h hi =>
    by_cases hl : Loose a b
    case pos =>
      obtain ⟨v, hv, hne⟩ := stoi_loose hl
      rw [urlDecode_of_ok hv]
      refine iff_of_false (fun he => hne (List.cons.inj he).1) fun hn => ?_
      exact hn a b (List.prefix_append [Ascii.percent, a, b] t).isInfix hl
    case neg =>
      rw [urlDecode_of_error (stoi_error h hl), List.cons_inj_right, hi, hasNoLoose_percent hl]
  | case4 s h hi =>
    have hs := hasNoLoose_percent_short h
    rw [urlDecode_of_short h, List.cons_inj_right, hi]
    exact iff_of_true hs.2 hs.1
  | case5 s h hi =>
    have hp : urlDecode (Ascii.plus :: s) = Ascii.space :: urlDecode s := by
      rw [urlDecode.eq_def]
      simp only [if_neg h, if_true]
    rw [hp, List.cons_inj_right, hi, hasNoLoose_cons_of_ne h]
  | case6 c s h₁ h₂ hi => rw [urlDecode_literal h₁ h₂, List.cons_inj_right, hi, hasNoLoose_cons_of_ne h₁]

theorem urlDecode_ne_strictDecode : urlDecode "%4g" ≠ strictDecode "%4g" := by
  decide +kernel

end YNet
