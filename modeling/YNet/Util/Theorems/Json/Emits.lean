import YNet.Lib.JsonGrammar
import YNet.Util.Theorems.Json

open Cpp Unicode

namespace YNet

-- All strings and all keys of a value have a property.
inductive JsonValue.Strings (p : Bytes → Prop) : JsonValue → Prop
  | null   : Strings p null
  | bool   : Strings p (bool b)
  | int    : Strings p (int n)
  | double : Strings p (double x)
  | string : p s → Strings p (string s)
  | array  : (∀ v ∈ vs, Strings p v) → Strings p (array vs)
  | object : (∀ m ∈ ms, p m.1) → (∀ m ∈ ms, Strings p m.2) → Strings p (object ms)

namespace Json

def ValidUtf8 (s : Bytes) : Prop :=
  ∃ cs, utf8 cs = s

-- The control characters that are written as escapes.
def shortEscapes : Bytes :=
  [0x08, 0x09, 0x0A, 0x0C, 0x0D]

-- Each control character in a string has an escape of its own.
def Escapable (s : Bytes) : Prop :=
  ∀ b ∈ s, b < 0x20 → b ∈ shortEscapes

inductive MemberMeans (means : JsonGrammar.Datum → JsonValue → Prop) : List Nat × JsonGrammar.Datum → Bytes × JsonValue → Prop
  | mk : means t v → MemberMeans means (utf16 cs, t) (utf8 cs, v)

-- The values of the program that the data of a text stand for.
inductive Means : JsonGrammar.Datum → JsonValue → Prop
  | null   : Means .null .null
  | bool   : Means (.bool b) (.bool b)
  | int    : JsonGrammar.integer l = some n.toInt → Means (.number l) (.int n)
  | string : Means (.string (utf16 cs)) (.string (utf8 cs))
  | array  : List.Forall₂ Means ts vs → Means (.array ts) (.array vs)
  | object : List.Forall₂ (MemberMeans Means) ms ms' → Means (.object ms) (.object ms')

abbrev IsText := JsonGrammar.Text fun _ => True

-- A text of the grammar that stands for a value, and for no other value in any reading of the text.
def Denotes (s : Bytes) (v : JsonValue) : Prop :=
  (∃ n t, IsText n t s) ∧ ∀ n t, IsText n t s → ∀ w, Means t w ↔ w = v

section Strings

theorem escapeChar_of_printable (h : 0x20 ≤ b) (hq : b ≠ Ascii.quote) (hb : b ≠ Ascii.backslash) : escapeChar b = [b] := by
  have hne (c : UInt8) (hc : ¬0x20 ≤ c) : b ≠ c := fun he => hc (he ▸ h)
  simp only [escapeChar, if_neg hq, if_neg hb, if_neg (hne 0x0A (by decide)), if_neg (hne 0x0D (by decide)),
    if_neg (hne 0x09 (by decide)), if_neg (hne 0x08 (by decide)), if_neg (hne 0x0C (by decide))]

theorem flatMap_escapeChar {s : Bytes} (h : ∀ b ∈ s, escapeChar b = [b]) : s.flatMap escapeChar = s := by
  induction s with
  | nil       => rfl
  | cons b s hi =>
    have ⟨hb, hs⟩ := List.forall_mem_cons.mp h
    rw [List.flatMap_cons, hb, hi hs, List.singleton_append]

theorem escapeChar_special : ∀ b ∈ Ascii.quote :: Ascii.backslash :: shortEscapes, ∃ p ∈ JsonGrammar.escapes,
    escapeChar b = [Ascii.backslash, p.1] ∧ p.2 = b.toNat := by
  decide +kernel

-- A character with an escape of its own is a single byte.
theorem chars_special (hc : c.toNat < 0x80) (h : UInt8.ofNat c.toNat ∈ Ascii.quote :: Ascii.backslash :: shortEscapes)
    (hs : JsonGrammar.Chars us s r) :
    JsonGrammar.Chars (utf16Char c ++ us) ((String.utf8EncodeChar c).flatMap escapeChar ++ s) r := by
  have ⟨p, hp, he, hn⟩ := escapeChar_special _ h
  have hu : utf16Char c = [p.2] := by
    rw [utf16Char_of_lt (by omega), hn, UInt8.toNat_ofNat', Nat.mod_eq_of_lt (by omega)]
  rw [encode_of_lt hc, List.flatMap_singleton, he, hu]
  exact .escape hp hs

-- A character as `escapeString` writes it is read by the grammar.
theorem chars_encode (h : Escapable (String.utf8EncodeChar c)) (hs : JsonGrammar.Chars us s r) :
    JsonGrammar.Chars (utf16Char c ++ us) ((String.utf8EncodeChar c).flatMap escapeChar ++ s) r := by
  rcases Nat.lt_or_ge c.toNat 0x80 with hc | hc
  case inr =>
    have hb : ∀ b ∈ String.utf8EncodeChar c, escapeChar b = [b] := by
      intro b hb
      have hle := encode_of_le hc b hb
      have hne (d : UInt8) (hd : ¬0x80 ≤ d) : b ≠ d := fun he => hd (he ▸ hle)
      exact escapeChar_of_printable (UInt8.le_trans (by decide) hle) (hne _ (by decide)) (hne _ (by decide))
    rw [flatMap_escapeChar hb]
    refine .plain (by omega) ?_ ?_ hs <;> (rintro rfl; exact absurd hc (by decide))
  case inl =>
    by_cases hsp : UInt8.ofNat c.toNat ∈ Ascii.quote :: Ascii.backslash :: shortEscapes
    case pos => exact chars_special hc hsp hs
    case neg =>
      rw [List.mem_cons, List.mem_cons, not_or, not_or] at hsp
      have ⟨hq, hb, hn⟩ := hsp
      have hp : 0x20 ≤ UInt8.ofNat c.toNat := by
        rw [encode_of_lt hc] at h
        exact UInt8.not_lt.mp fun hlt => hn (h _ List.mem_cons_self hlt)
      have hle : 0x20 ≤ c.toNat := by
        rw [UInt8.le_iff_toNat_le, UInt8.toNat_ofNat', Nat.mod_eq_of_lt (by omega)] at hp
        exact hp
      have he : (String.utf8EncodeChar c).flatMap escapeChar = String.utf8EncodeChar c := by
        rw [encode_of_lt hc, List.flatMap_singleton, escapeChar_of_printable hp hq hb]
      rw [he]
      refine .plain hle ?_ ?_ hs
      · rintro rfl
        exact hq (by decide)
      · rintro rfl
        exact hb (by decide)

theorem chars_escapeString (h : Escapable (utf8 cs)) :
    JsonGrammar.Chars (utf16 cs) ((utf8 cs).flatMap escapeChar ++ Ascii.quote :: r) r := by
  induction cs with
  | nil          => exact .quote
  | cons c cs hi =>
    rw [utf8_cons] at h ⊢
    have ⟨hc, hs⟩ := List.forall_mem_append.mp h
    rw [utf16_cons, List.flatMap_append, List.append_assoc]
    exact chars_encode hc (hi hs)

end Strings

section Numbers

theorem isDigit_of_isdigit (h : isdigit b) : JsonGrammar.IsDigit b := by
  simpa [isdigit, JsonGrammar.IsDigit] using h

theorem natToString_isDigit : ∀ b ∈ natToString n, JsonGrammar.IsDigit b :=
  fun b hb => isDigit_of_isdigit (natToString_digits b hb)

theorem natToString_of_ne (h : n ≠ 0) :
    natToString n = ((Nat.digits 10 n).map fun d => UInt8.ofNat (0x30 + d)).reverse :=
  if_neg h

-- Only zero begins with a zero.
theorem natToString_head (h : (natToString n).head? = some 0x30) : natToString n = [0x30] := by
  by_cases hn : n = 0
  case pos => rw [hn]; rfl
  case neg =>
    have hne : Nat.digits 10 n ≠ [] := Nat.digits_ne_nil_iff_ne_zero.mpr hn
    have hlast := Nat.getLast_digit_ne_zero 10 hn
    have hlt := Nat.digits_lt_base (by decide) (List.getLast_mem hne)
    rw [natToString_of_ne hn, List.head?_reverse, List.getLast?_map, List.getLast?_eq_some_getLast hne, Option.map_some,
      Option.some.injEq] at h
    have h := congrArg UInt8.toNat h
    rw [toNat_ofNat_digit hlt] at h
    exact absurd h (by simp; omega)

theorem decimal_natToString : JsonGrammar.decimal (natToString n) = n := by
  by_cases hn : n = 0
  case pos => rw [hn]; rfl
  case neg =>
    have hd : (Nat.digits 10 n).map (fun d => (UInt8.ofNat (0x30 + d)).toNat - 0x30) = Nat.digits 10 n := by
      refine (List.map_congr_left fun d hd => ?_).trans (List.map_id _)
      rw [toNat_ofNat_digit (Nat.digits_lt_base (by decide) hd), Nat.add_sub_cancel_left, id]
    rw [JsonGrammar.decimal, natToString_of_ne hn, List.map_reverse, List.reverse_reverse, List.map_map]
    exact (congrArg _ hd).trans (Nat.ofDigits_digits 10 n)

theorem number_toString (n : Int) : JsonGrammar.Number (Cpp.toString n) := by
  have ⟨neg, m, _, he⟩ := toString_digits n
  have hd : JsonGrammar.Digits (natToString m) := ⟨natToString_ne_nil, natToString_isDigit⟩
  have hsg : (if neg then [Ascii.minus] else []) ∈ [[], [Ascii.minus]] := by
    cases neg <;> simp
  have h := JsonGrammar.Number.mk hsg hd natToString_head .none .none
  rwa [List.append_nil, List.append_nil, ← he] at h

theorem integer_toString (n : Int) : JsonGrammar.integer (Cpp.toString n) = some n := by
  have hd (m : Nat) : ∀ b ∈ natToString m, JsonGrammar.IsDigit b := natToString_isDigit
  unfold Cpp.toString
  split
  case isTrue hn  =>
    rw [JsonGrammar.integer, if_pos rfl, if_pos (hd _), decimal_natToString]
    exact congrArg some (by omega)
  case isFalse hn =>
    have hd := hd n.natAbs
    have hv := decimal_natToString (n := n.natAbs)
    cases hs : natToString n.natAbs with
    | nil      => exact absurd hs natToString_ne_nil
    | cons b s =>
      rw [hs] at hd hv
      have hb : b ≠ Ascii.minus := JsonGrammar.isDigit_ne (hd b List.mem_cons_self) (by decide)
      rw [JsonGrammar.integer, if_neg hb, if_pos hd, hv]
      exact congrArg some (by omega)

end Numbers

section Lists

variable {item : α → Bytes → Bytes → Prop} {text : β → Bytes} {means : α → β → Prop} {close : UInt8}

-- What can stand behind an item.
def Ends (close : UInt8) (r : Bytes) : Prop :=
  ∃ b t, r = b :: t ∧ (b = Ascii.comma ∨ b = close)

theorem items_itemsText (h : ∀ v ∈ v₀ :: vs, ∀ r, Ends close r → ∃ t, means t v ∧ item t (text v ++ r) r) :
    ∃ ts, List.Forall₂ means ts (v₀ :: vs) ∧
      JsonGrammar.Items close item ts (itemsText text (v₀ :: vs) ++ close :: r) r := by
  induction vs generalizing v₀ with
  | nil          =>
    have ⟨t, hm, ht⟩ := h v₀ (by simp) (close :: r) ⟨close, r, rfl, .inr rfl⟩
    refine ⟨[t], .cons hm .nil, ?_⟩
    rw [itemsText_cons]
    exact .last (.refl _) ht (.refl _)
  | cons v₁ vs hi =>
    have ⟨ts, hms, hts⟩ := hi fun v hv => h v (List.mem_cons_of_mem _ hv)
    have ⟨t, hm, ht⟩ := h v₀ (by simp) (following close text (v₁ :: vs) r) ⟨_, _, rfl, .inl rfl⟩
    refine ⟨t :: ts, .cons hm hms, ?_⟩
    rw [itemsText_cons]
    exact .more (.refl _) ht (.refl _) hts

theorem enclosed_itemsText (h : ∀ v ∈ vs, ∀ r, Ends close r → ∃ t, means t v ∧ item t (text v ++ r) r) :
    ∃ ts, List.Forall₂ means ts vs ∧
      JsonGrammar.Enclosed close item ts (itemsText text vs ++ close :: r) r := by
  cases vs with
  | nil       => exact ⟨[], .nil, .empty (.refl _)⟩
  | cons v vs =>
    have ⟨ts, hm, ht⟩ := items_itemsText (r := r) h
    exact ⟨ts, hm, .items ht⟩

end Lists

section Values

theorem ends_head (h : Ends close r) (hc : ¬JsonGrammar.InNumber close) : ∀ b ∈ r.head?, ¬JsonGrammar.InNumber b := by
  have ⟨b, t, he, hb⟩ := h
  subst he
  intro c hc'
  obtain rfl := Option.some.inj hc'
  rcases hb with rfl | rfl
  · decide
  · exact hc

theorem member_memberText {value : JsonGrammar.Datum → Bytes → Bytes → Prop} (hk : Escapable (utf8 cs))
    (h : value t (stringify v ++ r) r) : JsonGrammar.Member value (utf16 cs, t) (memberText (utf8 cs, v) ++ r) r := by
  have he : memberText (utf8 cs, v) ++ r = Ascii.quote ::
      ((utf8 cs).flatMap escapeChar ++ Ascii.quote :: (Ascii.colon :: (stringify v ++ r))) := by
    simp [memberText, escapeString]
  rw [he]
  exact .mk (chars_escapeString hk) (.refl _) (.refl _) h

-- The text of a value is in the grammar if its strings are.
theorem value_stringify (h : v.Exact) (hu : v.Strings ValidUtf8) (he : v.Strings Escapable) (hn : v.height < n)
    (hr : ∀ b ∈ r.head?, ¬JsonGrammar.InNumber b) :
    ∃ t, Means t v ∧ JsonGrammar.Value (fun _ => True) n t (stringify v ++ r) r := by
  induction n generalizing v r with
  | zero      => exact absurd hn (Nat.not_lt_zero _)
  | succ n hi =>
    cases h with
    | null  => exact ⟨.null, .null, .null⟩
    | @bool b =>
      cases b with
      | false => exact ⟨.bool false, .bool, .false⟩
      | true  => exact ⟨.bool true, .bool, .true⟩
    | int   => exact ⟨_, .int (integer_toString _), .number (number_toString _) trivial hr⟩
    | string =>
      cases hu with | string hu =>
      cases he with | string he =>
      obtain ⟨cs, rfl⟩ := hu
      have ht : stringify (.string (utf8 cs)) ++ r = Ascii.quote :: ((utf8 cs).flatMap escapeChar ++ Ascii.quote :: r) := by
        simp [stringify, escapeString]
      exact ⟨_, .string, ht ▸ .string (chars_escapeString he)⟩
    | @array vs h =>
      cases hu with | array hu =>
      cases he with | array he =>
      have hv : ∀ v ∈ vs, ∀ r, Ends Ascii.closeBracket r →
          ∃ t, Means t v ∧ JsonGrammar.Value (fun _ => True) n t (stringify v ++ r) r := by
        intro v hv r hr
        have hlt := JsonValue.heightItems_lt_iff.mp hn v hv
        exact hi (h v hv) (hu v hv) (he v hv) hlt (ends_head hr (by decide))
      obtain ⟨ts, hm, ht⟩ := enclosed_itemsText (r := r) hv
      exact ⟨.array ts, .array hm, stringify_array vs r ▸ .array ht⟩
    | @object ms hk h =>
      cases hu with | object huk hu =>
      cases he with | object hek he =>
      have hv : ∀ m ∈ ms, ∀ r, Ends Ascii.closeBrace r →
          ∃ t, MemberMeans Means t m ∧ JsonGrammar.Member (JsonGrammar.Value (fun _ => True) n) t (memberText m ++ r) r := by
        intro m hm r hr
        have hlt := JsonValue.heightMembers_lt_iff.mp hn m hm
        obtain ⟨t, ht, hs⟩ := hi (h m hm) (hu m hm) (he m hm) hlt (ends_head hr (by decide))
        obtain ⟨key, v⟩ := m
        obtain ⟨cs, rfl⟩ := huk _ hm
        exact ⟨_, .mk ht, member_memberText (hek _ hm) hs⟩
      obtain ⟨ts, hm, ht⟩ := enclosed_itemsText (r := r) hv
      exact ⟨.object ts, .object hm, stringify_object ms r ▸ .object ht⟩

theorem text_stringify (h : v.Exact) (hu : v.Strings ValidUtf8) (he : v.Strings Escapable) :
    ∃ n t, IsText n t (stringify v) ∧ Means t v := by
  have ⟨t, hm, ht⟩ := value_stringify (r := []) h hu he (Nat.lt_succ_self v.height) (by simp)
  rw [List.append_nil] at ht
  exact ⟨_, t, ⟨_, _, .refl _, ht, .refl _⟩, hm⟩

end Values

section Meaning

theorem forall₂_unique {R : α → β → Prop} (h : ∀ v ∈ vs, ∀ t w, R t v → R t w → w = v) (hv : List.Forall₂ R ts vs)
    (hw : List.Forall₂ R ts ws) : ws = vs := by
  induction hv generalizing ws with
  | nil          => cases hw; rfl
  | cons hv _ hi =>
    cases hw with | cons hw hws =>
    have ⟨hh, ht⟩ := List.forall_mem_cons.mp h
    rw [hh _ _ hv hw, hi ht hws]

theorem means_unique (hn : v.height < n) (hv : Means t v) (hw : Means t w) : w = v := by
  induction n generalizing v t w with
  | zero      => exact absurd hn (Nat.not_lt_zero _)
  | succ n hi =>
    cases hv with
    | null    => cases hw; rfl
    | bool    => cases hw; rfl
    | int h   =>
      cases hw with | int h' =>
      rw [h, Option.some.injEq, Int64.toInt_inj] at h'
      rw [h']
    | string  =>
      generalize hu : utf16 _ = us at hw
      cases hw
      rw [utf16_injective hu]
    | @array ts vs h =>
      cases hw with | array h' =>
      have hlt := JsonValue.heightItems_lt_iff.mp hn
      have hm : ∀ v ∈ vs, ∀ t w, Means t v → Means t w → w = v := fun v hv t w => hi (hlt v hv)
      rw [forall₂_unique hm h h']
    | @object ms ms' h =>
      cases hw with | object h' =>
      have hlt := JsonValue.heightMembers_lt_iff.mp hn
      have hm : ∀ m ∈ ms', ∀ t w, MemberMeans Means t m → MemberMeans Means t w → w = m := by
        intro m hm t w ht hw
        have hlt := hlt m hm
        cases ht with | mk ht =>
        generalize hu : utf16 _ = us at hw
        cases hw with | mk hw =>
        rw [utf16_injective hu, hi hlt ht hw]
      rw [forall₂_unique hm h h']

end Meaning

section Control

theorem mem_itemsText {text : α → Bytes} (hv : v ∈ vs) (hb : b ∈ text v) : b ∈ itemsText text vs := by
  induction vs with
  | nil          => contradiction
  | cons w vs hi =>
    cases vs with
    | nil       =>
      rw [List.mem_singleton] at hv
      simpa [itemsText, ← hv] using hb
    | cons x vs =>
      have he : itemsText text (w :: x :: vs) = text w ++ Ascii.comma :: itemsText text (x :: vs) := by
        simp [itemsText, List.intercalate_cons_cons]
      rw [he, List.mem_append, List.mem_cons]
      rcases List.mem_cons.mp hv with rfl | hv
      · exact .inl hb
      · exact .inr (.inr (hi hv))

theorem escapable_of_printable (h : ∀ b ∈ escapeString s, JsonGrammar.Printable b) : Escapable s := by
  have hs : ∀ b, b < 0x20 → b ∉ shortEscapes → escapeChar b = [b] ∧ ¬JsonGrammar.Printable b := by
    decide +kernel
  intro b hb hlt
  by_contra hn
  have ⟨he, hp⟩ := hs b hlt hn
  refine hp (h b (List.mem_cons_of_mem _ (List.mem_append_left _ ?_)))
  exact List.mem_flatMap.mpr ⟨b, hb, he ▸ List.mem_singleton_self b⟩

-- The control characters without an escape of their own would stand in the text.
theorem strings_escapable (h : v.Strings p) (ht : ∀ b ∈ stringify v, JsonGrammar.Printable b) :
    v.Strings Escapable := by
  induction h with
  | null          => exact .null
  | bool          => exact .bool
  | int           => exact .int
  | double        => exact .double
  | string        => exact .string (escapable_of_printable ht)
  | @array vs h hi     =>
    rw [← List.append_nil (stringify _), stringify_array] at ht
    have hm := fun b hb => ht b (List.mem_cons_of_mem _ (List.mem_append_left _ hb))
    exact .array fun v hv => hi v hv fun b hb => hm b (mem_itemsText hv hb)
  | @object ms hk h hi =>
    rw [← List.append_nil (stringify _), stringify_object] at ht
    have hm := fun b hb => ht b (List.mem_cons_of_mem _ (List.mem_append_left _ hb))
    refine .object (fun m hmem => escapable_of_printable fun b hb => ?_) fun m hmem => hi m hmem fun b hb => ?_
    · exact hm b (mem_itemsText hmem (List.mem_append_left _ hb))
    · exact hm b (mem_itemsText hmem (List.mem_append_right _ (List.mem_cons_of_mem _ hb)))

end Control

-- `stringify` emits a text of the grammar that stands for the value, unless a string in the value has a control
-- character without an escape of its own.
theorem stringify_denotes_iff (h : v.Exact) (hu : v.Strings ValidUtf8) :
    Denotes (stringify v) v ↔ v.Strings Escapable := by
  constructor
  · rintro ⟨⟨n, t, ht⟩, _⟩
    exact strings_escapable hu (JsonGrammar.text_printable ht)
  · intro he
    have ⟨n, t, ht, hm⟩ := text_stringify h hu he
    refine ⟨⟨n, t, ht⟩, fun m t' ht' w => ?_⟩
    obtain rfl := JsonGrammar.text_unique ht ht'
    exact ⟨means_unique (Nat.lt_succ_self _) hm, fun hw => hw ▸ hm⟩

theorem validUtf8_ofString (s : String) : ValidUtf8 (Bytes.ofString s) := by
  have h := congrArg (fun b : ByteArray => b.data.toList) (String.utf8Encode_toList (b := s))
  rw [List.utf8Encode, List.data_toByteArray] at h
  exact ⟨s.toList, h⟩

-- An array with an object that has a letter outside of ASCII and a line feed in it.
def sample : JsonValue :=
  .array [.int (-5), .object [("k", .string "\u00e9\n")]]

theorem sample_denotes_iff : Denotes (stringify sample) sample ↔ sample.Strings Escapable := by
  refine stringify_denotes_iff (.array ?_) (.array ?_)
  · exact List.forall_mem_cons.mpr ⟨.int, List.forall_mem_singleton.mpr (.object (by simp) (by simp [JsonValue.Exact.string]))⟩
  · refine List.forall_mem_cons.mpr ⟨.int, List.forall_mem_singleton.mpr (.object ?_ ?_)⟩
    · exact List.forall_mem_singleton.mpr (validUtf8_ofString _)
    · exact List.forall_mem_singleton.mpr (.string (validUtf8_ofString _))

-- The byte 1 stands in the text as it is.
theorem not_stringify_denotes : ¬∀ v : JsonValue, v.Exact → v.Strings ValidUtf8 → Denotes (stringify v) v := by
  intro h
  have ⟨⟨n, t, ht⟩, _⟩ := h (.string [0x01]) .string (.string ⟨[Char.ofNat 1], by decide +kernel⟩)
  have hp := JsonGrammar.text_printable ht 0x01 (by decide +kernel)
  exact absurd hp (by decide)

end Json
end YNet
