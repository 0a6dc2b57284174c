import YNet.Lib.JsonGrammar
import YNet.Util.Theorems.Json.Escapes
import YNet.Util.Theorems.Json.Language

open Cpp

namespace YNet.Json

-- An integer is in the range of an `int64_t`.
def InRange (literal : Bytes) : Prop :=
  ∀ n, JsonGrammar.integer literal = some n → -2 ^ 63 ≤ n ∧ n < 2 ^ 63

-- The texts of the standard, with at most 64 levels below the root.
def Standard (s : Bytes) : Prop :=
  ∃ t, JsonGrammar.Text InRange 65 t s

-- The items of an array or an object without blanks in front of the first one.
inductive PlainItems (close : UInt8) (item : α → Bytes → Bytes → Prop) : List α → Bytes → Bytes → Prop
  | last : item v s s₁ → JsonGrammar.Blanks s₁ (close :: r) → PlainItems close item [v] s r
  | more : item v s s₁ → JsonGrammar.Blanks s₁ (Ascii.comma :: s₂) → JsonGrammar.Blanks s₂ s₃ →
    (PlainItems close item vs s₃ r) → PlainItems close item (v :: vs) s r

-- The standard without exponents, and without blanks behind the opening bracket of an array or within the
-- braces of an empty object.
inductive PlainOf (inner : JsonGrammar.Datum → Bytes → Bytes → Prop) : JsonGrammar.Datum → Bytes → Bytes → Prop
  | null        : PlainOf inner .null (0x6E :: 0x75 :: 0x6C :: 0x6C :: r) r
  | true        : PlainOf inner (.bool true) (0x74 :: 0x72 :: 0x75 :: 0x65 :: r) r
  | false       : PlainOf inner (.bool false) (0x66 :: 0x61 :: 0x6C :: 0x73 :: 0x65 :: r) r
  | number      : JsonGrammar.Number l → Numeral l → (∀ b ∈ r.head?, ¬JsonGrammar.InNumber b) →
    PlainOf inner (.number l) (l ++ r) r
  | string      : JsonGrammar.Chars us s r → PlainOf inner (.string us) (Ascii.quote :: s) r
  | emptyArray  : PlainOf inner (.array []) (Ascii.openBracket :: Ascii.closeBracket :: r) r
  | array       : PlainItems Ascii.closeBracket inner ts s r → PlainOf inner (.array ts) (Ascii.openBracket :: s) r
  | emptyObject : PlainOf inner (.object []) (Ascii.openBrace :: Ascii.closeBrace :: r) r
  | object      : JsonGrammar.Blanks s s₁ → PlainItems Ascii.closeBrace (JsonGrammar.Member inner) ms s₁ r →
    PlainOf inner (.object ms) (Ascii.openBrace :: s) r

def PlainValue : Nat → JsonGrammar.Datum → Bytes → Bytes → Prop
  | 0     => fun _ _ _ => False
  | n + 1 => PlainOf (PlainValue n)

def Plain (s : Bytes) : Prop :=
  ∃ t s₁ s₂, JsonGrammar.Blanks s s₁ ∧ PlainValue 65 t s₁ s₂ ∧ JsonGrammar.Blanks s₂ []

section Blanks

theorem isWhitespace_iff (b : UInt8) : isWhitespace b ↔ JsonGrammar.IsBlank b := by
  simp only [isWhitespace, JsonGrammar.IsBlank, Bool.or_eq_true, decide_eq_true_eq, List.mem_cons, List.not_mem_nil]
  tauto

-- The parser skips the blanks of the grammar.
theorem skipWhitespace_of_blanks (h : JsonGrammar.Blanks s r) (hr : ∀ b ∈ r.head?, ¬JsonGrammar.IsBlank b) :
    skipWhitespace s = r := by
  have ⟨u, hu, hp⟩ := h
  rw [hu, skipWhitespace, List.dropWhile_append_of_pos fun b hb => (isWhitespace_iff b).mpr (hp b hb)]
  cases r with
  | nil      => rfl
  | cons b r => rw [List.dropWhile_cons_of_neg ((isWhitespace_iff b).not.mpr (hr b rfl))]

theorem skipSeparator_of_blanks (h : JsonGrammar.Blanks s (c :: r)) (hc : ¬JsonGrammar.IsBlank c) :
    skipSeparator c s = skipWhitespace r := by
  rw [skipSeparator, skipWhitespace_of_blanks h (by simpa using hc)]
  exact if_pos rfl

theorem skipSeparator_of_ne (h : JsonGrammar.Blanks s (b :: r)) (hb : ¬JsonGrammar.IsBlank b) (hc : b ≠ c) :
    skipSeparator c s = b :: r := by
  rw [skipSeparator, skipWhitespace_of_blanks h (by simpa using hb)]
  exact if_neg hc

end Blanks

section Strings

theorem chars_append {u : Bytes} (hu : ∀ b ∈ u, b ≠ Ascii.quote ∧ b ≠ Ascii.backslash) (h : Chars s pos) :
    Chars (u ++ s) pos := by
  induction u with
  | nil       => exact h
  | cons b u hi =>
    have ⟨hb, hu⟩ := List.forall_mem_cons.mp hu
    exact .plain hb.1 hb.2 (hi hu)

theorem isxdigit_of_hexDigit : ∀ b, (JsonGrammar.hexDigit b).isSome → isxdigit b := by
  decide +kernel

theorem strto_hexDigits (h : ∀ b ∈ [h₁, h₂, h₃, h₄], (JsonGrammar.hexDigit b).isSome) :
    (strto 16 [h₁, h₂, h₃, h₄]).isSome := by
  have hx := fun b hb => isxdigit_of_hexDigit b (h b hb)
  exact (stoul_ok_iff (by simp)).mp ⟨_, stoul_digits hx⟩

-- The parser reads each string of the grammar to its end.
theorem chars_of_standard (h : JsonGrammar.Chars us s r) : Chars s (some r) := by
  induction h with
  | quote => exact .quote
  | plain _ hq hb _ hi => exact chars_append (JsonGrammar.plain_bytes hq hb) hi
  | escape he _ hi     =>
    have hu : ∀ e ∈ JsonGrammar.escapes, (unescape e.1).isSome := by decide
    exact .escape (hu _ he) hi
  | unicode hx _ hi    => exact .unicode (strto_hexDigits (JsonGrammar.isSome_of_mapM hx)) hi

end Strings

section Numbers

theorem isDigit_iff_isdigit (b : UInt8) : JsonGrammar.IsDigit b ↔ isdigit b := by
  simp [isdigit, JsonGrammar.IsDigit]

theorem inNumber_of_isNumberByte (b : UInt8) (h : isNumberByte b) : JsonGrammar.InNumber b := by
  simp only [isNumberByte, Bool.or_eq_true, decide_eq_true_eq] at h
  rcases h with (h | rfl) | rfl
  · exact .inl ((isDigit_iff_isdigit b).mpr h)
  · decide
  · decide

theorem decimal_eq {ds : Bytes} (h : ∀ b ∈ ds, isdigit b) : JsonGrammar.decimal ds = ofDigits 10 ds := by
  induction ds using List.reverseRecOn with
  | nil                      => rfl
  | append_singleton ds d hi =>
    have hd : digitValue d = d.toNat - 0x30 := if_pos (h d (by simp))
    have hi := hi fun b hb => h b (List.mem_append_left _ hb)
    have hc : JsonGrammar.decimal (ds ++ [d]) = (d.toNat - 0x30) + 10 * JsonGrammar.decimal ds := by
      rw [JsonGrammar.decimal, List.map_append, List.map_singleton, List.reverse_append, List.reverse_singleton,
        List.singleton_append, Nat.ofDigits_cons]
      rfl
    rw [hc, hi, ofDigits_append, List.foldl_cons, List.foldl_nil, hd]
    omega

theorem integer_signText {ds : Bytes} (h : ∀ b ∈ ds, isdigit b) (hn : ds ≠ []) :
    JsonGrammar.integer (signText neg ++ ds) = some (signed neg (ofDigits 10 ds)) := by
  have hd : ∀ b ∈ ds, JsonGrammar.IsDigit b := fun b hb => (isDigit_iff_isdigit b).mpr (h b hb)
  rw [← decimal_eq h]
  cases neg with
  | true  =>
    rw [signText, if_pos rfl, List.singleton_append, JsonGrammar.integer, if_pos rfl, if_pos hd]
    rfl
  | false =>
    cases ds with
    | nil       => exact absurd rfl hn
    | cons d ds =>
      have hm : d ≠ Ascii.minus := isdigit_ne (h d List.mem_cons_self) (by decide)
      rw [signText, if_neg (by decide), List.nil_append, JsonGrammar.integer, if_neg hm, if_pos hd]
      rfl

theorem dot_not_mem_integer (h : JsonGrammar.integer l = some n) : Ascii.dot ∉ l := by
  have hdot : ¬JsonGrammar.IsDigit Ascii.dot := by decide
  cases l with
  | nil      => simp
  | cons b s =>
    rw [JsonGrammar.integer] at h
    split_ifs at h with hb hd hd
    · rw [hb, List.mem_cons, not_or]
      exact ⟨by decide, fun hm => hdot (hd _ hm)⟩
    · exact fun hm => hdot (hd _ hm)

-- What is converted without an exception is in range.
theorem Numeral.inRange (h : Numeral l) : InRange l := by
  intro n hn
  cases h with
  | int h hne hl hu =>
    rw [integer_signText h hne, Option.some.injEq] at hn
    exact hn ▸ ⟨hl, hu⟩
  | decimal         => exact absurd (by simp) (dot_not_mem_integer hn)

def StartsExponent (s : Bytes) : Prop :=
  ∃ e t, s = e :: t ∧ e ∈ ([0x45, 0x65] : Bytes)

theorem exponent_bytes (h : e ∈ ([0x45, 0x65] : Bytes)) :
    ¬isNumberByte e ∧ ¬JsonGrammar.IsBlank e ∧ e ≠ Ascii.quote := by
  simp only [List.mem_cons, List.not_mem_nil, or_false] at h
  rcases h with rfl | rfl <;> decide

-- The bytes that the parser takes of a number end in front of the exponent.
theorem number_cases (h : JsonGrammar.Number l) : (∀ b ∈ l, isNumberByte b) ∨
    ∃ a t, l = a ++ t ∧ (∀ b ∈ a, isNumberByte b) ∧ StartsExponent t := by
  have hdig {ds : Bytes} (h : JsonGrammar.Digits ds) : ∀ b ∈ ds, isNumberByte b :=
    fun b hb => isNumberByte_of (.inl ((isDigit_iff_isdigit b).mp (h.2 b hb)))
  have hsign : ∀ sg ∈ ([[], [Ascii.minus]] : List Bytes), ∀ b ∈ sg, isNumberByte b := by
    simp [isNumberByte]
  cases h with
  | @mk sg ds fs es hsg hd _ hf he =>
    have hfs : ∀ b ∈ fs, isNumberByte b := by
      cases hf with
      | none   => simp
      | some h => exact List.forall_mem_cons.mpr ⟨by decide, hdig h⟩
    have ha : ∀ b ∈ sg ++ ds ++ fs, isNumberByte b :=
      List.forall_mem_append.mpr ⟨List.forall_mem_append.mpr ⟨hsign _ hsg, hdig hd⟩, hfs⟩
    cases he with
    | none        => exact .inl ((List.append_nil (sg ++ ds ++ fs)).symm ▸ ha)
    | some he _ _ => exact .inr ⟨_, _, rfl, ha, _, _, rfl, he⟩

-- The parser reads a number of the grammar to its end if it has no exponent, and up to the exponent otherwise.
theorem number_sync (hl : JsonGrammar.Number l) (hr : ∀ b ∈ r.head?, ¬JsonGrammar.InNumber b) (ht : Numeral t)
    (hp : ∀ b ∈ p.head?, ¬isNumberByte b) (he : l ++ r = t ++ p) : (p = r ∧ Numeral l) ∨ StartsExponent p := by
  have ⟨ht', hp'⟩ := span_number (numeral_isNumberByte ht) hp
  rcases number_cases hl with hn | ⟨a, u, hu, ha, e, v, hv, hm⟩
  · have ⟨hl', hr'⟩ := span_number hn fun b hb hb' => hr b hb (inNumber_of_isNumberByte b hb')
    rw [he, ht'] at hl'
    rw [he, hp'] at hr'
    exact .inl ⟨hr', hl' ▸ ht⟩
  · have hne : ∀ b ∈ (u ++ r).head?, ¬isNumberByte b := by
      rw [hv, List.cons_append, List.head?_cons]
      simpa using (exponent_bytes hm).1
    have ⟨_, hr'⟩ := span_number ha hne
    rw [← List.append_assoc, ← hu, he, hp'] at hr'
    exact .inr ⟨e, v ++ r, by rw [hr', hv]; rfl, hm⟩

end Numbers

section Lists

variable {α : Type} {item plain : α → Bytes → Bytes → Prop} {read : Bytes → Option Bytes → Prop} {close : UInt8}

-- What the parser does with an item of the standard.
def Synced (item plain : α → Bytes → Bytes → Prop) (read : Bytes → Option Bytes → Prop) : Prop :=
  ∀ ⦃v s r p⦄, item v s r → read s (some p) → (p = r ∧ plain v s r) ∨ StartsExponent p

theorem startsExponent_skip (h : StartsExponent s) (hc : c ∉ ([0x45, 0x65] : Bytes)) : skipSeparator c s = s := by
  have ⟨e, t, hs, he⟩ := h
  subst hs
  exact skipSeparator_of_ne (.refl _) (exponent_bytes he).2.1 (ne_of_mem_of_not_mem he hc)

-- The list breaks off behind a number that the parser has not read to its end.
theorem not_items_exponent (h : StartsExponent s) (hc : close ∉ ([0x45, 0x65] : Bytes))
    (hr : ∀ ⦃s pos⦄, StartsExponent s → ¬read s pos) : ¬Items close read s pos := by
  have ⟨e, t, hs, he⟩ := h
  subst hs
  rw [items_cons_iff (ne_of_mem_of_not_mem he hc)]
  exact fun ⟨_, hi, _⟩ => hr h hi

-- One item of the list, and what stands behind it. The byte `d` is the comma or the end of the list.
theorem item_sync (h : Synced item plain read) (hs : JsonGrammar.Starts close item)
    (hr : ∀ ⦃s pos⦄, StartsExponent s → ¬read s pos) (hc : close ∉ Ascii.comma :: ([0x45, 0x65] : Bytes))
    (hb : JsonGrammar.Blanks s s₁) (hv : item v s₁ s₂) (hp : Items close read (skipWhitespace s) pos) :
    plain v s₁ s₂ ∧ Items close read (skipSeparator Ascii.comma s₂) pos := by
  have ⟨b, t, he, hn, hne⟩ := hs hv
  subst he
  rw [skipWhitespace_of_blanks hb (by simpa using hn), items_cons_iff hne] at hp
  have ⟨p, hi, hp⟩ := hp
  rw [List.mem_cons, not_or] at hc
  rcases h hv hi with ⟨he, hpl⟩ | hex
  · subst he
    exact ⟨hpl, hp⟩
  · rw [startsExponent_skip hex (by decide)] at hp
    exact absurd hp (not_items_exponent hex hc.2 hr)

theorem items_sync (h : Synced item plain read) (hs : JsonGrammar.Starts close item)
    (hr : ∀ ⦃s pos⦄, StartsExponent s → ¬read s pos) (hb : ¬JsonGrammar.IsBlank close)
    (hc : close ∉ Ascii.comma :: ([0x45, 0x65] : Bytes)) (hi : JsonGrammar.Items close item vs s r)
    (hp : Items close read (skipWhitespace s) pos) :
    pos = some r ∧ ∃ s', JsonGrammar.Blanks s s' ∧ PlainItems close plain vs s' r := by
  induction hi with
  | last hs₁ hv hr₁         =>
    have ⟨hpl, hp⟩ := item_sync h hs hr hc hs₁ hv hp
    rw [skipSeparator_of_ne hr₁ hb (List.ne_of_not_mem_cons hc), items_close_iff] at hp
    exact ⟨hp, _, hs₁, .last hpl hr₁⟩
  | more hs₁ hv hr₁ _ hi    =>
    have ⟨hpl, hp⟩ := item_sync h hs hr hc hs₁ hv hp
    rw [skipSeparator_of_blanks hr₁ (by decide)] at hp
    have ⟨hpos, s', hs', hit⟩ := hi hp
    exact ⟨hpos, _, hs₁, .more hpl hr₁ hs' hit⟩

theorem plainItems_starts (hs : JsonGrammar.Starts close plain) :
    PlainItems close plain vs s r → ∃ b t, s = b :: t ∧ ¬JsonGrammar.IsBlank b
  | .last hv _ | .more hv _ _ _ =>
    have ⟨b, t, he, hn, _⟩ := hs hv
    ⟨b, t, he, hn⟩

-- The parser reads a list without leading blanks to its end.
theorem items_of_plain (h : ∀ ⦃v s r⦄, plain v s r → read s (some r)) (hs : JsonGrammar.Starts close plain)
    (hb : ¬JsonGrammar.IsBlank close) (hc : close ≠ Ascii.comma) (hi : PlainItems close plain vs s r) :
    Items close read s (some r) := by
  induction hi with
  | last hv hr₁           =>
    have ⟨b, t, he, _, hne⟩ := hs hv
    subst he
    refine .cons hne (h hv) ?_
    rw [skipSeparator_of_ne hr₁ hb hc]
    exact .close
  | more hv hr₁ hs₁ hi ih =>
    have ⟨b, t, he, _, hne⟩ := hs hv
    subst he
    refine .cons hne (h hv) ?_
    have ⟨b, t, he, hn⟩ := plainItems_starts hs hi
    rw [skipSeparator_of_blanks hr₁ (by decide), skipWhitespace_of_blanks hs₁ (by simpa [he] using hn)]
    exact ih

theorem items_standard (h : ∀ ⦃v s r⦄, plain v s r → item v s r) (hb : JsonGrammar.Blanks s s₁)
    (hi : PlainItems close plain vs s₁ r) : JsonGrammar.Items close item vs s r := by
  induction hi generalizing s with
  | last hv hr₁           => exact .last hb (h hv) hr₁
  | more hv hr₁ hs₁ hi ih => exact .more hb (h hv) hr₁ (ih hs₁)

end Lists

section Members

variable {item plain : JsonGrammar.Datum → Bytes → Bytes → Prop} {read : Bytes → Option Bytes → Prop} {close : UInt8}

theorem skipWhitespace_quote (s : Bytes) : skipWhitespace (Ascii.quote :: s) = Ascii.quote :: s :=
  rfl

-- The key and the colon are read as the grammar has them.
theorem member_read (hs : JsonGrammar.Starts close item) (hk : JsonGrammar.Chars k s s₁)
    (hc : JsonGrammar.Blanks s₁ (Ascii.colon :: s₂)) (hb : JsonGrammar.Blanks s₂ s₃) (hv : item t s₃ r) :
    Member read (Ascii.quote :: s) pos ↔ read s₃ pos := by
  have ⟨b, u, he, hn, _⟩ := hs hv
  rw [member_iff (skipWhitespace_quote s) (chars_of_standard hk), skipSeparator_of_blanks hc (by decide),
    skipWhitespace_of_blanks hb (by simpa [he] using hn)]

theorem member_sync (h : Synced item plain read) (hs : JsonGrammar.Starts close item) :
    Synced (JsonGrammar.Member item) (JsonGrammar.Member plain) (Member read)
  | _, _, _, _, .mk hk hc hb hv, hp => by
    rw [member_read hs hk hc hb hv] at hp
    exact (h hv hp).imp_left fun ⟨he, hpl⟩ => ⟨he, .mk hk hc hb hpl⟩

theorem member_of_plain (h : ∀ ⦃t s r⦄, plain t s r → read s (some r)) (hs : JsonGrammar.Starts close plain) :
    ∀ ⦃m s r⦄, JsonGrammar.Member plain m s r → Member read s (some r)
  | _, _, _, .mk hk hc hb hv => (member_read hs hk hc hb hv).mpr (h hv)

theorem member_standard (h : ∀ ⦃t s r⦄, plain t s r → item t s r) :
    ∀ ⦃m s r⦄, JsonGrammar.Member plain m s r → JsonGrammar.Member item m s r
  | _, _, _, .mk hk hc hb hv => .mk hk hc hb (h hv)

theorem plainMembers_starts : PlainItems close (JsonGrammar.Member plain) ms s r → ∃ t, s = Ascii.quote :: t
  | .last (.mk _ _ _ _) _ | .more (.mk _ _ _ _) _ _ _ => ⟨_, rfl⟩

theorem members_starts : JsonGrammar.Items close (JsonGrammar.Member item) ms s r →
    ∃ t, JsonGrammar.Blanks s (Ascii.quote :: t)
  | .last hb (.mk _ _ _ _) _ | .more hb (.mk _ _ _ _) _ _ => ⟨_, hb⟩

theorem member_congr (h : skipWhitespace s = skipWhitespace s') : Member read s pos → Member read s' pos
  | .mk hs ht hv => .mk (h ▸ hs) ht hv

-- Blanks in front of the first member of an object are skipped.
theorem items_skip_iff (hc : close ≠ Ascii.quote) (hn : ¬JsonGrammar.IsBlank close)
    (hb : JsonGrammar.Blanks s (Ascii.quote :: t)) :
    Items close (Member read) s pos ↔ Items close (Member read) (Ascii.quote :: t) pos := by
  have hw : skipWhitespace s = Ascii.quote :: t := skipWhitespace_of_blanks hb (by simp; decide)
  have hw := hw.trans (skipWhitespace_quote t).symm
  have ⟨u, hu, hp⟩ := hb
  cases u with
  | nil      => rw [hu, List.nil_append]
  | cons b u =>
    have hbc : b ≠ close := fun he => hn (he ▸ hp b List.mem_cons_self)
    rw [List.cons_append] at hu
    subst hu
    rw [items_cons_iff hbc, items_cons_iff hc.symm]
    exact exists_congr fun p => and_congr_left' ⟨member_congr hw, member_congr hw.symm⟩

-- An empty object with a blank in it is taken for one with a member.
theorem not_member_close (hc : close ≠ Ascii.quote) (hn : ¬JsonGrammar.IsBlank close)
    (hb : JsonGrammar.Blanks s (close :: r)) : ¬Member read s pos := by
  refine not_member fun t ht => ?_
  rw [skipWhitespace_of_blanks hb (by simpa using hn)] at ht
  exact hc (List.cons.inj ht).1

end Members

section Values

theorem not_value (h : JsonGrammar.IsBlank b ∨ b ∈ ([0x45, 0x65] : Bytes)) : ¬Value n (b :: s) pos := by
  have hb : ∀ b, JsonGrammar.IsBlank b ∨ b ∈ ([0x45, 0x65] : Bytes) → b ≠ Ascii.quote ∧ ¬(isdigit b ∨ b = Ascii.minus) ∧
      b ≠ Ascii.openBracket ∧ b ≠ Ascii.openBrace ∧ b ≠ 't'.toUInt8 ∧ b ≠ 'f'.toUInt8 ∧ b ≠ 'n'.toUInt8 := by
    decide +kernel
  have ⟨h₁, h₂, h₃, h₄, h₅, h₆, h₇⟩ := hb b h
  cases n with
  | zero   => exact id
  | succ n =>
    rw [Value, valueOf_iff, if_neg h₁, if_neg h₂, if_neg h₃, if_neg h₄, if_neg h₅, if_neg h₆, if_neg h₇]
    exact id

theorem not_value_exponent : StartsExponent s → ¬Value n s pos
  | ⟨_, _, hs, he⟩ => hs ▸ not_value (.inr he)

theorem not_member_exponent {read : Bytes → Option Bytes → Prop} : StartsExponent s → ¬Member read s pos
  | ⟨e, t, hs, he⟩ => by
    have ⟨_, hb, hq⟩ := exponent_bytes he
    refine not_member fun u hu => ?_
    rw [hs, skipWhitespace_of_blanks (.refl _) (by simpa using hb)] at hu
    exact hq (List.cons.inj hu).1

theorem plain_standard : ∀ ⦃t s r⦄, PlainValue n t s r → JsonGrammar.Value InRange n t s r := by
  induction n with
  | zero      => exact fun _ _ _ => id
  | succ n hi =>
    intro t s r h
    cases h with
    | null               => exact .null
    | true               => exact .true
    | false              => exact .false
    | number hl hn hr    => exact .number hl hn.inRange hr
    | string h           => exact .string h
    | emptyArray         => exact .array (.empty (.refl _))
    | array h            => exact .array (.items (items_standard hi (.refl _) h))
    | emptyObject        => exact .object (.empty (.refl _))
    | object hb h        => exact .object (.items (items_standard (member_standard hi) hb h))

theorem plain_starts (hc : close ∈ [Ascii.closeBracket, Ascii.closeBrace]) (n : Nat) :
    JsonGrammar.Starts close (PlainValue n) :=
  fun _ _ _ h => JsonGrammar.value_starts hc n (plain_standard h)

theorem value_of_plain : ∀ ⦃t s r⦄, PlainValue n t s r → Value n s (some r) := by
  induction n with
  | zero      => exact fun _ _ _ => id
  | succ n hi =>
    intro t s r h
    cases h with
    | null               => exact ValueOf.null
    | true               => exact ValueOf.true
    | false              => exact ValueOf.false
    | number hl hn hr    =>
      have ⟨b, u, he, hb⟩ := JsonGrammar.number_starts hl
      subst he
      exact .number hn (hb.imp_left (isDigit_iff_isdigit b).mp) fun b hb hb' => hr b hb (inNumber_of_isNumberByte b hb')
    | string h           => exact .string (chars_of_standard h)
    | emptyArray         => exact .array .close
    | array h            => exact .array (items_of_plain hi (plain_starts (by simp) n) (by decide) (by decide) h)
    | emptyObject        => exact .object .close
    | object hb h        =>
      have hs : JsonGrammar.Starts Ascii.closeBracket (PlainValue n) := plain_starts (by simp) n
      have hm := items_of_plain (member_of_plain hi hs) JsonGrammar.member_starts (by decide) (by decide) h
      have ⟨t, ht⟩ := plainMembers_starts h
      subst ht
      exact .object ((items_skip_iff (by decide) (by decide) hb).mpr hm)

-- The parser takes no blanks in front of the first item of an array.
theorem skipWhitespace_of_items (hn : ¬JsonGrammar.IsBlank close) (h : Items close (Value m) s pos) :
    skipWhitespace s = s := by
  cases s with
  | nil      => rfl
  | cons b s =>
    refine skipWhitespace_of_blanks (.refl _) fun c hc hb => ?_
    obtain rfl := Option.some.inj hc
    have hbc : b ≠ close := fun he => hn (he ▸ hb)
    have ⟨_, hv, _⟩ := (items_cons_iff hbc).mp h
    exact not_value (.inl hb) hv

theorem array_sync (hs : Synced (JsonGrammar.Value InRange n) (PlainValue n) (Value m))
    (h : JsonGrammar.Enclosed Ascii.closeBracket (JsonGrammar.Value InRange n) ts s r)
    (hp : Items Ascii.closeBracket (Value m) s pos) :
    pos = some r ∧ PlainOf (PlainValue n) (.array ts) (Ascii.openBracket :: s) r := by
  have hc : Ascii.closeBracket ∈ [Ascii.closeBracket, Ascii.closeBrace] := by simp
  have hn : ¬JsonGrammar.IsBlank Ascii.closeBracket := by decide
  have hw := skipWhitespace_of_items hn hp
  cases h with
  | empty hb =>
    rw [skipWhitespace_of_blanks hb (by simpa using hn)] at hw
    subst hw
    exact ⟨items_close_iff.mp hp, .emptyArray⟩
  | items h  =>
    have hv : JsonGrammar.Starts _ (JsonGrammar.Value InRange n) := JsonGrammar.value_starts hc n
    have ⟨he, s', hb, hpl⟩ := items_sync hs hv (fun _ _ => not_value_exponent) hn (by decide) h (hw.symm ▸ hp)
    have ⟨b, t, ht, hnb⟩ := plainItems_starts (plain_starts hc n) hpl
    rw [skipWhitespace_of_blanks hb (by simpa [ht] using hnb)] at hw
    exact ⟨he, .array (hw ▸ hpl)⟩

theorem object_sync (hs : Synced (JsonGrammar.Value InRange n) (PlainValue n) (Value m))
    (h : JsonGrammar.Enclosed Ascii.closeBrace (JsonGrammar.Member (JsonGrammar.Value InRange n)) ms s r)
    (hp : Items Ascii.closeBrace (Member (Value m)) s pos) :
    pos = some r ∧ PlainOf (PlainValue n) (.object ms) (Ascii.openBrace :: s) r := by
  have hc : Ascii.closeBrace ∈ [Ascii.closeBracket, Ascii.closeBrace] := by simp
  have hn : ¬JsonGrammar.IsBlank Ascii.closeBrace := by decide
  cases h with
  | empty hb =>
    have ⟨u, hu, hbl⟩ := hb
    cases u with
    | nil      =>
      rw [List.nil_append] at hu
      subst hu
      exact ⟨items_close_iff.mp hp, .emptyObject⟩
    | cons b u =>
      have hbc : b ≠ Ascii.closeBrace := fun he => hn (he ▸ hbl b List.mem_cons_self)
      rw [List.cons_append] at hu
      subst hu
      have ⟨_, hm, _⟩ := (items_cons_iff hbc).mp hp
      exact absurd hm (not_member_close (by decide) hn hb)
  | items h  =>
    have hm := member_sync hs (JsonGrammar.value_starts hc n)
    have ⟨t, ht⟩ := members_starts h
    have hw := skipWhitespace_of_blanks ht (by simp; decide)
    have hp := (items_skip_iff (by decide) hn ht).mp hp
    have ⟨he, s', hb, hpl⟩ := items_sync hm JsonGrammar.member_starts (fun _ _ => not_member_exponent) hn (by decide) h
      (hw.symm ▸ hp)
    exact ⟨he, .object hb hpl⟩

-- The parser reads a value of the standard to its end or up to an exponent, and in the first case it is plain.
theorem value_sync (n m : Nat) : Synced (JsonGrammar.Value InRange n) (PlainValue n) (Value m) := by
  induction n generalizing m with
  | zero      => exact fun _ _ _ _ h => h.elim
  | succ n hi =>
    intro t s r p h hp
    cases m with
    | zero   => exact hp.elim
    | succ m =>
      cases h with
      | null            =>
        have hp : some p = some _ := valueOf_iff.mp hp
        exact .inl ⟨Option.some.inj hp, .null⟩
      | true            =>
        have hp : some p = some _ := valueOf_iff.mp hp
        exact .inl ⟨Option.some.inj hp, .true⟩
      | false           =>
        have hp : some p = some _ := valueOf_iff.mp hp
        exact .inl ⟨Option.some.inj hp, .false⟩
      | number hl _ hr  =>
        have ⟨b, u, he, hb⟩ := JsonGrammar.number_starts hl
        have hd := hb.imp_left (isDigit_iff_isdigit b).mp
        have hq : b ≠ Ascii.quote := by
          rintro rfl
          exact absurd hd (by decide)
        rw [he, List.cons_append, Value, valueOf_iff, if_neg hq, if_pos hd, ← List.cons_append, ← he] at hp
        have ⟨t, q, ht, hs, hpq, hq⟩ := hp
        obtain rfl := Option.some.inj hpq
        exact (number_sync hl hr ht hq hs).imp_left fun ⟨hpr, hn⟩ => ⟨hpr, .number hl hn hr⟩
      | string h        =>
        have hp : Chars _ _ := valueOf_iff.mp hp
        exact .inl ⟨Option.some.inj (chars_unique hp (chars_of_standard h)), .string h⟩
      | array h         =>
        have hp : Items _ _ _ _ := valueOf_iff.mp hp
        have ⟨he, hpl⟩ := array_sync (hi m) h hp
        exact .inl ⟨Option.some.inj he, hpl⟩
      | object h        =>
        have hp : Items _ _ _ _ := valueOf_iff.mp hp
        have ⟨he, hpl⟩ := object_sync (hi m) h hp
        exact .inl ⟨Option.some.inj he, hpl⟩

-- The standard texts that the parser accepts.
theorem plain_iff : Plain s ↔ Standard s ∧ Accepted s := by
  have hc : Ascii.closeBrace ∈ [Ascii.closeBracket, Ascii.closeBrace] := by simp
  have hskip {s s₁ : Bytes} {t} {r} (hb : JsonGrammar.Blanks s s₁) (h : JsonGrammar.Value InRange 65 t s₁ r) :
      skipWhitespace s = s₁ := by
    have ⟨b, u, he, hn, _⟩ := JsonGrammar.value_starts hc 65 h
    exact skipWhitespace_of_blanks hb (by simpa [he] using hn)
  constructor
  · rintro ⟨t, s₁, s₂, hb, ht, hr⟩
    have hv := plain_standard ht
    refine ⟨⟨t, s₁, s₂, hb, hv, hr⟩, s₂, ?_, skipWhitespace_of_blanks hr (by simp)⟩
    exact hskip hb hv ▸ value_of_plain ht
  · rintro ⟨⟨t, s₁, s₂, hb, hv, hr⟩, pos, hp, hpos⟩
    rw [hskip hb hv] at hp
    rcases value_sync 65 65 hv hp with ⟨he, hpl⟩ | ⟨e, u, he, hm⟩
    · exact ⟨t, s₁, s₂, hb, hpl, hr⟩
    · rw [he, skipWhitespace_of_blanks (.refl _) (by simpa using (exponent_bytes hm).2.1)] at hpos
      contradiction

theorem thrown_iff : (∃ e, parse s = .error (.thrown e)) ↔ ¬Accepted s ∧ ¬Open 65 (skipWhitespace s) := by
  rw [← parse_ok_iff, ← parse_undefined_iff]
  have hne : parse s ≠ .error .endless := parse_not_endless
  cases hp : parse s with
  | ok v    => simp
  | error e =>
    cases e with
    | thrown e  => simp
    | undefined => simp
    | endless   => exact absurd hp hne

-- The parser decides on the standard, except on standard texts that are not plain, on other texts that it
-- takes for a value, and on texts that it reads behind their end.
theorem parse_standard_iff (s : Bytes) :
    ((∃ v, parse s = .ok v) ↔ Standard s) ∧ (¬Standard s → ∃ e, parse s = .error (.thrown e)) ↔
      Plain s ∨ (¬Standard s ∧ ¬Accepted s ∧ ¬Open 65 (skipWhitespace s)) := by
  rw [thrown_iff, parse_ok_iff, plain_iff]
  tauto

-- A number with an exponent is a text of the standard that is not accepted.
theorem standard_exponent : Standard "1e5" := by
  have hd (d : UInt8) (h : JsonGrammar.IsDigit d) : JsonGrammar.Digits [d] := ⟨by simp, by simpa using h⟩
  have hexp : JsonGrammar.Exponent (0x65 :: ([] ++ [0x35])) := .some (by simp) (by simp) (hd 0x35 (by decide))
  have hn : JsonGrammar.Number ([] ++ [0x31] ++ [] ++ 0x65 :: ([] ++ [0x35])) :=
    .mk (by simp) (hd 0x31 (by decide)) (by simp) .none hexp
  have hr : InRange [0x31, 0x65, 0x35] := by
    have hi : JsonGrammar.integer [0x31, 0x65, 0x35] = none := by decide +kernel
    simp [InRange, hi]
  exact ⟨.number _, _, [], .refl _, JsonGrammar.ValueOf.number hn hr (by simp), .refl _⟩

theorem not_parse_standard : ¬∀ s, ((∃ v, parse s = .ok v) ↔ Standard s) ∧
    (¬Standard s → ∃ e, parse s = .error (.thrown e)) := by
  intro h
  have ⟨v, hv⟩ := (h _).1.mpr standard_exponent
  have hn : (parse "1e5").toOption.isSome = false := by decide +kernel
  rw [hv] at hn
  contradiction

end Values

end YNet.Json
