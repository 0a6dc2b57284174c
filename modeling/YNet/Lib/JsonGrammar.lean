import YNet.Cpp.Ascii
import YNet.Lib.Unicode

open Unicode

-- The grammar of JSON. A rule relates what a text stands for, a text that begins with it, and the rest
-- of that text.
namespace JsonGrammar

-- What a text stands for. A string is a sequence of units of 16 bits, which need not be paired.
inductive Datum
  | null
  | bool (b : Bool)
  | number (literal : List UInt8)
  | string (units : List Nat)
  | array (ts : List Datum)
  | object (ms : List (List Nat × Datum))

-- The bytes in front of the rest are of a kind.
def Over (p : UInt8 → Prop) (s r : List UInt8) : Prop :=
  ∃ u, s = u ++ r ∧ ∀ b ∈ u, p b

namespace Over

variable {p q : UInt8 → Prop} {s r t : List UInt8}

theorem refl (s : List UInt8) : Over p s s :=
  ⟨[], rfl, by simp⟩

theorem trans : Over p s t → Over p t r → Over p s r
  | ⟨u, hu, hp⟩, ⟨v, hv, hq⟩ => ⟨u ++ v, by rw [hu, hv, List.append_assoc], List.forall_mem_append.mpr ⟨hp, hq⟩⟩

theorem mono (h : ∀ b, p b → q b) : Over p s r → Over q s r
  | ⟨u, hu, hp⟩ => ⟨u, hu, fun b hb => h b (hp b hb)⟩

theorem cons (hb : p b) : Over p s r → Over p (b :: s) r
  | ⟨u, hu, hp⟩ => ⟨b :: u, by rw [hu]; rfl, List.forall_mem_cons.mpr ⟨hb, hp⟩⟩

theorem append {u : List UInt8} (hu : ∀ b ∈ u, p b) (h : Over p s r) : Over p (u ++ s) r :=
  trans ⟨u, rfl, hu⟩ h

-- The rest is determined by its first byte.
theorem unique (hs : Over p s (b :: t)) (hr : Over p s (c :: r)) (hb : ¬p b) (hc : ¬p c) : b :: t = c :: r := by
  have ⟨u, hu, hp⟩ := hs
  have ⟨v, hv, hq⟩ := hr
  rw [hu] at hv
  clear hu hs hr
  induction u generalizing v with
  | nil       =>
    cases v with
    | nil      => exact hv
    | cons d v => exact absurd (hq _ List.mem_cons_self) ((List.cons.inj hv).1 ▸ hb)
  | cons d u hi =>
    have ⟨hd, hp⟩ := List.forall_mem_cons.mp hp
    cases v with
    | nil      => exact absurd hd ((List.cons.inj hv).1 ▸ hc)
    | cons e v => exact hi hp v (List.cons.inj hv).2 (List.forall_mem_cons.mp hq).2

end Over

def IsBlank (b : UInt8) : Prop :=
  b ∈ [Ascii.space, Ascii.tab, Ascii.lf, Ascii.cr]

instance : DecidablePred IsBlank :=
  fun _ => inferInstanceAs (Decidable (_ ∈ _))

abbrev Blanks := Over IsBlank

section Strings

-- The characters that can be written as a backslash and one letter.
def escapes : List (UInt8 × Nat) :=
  [(0x22, 0x22), (0x5C, 0x5C), (0x2F, 0x2F), (0x62, 0x08), (0x66, 0x0C), (0x6E, 0x0A), (0x72, 0x0D), (0x74, 0x09)]

def hexDigit (b : UInt8) : Option Nat :=
  if 0x30 ≤ b ∧ b ≤ 0x39 then some (b.toNat - 0x30)
  else if 0x41 ≤ b ∧ b ≤ 0x46 then some (b.toNat - 0x41 + 10)
  else if 0x61 ≤ b ∧ b ≤ 0x66 then some (b.toNat - 0x61 + 10)
  else none

-- The characters of a string, up to the closing quote.
inductive Chars : List Nat → List UInt8 → List UInt8 → Prop
  | quote   : Chars [] (Ascii.quote :: r) r
  | plain   : 0x20 ≤ c.toNat → c ≠ '"' → c ≠ '\\' → (Chars us s r) →
    Chars (utf16Char c ++ us) (String.utf8EncodeChar c ++ s) r
  | escape  : (e, u) ∈ escapes → (Chars us s r) → Chars (u :: us) (Ascii.backslash :: e :: s) r
  | unicode : [h₁, h₂, h₃, h₄].mapM hexDigit = some ds → (Chars us s r) →
    Chars (Nat.ofDigits 16 ds.reverse :: us) (Ascii.backslash :: 0x75 :: h₁ :: h₂ :: h₃ :: h₄ :: s) r

end Strings

section Numbers

def IsDigit (b : UInt8) : Prop :=
  0x30 ≤ b ∧ b ≤ 0x39

instance : DecidablePred IsDigit :=
  fun _ => inferInstanceAs (Decidable (_ ∧ _))

def Digits (ds : List UInt8) : Prop :=
  ds ≠ [] ∧ ∀ d ∈ ds, IsDigit d

inductive Fraction : List UInt8 → Prop
  | none : Fraction []
  | some : Digits ds → Fraction (Ascii.dot :: ds)

inductive Exponent : List UInt8 → Prop
  | none : Exponent []
  | some : e ∈ ([0x45, 0x65] : List UInt8) → sg ∈ [[], [Ascii.plus], [Ascii.minus]] → Digits ds →
    Exponent (e :: (sg ++ ds))

-- A zero at the beginning is allowed only as the one digit in front of the point.
inductive Number : List UInt8 → Prop
  | mk : sg ∈ [[], [Ascii.minus]] → Digits ds → (ds.head? = some 0x30 → ds = [0x30]) → Fraction fs → Exponent es →
    Number (sg ++ ds ++ fs ++ es)

-- The bytes that can stand in a number.
def InNumber (b : UInt8) : Prop :=
  IsDigit b ∨ b ∈ [Ascii.dot, Ascii.minus, Ascii.plus, 0x45, 0x65]

instance : DecidablePred InNumber :=
  fun _ => inferInstanceAs (Decidable (_ ∨ _))

def decimal (ds : List UInt8) : Nat :=
  Nat.ofDigits 10 (ds.map fun d => d.toNat - 0x30).reverse

-- The value of a number without fraction and exponent.
def integer : List UInt8 → Option Int
  | []     => none
  | b :: s =>
    if b = Ascii.minus then if ∀ d ∈ s, IsDigit d then some (-decimal s) else none
    else if ∀ d ∈ b :: s, IsDigit d then some (decimal (b :: s)) else none

end Numbers

section Lists

variable {α : Type}

-- The items of an array or an object, with a comma between each two.
inductive Items (close : UInt8) (item : α → List UInt8 → List UInt8 → Prop) : List α → List UInt8 → List UInt8 → Prop
  | last : Blanks s s₁ → item v s₁ s₂ → Blanks s₂ (close :: r) → Items close item [v] s r
  | more : Blanks s s₁ → item v s₁ s₂ → Blanks s₂ (Ascii.comma :: s₃) → (Items close item vs s₃ r) →
    Items close item (v :: vs) s r

inductive Enclosed (close : UInt8) (item : α → List UInt8 → List UInt8 → Prop) : List α → List UInt8 → List UInt8 → Prop
  | empty : Blanks s (close :: r) → Enclosed close item [] s r
  | items : Items close item vs s r → Enclosed close item vs s r

end Lists

section Values

inductive Member (value : Datum → List UInt8 → List UInt8 → Prop) : List Nat × Datum → List UInt8 → List UInt8 → Prop
  | mk : Chars key s s₁ → Blanks s₁ (Ascii.colon :: s₂) → Blanks s₂ s₃ → value t s₃ r →
    Member value (key, t) (Ascii.quote :: s) r

-- A number can be restricted further, and it ends where no byte of a number follows.
inductive ValueOf (number : List UInt8 → Prop) (inner : Datum → List UInt8 → List UInt8 → Prop) :
    Datum → List UInt8 → List UInt8 → Prop
  | null   : ValueOf number inner .null (0x6E :: 0x75 :: 0x6C :: 0x6C :: r) r
  | true   : ValueOf number inner (.bool true) (0x74 :: 0x72 :: 0x75 :: 0x65 :: r) r
  | false  : ValueOf number inner (.bool false) (0x66 :: 0x61 :: 0x6C :: 0x73 :: 0x65 :: r) r
  | number : Number n → number n → (∀ b ∈ r.head?, ¬InNumber b) → ValueOf number inner (.number n) (n ++ r) r
  | string : Chars us s r → ValueOf number inner (.string us) (Ascii.quote :: s) r
  | array  : Enclosed Ascii.closeBracket inner ts s r → ValueOf number inner (.array ts) (Ascii.openBracket :: s) r
  | object : Enclosed Ascii.closeBrace (Member inner) ms s r → ValueOf number inner (.object ms) (Ascii.openBrace :: s) r

-- A value with less than `n` levels below it.
def Value (number : List UInt8 → Prop) : Nat → Datum → List UInt8 → List UInt8 → Prop
  | 0     => fun _ _ _ => False
  | n + 1 => ValueOf number (Value number n)

def Text (number : List UInt8 → Prop) (n : Nat) (t : Datum) (s : List UInt8) : Prop :=
  ∃ s₁ s₂, Blanks s s₁ ∧ Value number n t s₁ s₂ ∧ Blanks s₂ []

end Values

section Unambiguous

-- A text has one beginning that the two rules agree on.
def Agree (p q : α → List UInt8 → List UInt8 → Prop) : Prop :=
  ∀ ⦃v w s r r'⦄, p v s r → q w s r' → v = w ∧ r = r'

theorem escapes_unique : ∀ p ∈ escapes, ∀ q ∈ escapes, p.1 = q.1 → p = q := by
  decide

theorem escapes_ne : ∀ p ∈ escapes, p.1 ≠ 0x75 := by
  decide

-- A character that can stand for itself is encoded without the bytes of a quote and a backslash.
theorem plain_bytes (hq : c ≠ '"') (hb : c ≠ '\\') :
    ∀ b ∈ String.utf8EncodeChar c, b ≠ Ascii.quote ∧ b ≠ Ascii.backslash := by
  rcases Nat.lt_or_ge c.toNat 0x80 with hc | hc
  · rw [encode_of_lt hc, List.forall_mem_singleton]
    have hn (d : Char) (hd : d.toNat < 0x80) (h : UInt8.ofNat c.toNat = UInt8.ofNat d.toNat) : c = d := by
      have h := congrArg UInt8.toNat h
      simp only [UInt8.toNat_ofNat'] at h
      exact Char.toNat_inj.mp (by omega)
    exact ⟨fun h => hq (hn _ (by decide) h), fun h => hb (hn _ (by decide) h)⟩
  · intro b hm
    have hle := encode_of_le hc b hm
    constructor <;> (rintro rfl; exact absurd hle (by decide))

theorem plain_ne (hq : c ≠ '"') (hb : c ≠ '\\') (he : String.utf8EncodeChar c ++ s = b :: t) :
    b ≠ Ascii.quote ∧ b ≠ Ascii.backslash := by
  refine plain_bytes hq hb b ?_
  cases hu : String.utf8EncodeChar c with
  | nil      => exact absurd hu String.utf8EncodeChar_ne_nil
  | cons d u =>
    rw [hu, List.cons_append] at he
    exact (List.cons.inj he).1 ▸ List.mem_cons_self

theorem chars_quote (h : Chars us (Ascii.quote :: s) r) : us = [] ∧ r = s := by
  generalize hx : Ascii.quote :: s = x at h
  cases h with
  | quote         => exact ⟨rfl, (List.cons.inj hx).2.symm⟩
  | plain _ hq hb => exact absurd rfl (plain_ne hq hb hx.symm).1
  | escape        => exact absurd (List.cons.inj hx).1 (by decide)
  | unicode       => exact absurd (List.cons.inj hx).1 (by decide)

theorem chars_plain (h : Chars us (String.utf8EncodeChar c ++ s) r) (hq : c ≠ '"') (hb : c ≠ '\\') :
    ∃ us', us = utf16Char c ++ us' ∧ Chars us' s r := by
  generalize hx : String.utf8EncodeChar c ++ s = x at h
  cases h with
  | quote         => exact absurd rfl (plain_ne hq hb hx).1
  | escape        => exact absurd rfl (plain_ne hq hb hx).2
  | unicode       => exact absurd rfl (plain_ne hq hb hx).2
  | plain _ _ _ h =>
    have ⟨hc, hs⟩ := encode_unique hx
    subst hc hs
    exact ⟨_, rfl, h⟩

theorem chars_escape (h : Chars us (Ascii.backslash :: e :: s) r) (he : (e, u) ∈ escapes) :
    ∃ us', us = u :: us' ∧ Chars us' s r := by
  generalize hx : Ascii.backslash :: e :: s = x at h
  cases h with
  | quote                 => exact absurd (List.cons.inj hx).1 (by decide)
  | plain _ hq hb         => exact absurd rfl (plain_ne hq hb hx.symm).2
  | unicode               => exact absurd (List.cons.inj (List.cons.inj hx).2).1 (escapes_ne _ he)
  | @escape e' u' us s' r he' h =>
    have ⟨hd, hs⟩ := List.cons.inj (List.cons.inj hx).2
    have hp := escapes_unique _ he _ he' hd
    rw [Prod.mk.injEq] at hp
    exact ⟨us, by rw [hp.2], hs ▸ h⟩

theorem chars_unicode (h : Chars us (Ascii.backslash :: 0x75 :: h₁ :: h₂ :: h₃ :: h₄ :: s) r)
    (hx : [h₁, h₂, h₃, h₄].mapM hexDigit = some ds) : ∃ us', us = Nat.ofDigits 16 ds.reverse :: us' ∧ Chars us' s r := by
  generalize hy : Ascii.backslash :: 0x75 :: h₁ :: h₂ :: h₃ :: h₄ :: s = y at h
  cases h with
  | quote         => exact absurd (List.cons.inj hy).1 (by decide)
  | plain _ hq hb => exact absurd rfl (plain_ne hq hb hy.symm).2
  | escape he     => exact absurd (List.cons.inj (List.cons.inj hy).2).1.symm (escapes_ne _ he)
  | unicode hx' h =>
    simp only [List.cons.injEq, true_and] at hy
    obtain ⟨rfl, rfl, rfl, rfl, rfl⟩ := hy
    rw [hx] at hx'
    exact ⟨_, by rw [Option.some.inj hx'], h⟩

theorem chars_agree : Agree Chars Chars := by
  intro us us' s r r' h h'
  induction h generalizing us' r' with
  | quote              =>
    have ⟨hu, hr⟩ := chars_quote h'
    exact ⟨hu.symm, hr.symm⟩
  | plain hc hq hb _ hi =>
    have ⟨us', hu, h'⟩ := chars_plain h' hq hb
    have ⟨he, hr⟩ := hi h'
    exact ⟨by rw [hu, he], hr⟩
  | escape he _ hi      =>
    have ⟨us', hu, h'⟩ := chars_escape h' he
    have ⟨he, hr⟩ := hi h'
    exact ⟨by rw [hu, he], hr⟩
  | unicode hx _ hi     =>
    have ⟨us', hu, h'⟩ := chars_unicode h' hx
    have ⟨he, hr⟩ := hi h'
    exact ⟨by rw [hu, he], hr⟩

section Lists

variable {α : Type} {p q : α → List UInt8 → List UInt8 → Prop} {close : UInt8}

-- The items begin with another byte than a blank and than the end of the list.
def Starts (close : UInt8) (p : α → List UInt8 → List UInt8 → Prop) : Prop :=
  ∀ ⦃v s r⦄, p v s r → ∃ b t, s = b :: t ∧ ¬IsBlank b ∧ b ≠ close

theorem blanks_agree (h : Agree p q) (hp : Starts close p) (hq : Starts close q) (hs : Blanks s s₁) (hv : p v s₁ r)
    (hs' : Blanks s s₁') (hw : q w s₁' r') : v = w ∧ r = r' := by
  have ⟨b, t, hb, hn, _⟩ := hp hv
  have ⟨b', t', hb', hn', _⟩ := hq hw
  subst hb hb'
  exact h hv (hs.unique hs' hn hn' ▸ hw)

theorem items_agree (h : Agree p q) (hp : Starts close p) (hq : Starts close q) (hc : close ≠ Ascii.comma)
    (hb : ¬IsBlank close) : Agree (Items close p) (Items close q) := by
  have hcomma : ¬IsBlank Ascii.comma := by decide
  intro vs ws s r r' hs hs'
  induction hs generalizing ws r' with
  | last hs hv hr =>
    cases hs' with
    | last hs' hw hr' =>
      have ⟨hv, he⟩ := blanks_agree h hp hq hs hv hs' hw
      subst hv he
      exact ⟨rfl, (List.cons.inj (hr.unique hr' hb hb)).2⟩
    | more hs' hw hr' _ =>
      have ⟨hv, he⟩ := blanks_agree h hp hq hs hv hs' hw
      subst hv he
      exact absurd (List.cons.inj (hr.unique hr' hb hcomma)).1 hc
  | more hs hv hr _ hi =>
    cases hs' with
    | last hs' hw hr' =>
      have ⟨hv, he⟩ := blanks_agree h hp hq hs hv hs' hw
      subst hv he
      exact absurd (List.cons.inj (hr.unique hr' hcomma hb)).1.symm hc
    | more hs' hw hr' hs'' =>
      have ⟨hv, he⟩ := blanks_agree h hp hq hs hv hs' hw
      subst hv he
      have ht := (List.cons.inj (hr.unique hr' hcomma hcomma)).2
      have ⟨hvs, he⟩ := hi (ht ▸ hs'')
      exact ⟨by rw [hvs], he⟩

-- A list that ends at once has no items.
theorem not_items (hp : Starts close p) (hb : ¬IsBlank close) (hs : Blanks s (close :: r)) : ¬Items close p vs s r' := by
  have hno (s₁ v s₂) (hs' : Blanks s s₁) (hv : p v s₁ s₂) : False := by
    have ⟨b, t, he, hn, hc⟩ := hp hv
    subst he
    exact hc (List.cons.inj (hs.unique hs' hb hn)).1.symm
  rintro (⟨hs', hv, _⟩ | ⟨hs', hv, _, _⟩) <;> exact hno _ _ _ hs' hv

theorem enclosed_agree (h : Agree p q) (hp : Starts close p) (hq : Starts close q) (hc : close ≠ Ascii.comma)
    (hb : ¬IsBlank close) : Agree (Enclosed close p) (Enclosed close q) := by
  rintro vs ws s r r' (hs | hs) (hs' | hs')
  · exact ⟨rfl, (List.cons.inj (hs.unique hs' hb hb)).2⟩
  · exact absurd hs' (not_items hq hb hs)
  · exact absurd hs (not_items hp hb hs')
  · exact items_agree h hp hq hc hb hs hs'

end Lists

section Values

variable {p q : Datum → List UInt8 → List UInt8 → Prop} {num num' : List UInt8 → Prop}

theorem member_starts : Starts Ascii.closeBrace (Member p)
  | _, _, _, .mk _ _ _ _ => ⟨_, _, rfl, by decide, by decide⟩

theorem member_agree (h : Agree p q) (hp : Starts close p) (hq : Starts close q) : Agree (Member p) (Member q) := by
  rintro ⟨k, t⟩ ⟨k', t'⟩ s r r' ⟨hk, hc, hs, hv⟩ ⟨hk', hc', hs', hv'⟩
  have ⟨hu, he⟩ := chars_agree hk hk'
  subst hu he
  obtain rfl := (List.cons.inj (hc.unique hc' (by decide) (by decide))).2
  have ⟨ht, hr⟩ := blanks_agree h hp hq hs hv hs' hv'
  exact ⟨by rw [ht], hr⟩

theorem isDigit_ne (h : IsDigit b) (hc : ¬IsDigit c) : b ≠ c :=
  fun he => hc (he ▸ h)

theorem digits_inNumber (h : Digits ds) : ∀ b ∈ ds, InNumber b :=
  fun b hb => .inl (h.2 b hb)

theorem number_inNumber (h : Number n) : ∀ b ∈ n, InNumber b := by
  have ⟨hsg, hd, _, hf, he⟩ := h
  simp only [List.forall_mem_append]
  refine ⟨⟨⟨?_, digits_inNumber hd⟩, ?_⟩, ?_⟩
  · have : ∀ sg ∈ ([[], [Ascii.minus]] : List (List UInt8)), ∀ b ∈ sg, InNumber b := by decide +kernel
    exact this _ hsg
  · cases hf with
    | none   => simp
    | some h => exact List.forall_mem_cons.mpr ⟨by decide, digits_inNumber h⟩
  · cases he with
    | none          => simp
    | some he hsg h =>
      have hl : ∀ e ∈ ([0x45, 0x65] : List UInt8), InNumber e := by decide +kernel
      have hs : ∀ sg ∈ ([[], [Ascii.plus], [Ascii.minus]] : List (List UInt8)), ∀ b ∈ sg, InNumber b := by decide +kernel
      exact List.forall_mem_cons.mpr ⟨hl _ he, List.forall_mem_append.mpr ⟨hs _ hsg, digits_inNumber h⟩⟩

theorem number_starts : Number n → ∃ b t, n = b :: t ∧ (IsDigit b ∨ b = Ascii.minus)
  | @Number.mk sg ds _ _ hsg ⟨hn, hd⟩ _ _ _ => by
    simp only [List.mem_cons, List.not_mem_nil, or_false] at hsg
    rcases hsg with rfl | rfl
    · cases ds with
      | nil       => contradiction
      | cons d ds => exact ⟨d, _, rfl, .inl (hd d List.mem_cons_self)⟩
    · exact ⟨Ascii.minus, _, rfl, .inr rfl⟩

-- A number goes up to the first byte that cannot stand in one.
theorem number_agree (hn : Number n) (hm : Number m) (hr : ∀ b ∈ r.head?, ¬InNumber b)
    (hr' : ∀ b ∈ r'.head?, ¬InNumber b) (he : n ++ r = m ++ r') : n = m ∧ r = r' := by
  have hspan {n r : List UInt8} (hn : Number n) (hr : ∀ b ∈ r.head?, ¬InNumber b) :
      (n ++ r).takeWhile (InNumber ·) = n := by
    rw [List.takeWhile_append_of_pos (by simpa using number_inNumber hn)]
    cases r <;> simp_all
  have h := hspan hn hr
  rw [he, hspan hm hr'] at h
  subst h
  exact ⟨rfl, List.append_cancel_left he⟩

theorem valueOf_iff : ValueOf num p t (b :: s) r ↔
    if b = Ascii.quote then ∃ us, t = .string us ∧ Chars us s r
    else if b = Ascii.openBracket then ∃ ts, t = .array ts ∧ Enclosed Ascii.closeBracket p ts s r
    else if b = Ascii.openBrace then ∃ ms, t = .object ms ∧ Enclosed Ascii.closeBrace (Member p) ms s r
    else if b = 0x6E then t = .null ∧ s = 0x75 :: 0x6C :: 0x6C :: r
    else if b = 0x74 then t = .bool true ∧ s = 0x72 :: 0x75 :: 0x65 :: r
    else if b = 0x66 then t = .bool false ∧ s = 0x61 :: 0x6C :: 0x73 :: 0x65 :: r
    else ∃ n, t = .number n ∧ Number n ∧ num n ∧ b :: s = n ++ r ∧ ∀ b ∈ r.head?, ¬InNumber b := by
  constructor
  · intro h
    generalize hx : b :: s = x at h
    cases h with
    | number hn hm hr =>
      have ⟨c, u, he, hc⟩ := number_starts hn
      have hcb : b = c := by
        rw [he, List.cons_append] at hx
        exact (List.cons.inj hx).1
      subst hcb
      have hne (d : UInt8) (hd : ¬(IsDigit d ∨ d = Ascii.minus)) : b ≠ d := fun h => hd (h ▸ hc)
      rw [if_neg (hne _ (by decide)), if_neg (hne _ (by decide)), if_neg (hne _ (by decide)),
        if_neg (hne _ (by decide)), if_neg (hne _ (by decide)), if_neg (hne _ (by decide))]
      exact ⟨_, rfl, hn, hm, rfl, hr⟩
    | null            =>
      obtain ⟨rfl, rfl⟩ := List.cons.inj hx
      exact .intro rfl rfl
    | true            =>
      obtain ⟨rfl, rfl⟩ := List.cons.inj hx
      exact .intro rfl rfl
    | false           =>
      obtain ⟨rfl, rfl⟩ := List.cons.inj hx
      exact .intro rfl rfl
    | string h        =>
      obtain ⟨rfl, rfl⟩ := List.cons.inj hx
      exact ⟨_, rfl, h⟩
    | array h         =>
      obtain ⟨rfl, rfl⟩ := List.cons.inj hx
      exact ⟨_, rfl, h⟩
    | object h        =>
      obtain ⟨rfl, rfl⟩ := List.cons.inj hx
      exact ⟨_, rfl, h⟩
  · split_ifs with h₁ h₂ h₃ h₄ h₅ h₆
    · rintro ⟨us, rfl, h⟩
      exact h₁ ▸ .string h
    · rintro ⟨us, rfl, h⟩
      exact h₂ ▸ .array h
    · rintro ⟨us, rfl, h⟩
      exact h₃ ▸ .object h
    · rintro ⟨rfl, rfl⟩
      exact h₄ ▸ .null
    · rintro ⟨rfl, rfl⟩
      exact h₅ ▸ .true
    · rintro ⟨rfl, rfl⟩
      exact h₆ ▸ .false
    · rintro ⟨n, rfl, hn, hm, he, hr⟩
      exact he ▸ .number hn hm hr

theorem valueOf_starts (hc : close ∈ [Ascii.closeBracket, Ascii.closeBrace]) : Starts close (ValueOf num p) := by
  have hl : ∀ b ∈ ([0x6E, 0x74, 0x66, Ascii.quote, Ascii.openBracket, Ascii.openBrace, Ascii.minus] : List UInt8),
      ∀ close ∈ [Ascii.closeBracket, Ascii.closeBrace], ¬IsBlank b ∧ b ≠ close := by
    decide +kernel
  have hd : ∀ b, IsDigit b → ∀ close ∈ [Ascii.closeBracket, Ascii.closeBrace], ¬IsBlank b ∧ b ≠ close := by
    decide +kernel
  intro t s r h
  cases h with
  | null           => exact ⟨_, _, rfl, hl _ (by simp) _ hc⟩
  | true           => exact ⟨_, _, rfl, hl _ (by simp) _ hc⟩
  | false          => exact ⟨_, _, rfl, hl _ (by simp) _ hc⟩
  | string         => exact ⟨_, _, rfl, hl _ (by simp) _ hc⟩
  | array          => exact ⟨_, _, rfl, hl _ (by simp) _ hc⟩
  | object         => exact ⟨_, _, rfl, hl _ (by simp) _ hc⟩
  | number hn _ _  =>
    have ⟨b, u, he, hb⟩ := number_starts hn
    refine ⟨b, u ++ r, by rw [he]; rfl, ?_⟩
    rcases hb with hb | rfl
    · exact hd b hb _ hc
    · exact hl _ (by simp) _ hc

theorem valueOf_agree (h : Agree p q) (hp : ∀ close ∈ [Ascii.closeBracket, Ascii.closeBrace], Starts close p)
    (hq : ∀ close ∈ [Ascii.closeBracket, Ascii.closeBrace], Starts close q) : Agree (ValueOf num p) (ValueOf num' q) := by
  intro t t' s r r' ht ht'
  cases s with
  | nil      =>
    have hc : Ascii.closeBrace ∈ [Ascii.closeBracket, Ascii.closeBrace] := by simp
    have ⟨b, u, he, _⟩ := valueOf_starts hc ht
    contradiction
  | cons b s =>
    rw [valueOf_iff] at ht ht'
    split_ifs at ht ht' with h₁ h₂ h₃ h₄ h₅ h₆
    · obtain ⟨us, rfl, hs⟩ := ht
      obtain ⟨us', rfl, hs'⟩ := ht'
      have ⟨hu, hr⟩ := chars_agree hs hs'
      exact ⟨by rw [hu], hr⟩
    · obtain ⟨us, rfl, hs⟩ := ht
      obtain ⟨us', rfl, hs'⟩ := ht'
      have ⟨hu, hr⟩ := enclosed_agree h (hp _ (by simp)) (hq _ (by simp)) (by decide) (by decide) hs hs'
      exact ⟨by rw [hu], hr⟩
    · obtain ⟨us, rfl, hs⟩ := ht
      obtain ⟨us', rfl, hs'⟩ := ht'
      have ha : Agree (Member p) (Member q) := member_agree h (hp _ (by simp)) (hq Ascii.closeBrace (by simp))
      have ⟨hu, hr⟩ := enclosed_agree ha member_starts member_starts (by decide) (by decide) hs hs'
      exact ⟨by rw [hu], hr⟩
    · obtain ⟨rfl, rfl⟩ := ht
      obtain ⟨rfl, hs⟩ := ht'
      exact ⟨rfl, by simpa using hs⟩
    · obtain ⟨rfl, rfl⟩ := ht
      obtain ⟨rfl, hs⟩ := ht'
      exact ⟨rfl, by simpa using hs⟩
    · obtain ⟨rfl, rfl⟩ := ht
      obtain ⟨rfl, hs⟩ := ht'
      exact ⟨rfl, by simpa using hs⟩
    · obtain ⟨n, rfl, hn, _, he, hr⟩ := ht
      obtain ⟨m, rfl, hm, _, he', hr'⟩ := ht'
      have ⟨hnm, hr⟩ := number_agree hn hm hr hr' (he.symm.trans he')
      exact ⟨by rw [hnm], hr⟩

theorem value_starts (hc : close ∈ [Ascii.closeBracket, Ascii.closeBrace]) (n : Nat) : Starts close (Value num n) := by
  cases n with
  | zero   => exact fun _ _ _ h => h.elim
  | succ n => exact valueOf_starts hc

theorem value_agree (n m : Nat) : Agree (Value num n) (Value num' m) := by
  induction n generalizing m with
  | zero      => exact fun _ _ _ _ _ h => h.elim
  | succ n hi =>
    cases m with
    | zero   => exact fun _ _ _ _ _ _ h => h.elim
    | succ m => exact valueOf_agree (hi m) (fun _ hc => value_starts hc n) (fun _ hc => value_starts hc m)

-- A text stands for one datum only.
theorem text_unique (h : Text num n t s) (h' : Text num' m t' s) : t = t' := by
  have ⟨s₁, s₂, hs, ht, _⟩ := h
  have ⟨s₁', s₂', hs', ht', _⟩ := h'
  have hc : Ascii.closeBrace ∈ [Ascii.closeBracket, Ascii.closeBrace] := by simp
  exact (blanks_agree (value_agree n m) (value_starts hc n) (value_starts hc m) hs ht hs' ht').1

end Values

end Unambiguous

section Bytes

variable {num : List UInt8 → Prop}

-- The bytes that can stand in a text.
def Printable (b : UInt8) : Prop :=
  0x20 ≤ b ∨ IsBlank b

instance : DecidablePred Printable :=
  fun _ => inferInstanceAs (Decidable (_ ∨ _))

theorem encode_printable (h : 0x20 ≤ c.toNat) : ∀ b ∈ String.utf8EncodeChar c, Printable b := by
  rcases Nat.lt_or_ge c.toNat 0x80 with hc | hc
  · rw [encode_of_lt hc, List.forall_mem_singleton]
    refine .inl ?_
    simp only [UInt8.le_iff_toNat_le, UInt8.toNat_ofNat']
    simp
    omega
  · intro b hb
    exact .inl (UInt8.le_trans (by decide) (encode_of_le hc b hb))

theorem isSome_of_mapM {f : α → Option β} {l : List α} (h : l.mapM f = some ds) : ∀ x ∈ l, (f x).isSome := by
  induction l generalizing ds with
  | nil         => simp
  | cons x l hi =>
    simp only [List.mapM_cons, Option.bind_eq_bind, Option.bind_eq_some_iff] at h
    have ⟨d, hd, ds', hs, _⟩ := h
    exact List.forall_mem_cons.mpr ⟨by simp [hd], hi hs⟩

theorem chars_printable (h : Chars us s r) : Over Printable s r := by
  have hb : Printable Ascii.backslash := by decide
  induction h with
  | quote             => exact (Over.refl _).cons (by decide)
  | plain hc _ _ _ hi => exact hi.append (encode_printable hc)
  | escape he _ hi    =>
    have hl : ∀ e ∈ escapes, Printable e.1 := by decide
    exact (hi.cons (hl _ he)).cons hb
  | unicode hx _ hi   =>
    have hd : ∀ b, (hexDigit b).isSome → Printable b := by decide +kernel
    have hx := fun b hb => hd b (isSome_of_mapM hx b hb)
    exact ((hi.append hx).cons (by decide)).cons hb

theorem items_printable {item : α → List UInt8 → List UInt8 → Prop} (hc : Printable close)
    (hi : ∀ v s r, item v s r → Over Printable s r) (h : Items close item vs s r) : Over Printable s r := by
  have hb {s r : List UInt8} : Blanks s r → Over Printable s r := Over.mono fun _ => .inr
  induction h with
  | last hs hv hr      => exact (hb hs).trans ((hi _ _ _ hv).trans ((hb hr).trans ((Over.refl _).cons hc)))
  | more hs hv hr _ hi' => exact (hb hs).trans ((hi _ _ _ hv).trans ((hb hr).trans (hi'.cons (by decide))))

theorem enclosed_printable {item : α → List UInt8 → List UInt8 → Prop} (hc : Printable close)
    (hi : ∀ v s r, item v s r → Over Printable s r) : Enclosed close item vs s r → Over Printable s r
  | .empty hs => (hs.mono fun _ => .inr).trans ((Over.refl _).cons hc)
  | .items h  => items_printable hc hi h

theorem member_printable (h : ∀ t s r, p t s r → Over Printable s r) : Member p m s r → Over Printable s r
  | .mk hk hc hs hv => by
    have hb {s r : List UInt8} : Blanks s r → Over Printable s r := Over.mono fun _ => .inr
    exact ((chars_printable hk).trans ((hb hc).trans (((hb hs).trans (h _ _ _ hv)).cons (by decide)))).cons (by decide)

theorem value_printable (h : Value num n t s r) : Over Printable s r := by
  induction n generalizing t s r with
  | zero      => exact h.elim
  | succ n hi =>
    have hw : ∀ u ∈ ([[0x6E, 0x75, 0x6C, 0x6C], [0x74, 0x72, 0x75, 0x65], [0x66, 0x61, 0x6C, 0x73, 0x65]] : List (List UInt8)),
        ∀ b ∈ u, Printable b := by
      decide +kernel
    cases h with
    | null          => exact (Over.refl r).append (hw [0x6E, 0x75, 0x6C, 0x6C] (by simp))
    | true          => exact (Over.refl r).append (hw [0x74, 0x72, 0x75, 0x65] (by simp))
    | false         => exact (Over.refl r).append (hw [0x66, 0x61, 0x6C, 0x73, 0x65] (by simp))
    | string h      => exact (chars_printable h).cons (by decide)
    | number hn _ _ =>
      have hd : ∀ b, InNumber b → Printable b := by decide +kernel
      exact (Over.refl r).append fun b hb => hd b (number_inNumber hn b hb)
    | array h       => exact (enclosed_printable (by decide) (fun _ _ _ => hi) h).cons (by decide)
    | object h      => exact (enclosed_printable (by decide) (fun _ _ _ => member_printable fun _ _ _ => hi) h).cons (by decide)

theorem text_printable (h : Text num n t s) : ∀ b ∈ s, Printable b := by
  have ⟨s₁, s₂, hs, ht, hr⟩ := h
  have hb {s r : List UInt8} : Blanks s r → Over Printable s r := Over.mono fun _ => .inr
  have ⟨u, hu, hp⟩ := (hb hs).trans ((value_printable ht).trans (hb hr))
  rw [List.append_nil] at hu
  exact hu ▸ hp

end Bytes

end JsonGrammar
