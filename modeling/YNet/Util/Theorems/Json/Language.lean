import YNet.Util.Theorems.Json.Numerals

open Cpp

namespace YNet.Json

-- The texts that the parser takes for a value, up to what it leaves. Of `true`, `false` and `null` it
-- checks the first letter only.
inductive ValueOf (inner : Bytes → Option Bytes → Prop) : Bytes → Option Bytes → Prop
  | string : Chars s pos → ValueOf inner (Ascii.quote :: s) pos
  | number : Numeral (c :: t) → (isdigit c ∨ c = Ascii.minus) → (∀ b ∈ p.head?, ¬isNumberByte b) →
    ValueOf inner (c :: (t ++ p)) (some p)
  | array  : Items Ascii.closeBracket inner s pos → ValueOf inner (Ascii.openBracket :: s) pos
  | object : Items Ascii.closeBrace (Member inner) s pos → ValueOf inner (Ascii.openBrace :: s) pos
  | true   : ValueOf inner ('t'.toUInt8 :: s) (skip 4 ('t'.toUInt8 :: s))
  | false  : ValueOf inner ('f'.toUInt8 :: s) (skip 5 ('f'.toUInt8 :: s))
  | null   : ValueOf inner ('n'.toUInt8 :: s) (skip 4 ('n'.toUInt8 :: s))

inductive OpenOf (inner : Bytes → Option Bytes → Prop) (behind : Bytes → Prop) : Bytes → Prop
  | array  : OpenItems Ascii.closeBracket inner behind s → OpenOf inner behind (Ascii.openBracket :: s)
  | object : OpenItems Ascii.closeBrace (Member inner) (OpenMember behind) s → OpenOf inner behind (Ascii.openBrace :: s)

-- A value with less than `n` levels below it.
def Value : Nat → Bytes → Option Bytes → Prop
  | 0     => fun _ _ => False
  | n + 1 => ValueOf (Value n)

-- An array or an object that ends within a string, or within `true`, `false` or `null`.
def Open : Nat → Bytes → Prop
  | 0     => fun _ => False
  | n + 1 => OpenOf (Value n) (Open n)

section Progress

variable {item value inner : Bytes → Option Bytes → Prop}

theorem length_skipWhitespace_le (s : Bytes) : (skipWhitespace s).length ≤ s.length :=
  List.length_dropWhile_le ..

theorem chars_length_lt (h : Chars s (some pos)) : pos.length < s.length := by
  generalize hp : some pos = p at h
  induction h with
  | nil                => contradiction
  | quote              => simp [Option.some.inj hp]
  | plain _ _ _ hi     => exact (hi hp).trans (by simp)
  | escape _ _ hi      => exact (hi hp).trans (by simp)
  | unicode _ _ hi     => exact (hi hp).trans (by simp; omega)

theorem items_length_lt (h : Items close item s (some pos))
    (hp : ∀ s pos, item s (some pos) → pos.length < s.length) : pos.length < s.length := by
  generalize he : some pos = p at h
  induction h with
  | close            => simp [Option.some.inj he]
  | cons _ hs _ hi =>
    have h₁ := hi he
    have h₂ := hp _ _ hs
    have h₃ := length_skipSeparator_le Ascii.comma ‹_›
    omega

theorem member_length_lt (h : Member value s (some pos))
    (hp : ∀ s pos, value s (some pos) → pos.length < s.length) : pos.length < s.length := by
  cases h with
  | mk hs ht hv =>
    have h₁ := hp _ _ hv
    have h₂ := length_skipSeparator_le Ascii.colon ‹_›
    have h₃ := chars_length_lt ht
    have h₄ := length_skipWhitespace_le s
    rw [hs, List.length_cons] at h₄
    omega

theorem skip_eq_some (h : skip n s = some pos) : n ≤ s.length ∧ pos = s.drop n := by
  unfold skip at h
  split_ifs at h with hn
  exact ⟨hn, (Option.some.inj h).symm⟩

theorem skip_length_lt (h : skip n s = some pos) (hn : 0 < n) : pos.length < s.length := by
  have ⟨hle, hp⟩ := skip_eq_some h
  rw [hp, List.length_drop]
  omega

theorem value_length_lt (h : Value n s (some pos)) : pos.length < s.length := by
  induction n generalizing s pos with
  | zero      => contradiction
  | succ n hi =>
    generalize he : some pos = p at h
    cases h with
    | string h      =>
      have := chars_length_lt (he ▸ h)
      simp only [List.length_cons]
      omega
    | number        =>
      have := Option.some.inj he
      simp [this]
    | array h       =>
      have := items_length_lt (he ▸ h) fun _ _ => hi
      simp only [List.length_cons]
      omega
    | object h      =>
      have := items_length_lt (he ▸ h) fun _ _ hm => member_length_lt hm fun _ _ => hi
      simp only [List.length_cons]
      omega
    | true          => exact skip_length_lt he.symm (by decide)
    | false         => exact skip_length_lt he.symm (by decide)
    | null          => exact skip_length_lt he.symm (by decide)

end Progress

section Values

variable {inner : Bytes → Option Bytes → Prop} {behind : Bytes → Prop}

theorem valueOf_iff : ValueOf inner (c :: s) pos ↔
    if c = Ascii.quote then Chars s pos
    else if isdigit c ∨ c = Ascii.minus then
      ∃ t p, Numeral t ∧ c :: s = t ++ p ∧ pos = some p ∧ ∀ b ∈ p.head?, ¬isNumberByte b
    else if c = Ascii.openBracket then Items Ascii.closeBracket inner s pos
    else if c = Ascii.openBrace then Items Ascii.closeBrace (Member inner) s pos
    else if c = 't'.toUInt8 then pos = skip 4 (c :: s)
    else if c = 'f'.toUInt8 then pos = skip 5 (c :: s)
    else if c = 'n'.toUInt8 then pos = skip 4 (c :: s)
    else False := by
  constructor
  · intro h
    cases h with
    | string h            => exact h
    | @number c t p h hc hp =>
      have hq : c ≠ Ascii.quote := by
        rintro rfl
        exact absurd hc (by decide)
      rw [if_neg hq, if_pos hc]
      exact ⟨c :: t, p, h, rfl, rfl, hp⟩
    | array h             => exact h
    | object h            => exact h
    | true                => exact rfl
    | false               => exact rfl
    | null                => exact rfl
  · split_ifs with h₁ h₂ h₃ h₄ h₅ h₆ h₇
    · exact h₁ ▸ .string
    · rintro ⟨t, p, ht, he, rfl, hp⟩
      cases t with
      | nil      => exact absurd rfl ht.ne_nil
      | cons d t =>
        have ⟨hd, hs⟩ := List.cons.inj he
        subst hd hs
        exact .number ht h₂ hp
    · exact h₃ ▸ .array
    · exact h₄ ▸ .object
    · rintro rfl
      exact h₅ ▸ .true
    · rintro rfl
      exact h₆ ▸ .false
    · rintro rfl
      exact h₇ ▸ .null
    · exact False.elim

theorem openOf_iff : OpenOf inner behind (c :: s) ↔
    if c = Ascii.openBracket then OpenItems Ascii.closeBracket inner behind s
    else if c = Ascii.openBrace then OpenItems Ascii.closeBrace (Member inner) (OpenMember behind) s
    else False := by
  constructor
  · intro h
    cases h with
    | array h  => exact h
    | object h => exact h
  · split_ifs with h₁ h₂
    · exact h₁ ▸ .array
    · exact h₂ ▸ .object
    · exact False.elim

theorem not_openOf (h₁ : c ≠ Ascii.openBracket) (h₂ : c ≠ Ascii.openBrace) : ¬OpenOf inner behind (c :: s) := by
  rw [openOf_iff, if_neg h₁, if_neg h₂]
  exact id

end Values

theorem parseValue_reads (n : Nat) (s : Bytes) : Reads (parseValue n s) (Value n s) (Open n s) := by
  induction n generalizing s with
  | zero      => exact Reads.thrown _
  | succ n hi =>
    match s with
    | []     => exact (Reads.thrown _).congr (fun pos => iff_of_false id nofun) (iff_of_false id nofun)
    | c :: s =>
      have hv (pos) : ValueOf (Value n) (c :: s) pos ↔ Value (n + 1) (c :: s) pos := .rfl
      have ho : OpenOf (Value n) (Open n) (c :: s) ↔ Open (n + 1) (c :: s) := .rfl
      have hno (h₁ : c ≠ Ascii.openBracket) (h₂ : c ≠ Ascii.openBrace) : False ↔ Open (n + 1) (c :: s) :=
        iff_of_false id (ho.not.mp (not_openOf h₁ h₂))
      simp only [valueOf_iff] at hv
      simp only [openOf_iff] at ho
      rw [parseValue]
      split_ifs with h₁ h₂ h₃ h₄ h₅ h₆ h₇
      · simp only [if_pos h₁] at hv
        refine ((parseChars_reads s).bind _).congr hv (hno ?_ ?_) <;> (rintro rfl; exact absurd h₁ (by decide))
      · simp only [if_neg h₁, if_pos h₂] at hv
        refine (parseNumber_reads (c :: s)).congr hv (hno ?_ ?_) <;> (rintro rfl; exact absurd h₂ (by decide))
      · simp only [if_neg h₁, if_neg h₂, if_pos h₃] at hv ho
        exact ((parseItems_reads hi (fun s pos => value_length_lt) s).bind _).congr hv ho
      · simp only [if_neg h₁, if_neg h₂, if_neg h₃, if_pos h₄] at hv ho
        have hlt : ∀ s pos, Member (Value n) s (some pos) → pos.length < s.length :=
          fun s pos h => member_length_lt h fun s pos => value_length_lt
        exact ((parseItems_reads (parseMember_reads hi) hlt s).bind fun ms => JsonValue.object (collect ms)).congr hv ho
      · simp only [if_neg h₁, if_neg h₂, if_neg h₃, if_neg h₄, if_pos h₅] at hv
        exact (Reads.ok _ _).congr hv (hno h₃ h₄)
      · simp only [if_neg h₁, if_neg h₂, if_neg h₃, if_neg h₄, if_neg h₅, if_pos h₆] at hv
        exact (Reads.ok _ _).congr hv (hno h₃ h₄)
      · simp only [if_neg h₁, if_neg h₂, if_neg h₃, if_neg h₄, if_neg h₅, if_neg h₆, if_pos h₇] at hv
        exact (Reads.ok _ _).congr hv (hno h₃ h₄)
      · simp only [if_neg h₁, if_neg h₂, if_neg h₃, if_neg h₄, if_neg h₅, if_neg h₆, if_neg h₇] at hv
        exact (Reads.thrown _).congr hv (hno h₃ h₄)

-- The texts that are accepted, with blanks around a value of at most 64 levels below its root.
def Accepted (s : Bytes) : Prop :=
  ∃ pos, Value 65 (skipWhitespace s) (some pos) ∧ skipWhitespace pos = []

theorem parse_of_error (h : parseValue 65 (skipWhitespace s) = .error e) : parse s = .error e := by
  rw [parse, h]
  rfl

theorem parse_of_none (h : parseValue 65 (skipWhitespace s) = .ok (v, none)) :
    parse s = .error (runtimeError "trailing characters") := by
  rw [parse, h]
  rfl

theorem parse_of_some (h : parseValue 65 (skipWhitespace s) = .ok (v, some pos)) : parse s =
    if skipWhitespace pos ≠ [] then .error (runtimeError "trailing characters") else .ok v := by
  rw [parse, h]
  rfl

theorem parse_ok_iff (s : Bytes) : (∃ v, parse s = .ok v) ↔ Accepted s := by
  have hr := parseValue_reads 65 (skipWhitespace s)
  unfold Accepted
  cases h : parseValue 65 (skipWhitespace s) with
  | error e =>
    have hn (pos) : ¬Value 65 (skipWhitespace s) pos := hr.not_left h
    simp [parse_of_error h, hn]
  | ok r    =>
    have ⟨v, pos⟩ := r
    rw [h] at hr
    have hl (pos') : Value 65 (skipWhitespace s) pos' ↔ pos' = pos := hr.left_iff
    cases pos with
    | none     => simp [parse_of_none h, hl]
    | some pos =>
      rw [parse_of_some h]
      simp only [hl, Option.some.injEq, exists_eq_left]
      split_ifs with hp
      · exact iff_of_false nofun hp
      · exact iff_of_true ⟨v, rfl⟩ (not_not.mp hp)

theorem parse_error_iff {e : Failure} (he : ∀ x, e ≠ .thrown x) :
    parse s = .error e ↔ parseValue 65 (skipWhitespace s) = .error e := by
  have hn : runtimeError "trailing characters" ≠ e := (he _).symm
  cases h : parseValue 65 (skipWhitespace s) with
  | error e => rw [parse_of_error h, Except.error.injEq, Except.error.injEq]
  | ok r    =>
    have ⟨v, pos⟩ := r
    cases pos with
    | none     => simp [parse_of_none h, hn]
    | some pos =>
      rw [parse_of_some h]
      split_ifs <;> simp [hn]

theorem parse_undefined_iff : parse s = .error .undefined ↔ Open 65 (skipWhitespace s) := by
  have h : parse s = .error .undefined ↔ _ := parse_error_iff nofun
  rw [h, (parseValue_reads 65 _).undefined]

theorem parse_not_endless : parse s ≠ .error .endless := by
  have h : parse s = .error .endless ↔ _ := parse_error_iff nofun
  exact h.not.mpr (parseValue_reads 65 _).endless

-- The parser does not read behind the end of a text unless an array or an object in it is cut off within
-- a string, or within the letters of a literal.
theorem parse_inside_iff (s : Bytes) :
    (parse s ≠ .error .undefined ∧ parse s ≠ .error .endless) ↔ ¬Open 65 (skipWhitespace s) := by
  rw [and_iff_left parse_not_endless, ne_eq, parse_undefined_iff]

-- The letter is taken for the literal `true`, and the search for a comma begins behind it.
theorem open_cut : Open 65 (skipWhitespace "[t") := by
  have ht : Value 64 [0x74] none := ValueOf.true
  exact .array (.left (by decide) ht)

theorem not_parse_inside : ¬∀ s, parse s ≠ .error .undefined ∧ parse s ≠ .error .endless :=
  fun h => (h _).1 (parse_undefined_iff.mpr open_cut)

end YNet.Json
