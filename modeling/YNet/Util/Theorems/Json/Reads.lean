import YNet.Util.Theorems.Json

open Cpp

namespace YNet.Json

-- What a reader can do with a text: it returns with a rest of the text or from behind its end, or it
-- reads behind the end. Otherwise it throws.
structure Reads (r : Except Failure (α × Option Bytes)) (left : Option Bytes → Prop) (behind : Prop) : Prop where
  ok_iff    : ∀ pos, (∃ v, r = .ok (v, pos)) ↔ left pos
  undefined : r = .error .undefined ↔ behind
  endless   : r ≠ .error .endless

namespace Reads

variable {r : Except Failure (α × Option Bytes)} {left left' : Option Bytes → Prop} {behind behind' : Prop}

theorem thrown (e : Exn) : Reads (α := α) (.error (.thrown e)) (fun _ => False) False := by
  constructor <;> simp

theorem undef : Reads (α := α) (.error .undefined) (fun _ => False) True := by
  constructor <;> simp

theorem ok (v : α) (pos : Option Bytes) : Reads (.ok (v, pos)) (· = pos) False := by
  constructor <;> simp [eq_comm]

theorem map (h : Reads r left behind) (g : α → β) : Reads (r.map fun x => (g x.1, x.2)) left behind := by
  have ⟨h₁, h₂, h₃⟩ := h
  cases r with
  | error e => constructor <;> simp_all [Except.map]
  | ok x    =>
    have ⟨v, pos⟩ := x
    constructor <;> simp_all [Except.map]

theorem bind (h : Reads r left behind) (g : α → β) : Reads (r >>= fun x => pure (g x.1, x.2)) left behind := by
  have h := h.map g
  cases r <;> exact h

theorem congr (h : Reads r left behind) (hl : ∀ pos, left pos ↔ left' pos) (hb : behind ↔ behind') :
    Reads r left' behind' where
  ok_iff pos := (h.ok_iff pos).trans (hl pos)
  undefined  := h.undefined.trans hb
  endless    := h.endless

theorem left_iff (h : Reads (.ok (v, pos')) left behind) : left pos ↔ pos = pos' := by
  rw [← h.ok_iff]
  simp [eq_comm]

theorem thrown_of_error (h : Reads (.error e : Except _ (α × _)) left False) : ∃ e', e = .thrown e' := by
  cases e with
  | thrown e'  => exact ⟨e', rfl⟩
  | undefined  => exact (h.undefined.mp rfl).elim
  | endless    => exact absurd rfl h.endless

theorem not_left (h : Reads r left behind) (hr : r = .error e) : ¬left pos := by
  rw [← h.ok_iff, hr]
  simp

end Reads

section Strings

-- The rest of a string behind the opening quote. A string without a closing quote ends with the text.
inductive Chars : Bytes → Option Bytes → Prop
  | nil     : Chars [] none
  | quote   : Chars (Ascii.quote :: s) (some s)
  | plain   : c ≠ Ascii.quote → c ≠ Ascii.backslash → (Chars s pos) → Chars (c :: s) pos
  | escape  : (unescape e).isSome → (Chars s pos) → Chars (Ascii.backslash :: e :: s) pos
  | unicode : (strto 16 [h₁, h₂, h₃, h₄]).isSome → (Chars s pos) →
    Chars (Ascii.backslash :: 'u'.toUInt8 :: h₁ :: h₂ :: h₃ :: h₄ :: s) pos

theorem backslash_ne : Ascii.backslash ≠ Ascii.quote := by
  decide

theorem unescape_u : unescape 'u'.toUInt8 = none := by
  decide

theorem chars_nil_iff : Chars [] pos ↔ pos = none := by
  constructor
  · intro h
    cases h
    rfl
  · rintro rfl
    exact .nil

theorem chars_quote_iff : Chars (Ascii.quote :: s) pos ↔ pos = some s := by
  constructor
  · intro h
    cases h
    case quote         => rfl
    case plain h _ _   => contradiction
  · rintro rfl
    exact .quote

theorem chars_plain_iff (hq : c ≠ Ascii.quote) (hb : c ≠ Ascii.backslash) : Chars (c :: s) pos ↔ Chars s pos := by
  constructor
  · intro h
    cases h
    case plain h => exact h
    all_goals contradiction
  · exact .plain hq hb

theorem chars_escape_iff (h : e ≠ 'u'.toUInt8) :
    Chars (Ascii.backslash :: e :: s) pos ↔ (unescape e).isSome ∧ Chars s pos := by
  constructor
  · intro h
    cases h
    case plain h _       => contradiction
    case escape he h     => exact ⟨he, h⟩
    case unicode         => contradiction
  · exact fun ⟨he, h⟩ => .escape he h

theorem chars_unicode_iff : Chars (Ascii.backslash :: 'u'.toUInt8 :: s) pos ↔
    ∃ h₁ h₂ h₃ h₄ t, s = h₁ :: h₂ :: h₃ :: h₄ :: t ∧ (strto 16 [h₁, h₂, h₃, h₄]).isSome ∧ Chars t pos := by
  constructor
  · intro h
    cases h
    case plain h _        => contradiction
    case escape he _      => simp [unescape_u] at he
    case unicode hx h     => exact ⟨_, _, _, _, _, rfl, hx, h⟩
  · rintro ⟨h₁, h₂, h₃, h₄, t, rfl, hx, h⟩
    exact .unicode hx h

theorem not_chars_backslash : ¬Chars [Ascii.backslash] pos := by
  intro h
  cases h
  contradiction

theorem parseChars_of_unicode (h₁ h₂ h₃ h₄ : UInt8) (s : Bytes) :
    parseChars (Ascii.backslash :: 'u'.toUInt8 :: h₁ :: h₂ :: h₃ :: h₄ :: s) =
      match stoul [h₁, h₂, h₃, h₄] 16 with
      | .error e => .error (.thrown e)
      | .ok cp   => (parseChars s).map fun r => (encodeUnit (cp % 2 ^ 16) ++ r.1, r.2) := by
  rw [parseChars.eq_def]
  simp only [if_neg backslash_ne, if_true]
  cases stoul [h₁, h₂, h₃, h₄] 16 with
  | error e => rfl
  | ok cp   => cases parseChars s <;> simp [Except.mapError, bind, Except.bind, Except.map, pure, Except.pure]

theorem parseChars_of_short (h : s.length < 4) :
    parseChars (Ascii.backslash :: 'u'.toUInt8 :: s) = .error (runtimeError "invalid unicode escape") := by
  rw [parseChars.eq_def]
  simp only [if_neg backslash_ne, if_true]
  split
  case h_1 => simp at h; omega
  case h_2 => rfl

theorem parseChars_of_invalid (hu : e ≠ 'u'.toUInt8) (h : unescape e = none) :
    parseChars (Ascii.backslash :: e :: s) = .error (runtimeError "invalid escape character") := by
  rw [parseChars.eq_def]
  simp only [if_neg backslash_ne, if_true, if_neg hu, h]
  rfl

theorem parseChars_reads (s : Bytes) : Reads (parseChars s) (Chars s) False := by
  induction hn : s.length using Nat.strong_induction_on generalizing s with
  | _ n hi =>
    subst hn
    match s with
    | []     => exact (Reads.ok [] none).congr (fun pos => chars_nil_iff.symm) .rfl
    | c :: s =>
      by_cases hq : c = Ascii.quote
      case pos =>
        subst hq
        rw [parseChars_quote]
        exact (Reads.ok [] (some s)).congr (fun pos => chars_quote_iff.symm) .rfl
      case neg =>
      by_cases hb : c = Ascii.backslash
      case neg =>
        rw [parseChars_plain hq hb]
        exact ((hi _ (by simp) s rfl).map _).congr (fun pos => (chars_plain_iff hq hb).symm) .rfl
      case pos =>
      subst hb
      match s with
      | []     => exact (Reads.thrown _).congr (fun pos => iff_of_false id not_chars_backslash) .rfl
      | e :: s =>
        by_cases hu : e = 'u'.toUInt8
        case neg =>
          cases he : unescape e with
          | none   =>
            rw [parseChars_of_invalid hu he]
            exact (Reads.thrown _).congr (fun pos => by simp [chars_escape_iff hu, he]) .rfl
          | some b =>
            rw [parseChars_escaped he]
            exact ((hi _ (by simp) s rfl).map _).congr (fun pos => by simp [chars_escape_iff hu, he]) .rfl
        case pos =>
          subst hu
          match s with
          | h₁ :: h₂ :: h₃ :: h₄ :: t =>
            have hx := stoul_ok_iff (s := [h₁, h₂, h₃, h₄]) (by simp)
            rw [parseChars_of_unicode]
            cases hc : stoul [h₁, h₂, h₃, h₄] 16 with
            | error e => exact (Reads.thrown _).congr (fun pos => by simp_all [chars_unicode_iff]) .rfl
            | ok cp   =>
              have hx : (strto 16 [h₁, h₂, h₃, h₄]).isSome := hx.mp ⟨cp, hc⟩
              exact ((hi _ (by simp; omega) t rfl).map _).congr (fun pos => by simp [chars_unicode_iff, hx]) .rfl
          | [] | [_] | [_, _] | [_, _, _] =>
            rw [parseChars_of_short (by simp)]
            exact (Reads.thrown _).congr (fun pos => by simp [chars_unicode_iff]) .rfl

end Strings

section Items

variable {close : UInt8} {item : Bytes → Option Bytes → Prop} {behind : Bytes → Prop}

-- The rest of an array or an object. The comma between two items can be left out.
inductive Items (close : UInt8) (item : Bytes → Option Bytes → Prop) : Bytes → Option Bytes → Prop
  | close : Items close item (close :: s) (some s)
  | cons  : c ≠ close → item (c :: s) (some pos) → (Items close item (skipSeparator Ascii.comma pos) pos') →
    Items close item (c :: s) pos'

-- The last item ends behind the end of the text, or reads there.
inductive OpenItems (close : UInt8) (item : Bytes → Option Bytes → Prop) (behind : Bytes → Prop) : Bytes → Prop
  | left   : c ≠ close → item (c :: s) none → OpenItems close item behind (c :: s)
  | behind : c ≠ close → behind (c :: s) → OpenItems close item behind (c :: s)
  | later  : c ≠ close → item (c :: s) (some pos) → (OpenItems close item behind (skipSeparator Ascii.comma pos)) →
    OpenItems close item behind (c :: s)

theorem length_skipSeparator_le (c : UInt8) (s : Bytes) : (skipSeparator c s).length ≤ s.length := by
  have hle (s : Bytes) : (skipWhitespace s).length ≤ s.length := List.length_dropWhile_le ..
  have h := hle s
  unfold skipSeparator
  cases hs : skipWhitespace s with
  | nil      => simp
  | cons b t =>
    rw [hs, List.length_cons] at h
    have := hle t
    dsimp only
    split_ifs
    · omega
    · exact h

theorem not_items_nil : ¬Items close item [] pos :=
  nofun

theorem not_openItems_nil : ¬OpenItems close item behind [] :=
  nofun

theorem items_close_iff : Items close item (close :: s) pos ↔ pos = some s := by
  constructor
  · intro h
    cases h
    case close       => rfl
    case cons hc _ _ => contradiction
  · rintro rfl
    exact .close

theorem items_cons_iff (hc : c ≠ close) : Items close item (c :: s) pos' ↔
    ∃ pos, item (c :: s) (some pos) ∧ Items close item (skipSeparator Ascii.comma pos) pos' := by
  constructor
  · intro h
    cases h
    case close       => contradiction
    case cons hi h   => exact ⟨_, hi, h⟩
  · exact fun ⟨pos, hi, h⟩ => .cons hc hi h

theorem openItems_iff (hc : c ≠ close) : OpenItems close item behind (c :: s) ↔ item (c :: s) none ∨ behind (c :: s) ∨
    ∃ pos, item (c :: s) (some pos) ∧ OpenItems close item behind (skipSeparator Ascii.comma pos) := by
  constructor
  · rintro (⟨_, h⟩ | ⟨_, h⟩ | ⟨_, h, hs⟩)
    · exact .inl h
    · exact .inr (.inl h)
    · exact .inr (.inr ⟨_, h, hs⟩)
  · rintro (h | h | ⟨pos, h, hs⟩)
    · exact .left hc h
    · exact .behind hc h
    · exact .later hc h hs

theorem parseItems_of_none {f : Reader α} (h : c ≠ close) (hv : f (c :: s) = .ok (v, none)) :
    parseItems close f (c :: s) = .error .undefined := by
  rw [parseItems, if_neg h, hv]
  rfl

theorem parseItems_reads {f : Reader α} (h : ∀ s, Reads (f s) (item s) (behind s))
    (hp : ∀ s pos, item s (some pos) → pos.length < s.length) (s : Bytes) :
    Reads (parseItems close f s) (Items close item s) (OpenItems close item behind s) := by
  induction hn : s.length using Nat.strong_induction_on generalizing s with
  | _ n hi =>
    subst hn
    cases s with
    | nil      =>
      rw [parseItems]
      exact (Reads.thrown _).congr (fun pos => iff_of_false id not_items_nil) (iff_of_false id not_openItems_nil)
    | cons c s =>
      by_cases hc : c = close
      case pos =>
        subst hc
        rw [parseItems_close]
        refine (Reads.ok [] (some s)).congr (fun pos => items_close_iff.symm) (iff_of_false id ?_)
        rintro ⟨⟩ <;> contradiction
      case neg =>
        have hv := h (c :: s)
        cases hf : f (c :: s) with
        | error e =>
          have hn (pos) : ¬item (c :: s) pos := hv.not_left hf
          have he := hv.endless
          have hu := hv.undefined
          rw [parseItems_of_error hc hf]
          cases e with
          | thrown e  => exact (Reads.thrown e).congr (by simp_all [items_cons_iff]) (by simp_all [openItems_iff])
          | undefined => exact Reads.undef.congr (by simp_all [items_cons_iff]) (by simp_all [openItems_iff])
          | endless   => exact absurd hf he
        | ok r    =>
          obtain ⟨v, pos⟩ := r
          have hb : ¬behind (c :: s) := by simp [← hv.undefined, hf]
          rw [hf] at hv
          have hl (pos') : item (c :: s) pos' ↔ pos' = pos := hv.left_iff
          cases pos with
          | none     =>
            rw [parseItems_of_none hc hf]
            exact Reads.undef.congr (by simp_all [items_cons_iff]) (by simp_all [openItems_iff])
          | some pos =>
            have hlt := hp (c :: s) pos ((hl _).mpr rfl)
            have hlt := (length_skipSeparator_le Ascii.comma pos).trans_lt hlt
            rw [parseItems_of_ok hc hf hlt]
            exact ((hi _ hlt _ rfl).map _).congr (by simp_all [items_cons_iff]) (by simp_all [openItems_iff])

end Items

section Members

variable {value : Bytes → Option Bytes → Prop} {behind : Bytes → Prop}

-- The colon between the key and the value can be left out.
inductive Member (value : Bytes → Option Bytes → Prop) : Bytes → Option Bytes → Prop
  | mk : skipWhitespace s = Ascii.quote :: t → Chars t (some u) → value (skipSeparator Ascii.colon u) pos →
    Member value s pos

-- The key ends with the text, or the value reads behind its end.
inductive OpenMember (behind : Bytes → Prop) : Bytes → Prop
  | key   : skipWhitespace s = Ascii.quote :: t → Chars t none → OpenMember behind s
  | value : skipWhitespace s = Ascii.quote :: t → Chars t (some u) → behind (skipSeparator Ascii.colon u) →
    OpenMember behind s

theorem chars_unique (h : Chars s pos) (h' : Chars s pos') : pos = pos' := by
  have hr := parseChars_reads s
  have ⟨v, hv⟩ := (hr.ok_iff pos).mpr h
  rw [hv] at hr
  exact (hr.left_iff.mp h').symm

theorem not_member (h : ∀ t, skipWhitespace s ≠ Ascii.quote :: t) : ¬Member value s pos
  | .mk hs _ _ => h _ hs

theorem not_openMember (h : ∀ t, skipWhitespace s ≠ Ascii.quote :: t) : ¬OpenMember behind s
  | .key hs _ | .value hs _ _ => h _ hs

theorem member_iff (hs : skipWhitespace s = Ascii.quote :: t) (ht : Chars t (some u)) :
    Member value s pos ↔ value (skipSeparator Ascii.colon u) pos := by
  refine ⟨fun ⟨hs', ht', hv⟩ => ?_, .mk hs ht⟩
  obtain rfl := List.tail_eq_of_cons_eq (hs.symm.trans hs')
  obtain rfl := Option.some.inj (chars_unique ht ht')
  exact hv

theorem openMember_iff (hs : skipWhitespace s = Ascii.quote :: t) (ht : Chars t (some u)) :
    OpenMember behind s ↔ behind (skipSeparator Ascii.colon u) := by
  refine ⟨?_, .value hs ht⟩
  rintro (⟨hs', ht'⟩ | ⟨hs', ht', hb⟩)
  all_goals
    obtain rfl := List.tail_eq_of_cons_eq (hs.symm.trans hs')
    have he := chars_unique ht ht'
  · contradiction
  · obtain rfl := Option.some.inj he
    exact hb

theorem parseMember_reads {f : Reader JsonValue} (h : ∀ s, Reads (f s) (value s) (behind s)) (s : Bytes) :
    Reads (parseMember f s) (Member value s) (OpenMember behind s) := by
  unfold parseMember
  cases hs : skipWhitespace s with
  | nil      =>
    have hn (t) : skipWhitespace s ≠ Ascii.quote :: t := by simp [hs]
    exact (Reads.thrown _).congr (fun pos => iff_of_false id (not_member hn)) (iff_of_false id (not_openMember hn))
  | cons c t =>
    by_cases hc : c = Ascii.quote
    case neg =>
      have hn (t) : skipWhitespace s ≠ Ascii.quote :: t := by simp [hs, hc]
      simp only [ne_eq, hc, not_false_eq_true, if_true]
      exact (Reads.thrown _).congr (fun pos => iff_of_false id (not_member hn)) (iff_of_false id (not_openMember hn))
    case pos =>
      subst hc
      have ht := parseChars_reads t
      simp only [ne_eq, not_true_eq_false, if_false]
      cases hp : parseChars t with
      | error e =>
        rw [hp] at ht
        have ⟨e', he⟩ := ht.thrown_of_error
        subst he
        have hn (pos) : ¬Chars t pos := ht.not_left rfl
        refine (Reads.thrown e').congr (fun pos => iff_of_false id ?_) (iff_of_false id ?_)
        · rintro ⟨hs', ht', _⟩
          exact hn _ (List.tail_eq_of_cons_eq (hs.symm.trans hs') ▸ ht')
        · rintro (⟨hs', ht'⟩ | ⟨hs', ht', _⟩) <;> exact hn _ (List.tail_eq_of_cons_eq (hs.symm.trans hs') ▸ ht')
      | ok r    =>
        have ⟨key, pos⟩ := r
        rw [hp] at ht
        cases pos with
        | none   =>
          have ht := ht.left_iff.mpr rfl
          refine Reads.undef.congr (fun pos => iff_of_false id ?_) (iff_of_true trivial (.key hs ht))
          rintro ⟨hs', ht', _⟩
          obtain rfl := List.tail_eq_of_cons_eq (hs.symm.trans hs')
          exact absurd (chars_unique ht ht') nofun
        | some u =>
          have ht := ht.left_iff.mpr rfl
          have hv := (h (skipSeparator Ascii.colon u)).map (Prod.mk key)
          have hv := hv.congr (fun pos => (member_iff hs ht).symm) (openMember_iff hs ht).symm
          simp only [bind, Except.bind]
          cases hf : f (skipSeparator Ascii.colon u) <;> (rw [hf] at hv; exact hv)

end Members

end YNet.Json
