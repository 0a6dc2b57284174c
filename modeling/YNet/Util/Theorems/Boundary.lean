import YNet.Cpp.Number
import YNet.Lib.Search
import YNet.Util.Theorems.MultipartParser

namespace YNet

-- The characters of the tokens of a header.
def isTchar (c : UInt8) : Bool :=
  Cpp.isalnum c || c ∈ ("!#$%&'*+-.^_`|~" : Bytes)

def IsToken (s : Bytes) : Prop :=
  s ≠ [] ∧ ∀ c ∈ s, isTchar c

-- A parameter of a header, with its value as a token or in quotes.
structure Parameter where
  name    : Bytes
  value   : Bytes
  quoted  : Bool
  isName  : IsToken name ∧ ∀ c ∈ name, ¬(0x41 ≤ c ∧ c ≤ 0x5A)
  isValue : if quoted then Ascii.quote ∉ value else IsToken value

namespace Parameter

def valueText (p : Parameter) : Bytes :=
  if p.quoted then Ascii.quote :: (p.value ++ [Ascii.quote]) else p.value

def text (ps : List Parameter) : Bytes :=
  ps.flatMap fun p => Ascii.semicolon :: Ascii.space :: (p.name ++ Ascii.equals :: p.valueText)

def contentType (ps : List Parameter) : Bytes :=
  Bytes.ofString "multipart/form-data" ++ text ps

def word : Bytes :=
  "boundary"

-- Whether the value is found to end where it does. Without quotes it has to be at the end of the header.
def Closed (p : Parameter) (rest : List Parameter) : Prop :=
  p.quoted ∨ rest = []

-- Whether the code comes upon a value of the right content. It looks at the first parameter with the
-- word in its name or its value: the equals sign behind the word is the one of this parameter, or of
-- the next one, or it stands in the quoted value, where only the closing quote may follow it.
inductive Selects (value : Bytes) : List Parameter → Prop
  | name : (word <:+: p.name) → (p.Closed rest) → (p.value = value) → Selects value (p :: rest)
  | next : (¬word <:+: p.name) → (p.value.find word = some i) → (Ascii.equals ∉ p.value.drop (i + word.length)) →
    (q.Closed rest) → (q.value = value) → Selects value (p :: q :: rest)
  | inner : (¬word <:+: p.name) → (p.value.find word = some i) → (p.value.drop (i + word.length) = t ++ [Ascii.equals]) →
    (Ascii.equals ∉ t) → ((text rest).takeWhile (· ≠ Ascii.quote) = value) → Selects value (p :: rest)
  | skip : (¬word <:+: p.name) → (¬word <:+: p.value) → Selects value rest → Selects value (p :: rest)

end Parameter

namespace MultipartParser

open Parameter

variable {a s : Bytes} {p q : Parameter} {ps rest : List Parameter}

-- What is taken for the value behind an equals sign.
def pick (s : Bytes) : Bytes :=
  if s.head? = some Ascii.quote then s.tail.takeWhile (· ≠ Ascii.quote) else s

theorem word_no_separator : Ascii.semicolon ∉ word ∧ Ascii.space ∉ word ∧ Ascii.equals ∉ word ∧ Ascii.quote ∉ word := by
  decide +kernel

theorem boundaryOf_eq (s : Bytes) : boundaryOf s = match Bytes.indexOf word s with
    | none       => []
    | some start => pick ((s.drop start).dropWhile (· ≠ Ascii.equals)).tail := by
  rw [boundaryOf, Bytes.find_zero]
  rfl

theorem boundaryOf_none (h : ¬word <:+: s) : boundaryOf s = [] := by
  have : Bytes.indexOf word s = none := Bytes.indexOf_eq_none_iff.mpr fun i _ hp =>
    h (hp.isInfix.trans (List.drop_suffix ..).isInfix)
  rw [boundaryOf_eq, this]

theorem boundaryOf_skip (hc : c ∉ word) (h : ¬word <:+: a) : boundaryOf (a ++ c :: s) = boundaryOf s := by
  rw [boundaryOf_eq, boundaryOf_eq, Bytes.indexOf_append_cons hc h]
  cases hi : Bytes.indexOf word s with
  | none   => rfl
  | some i =>
    have hd : (a ++ c :: s).drop (a.length + 1 + i) = s.drop i := by
      rw [← List.drop_drop, List.append_cons, List.drop_left' (by simp)]
    simp only [Option.map_some, hd]

theorem dropWhile_skip (h : Ascii.equals ∉ a) : (a ++ s).dropWhile (· ≠ Ascii.equals) = s.dropWhile (· ≠ Ascii.equals) := by
  refine List.dropWhile_append_of_pos fun b hb => ?_
  simpa using fun he : b = Ascii.equals => h (he ▸ hb)

theorem boundaryOf_hit (h : Bytes.indexOf word a = some i) :
    boundaryOf (a ++ s) = pick ((a.drop (i + word.length) ++ s).dropWhile (· ≠ Ascii.equals)).tail := by
  have hp := List.prefix_iff_eq_append.mp (Bytes.prefix_drop_of_indexOf h)
  have hi : i ≤ a.length := (Bytes.indexOf_eq_some_iff.mp h).2.1
  rw [boundaryOf_eq, Bytes.indexOf_append h]
  dsimp only
  rw [List.drop_append_of_le_length hi, ← hp, List.append_assoc, dropWhile_skip word_no_separator.2.2.1, List.drop_drop]

theorem tchar_separators : ¬isTchar Ascii.equals ∧ ¬isTchar Ascii.quote := by
  decide +kernel

theorem equals_not_mem_name (p : Parameter) : Ascii.equals ∉ p.name := fun h =>
  tchar_separators.1 (p.isName.1.2 _ h)

theorem quote_not_mem_value (p : Parameter) : Ascii.quote ∉ p.value := by
  have hv := p.isValue
  split at hv
  case isTrue  => exact hv
  case isFalse => exact fun h => tchar_separators.2 (hv.2 _ h)

theorem equals_not_mem_value (h : p.quoted = false) : Ascii.equals ∉ p.value := by
  have hv := p.isValue
  rw [if_neg (by simp [h])] at hv
  exact fun h => tchar_separators.1 (hv.2 _ h)

theorem text_cons : text (p :: rest) = Ascii.semicolon :: Ascii.space :: (p.name ++ Ascii.equals :: (p.valueText ++ text rest)) := by
  simp [text]

theorem length_value_lt (h : p ∈ ps) : p.value.length < (text ps).length := by
  have ⟨l₁, l₂, he⟩ := List.append_of_mem h
  have ht : text ps = text l₁ ++ text (p :: l₂) := by simp [he, text]
  have hv : p.value.length ≤ p.valueText.length := by
    unfold valueText
    split
    · simp only [List.length_cons, List.length_append]
      omega
    · exact le_rfl
  rw [ht, text_cons]
  simp only [List.length_append, List.length_cons]
  omega

theorem takeWhile_quote {t : Bytes} (h : Ascii.quote ∉ a) : (a ++ Ascii.quote :: t).takeWhile (· ≠ Ascii.quote) = a := by
  rw [List.takeWhile_append_of_pos fun b hb => by simpa using fun he : b = Ascii.quote => h (he ▸ hb)]
  simp

-- The value of a parameter, with the rest of the header if there are no quotes.
theorem pick_valueText : pick (p.valueText ++ text rest) = if p.quoted then p.value else p.value ++ text rest := by
  cases hq : p.quoted with
  | true  =>
    have : p.valueText = Ascii.quote :: (p.value ++ [Ascii.quote]) := by simp [valueText, hq]
    rw [this, pick, List.cons_append, if_pos List.head?_cons, List.tail_cons, List.append_assoc, if_pos rfl]
    exact takeWhile_quote (quote_not_mem_value p)
  | false =>
    have hv : p.valueText = p.value := by simp [valueText, hq]
    have hh : (p.value ++ text rest).head? ≠ some Ascii.quote := by
      have hi := p.isValue
      rw [if_neg (by simp [hq])] at hi
      rw [List.head?_append_of_ne_nil _ hi.1]
      exact fun h => (quote_not_mem_value p) (List.mem_of_mem_head? h)
    rw [hv, pick, if_neg hh]
    rfl

-- The value is found where it is looked for if and only if its end is recognized.
theorem pick_valueText_iff (h : q ∈ p :: rest) :
    pick (p.valueText ++ text rest) = q.value ↔ p.Closed rest ∧ p.value = q.value := by
  rw [pick_valueText, Closed]
  cases hq : p.quoted with
  | true  => simp
  | false =>
    by_cases hr : rest = []
    case pos => simp [hr, text]
    case neg =>
      simp only [hr, Bool.false_eq_true, if_false, or_self, false_and, iff_false]
      intro he
      have hl := congrArg List.length he
      rw [List.length_append] at hl
      rcases List.mem_cons.mp h with rfl | hm
      · have ht : (text rest).length ≠ 0 := by
          cases rest with
          | nil    => contradiction
          | cons p => simp [text_cons]
        omega
      · have := length_value_lt hm
        omega

theorem exists_indexOf (h : word <:+: a) : ∃ i, Bytes.indexOf word a = some i := by
  cases hi : Bytes.indexOf word a with
  | some i => exact ⟨i, rfl⟩
  | none   =>
    have ⟨u, t, he⟩ := h
    have hn := Bytes.indexOf_eq_none_iff.mp hi u.length (by rw [← he]; simp)
    exact absurd ⟨t, by rw [← he, List.append_assoc, List.drop_left]⟩ hn

theorem infix_of_indexOf (h : Bytes.indexOf word a = some i) : word <:+: a :=
  (Bytes.prefix_drop_of_indexOf h).isInfix.trans (List.drop_suffix ..).isInfix

theorem boundaryOf_text : boundaryOf (text (p :: rest)) = boundaryOf (p.name ++ Ascii.equals :: (p.valueText ++ text rest)) := by
  have hn : ¬word <:+: [] := by decide +kernel
  rw [text_cons, ← List.nil_append (Ascii.semicolon :: _), boundaryOf_skip word_no_separator.1 hn,
    ← List.nil_append (Ascii.space :: _), boundaryOf_skip word_no_separator.2.1 hn]

theorem boundaryOf_name (h : word <:+: p.name) : boundaryOf (text (p :: rest)) = pick (p.valueText ++ text rest) := by
  have ⟨i, hi⟩ := exists_indexOf h
  have ht : Ascii.equals ∉ p.name.drop (i + word.length) := fun hm => equals_not_mem_name p (List.mem_of_mem_drop hm)
  rw [boundaryOf_text, boundaryOf_hit hi, dropWhile_skip ht]
  simp

-- The closing quote, if there is one, and the parameters that follow.
def behind (p : Parameter) (rest : List Parameter) : Bytes :=
  if p.quoted then Ascii.quote :: text rest else text rest

theorem boundaryOf_value (h : ¬word <:+: p.name) :
    boundaryOf (text (p :: rest)) = boundaryOf (p.value ++ behind p rest) := by
  rw [boundaryOf_text, boundaryOf_skip word_no_separator.2.2.1 h, valueText, behind]
  split
  case isFalse => rfl
  case isTrue  =>
    rw [List.cons_append, ← List.nil_append (Ascii.quote :: _), boundaryOf_skip word_no_separator.2.2.2 (by decide +kernel),
      List.append_assoc]
    rfl

theorem boundaryOf_behind (h : ¬word <:+: p.value) : boundaryOf (p.value ++ behind p rest) = boundaryOf (text rest) := by
  unfold behind
  split
  case isTrue  => exact boundaryOf_skip word_no_separator.2.2.2 h
  case isFalse =>
    cases rest with
    | nil       =>
      have ht : text [] = [] := rfl
      rw [ht, List.append_nil, boundaryOf_none h, boundaryOf_none (by decide +kernel)]
    | cons q rest =>
      have hn : ¬word <:+: [] := by decide +kernel
      rw [text_cons, boundaryOf_skip word_no_separator.1 h, ← List.nil_append (Ascii.semicolon :: _),
        boundaryOf_skip word_no_separator.1 hn]

-- If no equals sign follows in the value, the one of the next parameter is taken.
theorem pick_next (h : Ascii.equals ∉ t) :
    pick ((t ++ behind p (q :: rest)).dropWhile (· ≠ Ascii.equals)).tail = pick (q.valueText ++ text rest) := by
  have hb : behind p (q :: rest) = ((if p.quoted then [Ascii.quote] else []) ++ [Ascii.semicolon, Ascii.space] ++ q.name) ++
      Ascii.equals :: (q.valueText ++ text rest) := by
    rw [behind, text_cons]
    split <;> simp
  have hm : Ascii.equals ∉ (if p.quoted then [Ascii.quote] else []) ++ [Ascii.semicolon, Ascii.space] ++ q.name := by
    have := equals_not_mem_name q
    split <;> simpa [Ascii.equals, Ascii.semicolon, Ascii.space, Ascii.quote] using this
  rw [dropWhile_skip h, hb, dropWhile_skip hm]
  simp

-- Otherwise the rest of the value is taken, with all that follows.
theorem pick_inner {u t : Bytes} (h : Ascii.equals ∉ u) (hq : p.quoted = true) (ht : Ascii.quote ∉ t) :
    pick ((u ++ Ascii.equals :: t ++ behind p rest).dropWhile (· ≠ Ascii.equals)).tail =
      if t = [] then (text rest).takeWhile (· ≠ Ascii.quote) else t ++ Ascii.quote :: text rest := by
  have hb : behind p rest = Ascii.quote :: text rest := by rw [behind, if_pos hq]
  rw [hb, List.append_assoc, dropWhile_skip h]
  cases t with
  | nil      => simp [pick]
  | cons b t =>
    have hne : b ≠ Ascii.quote := fun he => ht (by simp [he])
    simp [pick, hne]

theorem boundaryOf_iff (h : q ∈ ps) (hn : q.name = word) : boundaryOf (text ps) = q.value ↔ Selects q.value ps := by
  induction ps with
  | nil            => contradiction
  | cons p rest hi =>
    by_cases hw : word <:+: p.name
    case pos =>
      rw [boundaryOf_name hw, pick_valueText_iff h]
      refine ⟨fun ⟨hc, he⟩ => .name hw hc he, fun hs => ?_⟩
      cases hs with
      | name _ hc he => exact ⟨hc, he⟩
      | next hn | inner hn | skip hn => exact absurd hw hn
    case neg =>
      have hr : q ∈ rest := (List.mem_cons.mp h).resolve_left fun he => hw (by rw [← he, hn])
      rw [boundaryOf_value hw]
      cases hv : Bytes.indexOf word p.value with
      | none   =>
        have hnv : ¬word <:+: p.value := fun hm => by
          have ⟨i, hi⟩ := exists_indexOf hm
          simp [hv] at hi
        rw [boundaryOf_behind hnv, hi hr]
        refine ⟨fun hs => .skip hw hnv hs, fun hs => ?_⟩
        cases hs with
        | name hn                 => exact absurd hn hw
        | next _ hf | inner _ hf  => rw [Bytes.find_zero, hv] at hf; contradiction
        | skip _ _ hs             => exact hs
      | some i =>
        have hiv := infix_of_indexOf hv
        have hf : p.value.find word = some i := Bytes.find_zero.trans hv
        rw [boundaryOf_hit hv]
        by_cases he : Ascii.equals ∈ p.value.drop (i + word.length)
        case neg =>
          cases rest with
          | nil          => contradiction
          | cons q' rest =>
            rw [pick_next he, pick_valueText_iff hr]
            refine ⟨fun ⟨hc, hq⟩ => .next hw hf he hc hq, fun hs => ?_⟩
            cases hs with
            | name hn                 => exact absurd hn hw
            | next _ _ _ hc hq        => exact ⟨hc, hq⟩
            | inner _ hf' ht          =>
              cases hf.symm.trans hf'
              exact absurd (ht ▸ List.mem_append_right _ (List.mem_singleton_self _)) he
            | skip _ hn _             => exact absurd hiv hn
        case pos =>
          have ⟨u, t, hu, hm⟩ := List.eq_append_cons_of_mem he
          have hq : p.quoted = true := by
            by_contra hq
            exact equals_not_mem_value (by simpa using hq) (List.mem_of_mem_drop he)
          have ht : Ascii.quote ∉ t := by
            intro hmem
            have : Ascii.quote ∈ p.value.drop (i + word.length) := by simp [hu, hmem]
            exact quote_not_mem_value p (List.mem_of_mem_drop this)
          rw [hu, pick_inner hm hq ht]
          refine ⟨fun h => ?_, fun hs => ?_⟩
          · by_cases htn : t = []
            case pos =>
              rw [if_pos htn] at h
              exact .inner hw hf (htn ▸ hu) hm h
            case neg =>
              rw [if_neg htn] at h
              have hl := congrArg List.length h
              have := length_value_lt hr
              simp only [List.length_append, List.length_cons] at hl
              omega
          · cases hs with
            | name hn                  => exact absurd hn hw
            | next _ hf' hne           =>
              cases hf.symm.trans hf'
              exact absurd he hne
            | inner _ hf' hu' hm' h    =>
              cases hf.symm.trans hf'
              have ht : _ ++ Ascii.equals :: [] = u ++ Ascii.equals :: t := hu'.symm.trans hu
              cases Bytes.eq_of_append_cons hm' hm ht
              rw [if_pos (List.cons.inj (List.append_cancel_left ht)).2.symm, h]
            | skip _ hn _              => exact absurd hiv hn

end MultipartParser

namespace Parameter

-- The boundary is extracted if and only if the search ends at a value with its content.
theorem extractBoundary_iff {p : Parameter} {ps : List Parameter} (h : p ∈ ps) (hn : p.name = word) :
    MultipartParser.extractBoundary (contentType ps) = .ok p.value ↔ Selects p.value ps := by
  have hw : ¬word <:+: Bytes.ofString "multipart/form-data" := by decide +kernel
  have hc : MultipartParser.boundaryOf (contentType ps) = MultipartParser.boundaryOf (text ps) := by
    cases ps with
    | nil       => contradiction
    | cons q ps =>
      rw [contentType, MultipartParser.text_cons, MultipartParser.boundaryOf_skip MultipartParser.word_no_separator.1 hw,
        ← List.nil_append (Ascii.semicolon :: _),
        MultipartParser.boundaryOf_skip MultipartParser.word_no_separator.1 (by decide +kernel)]
  rw [MultipartParser.extractBoundary_eq, hc, Except.ok.injEq]
  exact MultipartParser.boundaryOf_iff h hn

def boundary (quoted : Bool) : Parameter where
  name    := "boundary"
  value   := "abc"
  quoted
  isName  := ⟨⟨by decide +kernel, by decide +kernel⟩, by decide +kernel⟩
  isValue := by
    cases quoted
    · exact ⟨by decide +kernel, by decide +kernel⟩
    · exact (by decide +kernel : Ascii.quote ∉ ("abc" : Bytes))

def charset : Parameter where
  name    := "charset"
  value   := "utf-8"
  quoted  := false
  isName  := ⟨⟨by decide +kernel, by decide +kernel⟩, by decide +kernel⟩
  isValue := ⟨by decide +kernel, by decide +kernel⟩

theorem extractBoundary_iff_quoted :
    MultipartParser.extractBoundary (contentType [charset, boundary true, charset]) = .ok "abc" :=
  (extractBoundary_iff (p := boundary true) (by simp) rfl).mpr
    (.skip (by decide +kernel) (by decide +kernel) (.name List.infix_rfl (.inl rfl) rfl))

-- Without quotes, the parameter that follows is taken for a part of the boundary.
theorem not_extractBoundary : ¬∀ (p : Parameter) (ps : List Parameter), p ∈ ps → p.name = word → (ps.map name).Nodup →
    MultipartParser.extractBoundary (contentType ps) = .ok p.value := by
  intro h
  have he := h (boundary false) [boundary false, charset] (by simp) rfl (by decide +kernel)
  exact absurd he (by decide +kernel)

end Parameter
end YNet
