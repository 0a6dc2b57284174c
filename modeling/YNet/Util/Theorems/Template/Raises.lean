import YNet.Util.Theorems.Template.Views

open Except

namespace YNet.TemplateEngine

theorem returns_trim_iff : Returns (trim s) ↔ ∃ b ∈ s, b ∉ Bytes.ofString " \t" := by
  unfold trim
  cases hf : s.findFirstNotOf " \t" with
  | none =>
    have hs := Bytes.findFirstNotOf_eq_none_iff.mp hf
    exact iff_of_false (Returns.not_error _) (by simpa using hs)
  | some first =>
    have hs : ¬∀ b ∈ s, b ∈ Bytes.ofString " \t" := by simp [← Bytes.findFirstNotOf_eq_none_iff, hf]
    cases hl : s.findLastNotOf " \t" with
    | none   => exact absurd (Bytes.findLastNotOf_eq_none_iff.mp hl) hs
    | some _ => exact iff_of_true (.ok _) (by simpa using hs)

def IsObject : JsonValue → Prop
  | .object _ => True
  | _         => False

-- The first tag of the text, if there is one, has another character than blanks in its name.
def Named (c : View) : Prop :=
  ∀ start tag pos, c.1.find openTag = some start → tagAt c.1 start = some (tag, pos) →
    ∃ b ∈ tag.name, b ∉ Bytes.ofString " \t"

-- If the first tag of the text is the one of a loop over a value, then this is an array of objects.
def Ranges (c : View) : Prop :=
  ∀ start name body pos key obj value, c.1.find openTag = some start →
    tagAt c.1 start = some (.each name (some body), pos) → trim name = .ok key → c.2 = .object obj →
    obj.lookup key = some value → ∃ items, value = .array items ∧ ∀ item ∈ items, IsObject item

def NoPartial (text : Bytes) : Prop :=
  ¬Bytes.ofString "\x7b\x7b> " <:+: text

section Raises

variable {loadFile : Bytes → Except Failure Bytes} {self : Bytes → JsonValue → Except Failure Bytes} {text : Bytes}

theorem NoPartial.of_isInfix (h : NoPartial text) (hi : t <:+: text) : NoPartial t :=
  fun ht => h (ht.trans hi)

theorem NoPartial.not_file (h : NoPartial text) (hf : text.find openTag = some start) :
    tagAt text start ≠ some (.file name, pos) := by
  intro ht
  have hi := (hasTag_of_file hf ht).1
  rw [List.append_assoc, ← List.append_assoc openTag] at hi
  exact h ((List.prefix_append ..).isInfix.trans hi)

-- A tag that is not closed ends the rendering.
theorem isSome_render {tag : Tag} {obj : List (Bytes × JsonValue)}
    (h : tag.render loadFile self v obj name = .ok output) : output.isSome ↔ tag.Closed := by
  have hsome {x : Except Failure Bytes} (h : (do return some (← x)) = Except.ok output) : output.isSome := by
    have ⟨_, _, he⟩ := Exn.bind_eq_ok h
    cases he
    rfl
  cases tag with
  | raw | var => cases h; exact iff_of_true rfl trivial
  | file =>
    have ⟨_, _, h⟩ := Exn.bind_eq_ok h
    exact iff_of_true (hsome h) trivial
  | cond _ body =>
    cases body with
    | none   => cases h; rfl
    | some _ => exact iff_of_true (hsome h) rfl
  | each _ body =>
    cases body with
    | none   => cases h; rfl
    | some _ => exact iff_of_true (hsome h) rfl

theorem returns_map_iff {x : Except Failure α} {f : α → β} : Returns (do return f (← x)) ↔ Returns x :=
  (Returns.bind_iff fun _ _ => iff_of_true (.ok _) trivial).trans (and_iff_left trivial)

theorem returns_renderIf_iff {w : Option JsonValue} :
    Returns (renderIf self body v w) ↔ ((∃ var, w = some var ∧ isTruthy var) → Returns (self body v)) := by
  cases w with
  | none     => exact iff_of_true (.ok _) (by simp)
  | some var =>
    rw [renderIf]
    split
    case isTrue ht  => simp [ht]
    case isFalse ht => exact iff_of_true (.ok _) (by simp [ht])

theorem returns_renderEach_iff {w : Option JsonValue} (hw : ∀ value, w = some value → ∃ items, value = .array items) :
    Returns (renderEach self body w) ↔ ∀ items, w = some (.array items) → ∀ item ∈ items, Returns (self body item) := by
  cases w with
  | none       => exact iff_of_true (.ok _) (by simp)
  | some value =>
    have ⟨items, he⟩ := hw value rfl
    subst he
    have hm : Returns (renderEach self body (some (.array items))) ↔ Returns (items.mapM (self body)) := returns_map_iff
    exact hm.trans (Returns.mapM_iff.trans (by simp))

-- Tags other than the ones of partials raise exceptions only where the texts in their place do.
theorem returns_render_iff {tag : Tag} {obj : List (Bytes × JsonValue)} {P : View → Prop}
    (hfile : ∀ name, tag ≠ .file name)
    (heach : ∀ n body, tag = .each n (some body) → ∀ value, obj.lookup name = some value → ∃ items, value = .array items)
    (hs : ∀ c, tag.Enters loadFile v obj name c → (Returns (self c.1 c.2) ↔ P c)) :
    Returns (tag.render loadFile self v obj name) ↔ ∀ c, tag.Enters loadFile v obj name c → P c := by
  cases tag with
  | raw | var => exact iff_of_true (.ok _) (by simp [Tag.Enters])
  | file name => exact absurd rfl (hfile name)
  | cond _ body =>
    cases body with
    | none      => exact iff_of_true (.ok _) (by simp [Tag.Enters])
    | some body =>
      refine returns_map_iff.trans (returns_renderIf_iff.trans ?_)
      constructor
      · rintro h c hc
        exact (hs c hc).mp (hc.2 ▸ h hc.1)
      · exact fun h hw => (hs (body, v) ⟨hw, rfl⟩).mpr (h _ ⟨hw, rfl⟩)
  | each _ body =>
    cases body with
    | none      => exact iff_of_true (.ok _) (by simp [Tag.Enters])
    | some body =>
      refine returns_map_iff.trans ((returns_renderEach_iff (heach _ body rfl)).trans ?_)
      constructor
      · rintro h c hc
        have ⟨items, hl, item, hi, he⟩ := hc
        exact (hs c hc).mp (he ▸ h items hl item hi)
      · exact fun h items hl item hi => (hs (body, item) ⟨items, hl, item, hi, rfl⟩).mpr (h _ ⟨items, hl, item, hi, rfl⟩)

theorem Named.of_no_tag (h : text.find openTag = none ∨ ∃ start, text.find openTag = some start ∧ tagAt text start = none) :
    Named (text, v) := by
  intro start tag pos hf ht
  rcases h with h | ⟨start', h, hn⟩
  · exact absurd (h.symm.trans hf) (by simp)
  · cases h.symm.trans hf
    exact absurd (hn.symm.trans ht) (by simp)

theorem named_iff (hf : text.find openTag = some start) (ht : tagAt text start = some (tag, pos)) :
    Named (text, v) ↔ Returns (trim tag.name) := by
  rw [returns_trim_iff]
  refine ⟨fun h => h _ _ _ hf ht, fun h start' tag' pos' hf' ht' => ?_⟩
  cases hf.symm.trans hf'
  cases ht.symm.trans ht'
  exact h

-- The texts in the place of a tag are shorter, and they are rendered with objects.
theorem enters_of_ranges {tag : Tag} {obj : List (Bytes × JsonValue)} (hr : Ranges (text, .object obj))
    (hf : text.find openTag = some start) (ht : tagAt text start = some (tag, pos)) (hn : trim tag.name = .ok name)
    (hfile : ∀ name, tag ≠ .file name) (hc : tag.Enters loadFile (.object obj) obj name c) :
    c.1 <:+: text ∧ c.1.length < text.length ∧ IsObject c.2 := by
  cases tag with
  | raw | var => exact absurd hc (by simp [Tag.Enters])
  | file name => exact absurd rfl (hfile name)
  | cond _ body =>
    cases body with
    | none      => exact absurd hc (by simp [Tag.Enters])
    | some body =>
      have ⟨_, he⟩ := hc
      have ⟨hi, hl⟩ := body_infix hf ht (.inl rfl)
      exact he ▸ ⟨hi, hl, trivial⟩
  | each _ body =>
    cases body with
    | none      => exact absurd hc (by simp [Tag.Enters])
    | some body =>
      have ⟨items, hlookup, item, hitem, he⟩ := hc
      have ⟨items', heq, hobj⟩ := hr _ _ _ _ _ _ _ hf ht hn rfl hlookup
      have ⟨hi, hl⟩ := body_infix hf ht (.inr rfl)
      cases heq
      exact he ▸ ⟨hi, hl, hobj item hitem⟩

-- A rendering does not raise exceptions exactly if all tags it comes across have names.
theorem renderString_returns_iff (hp : NoPartial text) (hv : IsObject v) (hr : Throughout loadFile Ranges (text, v))
    (hn : text.length < n) : (∃ page, renderString loadFile n text v = .ok page) ↔ Throughout loadFile Named (text, v) := by
  induction n generalizing text v with
  | zero      => omega
  | succ n hi =>
    cases hf : text.find openTag with
    | none =>
      rw [renderString_of_no_tag hf]
      exact iff_of_true (Returns.ok _) ((throughout_of_no_tag (.inl hf)).mpr (.of_no_tag (.inl hf)))
    | some start =>
      cases ht : tagAt text start with
      | none =>
        rw [renderString_of_unfinished hf ht]
        have hno : text.find openTag = none ∨ ∃ start, text.find openTag = some start ∧ tagAt text start = none :=
          .inr ⟨start, hf, ht⟩
        exact iff_of_true (Returns.ok _) ((throughout_of_no_tag hno).mpr (.of_no_tag hno))
      | some r =>
        obtain ⟨tag, pos⟩ := r
        cases v with
        | object obj =>
          cases hname : trim tag.name with
          | error e =>
            have hno : ¬Named (text, .object obj) := fun h => Returns.not_error e (hname ▸ (named_iff hf ht).mp h)
            refine iff_of_false ?_ fun h => hno (h _ .refl)
            rw [renderString]
            simp only [hf, renderTag_of_some ht, hname, getObject, bind, Except.bind, pure, Except.pure]
            exact Returns.not_error e
          | ok name =>
            obtain ⟨hrange, hrtag, hrrest⟩ := (throughout_of_tag hf ht hname).mp hr
            have hfile (name : Bytes) : tag ≠ .file name := fun he => hp.not_file hf (he ▸ ht)
            have htag : Returns (tag.render loadFile (renderString loadFile n) (.object obj) obj name) ↔
                ∀ c, tag.Enters loadFile (.object obj) obj name c → Throughout loadFile Named c := by
              refine returns_render_iff hfile (fun n body he value hl => ?_) fun c hc => ?_
              · subst he
                obtain ⟨items, he, _⟩ := hrange _ _ _ _ _ _ _ hf ht hname rfl hl
                exact ⟨items, he⟩
              · obtain ⟨hinf, hlt, hobj⟩ := enters_of_ranges hrange hf ht hname hfile hc
                exact hi (hp.of_isInfix hinf) hobj (hrtag c hc) (by omega)
            rw [renderString_of_tag hf ht hname, throughout_of_tag hf ht hname,
              and_iff_right ((named_iff hf ht).mpr (hname ▸ .ok name)), ← htag]
            refine Returns.bind_iff fun output ho => ?_
            have hclosed := isSome_render ho
            cases output with
            | none        => exact iff_of_true (.ok _) fun h => absurd (hclosed.mpr h) (by simp)
            | some output =>
              have hc : tag.Closed := hclosed.mp rfl
              have hlt := length_drop_lt hf ht
              have hrest := hi (hp.of_isInfix (List.drop_suffix ..).isInfix) hv (hrrest hc) (by omega)
              exact returns_map_iff.trans (hrest.trans (imp_iff_right hc).symm)
        | _ => exact absurd hv (by simp [IsObject])

end Raises

-- A tag without a name.
def blankText : Bytes :=
  "\x7b\x7b \x7d\x7d"

theorem tagAt_blankText : blankText.find openTag = some 0 ∧ tagAt blankText 0 = some (.var [Ascii.space], 5) := by
  constructor
  · decide +kernel
  · rfl

theorem blankText_ranges : Throughout (loadFile ∅) Ranges (blankText, .object []) := by
  have ⟨hf, ht⟩ := tagAt_blankText
  refine throughout_iff.mpr ⟨fun start name body pos _ _ _ hf' ht' => ?_, fun c hc => ?_⟩
  · cases hf.symm.trans hf'
    cases ht.symm.trans ht'
  · cases hc with
    | tag hf' ht' hn' =>
      cases hf.symm.trans hf'
      cases ht.symm.trans ht'
      contradiction
    | rest hf' ht' =>
      cases hf.symm.trans hf'
      cases ht.symm.trans ht'
      have hnone : Bytes.find (blankText.drop 5) openTag = none := by decide +kernel
      exact (throughout_of_no_tag (.inl hnone)).mpr fun _ _ _ _ _ _ _ h => absurd (hnone.symm.trans h) (by simp)

theorem blankText_noPartial : NoPartial blankText := by
  unfold NoPartial
  decide +kernel

theorem renderString_returns_iff_blank : (∃ page, renderString (loadFile ∅) 6 blankText (.object []) = .ok page) ↔
    Throughout (loadFile ∅) Named (blankText, .object []) :=
  renderString_returns_iff blankText_noPartial trivial blankText_ranges (by decide)

theorem not_renderString_returns : ¬∀ text v, NoPartial text → IsObject v →
    Throughout (loadFile ∅) Ranges (text, v) →
      ∃ n page, renderString (loadFile ∅) n text v = .ok page := by
  intro h
  have ⟨n, page, hp⟩ := h blankText (.object []) blankText_noPartial trivial blankText_ranges
  cases n with
  | zero   => contradiction
  | succ n =>
    have ⟨hf, ht⟩ := tagAt_blankText
    have htrim : trim [Ascii.space] = .error (.thrown .outOfRange) := rfl
    rw [renderString] at hp
    simp only [hf, renderTag_of_some ht, getObject, Tag.name, htrim, bind, Except.bind] at hp
    contradiction

end YNet.TemplateEngine
