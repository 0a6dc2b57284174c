import YNet.Util.Theorems.TemplateEngine

namespace YNet.TemplateEngine

-- A tag as it stands in a text. Its name is not trimmed yet, and it has no body if it is not closed.
inductive Tag
  | raw (name : Bytes)
  | var (name : Bytes)
  | file (name : Bytes)
  | cond (name : Bytes) (body : Option Bytes)
  | each (name : Bytes) (body : Option Bytes)

-- A text together with the variables that it is rendered with.
abbrev View := Bytes × JsonValue

namespace Tag

def name : Tag → Bytes
  | .raw name | .var name | .file name | .cond name _ | .each name _ => name

def Closed : Tag → Prop
  | .cond _ body | .each _ body => body.isSome
  | _                           => True

section Render

variable (loadFile : Bytes → Except Failure Bytes) (self : Bytes → JsonValue → Except Failure Bytes)

def render (vars : JsonValue) (obj : List (Bytes × JsonValue)) (name : Bytes) : Tag → Except Failure (Option Bytes)
  | .raw _              => return some ((obj.lookup name).elim [] Json.toText)
  | .var _              => return some ((obj.lookup name).elim [] fun var => htmlEscape (Json.toText var))
  | .file _             => return some (← self (← loadFile name) vars)
  | .cond _ (some body) => return some (← renderIf self body vars (obj.lookup name))
  | .each _ (some body) => return some (← renderEach self body (obj.lookup name))
  | .cond _ none        => return none
  | .each _ none        => return none

-- The texts that are rendered in the place of the tag.
def Enters (vars : JsonValue) (obj : List (Bytes × JsonValue)) (name : Bytes) : Tag → View → Prop
  | .file _, c             => ∃ text, loadFile name = .ok text ∧ c = (text, vars)
  | .cond _ (some body), c => (∃ var, obj.lookup name = some var ∧ isTruthy var) ∧ c = (body, vars)
  | .each _ (some body), c => ∃ vs, obj.lookup name = some (.array vs) ∧ ∃ item ∈ vs, c = (body, item)
  | _, _                   => False

end Render

end Tag

-- The tag at a position, and the position behind it.
def tagAt (tmpl : Bytes) (start : Nat) : Option (Tag × Nat) :=
  if tmpl[start + 2]? = some Ascii.openBrace then
    (tmpl.find closeRaw start).map fun stop => (.raw ((tmpl.drop (start + 3)).take (stop - start - 3)), stop + 3)
  else
    (tmpl.find closeTag start).map fun stop =>
      let keyName := (tmpl.drop (start + 2)).take (stop - start - 2)
      let body (stop' : Nat) := (tmpl.drop (stop + 2)).take (stop' - stop - 2)
      if (Bytes.ofString "#if ").isPrefixOf keyName then
        (tmpl.find closeIf (stop + 2)).elim (.cond (keyName.drop 4) none, stop + 2)
          fun ifEnd => (.cond (keyName.drop 4) (body ifEnd), ifEnd + 7)
      else if (Bytes.ofString "#each ").isPrefixOf keyName then
        (tmpl.find closeEach (stop + 2)).elim (.each (keyName.drop 6) none, stop + 2)
          fun eachEnd => (.each (keyName.drop 6) (body eachEnd), eachEnd + 9)
      else if (Bytes.ofString "> ").isPrefixOf keyName then (.file (keyName.drop 2), stop + 2)
      else (.var keyName, stop + 2)

section Render

variable {loadFile : Bytes → Except Failure Bytes} {self : Bytes → JsonValue → Except Failure Bytes} {tmpl : Bytes}

theorem renderTag_of_none (h : tagAt tmpl start = none) : renderTag loadFile self tmpl v start = .ok none := by
  unfold tagAt at h
  unfold renderTag
  split at h
  case isTrue hb  => simp only [if_pos hb, Option.map_eq_none_iff.mp h]; rfl
  case isFalse hb => simp only [if_neg hb, Option.map_eq_none_iff.mp h]; rfl

theorem renderTag_of_some (h : tagAt tmpl start = some (tag, pos)) : renderTag loadFile self tmpl v start = (do
    let obj ← getObject v
    let name ← trim tag.name
    return (← tag.render loadFile self v obj name).map (·, pos)) := by
  unfold tagAt at h
  unfold renderTag
  split at h
  case isTrue hb =>
    obtain ⟨stop, hf, he⟩ := Option.map_eq_some_iff.mp h
    cases he
    simp only [if_pos hb, hf]
    rfl
  case isFalse hb =>
    obtain ⟨stop, hf, he⟩ := Option.map_eq_some_iff.mp h
    simp only [if_neg hb, hf]
    refine bind_congr fun obj => ?_
    generalize (tmpl.drop (start + 2)).take (stop - start - 2) = keyName at he ⊢
    dsimp only at he ⊢
    split at he
    case isTrue hif =>
      rw [if_pos hif]
      cases hend : tmpl.find closeIf (stop + 2) with
      | none =>
        rw [hend] at he
        cases he
        rfl
      | some ifEnd =>
        rw [hend] at he
        cases he
        simp [Tag.name, Tag.render]
    case isFalse hif =>
      rw [if_neg hif]
      split at he
      case isTrue heach =>
        rw [if_pos heach]
        cases hend : tmpl.find closeEach (stop + 2) with
        | none =>
          rw [hend] at he
          cases he
          rfl
        | some eachEnd =>
          rw [hend] at he
          cases he
          simp [Tag.name, Tag.render]
      case isFalse heach =>
        rw [if_neg heach]
        split at he
        case isTrue hfile =>
          rw [if_pos hfile]
          cases he
          simp [Tag.name, Tag.render]
        case isFalse hfile =>
          rw [if_neg hfile]
          cases he
          simp [Tag.name, Tag.render]

theorem renderString_of_no_tag (h : tmpl.find openTag = none) : renderString loadFile (n + 1) tmpl v = .ok tmpl := by
  rw [renderString]
  simp only [h]
  rfl

theorem renderString_of_unfinished (hf : tmpl.find openTag = some start) (ht : tagAt tmpl start = none) :
    renderString loadFile (n + 1) tmpl v = .ok (tmpl.take start ++ tmpl) := by
  rw [renderString]
  simp only [hf, renderTag_of_none ht]
  rfl

theorem renderString_of_tag {obj : List (Bytes × JsonValue)} (hf : tmpl.find openTag = some start)
    (ht : tagAt tmpl start = some (tag, pos)) (hn : trim tag.name = .ok name) :
    renderString loadFile (n + 1) tmpl (.object obj) = (do
      match ← tag.render loadFile (renderString loadFile n) (.object obj) obj name with
      | none        => return tmpl.take start ++ tmpl
      | some output =>
        let rest ← renderString loadFile n (tmpl.drop pos) (.object obj)
        return tmpl.take start ++ (output ++ rest)) := by
  rw [renderString]
  simp only [hf, renderTag_of_some ht, hn, getObject, bind, Except.bind, pure, Except.pure]
  cases tag.render loadFile (renderString loadFile n) (.object obj) obj name with
  | error    => rfl
  | ok output => cases output <;> rfl

theorem tagAt_cases (h : tagAt tmpl start = some (tag, pos)) :
    (∃ stop name, tmpl.find closeRaw start = some stop ∧ tag = .raw name ∧ pos = stop + 3) ∨
    ∃ stop keyName, tmpl.find closeTag start = some stop ∧
      (tmpl.drop (start + 2)).take (stop - start - 2) = keyName ∧ stop + 2 ≤ pos ∧
      (tag = .var keyName ∨
        (∃ name, keyName = Bytes.ofString "> " ++ name ∧ tag = .file name) ∨
        ∃ name body, (tag = .cond name body ∨ tag = .each name body) ∧
          ∀ b ∈ body, ∃ n, b = (tmpl.drop (stop + 2)).take n) := by
  unfold tagAt at h
  split at h
  case isTrue =>
    have ⟨stop, hf, he⟩ := Option.map_eq_some_iff.mp h
    cases he
    exact .inl ⟨stop, _, hf, rfl, rfl⟩
  case isFalse =>
    have ⟨stop, hf, he⟩ := Option.map_eq_some_iff.mp h
    refine .inr ⟨stop, _, hf, rfl, ?_⟩
    generalize (tmpl.drop (start + 2)).take (stop - start - 2) = keyName at he ⊢
    dsimp only at he
    split at he
    case isTrue =>
      cases hend : tmpl.find closeIf (stop + 2) with
      | none =>
        rw [hend] at he
        cases he
        exact ⟨le_rfl, .inr (.inr ⟨_, none, .inl rfl, by simp⟩)⟩
      | some ifEnd =>
        rw [hend] at he
        cases he
        have hle := Bytes.le_of_find hend
        exact ⟨by omega, .inr (.inr ⟨_, some _, .inl rfl, fun b hb => ⟨_, (Option.mem_some_iff.mp hb).symm⟩⟩)⟩
    case isFalse =>
      split at he
      case isTrue =>
        cases hend : tmpl.find closeEach (stop + 2) with
        | none =>
          rw [hend] at he
          cases he
          exact ⟨le_rfl, .inr (.inr ⟨_, none, .inr rfl, by simp⟩)⟩
        | some eachEnd =>
          rw [hend] at he
          cases he
          have hle := Bytes.le_of_find hend
          exact ⟨by omega, .inr (.inr ⟨_, some _, .inr rfl, fun b hb => ⟨_, (Option.mem_some_iff.mp hb).symm⟩⟩)⟩
      case isFalse =>
        split at he
        case isTrue hfile =>
          cases he
          have hk := List.prefix_iff_eq_append.mp (List.isPrefixOf_iff_prefix.mp hfile)
          exact ⟨le_rfl, .inr (.inl ⟨_, hk.symm, rfl⟩)⟩
        case isFalse =>
          cases he
          exact ⟨le_rfl, .inl rfl⟩

end Render

section Reaches

-- What is rendered as a part of a rendering.
inductive Enters (loadFile : Bytes → Except Failure Bytes) : View → View → Prop
  | tag (hf : text.find openTag = some start) (ht : tagAt text start = some (tag, pos)) (hn : trim tag.name = .ok name)
    (h : tag.Enters loadFile (.object obj) obj name c) : Enters loadFile (text, .object obj) c
  | rest (hf : text.find openTag = some start) (ht : tagAt text start = some (tag, pos)) (hc : tag.Closed) :
    Enters loadFile (text, v) (text.drop pos, v)

variable {loadFile : Bytes → Except Failure Bytes} {tmpl text body : Bytes} {obj : List (Bytes × JsonValue)}
  {c c' : View} {P : View → Prop}

theorem lt_of_tagAt (hf : tmpl.find openTag = some start) (h : tagAt tmpl start = some (tag, pos)) : start < pos := by
  rcases tagAt_cases h with ⟨stop, _, hs, _, hp⟩ | ⟨stop, _, hs, _, hp, _⟩
  · have hle := Bytes.le_of_find hs
    omega
  · have hge := add_two_le_of_find hf hs
    omega

theorem length_drop_lt (hf : tmpl.find openTag = some start) (h : tagAt tmpl start = some (tag, pos)) :
    (tmpl.drop pos).length < tmpl.length := by
  have hlt := lt_of_tagAt hf h
  have hlen := Bytes.find_add_length_le hf
  have hpos : 0 < openTag.length := by decide
  rw [List.length_drop]
  omega

-- The body of a block is a shorter part of the text.
theorem body_infix (hf : tmpl.find openTag = some start) (h : tagAt tmpl start = some (tag, pos))
    (hb : tag = .cond name (some body) ∨ tag = .each name (some body)) : body <:+: tmpl ∧ body.length < tmpl.length := by
  rcases tagAt_cases h with ⟨_, _, _, ht, _⟩ | ⟨stop, _, hs, _, _, ht | ⟨_, _, ht⟩ | ⟨_, b, ht, hbody⟩⟩
  · rcases hb with hb | hb <;> exact absurd (hb.symm.trans ht) (by simp)
  · rcases hb with hb | hb <;> exact absurd (hb.symm.trans ht) (by simp)
  · rcases hb with hb | hb <;> exact absurd (hb.symm.trans ht) (by simp)
  · have hbb : b = some body := by
      rcases hb with hb | hb <;> rcases ht with ht | ht <;> simp_all
    have ⟨n, hn⟩ := hbody body hbb
    have hge := add_two_le_of_find hf hs
    have hlen := Bytes.find_add_length_le hs
    have hpos : 0 < closeTag.length := by decide
    refine ⟨hn ▸ take_drop_infix, ?_⟩
    rw [hn, List.length_take, List.length_drop]
    omega

theorem hasTag_of_file (hf : tmpl.find openTag = some start) (h : tagAt tmpl start = some (.file name, pos)) :
    HasTag tmpl (Bytes.ofString "> " ++ name) := by
  rcases tagAt_cases h with ⟨_, _, _, ht, _⟩ | ⟨stop, keyName, hs, hk, _, ht⟩
  · contradiction
  · have hk := hk ▸ hasTag_of_find hf hs
    rcases ht with ht | ⟨_, he, ht⟩ | ⟨_, _, ht | ht, _⟩
    · contradiction
    · cases ht
      exact he ▸ hk
    · contradiction
    · contradiction

abbrev Reaches (loadFile : Bytes → Except Failure Bytes) : View → View → Prop :=
  Relation.ReflTransGen (Enters loadFile)

-- The property holds of everything that is rendered.
def Throughout (loadFile : Bytes → Except Failure Bytes) (P : View → Prop) (c : View) : Prop :=
  ∀ c', Reaches loadFile c c' → P c'

theorem throughout_iff : Throughout loadFile P c ↔ P c ∧ ∀ c', Enters loadFile c c' → Throughout loadFile P c' := by
  constructor
  · exact fun h => ⟨h c .refl, fun c' hc c'' hr => h c'' (.head hc hr)⟩
  · rintro ⟨h, hs⟩ c' hr
    cases Relation.ReflTransGen.cases_head hr with
    | inl he => exact he ▸ h
    | inr hr =>
      have ⟨c'', hc, hr⟩ := hr
      exact hs c'' hc c' hr

theorem throughout_of_no_tag (hf : text.find openTag = none ∨ ∃ start, text.find openTag = some start ∧ tagAt text start = none) :
    Throughout loadFile P (text, v) ↔ P (text, v) := by
  have hno (start : Nat) (h : text.find openTag = some start) : tagAt text start = none := by
    rcases hf with hf | ⟨start', hf, ht⟩
    · exact absurd (hf.symm.trans h) (by simp)
    · exact Option.some.inj (hf.symm.trans h) ▸ ht
  refine throughout_iff.trans (and_iff_left fun c' hc => ?_)
  cases hc with
  | tag hf ht  => exact absurd ((hno _ hf).symm.trans ht) (by simp)
  | rest hf ht => exact absurd ((hno _ hf).symm.trans ht) (by simp)

theorem throughout_of_tag (hf : text.find openTag = some start) (ht : tagAt text start = some (tag, pos))
    (hn : trim tag.name = .ok name) : Throughout loadFile P (text, .object obj) ↔ P (text, .object obj) ∧
      (∀ c, tag.Enters loadFile (.object obj) obj name c → Throughout loadFile P c) ∧
      (tag.Closed → Throughout loadFile P (text.drop pos, .object obj)) := by
  refine throughout_iff.trans (and_congr_right fun _ => ?_)
  constructor
  · exact fun h => ⟨fun c hc => h c (.tag hf ht hn hc), fun hc => h _ (.rest hf ht hc)⟩
  · rintro ⟨htag, hrest⟩ c hc
    cases hc with
    | tag hf' ht' hn' h =>
      cases hf.symm.trans hf'
      cases ht.symm.trans ht'
      cases hn.symm.trans hn'
      exact htag c h
    | rest hf' ht' hc =>
      cases hf.symm.trans hf'
      cases ht.symm.trans ht'
      exact hrest hc

end Reaches

end YNet.TemplateEngine
