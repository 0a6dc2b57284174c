import YNet.Util.Theorems.Template.Views

open Except

namespace YNet.TemplateEngine

-- The rendering in which the text in front of a tag that is not finished appears once.
def renderOnce (loadFile : Bytes → Except Failure Bytes) : Nat → Bytes → JsonValue → Except Failure Bytes
  | 0, _, _              => throw .endless
  | fuel + 1, tmpl, vars =>
    match tmpl.find openTag with
    | none       => return tmpl
    | some start => do
      match ← renderTag loadFile (renderOnce loadFile fuel) tmpl vars start with
      | none               => return tmpl
      | some (output, pos) =>
        let rest ← renderOnce loadFile fuel (tmpl.drop pos) vars
        return tmpl.take start ++ (output ++ rest)

-- If the first tag of the text is not finished, then there is nothing in front of it.
def Bare (c : View) : Prop :=
  ∀ start, c.1.find openTag = some start → (∀ tag pos, tagAt c.1 start = some (tag, pos) → ¬tag.Closed) → start = 0

-- The first text is longer than the second one, unless a condition holds, under which they are equal.
def Longer (p : Prop) (s t : Bytes) : Prop :=
  t.length ≤ s.length ∧ (s = t ↔ p)

theorem Longer.refl (h : p) : Longer p s s :=
  ⟨le_rfl, iff_of_true rfl h⟩

theorem Longer.congr (h : Longer p s t) (hp : p ↔ q) : Longer q s t :=
  ⟨h.1, h.2.trans hp⟩

theorem Longer.append (h : Longer p s t) (h' : Longer q s' t') : Longer (p ∧ q) (s ++ s') (t ++ t') := by
  have ⟨hl, hp⟩ := h
  have ⟨hl', hq⟩ := h'
  constructor
  · simp only [List.length_append]
    omega
  · rw [← hp, ← hq]
    refine ⟨fun he => ?_, fun ⟨h₁, h₂⟩ => h₁ ▸ h₂ ▸ rfl⟩
    have hlen := congrArg List.length he
    simp only [List.length_append] at hlen
    exact List.append_inj he (by omega)

-- The text in front of a tag that is not finished is repeated.
theorem Longer.of_take {s : Bytes} (h : s.find openTag = some start) : Longer (start = 0) (s.take start ++ s) s := by
  have hle := Bytes.find_add_length_le h
  constructor
  · simp
  · rw [List.append_left_eq_self, List.take_eq_nil_iff]
    refine ⟨fun hz => hz.resolve_right fun hn => ?_, .inl⟩
    simp [hn] at hle

section Agree

variable {loadFile : Bytes → Except Failure Bytes} {self self' : Bytes → JsonValue → Except Failure Bytes} {text : Bytes}
  {P : View → Prop}

theorem bare_of_finished (hf : text.find openTag = some start) (ht : tagAt text start = some (tag, pos))
    (hc : tag.Closed) : Bare (text, v) := by
  intro start' hf' hno
  cases hf.symm.trans hf'
  exact absurd hc (hno tag pos ht)

theorem bare_iff (hf : text.find openTag = some start) (hno : ∀ tag pos, tagAt text start = some (tag, pos) → ¬tag.Closed) :
    Bare (text, v) ↔ start = 0 := by
  refine ⟨fun h => h start hf hno, fun hz start' hf' _ => ?_⟩
  cases hf.symm.trans hf'
  exact hz

theorem mapM_longer {items : List JsonValue} (hs : ∀ item, Agree (Longer (P (body, item))) (self body item) (self' body item)) :
    Agree (fun outs onces => Longer (∀ item ∈ items, P (body, item)) outs.flatten onces.flatten)
      (items.mapM (self body)) (items.mapM (self' body)) := by
  induction items with
  | nil              => exact .ok (.refl (by simp))
  | cons item items hi =>
    rw [List.mapM_cons, List.mapM_cons]
    refine (hs item).bind fun s t h => hi.bind fun ss ts hss => .ok ?_
    exact (h.append hss).congr (by simp)

theorem renderIf_longer {w : Option JsonValue} (hs : Agree (Longer (P (body, v))) (self body v) (self' body v)) :
    Agree (Longer ((∃ var, w = some var ∧ isTruthy var) → P (body, v))) (renderIf self body v w) (renderIf self' body v w) := by
  cases w with
  | none     => exact .ok (.refl (by simp))
  | some var =>
    rw [renderIf, renderIf]
    split
    case isTrue ht  => exact Agree.mono hs fun _ _ h => h.congr (by simp [ht])
    case isFalse ht => exact .ok (.refl (by simp [ht]))

theorem renderEach_longer {w : Option JsonValue}
    (hs : ∀ item, Agree (Longer (P (body, item))) (self body item) (self' body item)) :
    Agree (Longer (∀ items, w = some (.array items) → ∀ item ∈ items, P (body, item))) (renderEach self body w)
      (renderEach self' body w) := by
  cases w with
  | none       => exact .ok (.refl (by simp))
  | some value =>
    refine .bind_same fun arr ha => (mapM_longer hs).bind fun outs onces h => .ok (h.congr ?_)
    cases value with
    | array items => cases ha; simp
    | _           => contradiction

-- What two renderings insert in the place of a tag.
inductive Inserted (closed p : Prop) : Option Bytes → Option Bytes → Prop
  | none (hc : ¬closed) : Inserted closed p none none
  | some (hc : closed) (h : Longer p s t) : Inserted closed p (some s) (some t)

theorem render_longer {tag : Tag} {obj : List (Bytes × JsonValue)}
    (hs : ∀ text v, Agree (Longer (P (text, v))) (self text v) (self' text v)) :
    Agree (Inserted tag.Closed (∀ c, tag.Enters loadFile v obj name c → P c)) (tag.render loadFile self v obj name)
      (tag.render loadFile self' v obj name) := by
  cases tag with
  | raw | var => exact .ok (.some trivial (.refl (by simp [Tag.Enters])))
  | file =>
    refine .bind_same fun text hl => (hs text v).bind fun s t h => .ok (.some trivial (h.congr ?_))
    simp [Tag.Enters, hl]
  | cond _ body =>
    cases body with
    | none      => exact .ok (.none nofun)
    | some body =>
      refine (renderIf_longer (hs body v)).bind fun s t h => .ok (.some rfl (h.congr ?_))
      exact ⟨fun hp c hc => hc.2 ▸ hp hc.1, fun hp hw => hp _ ⟨hw, rfl⟩⟩
  | each _ body =>
    cases body with
    | none      => exact .ok (.none nofun)
    | some body =>
      refine (renderEach_longer (hs body)).bind fun s t h => .ok (.some rfl (h.congr ?_))
      constructor
      · rintro hp c ⟨items, hl, item, hi, he⟩
        exact he ▸ hp items hl item hi
      · exact fun hp items hl item hi => hp _ ⟨items, hl, item, hi, rfl⟩

-- Nothing is rendered in the place of a tag that is not closed.
theorem closed_of_enters {tag : Tag} {obj : List (Bytes × JsonValue)} (h : tag.Enters loadFile v obj name c) : tag.Closed := by
  cases tag with
  | raw | var | file => trivial
  | cond _ body | each _ body =>
    cases body with
    | none   => exact absurd h (by simp [Tag.Enters])
    | some _ => rfl

theorem renderString_longer (n : Nat) (text : Bytes) (v : JsonValue) :
    Agree (Longer (Throughout loadFile Bare (text, v))) (renderString loadFile n text v) (renderOnce loadFile n text v) := by
  induction n generalizing text v with
  | zero      => exact .error
  | succ n hi =>
    rw [renderString, renderOnce]
    cases hf : text.find openTag with
    | none =>
      have hb : Bare (text, v) := fun start h => absurd (hf.symm.trans h) (by simp)
      exact .ok (.refl ((throughout_of_no_tag (.inl hf)).mpr hb))
    | some start =>
      cases ht : tagAt text start with
      | none =>
        simp only [renderTag_of_none ht]
        have hb : Throughout loadFile Bare (text, v) ↔ start = 0 :=
          (throughout_of_no_tag (.inr ⟨start, hf, ht⟩)).trans
            (bare_iff hf fun _ _ h => absurd (ht.symm.trans h) (by simp))
        exact .ok ((Longer.of_take hf).congr hb.symm)
      | some r =>
        obtain ⟨tag, pos⟩ := r
        simp only [renderTag_of_some ht, bind_assoc]
        refine .bind_same fun obj ho => .bind_same fun name hn => ?_
        have hv : v = .object obj := by
          cases v with
          | object obj' => cases ho; rfl
          | _           => contradiction
        subst hv
        have hiff : Throughout loadFile Bare (text, .object obj) ↔ _ := throughout_of_tag hf ht hn
        refine ((render_longer hi).bind (R := Inserted tag.Closed _) fun o o' h => ?_)
        cases h with
        | none hc =>
          have hb : Bare (text, .object obj) ↔ start = 0 := by
            refine bare_iff hf fun tag' pos' ht' => ?_
            cases ht.symm.trans ht'
            exact hc
          have hno : (∀ c, tag.Enters loadFile (.object obj) obj name c → Throughout loadFile Bare c) ∧
              (tag.Closed → Throughout loadFile Bare (text.drop pos, .object obj)) :=
            ⟨fun c h => absurd (closed_of_enters h) hc, fun h => absurd h hc⟩
          exact .ok ((Longer.of_take hf).congr (hb.symm.trans ((and_iff_left hno).symm.trans hiff.symm)))
        | some hc h =>
          refine (hi (text.drop pos) (.object obj)).bind fun s t hrest => .ok ?_
          refine ((Longer.refl trivial).append (h.append hrest)).congr ?_
          rw [hiff, true_and, and_iff_right (bare_of_finished hf ht hc), imp_iff_right hc]

end Agree

section Unterminated

variable {loadFile : Bytes → Except Failure Bytes} {text : Bytes}

theorem tagAt_of_unterminated (h : ¬closeTag <:+: text.drop start) : tagAt text start = none := by
  have hclose : text.find closeTag start = none := by
    cases hs : text.find closeTag start with
    | none      => rfl
    | some stop =>
      refine absurd ?_ h
      rw [Bytes.drop_eq_of_find hs]
      exact (List.prefix_append ..).isInfix.trans (List.suffix_append ..).isInfix
  have hraw : text.find closeRaw start = none := by
    cases hs : text.find closeRaw start with
    | none      => rfl
    | some stop =>
      refine absurd ?_ h
      rw [Bytes.drop_eq_of_find hs]
      have hp : closeTag <+: closeRaw := by decide
      exact hp.isInfix.trans ((List.prefix_append ..).isInfix.trans (List.suffix_append ..).isInfix)
  unfold tagAt
  rw [hclose, hraw]
  exact ite_self _

theorem closeTag_infix_cons : closeTag <:+: Ascii.openBrace :: s ↔ closeTag <:+: s := by
  rw [List.infix_cons_iff, or_iff_right]
  exact fun h => absurd (List.cons_prefix_cons.mp h).1 (by decide)

-- The first tag begins behind the literal text, or at a brace at its end.
theorem find_openTag_append {a : Bytes} (h : ¬openTag <:+: a) : ∃ start, (a ++ (openTag ++ r)).find openTag = some start ∧
    (start = a.length ∨ ∃ a', a = a' ++ [Ascii.openBrace] ∧ start = a'.length) := by
  have hp : openTag <+: (a ++ (openTag ++ r)).drop a.length := by simp
  have ⟨start, hf, hle⟩ := Bytes.find_isSome_of_prefix hp (by simp) (Nat.zero_le _)
  refine ⟨start, hf, ?_⟩
  rcases hle.lt_or_eq with hlt | he
  case inr => exact .inl he
  case inl =>
    have hd := Bytes.prefix_drop_of_find hf
    rw [List.drop_append_of_le_length hle] at hd
    cases hs : a.drop start with
    | nil =>
      have := List.drop_eq_nil_iff.mp hs
      omega
    | cons b s =>
      rw [hs] at hd
      have ⟨hb, hd'⟩ := List.cons_prefix_cons.mp hd
      subst hb
      cases s with
      | nil =>
        refine .inr ⟨a.take start, ?_, by simp [hle]⟩
        rw [← hs, List.take_append_drop]
      | cons b s =>
        have ⟨hb, _⟩ := List.cons_prefix_cons.mp hd'
        subst hb
        refine absurd ?_ h
        have hp : openTag <+: a.drop start := ⟨s, hs.symm⟩
        exact hp.isInfix.trans (List.drop_suffix ..).isInfix

-- A text is repeated in front of a tag that is not finished, whether the tag itself or its block is not closed.
theorem renderString_once_iff (loadFile : Bytes → Except Failure Bytes) :
    (∀ a r v n, ¬openTag <:+: a → ¬closeTag <:+: r → 0 < n →
      (renderString loadFile n (a ++ (openTag ++ r)) v = .ok (a ++ (openTag ++ r)) ↔ a = [] ∨ a = [Ascii.openBrace])) ∧
    ∀ n text v page, renderString loadFile n text v = .ok page →
      (renderOnce loadFile n text v = .ok page ↔ Throughout loadFile Bare (text, v)) := by
  constructor
  · intro a r v n ha hr hn
    have ⟨start, hf, hs⟩ := find_openTag_append (r := r) ha
    have hclose : ¬closeTag <:+: (a ++ (openTag ++ r)).drop start := by
      rcases hs with hs | ⟨a', hs, hl⟩
      · simpa [hs, closeTag_infix_cons] using hr
      · simpa [hs, hl, closeTag_infix_cons] using hr
    have ⟨m, hm⟩ := Nat.exists_eq_succ_of_ne_zero hn.ne'
    subst hm
    rw [renderString_of_unfinished hf (tagAt_of_unterminated hclose), Except.ok.injEq, (Longer.of_take hf).2]
    constructor
    · rintro hz
      rcases hs with hs | ⟨a', hs, hl⟩
      · exact .inl (List.length_eq_zero_iff.mp (hs.symm.trans hz))
      · have ha' : a' = [] := List.length_eq_zero_iff.mp (hl.symm.trans hz)
        exact .inr (hs.trans (by rw [ha', List.nil_append]))
    · have hzero : openTag <+: (a ++ (openTag ++ r)).drop 0 → start = 0 := by
        intro hp
        have ⟨i, hi, hle⟩ := Bytes.find_isSome_of_prefix hp (Nat.zero_le _) le_rfl
        cases hf.symm.trans hi
        exact Nat.le_zero.mp hle
      rintro (he | he)
      · exact hzero (by simp [he])
      · exact hzero (by simp [he])
  · intro n text v page hp
    have h : Agree _ (renderString loadFile n text v) _ := renderString_longer n text v
    rw [hp] at h
    generalize renderOnce loadFile n text v = once at h ⊢
    cases h with
    | ok h => exact (by simp [eq_comm] : _ ↔ page = _).trans h.2

end Unterminated

-- A tag that is not closed, with a text in front of it.
abbrev before : Bytes :=
  "x"

abbrev behind : Bytes :=
  "y"

theorem not_openTag_before : ¬openTag <:+: before := by
  decide +kernel

theorem not_closeTag_behind : ¬closeTag <:+: behind := by
  decide +kernel

theorem renderString_unterminated : renderString (loadFile ∅) 1 (before ++ (openTag ++ behind)) .null =
    .ok (before ++ (before ++ (openTag ++ behind))) :=
  rfl

theorem renderString_once_iff_unterminated :
    (renderString (loadFile ∅) 1 (before ++ (openTag ++ behind)) .null = .ok (before ++ (openTag ++ behind)) ↔
      before = [] ∨ before = [Ascii.openBrace]) ∧
    (renderOnce (loadFile ∅) 1 (before ++ (openTag ++ behind)) .null = .ok (before ++ (before ++ (openTag ++ behind))) ↔
      Throughout (loadFile ∅) Bare (before ++ (openTag ++ behind), .null)) :=
  have ⟨h, h'⟩ := renderString_once_iff (loadFile ∅)
  ⟨h _ _ _ _ not_openTag_before not_closeTag_behind Nat.one_pos, h' _ _ _ _ renderString_unterminated⟩

theorem not_renderString_once : ¬∀ a r ms, ¬openTag <:+: a → ¬openTag <:+: r → ¬closeTag <:+: r →
    ∃ n, renderString (loadFile ∅) n (a ++ (openTag ++ r)) (.object ms) = .ok (a ++ (openTag ++ r)) := by
  intro h
  have hr : ¬openTag <:+: behind := by decide +kernel
  have ⟨n, hn⟩ := h before behind [] not_openTag_before hr not_closeTag_behind
  cases n with
  | zero   => contradiction
  | succ n =>
    have hf : Bytes.find (before ++ (openTag ++ behind)) openTag = some 1 := rfl
    rw [renderString_of_unfinished hf rfl] at hn
    exact absurd (Except.ok.inj hn) (by decide +kernel)

end YNet.TemplateEngine
