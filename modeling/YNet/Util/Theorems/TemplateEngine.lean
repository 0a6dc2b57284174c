import YNet.Lib.Agree
import YNet.Util.TemplateEngine

open Except

namespace YNet

-- The characters that delimit tags and attribute values in a page.
def isMarkup (c : UInt8) : Bool :=
  c = Ascii.less || c = Ascii.greater || c = Ascii.quote || c = Ascii.apos

def markup (s : Bytes) : Bytes :=
  s.filter isMarkup

def SameMarkup (s s' : Bytes) : Prop :=
  markup s = markup s'

def IsScalar : JsonValue → Prop
  | .array _ | .object _ => False
  | _                    => True

-- Values with the same keys and lengths. The scalars in them are as true in the one as in the other.
inductive SameShape : JsonValue → JsonValue → Prop
  | scalar (h : IsScalar v) (h' : IsScalar v') (ht : TemplateEngine.isTruthy v = TemplateEngine.isTruthy v') :
    SameShape v v'
  | array (h : List.Forall₂ SameShape vs vs') : SameShape (.array vs) (.array vs')
  | object (hk : ms.map Prod.fst = ms'.map Prod.fst)
    (h : List.Forall₂ SameShape (ms.map Prod.snd) (ms'.map Prod.snd)) : SameShape (.object ms) (.object ms')

theorem markup_append : markup (s ++ t) = markup s ++ markup t :=
  List.filter_append ..

theorem SameMarkup.refl (s : Bytes) : SameMarkup s s :=
  rfl

theorem SameMarkup.append (h : SameMarkup s s') (h' : SameMarkup t t') : SameMarkup (s ++ t) (s' ++ t') := by
  rw [SameMarkup, markup_append, markup_append, h, h']

namespace TemplateEngine

theorem markup_escapeChar (c : UInt8) : markup (escapeChar c) = [] := by
  unfold escapeChar
  split_ifs with h₁ h₂ h₃ h₄ h₅
  · decide +kernel
  · decide +kernel
  · decide +kernel
  · decide +kernel
  · decide +kernel
  · simp [markup, isMarkup, h₁, h₂, h₄, h₅]

theorem markup_htmlEscape (s : Bytes) : markup (htmlEscape s) = [] := by
  induction s with
  | nil       => rfl
  | cons c s hi =>
    have he : htmlEscape (c :: s) = escapeChar c ++ htmlEscape s := rfl
    rw [he, markup_append, markup_escapeChar, hi, List.nil_append]

section Shape

variable {v v' : JsonValue} {ms ms' : List (Bytes × JsonValue)}

theorem lookup_rel (hk : ms.map Prod.fst = ms'.map Prod.fst)
    (h : List.Forall₂ SameShape (ms.map Prod.snd) (ms'.map Prod.snd)) :
    Option.Rel SameShape (ms.lookup k) (ms'.lookup k) := by
  induction ms generalizing ms' with
  | nil =>
    cases List.map_eq_nil_iff.mp hk.symm
    exact .none
  | cons m ms hi =>
    cases ms' with
    | nil        => simp at hk
    | cons m' ms' =>
      have ⟨hm, hk⟩ := List.cons.inj hk
      have ⟨hv, h⟩ := List.forall₂_cons.mp h
      rw [List.lookup_cons, List.lookup_cons, hm]
      split
      · exact .some hv
      · exact hi hk h

theorem isTruthy_eq (h : SameShape v v') : isTruthy v = isTruthy v' := by
  cases h with
  | scalar _ _ ht => exact ht
  | array h       => cases h <;> rfl
  | @object ms ms' hk _ =>
    cases ms with
    | nil      => simp_all [isTruthy]
    | cons m _ =>
      cases ms' with
      | nil  => simp at hk
      | cons => rfl

theorem getObject_agree (h : SameShape v v') :
    Agree (fun ms ms' => ∀ k, Option.Rel SameShape (ms.lookup k) (ms'.lookup k)) (getObject v) (getObject v') := by
  cases h with
  | @scalar v v' h h' _ =>
    have hv : getObject v = .error (.thrown .badVariantAccess) := by cases v <;> trivial
    have hv' : getObject v' = .error (.thrown .badVariantAccess) := by cases v' <;> trivial
    rw [hv, hv']
    exact .error
  | array _              => exact .error
  | object hk h          => exact .ok fun k => lookup_rel hk h

theorem getArray_agree (h : SameShape v v') : Agree (List.Forall₂ SameShape) (getArray v) (getArray v') := by
  cases h with
  | @scalar v v' h h' _ =>
    have hv : getArray v = .error (.thrown .badVariantAccess) := by cases v <;> trivial
    have hv' : getArray v' = .error (.thrown .badVariantAccess) := by cases v' <;> trivial
    rw [hv, hv']
    exact .error
  | array h              => exact .ok h
  | object _ _           => exact .error

end Shape

section Agree

-- Relations between the values and the outputs of two runs over the texts of some kind.
structure Related (N : Bytes → Prop) (V U : JsonValue → JsonValue → Prop) (R : Bytes → Bytes → Prop) : Prop where
  infix_of : N t → t' <:+: t → N t'
  refl     : R s s
  append   : R s s' → R t t' → R (s ++ t) (s' ++ t')
  truthy   : U w w' → isTruthy w = isTruthy w'
  object   : V v v' → Agree (fun ms ms' => ∀ k, Option.Rel U (ms.lookup k) (ms'.lookup k)) (getObject v) (getObject v')
  array    : U w w' → Agree (List.Forall₂ V) (getArray w) (getArray w')
  var      : U w w' → R (htmlEscape (Json.toText w)) (htmlEscape (Json.toText w'))
  raw      : N tmpl → tmpl.find openTag = some start → tmpl[start + 2]? = some Ascii.openBrace → U w w' →
    R (Json.toText w) (Json.toText w')

variable {N : Bytes → Prop} {V U : JsonValue → JsonValue → Prop} {R : Bytes → Bytes → Prop}
  {loadFile : Bytes → Except Failure Bytes} {self : Bytes → JsonValue → Except Failure Bytes}
  {v v' : JsonValue} {w w' : Option JsonValue}

-- The recursive calls do not tell related values apart.
def Uniform (N : Bytes → Prop) (V : JsonValue → JsonValue → Prop) (R : Bytes → Bytes → Prop)
    (self : Bytes → JsonValue → Except Failure Bytes) : Prop :=
  ∀ tmpl v v', N tmpl → V v v' → Agree R (self tmpl v) (self tmpl v')

theorem Related.flatten (h : Related N V U R) (hs : List.Forall₂ R ss ss') : R ss.flatten ss'.flatten := by
  induction hs with
  | nil           => exact h.refl
  | cons hs _ hi  => exact h.append hs hi

theorem renderIf_agree (h : Related N V U R) (hs : Uniform N V R self) (ht : N t) (hv : V v v')
    (hw : Option.Rel U w w') : Agree R (renderIf self t v w) (renderIf self t v' w') := by
  cases hw with
  | none    => exact .ok h.refl
  | some hw =>
    rw [renderIf, renderIf, h.truthy hw]
    split
    · exact hs _ _ _ ht hv
    · exact .ok h.refl

theorem renderEach_agree (h : Related N V U R) (hs : Uniform N V R self) (ht : N t) (hw : Option.Rel U w w') :
    Agree R (renderEach self t w) (renderEach self t w') := by
  cases hw with
  | none    => exact .ok h.refl
  | some hw =>
    refine (h.array hw).bind fun arr arr' ha => ?_
    have hm := Agree.mapM ha fun _ _ hv => hs _ _ _ ht hv
    exact hm.bind fun _ _ hr => .ok (h.flatten hr)

theorem take_drop_infix {s : Bytes} : (s.drop i).take n <:+: s :=
  (List.take_prefix ..).isInfix.trans (List.drop_suffix ..).isInfix

theorem renderTag_agree (h : Related N V U R) (hl : ∀ f text, loadFile f = .ok text → N text) (hs : Uniform N V R self)
    (ht : N tmpl) (hv : V v v') (hf : tmpl.find openTag = some start) :
    Agree (Option.Rel fun a b => R a.1 b.1 ∧ a.2 = b.2) (renderTag loadFile self tmpl v start)
      (renderTag loadFile self tmpl v' start) := by
  rw [renderTag, renderTag]
  split
  case isTrue hb =>
    split
    case h_1 => exact .ok .none
    case h_2 =>
      refine (h.object hv).bind fun obj obj' ho => .bind_same fun name _ => .ok (.some ⟨?_, rfl⟩)
      have hn := ho name
      generalize obj.lookup name = w, obj'.lookup name = w' at hn ⊢
      cases hn with
      | none    => exact h.refl
      | some hn => exact h.raw ht hf hb hn
  case isFalse =>
    split
    case h_1 => exact .ok .none
    case h_2 stop _ =>
      have hi (i n : Nat) : N ((tmpl.drop i).take n) := h.infix_of ht take_drop_infix
      refine (h.object hv).bind fun obj obj' ho => ?_
      dsimp only
      split
      case isTrue =>
        refine .bind_same fun varName _ => ?_
        split
        case h_1 => exact .ok .none
        case h_2 => exact (renderIf_agree h hs (hi _ _) hv (ho _)).bind fun _ _ hr => .ok (.some ⟨hr, rfl⟩)
      case isFalse =>
        split
        case isTrue =>
          refine .bind_same fun varName _ => ?_
          split
          case h_1 => exact .ok .none
          case h_2 => exact (renderEach_agree h hs (hi _ _) (ho _)).bind fun _ _ hr => .ok (.some ⟨hr, rfl⟩)
        case isFalse =>
          split
          case isTrue =>
            refine .bind_same fun fileName _ => .bind_same fun file hf => ?_
            exact (hs file v v' (hl fileName file hf) hv).bind fun _ _ hr => .ok (.some ⟨hr, rfl⟩)
          case isFalse =>
            refine .bind_same fun name _ => .ok (.some ⟨?_, rfl⟩)
            have hn := ho name
            generalize obj.lookup name = w, obj'.lookup name = w' at hn ⊢
            cases hn with
            | none    => exact h.refl
            | some hn => exact h.var hn

theorem renderString_agree (h : Related N V U R) (hl : ∀ f text, loadFile f = .ok text → N text) (n : Nat) :
    Uniform N V R (renderString loadFile n) := by
  induction n with
  | zero      => exact fun _ _ _ _ _ => .error
  | succ n hi =>
    intro tmpl v v' ht hv
    rw [renderString, renderString]
    split
    case h_1 => exact .ok h.refl
    case h_2 start hf =>
      refine (renderTag_agree h hl hi ht hv hf).bind fun tag tag' htag => ?_
      cases htag with
      | none   => exact .ok h.refl
      | @some a b hab =>
        have ⟨ho, hp⟩ := hab
        dsimp only
        rw [hp]
        have hd := hi (tmpl.drop b.2) v v' (h.infix_of ht (List.drop_suffix ..).isInfix) hv
        exact hd.bind fun _ _ hr => .ok (h.append h.refl (h.append ho hr))

end Agree

section NoRaw

-- The texts in which no variable is inserted unescaped.
def NoRaw (tmpl : Bytes) : Prop :=
  ¬[Ascii.openBrace, Ascii.openBrace, Ascii.openBrace] <:+: tmpl

theorem NoRaw.of_isInfix (h : NoRaw tmpl) (hi : t <:+: tmpl) : NoRaw t :=
  fun ht => h (ht.trans hi)

-- Without three braces in a row there are no tags for unescaped variables.
theorem NoRaw.getElem?_ne (hr : NoRaw tmpl) (hf : tmpl.find openTag = some start) :
    tmpl[start + 2]? ≠ some Ascii.openBrace := by
  intro hb
  have ⟨t, ht⟩ := Bytes.prefix_drop_of_find hf
  have hd : tmpl.drop (start + 2) = t := by
    rw [← List.drop_drop, ← ht]
    rfl
  have hb : t.head? = some Ascii.openBrace := by rw [← hd, List.head?_drop, hb]
  have ⟨t', ht'⟩ := List.head?_eq_some_iff.mp hb
  apply hr
  have hp : [Ascii.openBrace, Ascii.openBrace, Ascii.openBrace] <+: tmpl.drop start := ⟨t', by rw [← ht, ht']; rfl⟩
  exact hp.isInfix.trans (List.drop_suffix ..).isInfix

theorem related_sameMarkup : Related NoRaw SameShape SameShape SameMarkup where
  infix_of       := .of_isInfix
  refl           := .refl _
  append         := .append
  truthy         := isTruthy_eq
  object         := getObject_agree
  array          := getArray_agree
  var _          := (markup_htmlEscape _).trans (markup_htmlEscape _).symm
  raw hr hf hb _ := absurd hb (hr.getElem?_ne hf)

end NoRaw

section Fuel

variable {loadFile : Bytes → Except Failure Bytes} {self self' : Bytes → JsonValue → Except Failure Bytes}

theorem renderIf_below (hs : ∀ t v, Below .endless (self t v) (self' t v)) :
    Below .endless (renderIf self t v w) (renderIf self' t v w) := by
  cases w with
  | none     => exact .refl
  | some var =>
    rw [renderIf, renderIf]
    split
    · exact hs t v
    · exact .refl

theorem renderEach_below (hs : ∀ t v, Below .endless (self t v) (self' t v)) :
    Below .endless (renderEach self t w) (renderEach self' t w) := by
  cases w with
  | none     => exact .refl
  | some var => exact Below.refl.bind fun arr => (Below.mapM (hs t) arr).bind fun _ => .refl

theorem renderTag_below (hs : ∀ t v, Below .endless (self t v) (self' t v)) :
    Below .endless (renderTag loadFile self tmpl v start) (renderTag loadFile self' tmpl v start) := by
  unfold renderTag
  split
  case isTrue => exact .refl
  case isFalse =>
    split
    case h_1 => exact .refl
    case h_2 =>
      refine Below.refl.bind fun obj => ?_
      dsimp only
      split
      case isTrue =>
        refine Below.refl.bind fun varName => ?_
        split
        case h_1 => exact .refl
        case h_2 => exact (renderIf_below hs).bind fun _ => .refl
      case isFalse =>
        split
        case isTrue =>
          refine Below.refl.bind fun varName => ?_
          split
          case h_1 => exact .refl
          case h_2 => exact (renderEach_below hs).bind fun _ => .refl
        case isFalse =>
          split
          case isTrue  => exact Below.refl.bind fun _ => Below.refl.bind fun _ => (hs _ _).bind fun _ => .refl
          case isFalse => exact .refl

-- More fuel does not change the result.
theorem renderString_below : Below .endless (renderString loadFile n tmpl v) (renderString loadFile (n + 1) tmpl v) := by
  induction n generalizing tmpl v with
  | zero      => exact fun h => absurd rfl h
  | succ n hi =>
    rw [renderString, renderString]
    split
    case h_1 => exact .refl
    case h_2 start hf =>
      refine (renderTag_below fun _ _ => hi).bind fun tag => ?_
      split
      case h_1 => exact .refl
      case h_2 => exact hi.bind fun _ => .refl

end Fuel

section Acyclic

variable {loadFile : Bytes → Except Failure Bytes} {self : Bytes → JsonValue → Except Failure Bytes} {tmpl : Bytes}

-- The text contains a tag with the given content.
def HasTag (text keyName : Bytes) : Prop :=
  openTag ++ (keyName ++ closeTag) <:+: text ∧
    Bytes.indexOf closeTag (keyName ++ closeTag) = some keyName.length

def IsThrown (e : Failure) : Prop :=
  ∃ x, e = .thrown x

-- The computation returns, or throws an exception.
abbrev Settles (x : Except Failure α) : Prop :=
  Ends IsThrown (fun _ => True) x

theorem getObject_settles : Settles (getObject v) := by
  cases v with
  | object => exact .ok trivial
  | _      => exact .error ⟨_, rfl⟩

theorem getArray_settles : Settles (getArray v) := by
  cases v with
  | array => exact .ok trivial
  | _     => exact .error ⟨_, rfl⟩

theorem trim_settles : Settles (trim s) := by
  unfold trim
  split
  · exact .ok trivial
  · exact .error ⟨_, rfl⟩

theorem renderIf_settles (hs : ∀ v, Settles (self t v)) : Settles (renderIf self t v w) := by
  cases w with
  | none     => exact .ok trivial
  | some var =>
    rw [renderIf]
    split
    · exact hs v
    · exact .ok trivial

theorem renderEach_settles (hs : ∀ v, Settles (self t v)) : Settles (renderEach self t w) := by
  cases w with
  | none     => exact .ok trivial
  | some var => exact getArray_settles.bind fun arr _ _ => (Ends.mapM hs arr).bind fun _ _ _ => .ok trivial

-- A tag is not closed within its opening braces.
theorem add_two_le_of_find (hs : tmpl.find openTag = some start) (hf : tmpl.find closeTag start = some stop) :
    start + 2 ≤ stop := by
  have hle := Bytes.le_of_find hf
  have hclose := Bytes.prefix_drop_of_find hf
  have ⟨t, ht⟩ := Bytes.prefix_drop_of_find hs
  by_contra hlt
  have he : stop = start ∨ stop = start + 1 := by omega
  cases he with
  | inl he =>
    rw [he, ← ht] at hclose
    exact absurd (List.cons_prefix_cons.mp hclose).1 (by decide)
  | inr he =>
    rw [he, ← List.drop_drop, ← ht] at hclose
    exact absurd (List.cons_prefix_cons.mp hclose).1 (by decide)

theorem hasTag_of_find (hs : tmpl.find openTag = some start) (hf : tmpl.find closeTag start = some stop) :
    HasTag tmpl ((tmpl.drop (start + 2)).take (stop - start - 2)) := by
  have hge := add_two_le_of_find hs hf
  have ⟨_, hlen, hclose, hfirst⟩ := Bytes.find_eq_some_iff.mp hf
  have hf : tmpl.find closeTag (start + 2) = some stop :=
    Bytes.find_eq_some_iff.mpr ⟨hge, hlen, hclose, fun j h₁ h₂ => hfirst j (by omega) h₂⟩
  have hd := Bytes.drop_eq_of_find hf
  rw [Nat.sub_sub]
  have hkey : ((tmpl.drop (start + 2)).take (stop - (start + 2))).length = stop - (start + 2) := by
    simp only [List.length_take, List.length_drop]
    omega
  generalize (tmpl.drop (start + 2)).take (stop - (start + 2)) = keyName at hd hkey ⊢
  constructor
  · have ⟨t, ht⟩ := Bytes.prefix_drop_of_find hs
    have htd : tmpl.drop (start + 2) = t := by
      rw [← List.drop_drop, ← ht]
      rfl
    have hp : openTag ++ (keyName ++ closeTag) <+: tmpl.drop start := by
      refine ⟨tmpl.drop (stop + closeTag.length), ?_⟩
      rw [← ht, ← htd, hd]
      simp
    exact hp.isInfix.trans (List.drop_suffix ..).isInfix
  · rw [Bytes.find_eq_map _ (hge.trans hlen), hd, ← List.append_assoc] at hf
    have ⟨i, hf, he⟩ := Option.map_eq_some_iff.mp hf
    have hi : i = keyName.length := by omega
    rw [← Bytes.find_zero]
    exact Bytes.find_prefix (hi ▸ hf) (by simp)

-- A tag takes some bytes. Only the tags of partials call for other texts than parts of the template.
theorem renderTag_ends (hl : ∀ f, Settles (loadFile f)) (hf : tmpl.find openTag = some start)
    (hs : ∀ t, t <:+: tmpl → t.length < tmpl.length → ∀ v, Settles (self t v))
    (hi : ∀ keyName f text, HasTag tmpl (Bytes.ofString "> " ++ keyName) → trim keyName = .ok f →
      loadFile f = .ok text → ∀ v, Settles (self text v)) :
    Ends IsThrown (fun tag => ∀ r ∈ tag, start < r.2) (renderTag loadFile self tmpl v start) := by
  have hlen : start + 2 ≤ tmpl.length := Bytes.find_add_length_le hf
  have hb (i n : Nat) (hi : start + 2 ≤ i) : ∀ v, Settles (self ((tmpl.drop i).take n) v) :=
    hs _ take_drop_infix (by simp only [List.length_take, List.length_drop]; omega)
  have hnone : ∀ r ∈ (none : Option (Bytes × Nat)), start < r.2 := by simp
  have hpos {o : Bytes} {pos : Nat} (h : start < pos) : ∀ r ∈ some (o, pos), start < r.2 := by simpa using h
  unfold renderTag
  split
  case isTrue =>
    split
    case h_1 => exact .ok hnone
    case h_2 stop hstop =>
      have hle := Bytes.le_of_find hstop
      exact getObject_settles.bind fun _ _ _ => trim_settles.bind fun _ _ _ => .ok (hpos (by omega))
  case isFalse =>
    split
    case h_1 => exact .ok hnone
    case h_2 stop hstop =>
      have htag := hasTag_of_find hf hstop
      have hge := add_two_le_of_find hf hstop
      refine getObject_settles.bind fun obj _ _ => ?_
      dsimp only
      generalize (tmpl.drop (start + 2)).take (stop - start - 2) = keyName at htag ⊢
      split
      case isTrue =>
        refine trim_settles.bind fun varName _ _ => ?_
        split
        case h_1 => exact .ok hnone
        case h_2 hend =>
          have hle := Bytes.le_of_find hend
          exact (renderIf_settles (hb _ _ (by omega))).bind fun _ _ _ => .ok (hpos (by omega))
      case isFalse =>
        split
        case isTrue =>
          refine trim_settles.bind fun varName _ _ => ?_
          split
          case h_1 => exact .ok hnone
          case h_2 hend =>
            have hle := Bytes.le_of_find hend
            exact (renderEach_settles (hb _ _ (by omega))).bind fun _ _ _ => .ok (hpos (by omega))
        case isFalse =>
          split
          case isTrue hp =>
            have hk := List.prefix_iff_eq_append.mp (List.isPrefixOf_iff_prefix.mp hp)
            refine trim_settles.bind fun fileName hn _ => (hl _).bind fun file hload _ => ?_
            exact (hi _ _ _ (hk ▸ htag) hn hload _).bind fun _ _ _ => .ok (hpos (by omega))
          case isFalse => exact trim_settles.bind fun _ _ _ => .ok (hpos (by omega))

theorem HasTag.of_isInfix (h : HasTag t keyName) (ht : t <:+: tmpl) : HasTag tmpl keyName :=
  ⟨h.1.trans ht, h.2⟩

-- If the files that a text names are rendered with some fuel, then it is rendered with a little more.
theorem renderString_settles (hl : ∀ f, Settles (loadFile f))
    (hi : ∀ keyName f text, HasTag tmpl (Bytes.ofString "> " ++ keyName) → trim keyName = .ok f →
      loadFile f = .ok text → ∀ n ≥ m, ∀ v, Settles (renderString loadFile n text v))
    (hn : m + tmpl.length < n) : Settles (renderString loadFile n tmpl v) := by
  induction n generalizing tmpl v with
  | zero      => omega
  | succ n ih =>
    have hsub (t : Bytes) (ht : t <:+: tmpl) (hlt : t.length < tmpl.length) (v : JsonValue) :
        Settles (renderString loadFile n t v) :=
      ih (fun k f text htag => hi k f text (htag.of_isInfix ht)) (by omega)
    rw [renderString]
    split
    case h_1 => exact .ok trivial
    case h_2 start hf =>
      have hend : start + 2 ≤ tmpl.length := Bytes.find_add_length_le hf
      refine (renderTag_ends hl hf hsub fun k f text h₁ h₂ h₃ => hi k f text h₁ h₂ h₃ n (by omega)).bind
        fun tag _ hpos => ?_
      cases tag with
      | none   => exact .ok trivial
      | some r =>
        have ⟨output, pos⟩ := r
        have hlt : start < pos := hpos _ rfl
        have hd : (tmpl.drop pos).length < tmpl.length := by
          rw [List.length_drop]
          omega
        exact (hsub _ (List.drop_suffix ..).isInfix hd v).bind fun _ _ _ => .ok trivial

theorem renderString_eq_of_le (h : Settles (renderString loadFile m tmpl v)) (hle : m ≤ n) :
    renderString loadFile n tmpl v = renderString loadFile m tmpl v := by
  induction hle with
  | refl      => rfl
  | step _ hi =>
    rw [← hi] at h ⊢
    refine renderString_below fun he => ?_
    rw [he] at h
    cases h with
    | error h => exact absurd h nofun

end Acyclic

section Files

variable {files : StringMap}

theorem loadFile_settles : Settles (loadFile files f) := by
  unfold loadFile
  split
  · exact .ok trivial
  · exact .error ⟨_, rfl⟩

theorem loadFile_eq_ok_iff : loadFile files f = .ok text ↔ files.lookup f = some text := by
  unfold loadFile
  split
  case h_1 h => simp [h, pure, Except.pure]
  case h_2 h => simp [h, throw, throwThe, MonadExceptOf.throw]

-- A file contains the tag that includes another one.
def Includes (files : StringMap) (file included : Bytes) : Prop :=
  ∃ text keyName, files.lookup file = some text ∧ HasTag text (Bytes.ofString "> " ++ keyName) ∧
    trim keyName = .ok included

def Acyclic (files : StringMap) : Prop :=
  ∀ f, ¬Relation.TransGen (Includes files) f f

theorem Acyclic.wellFoundedOn (ha : Acyclic files) :
    ({f | f ∈ files.keys} : Set Bytes).WellFoundedOn fun f g => Relation.TransGen (Includes files) g f := by
  have : IsStrictOrder Bytes fun f g => Relation.TransGen (Includes files) g f :=
    { irrefl := ha, trans := fun _ _ _ h₁ h₂ => h₂.trans h₁ }
  exact files.keys.finite_toSet.wellFoundedOn

-- With enough fuel, every file can be rendered.
def Renders (files : StringMap) (f : Bytes) : Prop :=
  ∀ text, files.lookup f = some text → ∀ᶠ n in Filter.atTop, ∀ v, Settles (renderString (loadFile files) n text v)

theorem renders_of_included (hi : ∀ g ∈ files.keys, Includes files f g → Renders files g) : Renders files f := by
  intro text hf
  have h : ∀ᶠ n in Filter.atTop, ∀ g ∈ files.keys, Includes files f g →
      ∀ text, files.lookup g = some text → ∀ v, Settles (renderString (loadFile files) n text v) := by
    refine (Filter.eventually_all_finset _).mpr fun g hg => Filter.eventually_imp_distrib_left.mpr fun hinc => ?_
    have ⟨text, ht⟩ := Finmap.mem_iff.mp (Finmap.mem_keys.mp hg)
    refine (hi g hg hinc text ht).mono fun n hn text' ht' => ?_
    cases ht.symm.trans ht'
    exact hn
  have ⟨m, hm⟩ := Filter.eventually_atTop.mp h
  refine Filter.eventually_atTop.mpr ⟨m + text.length + 1, fun n hn v => ?_⟩
  refine renderString_settles (fun _ => loadFile_settles) (fun k g text' htag htrim hload n hn v => ?_)
    (by omega : m + text.length < n)
  have hg := loadFile_eq_ok_iff.mp hload
  exact hm n hn g (Finmap.mem_keys.mpr (Finmap.mem_of_lookup_eq_some hg)) ⟨text, k, hf, htag, htrim⟩ text' hg v

theorem Acyclic.renders (ha : Acyclic files) (hf : f ∈ files.keys) : Renders files f :=
  ha.wellFoundedOn.induction hf fun _ _ hi =>
    renders_of_included fun g hg hinc => hi g hg (.single hinc)

variable {v v' : JsonValue}

theorem render_settles (ha : Acyclic files) : ∀ᶠ n in Filter.atTop, ∀ v, Settles (render (loadFile files) n f v) := by
  cases h : files.lookup f with
  | none      =>
    refine .of_forall fun n v => loadFile_settles.bind fun text ht _ => ?_
    cases h.symm.trans (loadFile_eq_ok_iff.mp ht)
  | some text =>
    have hf : f ∈ files.keys := Finmap.mem_keys.mpr (Finmap.mem_of_lookup_eq_some h)
    refine (ha.renders hf text h).mono fun n hn v => loadFile_settles.bind fun text' ht _ => ?_
    cases h.symm.trans (loadFile_eq_ok_iff.mp ht)
    exact hn v

theorem render_agree (hr : ∀ f text, files.lookup f = some text → NoRaw text) (hv : SameShape v v') (n : Nat) :
    Agree SameMarkup (render (loadFile files) n f v) (render (loadFile files) n f v') := by
  have hl : ∀ f text, loadFile files f = .ok text → NoRaw text := fun f text h => hr f text (loadFile_eq_ok_iff.mp h)
  exact .bind_same fun text ht => renderString_agree related_sameMarkup hl n text v v' (hl f text ht) hv

theorem render_eq_of_le (h : Settles (render (loadFile files) m f v)) (hle : m ≤ n) :
    render (loadFile files) n f v = render (loadFile files) m f v := by
  cases hl : loadFile files f with
  | error => simp only [render, hl, bind, Except.bind]
  | ok text =>
    simp only [render, hl, bind, Except.bind] at h ⊢
    exact renderString_eq_of_le h hle

-- With enough fuel both calls throw, or both return a page with the same markup.
theorem render_sameMarkup (hr : ∀ f text, files.lookup f = some text → NoRaw text) (ha : Acyclic files)
    (hv : SameShape v v') (f : Bytes) :
    ∃ m r r', (∀ n ≥ m, render (loadFile files) n f v = r ∧ render (loadFile files) n f v' = r') ∧
      ((∃ e, r = .error (.thrown e) ∧ r' = .error (.thrown e)) ∨
        ∃ s s', r = .ok s ∧ r' = .ok s' ∧ markup s = markup s') := by
  have ⟨m, hm⟩ := Filter.eventually_atTop.mp (render_settles ha (f := f))
  have hs := hm m le_rfl
  refine ⟨m, _, _, fun n hn => ⟨render_eq_of_le (hs v) hn, render_eq_of_le (hs v') hn⟩, ?_⟩
  have h := hs v
  have hag := render_agree (f := f) hr hv m
  generalize render (loadFile files) m f v = r, render (loadFile files) m f v' = r' at h hag ⊢
  cases hag with
  | error =>
    cases h with
    | error h =>
      have ⟨e, he⟩ := h
      exact .inl ⟨e, he ▸ rfl, he ▸ rfl⟩
  | ok hm => exact .inr ⟨_, _, rfl, rfl, hm⟩

-- The text of a file is rendered to a page, or an exception is thrown, whatever fuel there is from some amount on.
theorem renderString_terminates (ha : Acyclic files) (hf : files.lookup f = some text) (v : JsonValue) :
    ∃ m r, (∀ n ≥ m, renderString (loadFile files) n text v = r) ∧ ((∃ s, r = .ok s) ∨ ∃ e, r = .error (.thrown e)) := by
  have hmem : f ∈ files.keys := Finmap.mem_keys.mpr (Finmap.mem_of_lookup_eq_some hf)
  have ⟨m, hm⟩ := Filter.eventually_atTop.mp (ha.renders hmem text hf)
  have hs := hm m le_rfl v
  refine ⟨m, _, fun n hn => renderString_eq_of_le hs hn, ?_⟩
  generalize renderString (loadFile files) m text v = r at hs ⊢
  cases hs with
  | ok _    => exact .inl ⟨_, rfl⟩
  | error h =>
    have ⟨e, he⟩ := h
    exact .inr ⟨e, congrArg _ he⟩

-- A page that includes a list.
def pageText : Bytes :=
  "<ul>\x7b\x7b> x\x7d\x7d</ul>"

def listText : Bytes :=
  "\x7b\x7b#each l\x7d\x7d\x7b\x7bn\x7d\x7d\x7b\x7b/each\x7d\x7d"

def pages : StringMap :=
  (Finmap.singleton ("x" : Bytes) listText).insert "page" pageText

theorem pages_lookup (h : pages.lookup f = some text) :
    f = ("page" : Bytes) ∧ text = pageText ∨ text = listText := by
  by_cases hf : f = ("page" : Bytes)
  case pos =>
    subst hf
    rw [pages, Finmap.lookup_insert] at h
    exact .inl ⟨rfl, (Option.some.inj h).symm⟩
  case neg =>
    rw [pages, Finmap.lookup_insert_of_ne _ hf] at h
    by_cases hx : f = ("x" : Bytes)
    case pos =>
      subst hx
      rw [Finmap.lookup_singleton_eq] at h
      exact .inr (Option.some.inj h).symm
    case neg =>
      rw [Finmap.lookup_eq_none.mpr (by simpa using hx)] at h
      contradiction

theorem subset_of_trim (h : trim s = .ok t) : t ⊆ s := by
  unfold trim at h
  split at h
  · cases h
    exact take_drop_infix.subset
  · contradiction

-- The name of a file is a part of the tag.
theorem mem_of_includes (h : Includes files f g) :
    ∃ text, files.lookup f = some text ∧ Ascii.greater ∈ text ∧ g ⊆ text := by
  have ⟨text, keyName, hl, ⟨hi, _⟩, ht⟩ := h
  have hgt : Ascii.greater ∈ Bytes.ofString "> " := by decide
  refine ⟨text, hl, hi.subset (by simp [hgt]), fun b hb => hi.subset ?_⟩
  simp [subset_of_trim ht hb]

theorem pages_acyclic : Acyclic pages := by
  intro f h
  have ⟨_, hg, _⟩ := Relation.TransGen.head'_iff.mp h
  have ⟨_, _, hk⟩ := Relation.TransGen.tail'_iff.mp h
  have ⟨_, hl, hgt, _⟩ := mem_of_includes hg
  have ⟨_, hl', _, hsub⟩ := mem_of_includes hk
  have hf : f = ("page" : Bytes) := by
    cases pages_lookup hl with
    | inl h => exact h.1
    | inr h => exact absurd (h ▸ hgt) (by decide +kernel)
  have hb : 'g'.toUInt8 ∈ f := hf ▸ by decide
  cases pages_lookup hl' with
  | inl h => exact absurd (h.2 ▸ hsub hb) (by decide +kernel)
  | inr h => exact absurd (h ▸ hsub hb) (by decide +kernel)

theorem pages_noRaw (h : pages.lookup f = some text) : NoRaw text := by
  have hp : NoRaw pageText := by
    unfold NoRaw
    decide +kernel
  have hl : NoRaw listText := by
    unfold NoRaw
    decide +kernel
  cases pages_lookup h with
  | inl h => exact h.2 ▸ hp
  | inr h => exact h ▸ hl

def listValue (v : JsonValue) : JsonValue :=
  .object [("l", .array [.object [("n", v)]])]

theorem listValue_sameShape (h : SameShape v v') : SameShape (listValue v) (listValue v') :=
  .object rfl (.cons (.array (.cons (.object rfl (.cons h .nil)) .nil)) .nil)

theorem render_sameMarkup_list : ∃ m r r',
    (∀ n ≥ m, render (loadFile pages) n "page" (listValue (.string "<b>")) = r ∧
      render (loadFile pages) n "page" (listValue (.int 1)) = r') ∧
    ((∃ e, r = .error (.thrown e) ∧ r' = .error (.thrown e)) ∨
      ∃ s s', r = .ok s ∧ r' = .ok s' ∧ markup s = markup s') := by
  have h : SameShape (.string "<b>") (.int 1) := .scalar trivial trivial (by decide +kernel)
  exact render_sameMarkup (fun _ _ => pages_noRaw) pages_acyclic (listValue_sameShape h) "page"

theorem renderString_terminates_page : ∃ m r, (∀ n ≥ m, renderString (loadFile pages) n pageText .null = r) ∧
    ((∃ s, r = .ok s) ∨ ∃ e, r = .error (.thrown e)) :=
  renderString_terminates pages_acyclic (Finmap.lookup_insert _) .null

end Files

end TemplateEngine
end YNet
