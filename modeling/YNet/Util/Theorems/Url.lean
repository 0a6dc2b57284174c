import YNet.Util.Url
import YNet.Lib.Split

open Cpp

namespace YNet

section Escapes

-- A percent sign that is followed by two hexadecimal digits.
def Escaped (s : Bytes) : Prop :=
  ∃ a b, isxdigit a ∧ isxdigit b ∧ [Ascii.percent, a, b] <:+: s

-- The strict percent-decoding, which touches nothing but the escapes.
def percentDecode : Bytes → Bytes
  | c :: a :: b :: s =>
    if c = Ascii.percent ∧ isxdigit a ∧ isxdigit b then
      UInt8.ofNat (digitValue a * 16 + digitValue b) :: percentDecode s
    else c :: percentDecode (a :: b :: s)
  | s => s

theorem Escaped.mono {s t : Bytes} (h : s <:+: t) : Escaped s → Escaped t
  | ⟨a, b, ha, hb, hi⟩ => ⟨a, b, ha, hb, hi.trans h⟩

theorem percentDecode_of_not_escaped {s : Bytes} (h : ¬Escaped s) : percentDecode s = s := by
  fun_induction percentDecode s
  case case1 c a b s hc _ => exact absurd ⟨a, b, hc.2.1, hc.2.2, hc.1 ▸ ⟨[], s, rfl⟩⟩ h
  case case2 c a b s _ hi => rw [hi <| mt (Escaped.mono <| List.infix_cons List.infix_rfl) h]
  case case3 => rfl

theorem isDoubleEncoded.go_iff {s : Bytes} (h : pos ≤ s.length) :
    isDoubleEncoded.go s pos ↔ Escaped (s.drop pos) := by
  fun_induction isDoubleEncoded.go s pos
  case case1 pos hf =>
    have hm : Ascii.percent ∉ _ := Bytes.not_mem_of_find_byte_none hf h
    simp only [Bool.false_eq_true, false_iff]
    exact fun ⟨_, _, _, _, hi⟩ => hm (hi.subset List.mem_cons_self)
  case case2 start pos hf hc =>
    simp only [Bool.and_eq_true, decide_eq_true_eq] at hc
    have ⟨⟨hlt, ha⟩, hb⟩ := hc
    have ⟨t, _, _, hs⟩ := Bytes.drop_eq_of_find_byte (c := Ascii.percent) hf
    have hp := Bytes.pair_isPrefix_drop_iff.mpr ⟨hlt, rfl, rfl⟩
    simp only [true_iff]
    refine ⟨_, _, ha, hb, ?_⟩
    rw [hs]
    exact (List.cons_prefix_cons.mpr ⟨rfl, hp⟩).isInfix.trans (List.suffix_append ..).isInfix
  case case3 start pos hf hc hi =>
    have hlt : pos + 1 ≤ s.length := Bytes.find_add_length_le hf
    have ⟨t, hm, _, hs⟩ := Bytes.drop_eq_of_find_byte (c := Ascii.percent) hf
    rw [hi hlt, hs]
    refine exists₂_congr fun a b => and_congr_right fun ha => and_congr_right fun hb => ?_
    rw [List.cons_infix_append_iff hm, List.infix_cons_iff, List.cons_prefix_cons,
      Bytes.pair_isPrefix_drop_iff]
    -- The escape cannot start at `pos`, because the check at `pos` has failed.
    refine ⟨.inr, fun h => h.resolve_left fun ⟨_, hl, he₁, he₂⟩ => hc ?_⟩
    simp only [Bool.and_eq_true, decide_eq_true_eq]
    exact ⟨⟨hl, he₁ ▸ ha⟩, he₂ ▸ hb⟩

instance : DecidablePred Escaped :=
  fun s => decidable_of_iff (isDoubleEncoded.go s 0) (isDoubleEncoded.go_iff s.length.zero_le)

theorem isDoubleEncoded_eq_false_iff {s : Bytes} :
    isDoubleEncoded s = false ↔ Ascii.nul ∉ s ∧ ¬Escaped s := by
  rw [isDoubleEncoded, Bool.or_eq_false_iff, ← Bool.not_eq_true (isDoubleEncoded.go s 0),
    isDoubleEncoded.go_iff (Nat.zero_le _), List.drop_zero]
  apply and_congr_left
  intro _
  rw [Option.isSome_eq_false_iff, Option.isNone_iff_eq_none]
  exact Bytes.find_byte_eq_none_iff

end Escapes

section NormalizePath

-- The segments that `normalizePath` joins.
def pathSegments (path : Bytes) : List Bytes :=
  (path.splitOn Ascii.slash).foldl pushSegment []

-- The canonical form of a path, as a function of the path's segments.
def canonicalPath (path : Bytes) : Bytes :=
  joinSegments (pathSegments path)

theorem normalizePath.go_eq {path : Bytes} (h : start ≤ path.length) :
    normalizePath.go path seg start
      = .ok (((path.drop start).splitOn Ascii.slash).foldl pushSegment seg) := by
  fun_induction normalizePath.go path seg start
  case case1 seg start pos hf hi =>
    have hlt : pos + 1 ≤ path.length := Bytes.find_add_length_le hf
    have ⟨t, hm, ht, hs⟩ := Bytes.drop_eq_of_find_byte (c := Ascii.slash) hf
    rw [Bytes.substr_of_le h, ht, hs, List.splitOn_append_cons_self_of_not_mem hm]
    exact hi _ hlt
  case case2 seg start hf =>
    have hm := Bytes.not_mem_of_find_byte_none (c := Ascii.slash) hf h
    rw [Bytes.substrFrom_of_le h, List.splitOn_eq_singleton hm]
    rfl

theorem normalizePath_eq (path : Bytes) : normalizePath path = .ok (canonicalPath path) := by
  rw [normalizePath, normalizePath.go_eq (Nat.zero_le _), List.drop_zero]
  rfl

-- What a segment of a normalized path looks like.
structure Segment (s : Bytes) : Prop where
  ne_nil     : s ≠ []
  ne_dot     : s ≠ ("." : Bytes)
  ne_dotdot  : s ≠ (".." : Bytes)

theorem mem_pushSegment (h : s ∈ pushSegment seg token) : s ∈ seg ∨ (s = token ∧ Segment s) := by
  unfold pushSegment at h
  split_ifs at h
  case pos          => exact .inl h
  case pos          => exact .inl <| List.mem_of_mem_dropLast h
  case neg h₁ h₂    =>
    refine (List.mem_append.mp h).imp_right fun h => ?_
    cases List.mem_singleton.mp h
    exact ⟨rfl, not_or.mp h₁ |>.1, not_or.mp h₁ |>.2, h₂⟩

theorem mem_foldl_pushSegment {tokens : List Bytes} (h : s ∈ tokens.foldl pushSegment seg) :
    s ∈ seg ∨ (s ∈ tokens ∧ Segment s) := by
  induction tokens generalizing seg
  case nil => exact .inl h
  case cons token tokens hi =>
    cases hi h
    case inl h => exact (mem_pushSegment h).imp_right fun ⟨he, hs⟩ => ⟨he ▸ List.mem_cons_self, hs⟩
    case inr h => exact .inr <| h.imp_left (List.mem_cons_of_mem _)

theorem mem_pathSegments {path : Bytes} (h : s ∈ pathSegments path) :
    Segment s ∧ s <:+: path ∧ Ascii.slash ∉ s := by
  have ⟨hm, hs⟩ := (mem_foldl_pushSegment h).resolve_left (by simp)
  exact ⟨hs, List.infix_of_mem_splitOn hm⟩

theorem flatMap_cons_eq (s : Bytes) (segs : List Bytes) :
    (s :: segs).flatMap (c :: ·) = c :: [c].intercalate (s :: segs) := by
  induction segs generalizing s
  case nil           => simp
  case cons s' segs hi => rw [List.flatMap_cons, hi]; simp

theorem joinSegments_cons :
    joinSegments (s :: segs) = Ascii.slash :: [Ascii.slash].intercalate (s :: segs) := by
  rw [joinSegments, flatMap_cons_eq]
  rfl

theorem joinSegments_of_ne_nil (hn : segs ≠ []) :
    joinSegments segs = segs.flatMap (Ascii.slash :: ·) := by
  cases segs
  case nil  => contradiction
  case cons => rw [joinSegments_cons, flatMap_cons_eq]

theorem tail_joinSegments_splitOn (hn : segs ≠ []) (h : ∀ s ∈ segs, Ascii.slash ∉ s) :
    (joinSegments segs).tail.splitOn Ascii.slash = segs := by
  cases segs
  case nil  => contradiction
  case cons => rw [joinSegments_cons, List.tail_cons, List.splitOn_intercalate _ h hn]

-- Everything that the documentation promises about the path of a request.
structure Canonical (path : Bytes) : Prop where
  head     : path.head? = some Ascii.slash
  trailing : path = ("/" : Bytes) ∨ path.getLast? ≠ some Ascii.slash
  segments : path = ("/" : Bytes) ∨ ∀ s ∈ path.tail.splitOn Ascii.slash, Segment s
  nul      : Ascii.nul ∉ path
  escaped  : ¬Escaped path

theorem getLast?_ne_of_splitOn {path : Bytes} (hn : path ≠ [])
    (h : ∀ s ∈ path.splitOn c, s ≠ []) : path.getLast? ≠ some c := by
  intro he
  have ⟨p, hp⟩ := List.getLast?_eq_some_iff.mp he
  subst hp
  have : [] ∈ (p ++ [c]).splitOn c := by simp [List.splitOn_append_cons_self]
  exact h _ this rfl

theorem Canonical.root : Canonical [Ascii.slash] where
  head     := rfl
  trailing := .inl rfl
  segments := .inl rfl
  nul      := by decide
  escaped  := fun ⟨_, _, _, _, h⟩ => absurd h.length_le (by simp)

theorem Canonical.join (hn : segs ≠ []) (hs : ∀ s ∈ segs, Segment s ∧ Ascii.slash ∉ s)
    (h₁ : ∀ s ∈ segs, Ascii.nul ∉ s) (h₂ : ∀ s ∈ segs, ¬Escaped s) :
    Canonical (joinSegments segs) where
  head := by cases segs; contradiction; rfl
  trailing := by
    have ht := tail_joinSegments_splitOn hn fun s h => (hs s h).2
    refine .inr ?_
    cases hp : joinSegments segs
    case nil => simp
    case cons b path =>
      rw [hp, List.tail_cons] at ht
      have hne : path ≠ [] := by
        rintro rfl
        exact (hs [] (ht ▸ by simp)).1.ne_nil rfl
      rw [List.getLast?_cons_of_ne_nil hne]
      exact getLast?_ne_of_splitOn hne fun s h => (hs s (ht ▸ h)).1.ne_nil
  segments := by
    rw [tail_joinSegments_splitOn hn fun s h => (hs s h).2]
    exact .inr fun s h => (hs s h).1
  nul hc := by
    rw [joinSegments_of_ne_nil hn, ← List.singleton_infix_iff Ascii.nul] at hc
    have ⟨s, hm, hi⟩ := List.exists_infix_of_infix_flatMap (by decide) (by simp) hc
    exact h₁ s hm ((List.singleton_infix_iff ..).mp hi)
  escaped := by
    rintro ⟨a, b, ha, hb, hi⟩
    rw [joinSegments_of_ne_nil hn] at hi
    have hp : Ascii.slash ∉ [Ascii.percent, a, b] := by
      simp only [List.mem_cons, List.not_mem_nil, or_false, not_or]
      exact ⟨by decide, fun he => absurd (he ▸ ha) (by decide), fun he => absurd (he ▸ hb) (by decide)⟩
    have ⟨s, hm, hi⟩ := List.exists_infix_of_infix_flatMap hp (by simp) hi
    exact h₂ s hm ⟨a, b, ha, hb, hi⟩

-- What the check for double encodings has excluded cannot reappear, because normalization only
-- drops segments and joins the others at slashes.
theorem canonicalPath_canonical {path : Bytes} (h₁ : Ascii.nul ∉ path) (h₂ : ¬Escaped path) :
    Canonical (canonicalPath path) := by
  have hm {s} (h : s ∈ pathSegments path) := mem_pathSegments h
  by_cases hn : pathSegments path = []
  case pos =>
    rw [canonicalPath, hn]
    exact .root
  case neg =>
    exact .join hn
      (fun _ h => ⟨(hm h).1, (hm h).2.2⟩)
      (fun _ h => mt ((hm h).2.1.subset ·) h₁)
      (fun _ h => mt (Escaped.mono (hm h).2.1) h₂)

theorem foldl_pushSegment {tokens : List Bytes} (h : ∀ s ∈ tokens, Segment s) :
    tokens.foldl pushSegment seg = seg ++ tokens := by
  induction tokens generalizing seg with
  | nil => simp
  | cons s tokens hi =>
    have ⟨hs, ht⟩ := List.forall_mem_cons.mp h
    have hpush : pushSegment seg s = seg ++ [s] := by simp [pushSegment, hs.ne_nil, hs.ne_dot, hs.ne_dotdot]
    rw [List.foldl_cons, hpush, hi ht, List.append_assoc]
    rfl

theorem canonicalPath_of_segments {t : Bytes} (h : ∀ s ∈ t.splitOn Ascii.slash, Segment s) :
    canonicalPath (Ascii.slash :: t) = Ascii.slash :: t := by
  have hnil : Ascii.slash ∉ ([] : Bytes) := List.not_mem_nil
  have hsplit : (Ascii.slash :: t).splitOn Ascii.slash = [] :: t.splitOn Ascii.slash :=
    List.splitOn_append_cons_self_of_not_mem hnil t
  have hpush : pushSegment [] [] = [] := rfl
  have hne : t.splitOn Ascii.slash ≠ [] := List.splitOn_ne_nil _ _
  rw [canonicalPath, pathSegments, hsplit, List.foldl_cons, hpush, foldl_pushSegment h, List.nil_append]
  cases hs : t.splitOn Ascii.slash with
  | nil          => contradiction
  | cons s₀ segs => rw [joinSegments_cons, ← hs, List.intercalate_splitOn]

-- The paths that are left as they are, of the ones without segments that go up or stay.
theorem canonicalPath_eq_self_iff {t : Bytes} (hd : ∀ s ∈ t.splitOn Ascii.slash, s ≠ ("." : Bytes) ∧ s ≠ (".." : Bytes))
    (h₁ : Ascii.nul ∉ Ascii.slash :: t) (h₂ : ¬Escaped (Ascii.slash :: t)) :
    canonicalPath (Ascii.slash :: t) = Ascii.slash :: t ↔ t = [] ∨ ∀ s ∈ t.splitOn Ascii.slash, s ≠ [] := by
  constructor
  · intro h
    have hc := (canonicalPath_canonical h₁ h₂).segments
    rw [h] at hc
    exact hc.imp (fun he => (List.cons.inj he).2) fun hs s hm => (hs s hm).ne_nil
  · rintro (rfl | h)
    · decide
    · exact canonicalPath_of_segments fun s hm => ⟨h s hm, (hd s hm).1, (hd s hm).2⟩

-- A path is read segment by segment from left to right.
theorem pathSegments_append (a b : Bytes) : pathSegments (a ++ Ascii.slash :: b) =
    (b.splitOn Ascii.slash).foldl pushSegment (pathSegments a) := by
  rw [pathSegments, List.splitOn_append_cons_self, List.foldl_append]
  rfl

theorem pathSegments_joinSegments (h : ∀ s ∈ segs, Segment s ∧ Ascii.slash ∉ s) :
    pathSegments (joinSegments segs) = segs := by
  have hnil : Ascii.slash ∉ ([] : Bytes) := List.not_mem_nil
  cases segs with
  | nil         => decide
  | cons s segs =>
    have hpush : pushSegment [] [] = [] := rfl
    have hj := tail_joinSegments_splitOn (List.cons_ne_nil s segs) fun s' hs' => (h s' hs').2
    rw [joinSegments_cons, List.tail_cons] at hj
    have hsplit := List.splitOn_append_cons_self_of_not_mem hnil ([Ascii.slash].intercalate (s :: segs))
    rw [List.nil_append, hj] at hsplit
    rw [joinSegments_cons, pathSegments, hsplit, List.foldl_cons, hpush,
      foldl_pushSegment fun s' hs' => (h s' hs').1, List.nil_append]

theorem pathSegments_canonicalPath (path : Bytes) : pathSegments (canonicalPath path) = pathSegments path :=
  pathSegments_joinSegments fun _ hs => ⟨(mem_pathSegments hs).1, (mem_pathSegments hs).2.2⟩

-- The front of a path can be normalized first. A slash at the end of it makes no difference.
theorem normalizePath_append (a b : Bytes) :
    normalizePath (a ++ Ascii.slash :: b) = (do normalizePath ((← normalizePath a) ++ Ascii.slash :: b)) ∧
      (do normalizePath (← normalizePath a)) = normalizePath a := by
  simp only [normalizePath_eq, bind, Except.bind, canonicalPath, pathSegments_append]
  have hj : pathSegments (joinSegments (pathSegments a)) = pathSegments a := pathSegments_canonicalPath a
  rw [hj]
  exact ⟨rfl, rfl⟩

end NormalizePath

section UrlDecode

-- The ways to write a string in a request target: a byte stands for itself, unless it has a
-- meaning in the request line or to `urlDecode`, or it is written as an escape.
inductive Spelling : Bytes → Bytes → Prop
  | nil : Spelling [] []
  | literal :
    (c ∉ [Ascii.space, Ascii.cr, Ascii.lf, Ascii.percent, Ascii.plus, Ascii.question]) →
    (Spelling t p) → Spelling (c :: t) (c :: p)
  | escape :
    (isxdigit a) → (isxdigit b) → (digitValue a * 16 + digitValue b = c.toNat) → (Spelling t p) →
    Spelling (Ascii.percent :: a :: b :: t) (c :: p)

theorem urlDecode_escape (ha : isxdigit a) (hb : isxdigit b) :
    urlDecode (Ascii.percent :: a :: b :: s)
      = UInt8.ofInt (digitValue a * 16 + digitValue b : Nat) :: urlDecode s := by
  simp [urlDecode, stoi_hex ha hb]

theorem urlDecode_literal (h₁ : c ≠ Ascii.percent) (h₂ : c ≠ Ascii.plus) :
    urlDecode (c :: s) = c :: urlDecode s := by
  simp [urlDecode.eq_def (c :: s), h₁, h₂]

namespace Spelling

theorem urlDecode_eq (h : Spelling t p) : urlDecode t = p := by
  induction h
  case nil => rfl
  case literal hc _ hi =>
    simp only [List.mem_cons, not_or] at hc
    rw [urlDecode_literal hc.2.2.2.1 hc.2.2.2.2.1, hi]
  case escape ha hb hc _ hi =>
    rw [urlDecode_escape ha hb, hi, hc, ofInt_toNat]

theorem not_mem (h : Spelling t p)
    (hb : b ∈ [Ascii.space, Ascii.cr, Ascii.lf, Ascii.plus, Ascii.question]) : b ∉ t := by
  have hx : ∀ b ∈ [Ascii.space, Ascii.cr, Ascii.lf, Ascii.plus, Ascii.question],
      ¬isxdigit b ∧ b ≠ Ascii.percent := by decide +kernel
  replace hx := hx b hb
  induction h
  case nil => simp
  case literal hc _ hi =>
    refine List.not_mem_cons_of_ne_of_not_mem (fun he => ?_) hi
    subst he
    simp_all
  case escape ha hb' _ _ hi =>
    simp only [List.mem_cons, not_or]
    exact ⟨hx.2, fun he => hx.1 (he ▸ ha), fun he => hx.1 (he ▸ hb'), hi⟩

end Spelling

end UrlDecode

section ParseQuery

theorem insertPair_ok (q : StringMap) (token : Bytes) : ∃ q', insertPair q token = .ok q' := by
  unfold insertPair
  split
  case h_1 => exact ⟨_, rfl⟩
  case h_2 eq h =>
    have : eq + 1 ≤ token.length := Bytes.find_add_length_le h
    rw [Bytes.substr_of_le (Nat.zero_le _), Bytes.substrFrom_of_le this]
    exact ⟨_, rfl⟩

theorem parseQuery.go_ok : ∃ q', parseQuery.go query q pos = .ok q' := by
  fun_induction parseQuery.go query q pos
  case case1 q pos hlt h =>
    rw [Bytes.substrFrom_of_le hlt.le]
    exact insertPair_ok ..
  case case2 q pos hlt found h hi =>
    rw [Bytes.substr_of_le hlt.le]
    have ⟨q', hq⟩ := insertPair_ok q ((query.drop pos).take (found - pos))
    have ⟨q'', hq'⟩ := hi q'
    exact ⟨q'', by simp only [bind, Except.bind, hq, hq']⟩
  case case3 => exact ⟨_, rfl⟩

theorem parseQuery_ok (query : Bytes) : ∃ q, parseQuery query = .ok q :=
  parseQuery.go_ok

end ParseQuery

end YNet
