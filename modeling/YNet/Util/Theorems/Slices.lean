import YNet.Util.Theorems.MultipartParser

namespace YNet.MultipartParser

variable {body sep raw : Bytes} {parts parts' : List Part} {S : List (Nat × Nat)}

-- The range that is handed to `parsePart` when a delimiter is found.
def called (it : Nat) : Option Nat → List (Nat × Nat)
  | some prev => if it - prev > 2 then [(prev, it - prev - 2)] else []
  | none      => []

-- The ranges that the loop hands to `parsePart`, each with its offset and its length.
def slices (sep body : Bytes) (cur : Nat) (prev : Option Nat) : List (Nat × Nat) :=
  match _h : body.find sep cur with
  | none    => []
  | some it =>
    called it prev ++
      if it + sep.length + 2 > body.length then []
      else slices sep body (it + sep.length + 2) (some (it + sep.length + 2))
termination_by body.length - cur
decreasing_by
  have := Bytes.le_of_find _h
  omega

def slice (body : Bytes) (r : Nat × Nat) : Bytes :=
  (body.drop r.1).take r.2

def parseSlice (body : Bytes) (parts : List Part) (r : Nat × Nat) : Except Exn (List Part) :=
  parsePart r.1 (slice body r) parts

theorem slices_none (h : body.find sep cur = none) : slices sep body cur prev = [] := by
  rw [slices]
  split
  case h_1      => rfl
  case h_2 _ h' => exact absurd (h'.symm.trans h) (by simp)

theorem slices_some (h : body.find sep cur = some it) : slices sep body cur prev = called it prev ++
    if it + sep.length + 2 > body.length then []
    else slices sep body (it + sep.length + 2) (some (it + sep.length + 2)) := by
  conv_lhs => rw [slices]
  split
  case h_1 h'   => exact absurd (h'.symm.trans h) (by simp)
  case h_2 _ h' => cases h'.symm.trans h; rfl

theorem foldlM_called (it : Nat) (prev : Option Nat) (parts : List Part) : (called it prev).foldlM (parseSlice body) parts =
    match prev with
    | some prev =>
      if it - prev > 2 then parsePart prev ((body.drop prev).take (it - prev - 2)) parts else pure parts
    | none      => pure parts := by
  cases prev with
  | none      => rfl
  | some prev =>
    by_cases h : it - prev > 2
    case pos => simp only [called, if_pos h, List.foldlM_cons, List.foldlM_nil, bind_pure, parseSlice, slice]
    case neg => simp only [called, if_neg h, List.foldlM_nil]

-- The loop makes one call after the other, up to the first one that throws.
theorem parse.go_eq (cur : Nat) (prev : Option Nat) (parts : List Part) :
    parse.go body sep cur prev parts = (slices sep body cur prev).foldlM (parseSlice body) parts := by
  rw [parse.go]
  split
  case h_1 h    => rw [slices_none h]; rfl
  case h_2 it h =>
    have hle := Bytes.le_of_find h
    rw [slices_some h, List.foldlM_append, foldlM_called]
    have hk (parts : List Part) : (if it + sep.length + 2 > body.length then pure parts
        else parse.go body sep (it + sep.length + 2) (some (it + sep.length + 2)) parts) =
        (if it + sep.length + 2 > body.length then []
          else slices sep body (it + sep.length + 2) (some (it + sep.length + 2))).foldlM (parseSlice body) parts := by
      split
      case isTrue  => rfl
      case isFalse => exact parse.go_eq ..
    simp only [hk]
    cases prev with
    | none      => rfl
    | some prev =>
      dsimp only
      split <;> rfl
termination_by body.length - cur

-- The end of a range, and the text of the two bytes behind it, lie in front of the next delimiter.
structure Within (sep body : Bytes) (cur : Nat) (r : Nat × Nat) : Prop where
  start : cur ≤ r.1
  stop  : r.1 + r.2 < body.length
  clear : ¬sep <:+: slice body r

theorem within_called (h : body.find sep cur = some it) (hr : r ∈ called it (some cur)) :
    Within sep body cur r ∧ r.1 + r.2 < it := by
  have hle := Bytes.find_add_length_le h
  obtain ⟨_, _, _, hn⟩ := Bytes.find_eq_some_iff.mp h
  rw [called] at hr
  split at hr
  case isFalse => contradiction
  case isTrue hi =>
    cases List.mem_singleton.mp hr
    refine ⟨⟨le_rfl, by dsimp only; omega, ?_⟩, by dsimp only; omega⟩
    rintro ⟨u, t, he⟩
    -- An occurrence in the range would have been found before the delimiter.
    have hl := congrArg List.length he
    simp only [slice, List.length_append, List.length_take, List.length_drop] at hl
    refine hn (cur + u.length) (by omega) (by omega) ?_
    have hp : u ++ sep <+: body.drop cur := ⟨t ++ (body.drop cur).drop (it - cur - 2), by
      rw [← List.append_assoc, he, slice, List.take_append_drop]⟩
    have hd := hp.drop u.length
    rwa [List.drop_left, List.drop_drop] at hd

theorem pairwise_called {R : Nat × Nat → Nat × Nat → Prop} : (called it (some cur)).Pairwise R := by
  rw [called]
  split
  · exact List.pairwise_singleton ..
  · exact .nil

theorem slices_within (sep body : Bytes) (cur : Nat) :
    (∀ r ∈ slices sep body cur (some cur), Within sep body cur r) ∧
    (slices sep body cur (some cur)).Pairwise fun r r' => r.1 + r.2 < r'.1 := by
  cases h : body.find sep cur with
  | none    => simp [slices_none h]
  | some it =>
    rw [slices_some h]
    have hcalled (r) (hr : r ∈ called it (some cur)) := within_called h hr
    have hle := Bytes.le_of_find h
    by_cases hl : it + sep.length + 2 > body.length
    case pos =>
      rw [if_pos hl, List.append_nil]
      exact ⟨fun r hr => (hcalled r hr).1, pairwise_called⟩
    case neg =>
      have ⟨h₁, h₂⟩ := slices_within sep body (it + sep.length + 2)
      rw [if_neg hl]
      refine ⟨fun r hr => ?_, List.pairwise_append.mpr ⟨pairwise_called, h₂, fun r hr r' hr' => ?_⟩⟩
      · rcases List.mem_append.mp hr with hr | hr
        · exact (hcalled r hr).1
        · have hw := h₁ r hr
          exact ⟨by have := hw.start; omega, hw.stop, hw.clear⟩
      · have := (hcalled r hr).2
        have := (h₁ r' hr').start
        omega
termination_by body.length - cur

-- A part that is recorded has its data at the end of the range.
structure FromSlice (body : Bytes) (r : Nat × Nat) (part : Part) : Prop where
  start : r.1 < part.dataPos
  stop  : part.dataPos + part.data.length ≤ r.1 + r.2
  data  : part.data = (body.drop part.dataPos).take part.data.length
  mem   : part.data <:+: slice body r

theorem parseSlice_eq (h : parseSlice body parts r = .ok parts') :
    parts' = parts ∨ ∃ part, parts' = parts ++ [part] ∧ FromSlice body r part := by
  unfold parseSlice parsePart at h
  cases hf : (slice body r).find "\r\n\r\n" with
  | none      => simp only [hf] at h; exact .inl (Except.ok.inj h).symm
  | some stop =>
    simp only [hf] at h
    have ⟨header, _, h⟩ := Exn.bind_eq_ok h
    cases header with
    | none     => exact .inl (Except.ok.inj h).symm
    | some hdr =>
      dsimp only at h
      split at h
      case isTrue  => exact .inl (Except.ok.inj h).symm
      case isFalse =>
        have hle : stop + 4 ≤ (slice body r).length := Bytes.find_add_length_le hf
        have hlr : (slice body r).length ≤ r.2 := by simp [slice]
        have hdata : (slice body r).drop (stop + 4) = (body.drop (r.1 + stop + 4)).take (r.2 - (stop + 4)) := by
          rw [slice, List.drop_take, List.drop_drop, Nat.add_assoc]
        refine .inr ⟨_, (Except.ok.inj h).symm, ⟨by dsimp only; omega, ?_, ?_, (List.drop_suffix ..).isInfix⟩⟩
        · simp only [List.length_drop]
          omega
        · dsimp only
          exact List.prefix_iff_eq_take.mp (hdata ▸ List.take_prefix ..)

-- The parts come from some of the ranges, in their order.
theorem foldlM_parts (h : S.foldlM (parseSlice body) parts = .ok parts') :
    ∃ S' new, S'.Sublist S ∧ parts' = parts ++ new ∧ List.Forall₂ (FromSlice body) S' new := by
  induction S generalizing parts with
  | nil       => exact ⟨[], [], .slnil, by simpa using (Except.ok.inj h).symm, .nil⟩
  | cons r S hi =>
    rw [List.foldlM_cons] at h
    have ⟨parts₁, h₁, h₂⟩ := Exn.bind_eq_ok h
    have ⟨S', new, hs, he, hf⟩ := hi h₂
    rcases parseSlice_eq h₁ with rfl | ⟨part, rfl, hp⟩
    · exact ⟨S', new, hs.cons r, he, hf⟩
    · exact ⟨r :: S', part :: new, hs.cons_cons r, by rw [he, List.append_assoc]; rfl, .cons hp hf⟩

theorem exists_slice {new : List Part} (h : List.Forall₂ (FromSlice body) S new) (hp : part ∈ new) :
    ∃ r ∈ S, FromSlice body r part := by
  induction h with
  | nil             => contradiction
  | cons hr _ hi    =>
    rcases List.mem_cons.mp hp with rfl | hp
    · exact ⟨_, List.mem_cons_self, hr⟩
    · have ⟨r, hm, hf⟩ := hi hp
      exact ⟨r, List.mem_cons_of_mem _ hm, hf⟩

-- The data of the parts are ranges of the body, one behind the other, without a delimiter.
structure Sliced (sep body : Bytes) (parts : List Part) : Prop where
  range   : ∀ part ∈ parts, part.dataPos + part.data.length ≤ body.length ∧
    part.data = (body.drop part.dataPos).take part.data.length
  clear   : ∀ part ∈ parts, ¬sep <:+: part.data
  ordered : parts.Pairwise fun part part' => part.dataPos + part.data.length < part'.dataPos

theorem pairwise_parts {new : List Part} (h : List.Forall₂ (FromSlice body) S new)
    (hp : S.Pairwise fun r r' => r.1 + r.2 < r'.1) :
    new.Pairwise fun part part' => part.dataPos + part.data.length < part'.dataPos := by
  induction h with
  | nil           => exact .nil
  | cons hr h hi  =>
    have ⟨hlt, hp⟩ := List.pairwise_cons.mp hp
    refine .cons (fun part hm => ?_) (hi hp)
    have ⟨r', hr', hf⟩ := exists_slice h hm
    have := hlt r' hr'
    have := hr.stop
    have := hf.start
    omega

theorem sliced_of_foldlM (hw : ∀ r ∈ S, Within sep body 0 r) (hp : S.Pairwise fun r r' => r.1 + r.2 < r'.1)
    (h : S.foldlM (parseSlice body) [] = .ok parts) : Sliced sep body parts := by
  have ⟨S', new, hs, he, hf⟩ := foldlM_parts h
  rw [List.nil_append] at he
  subst he
  refine ⟨fun part hm => ?_, fun part hm hc => ?_, pairwise_parts hf (hp.sublist hs)⟩
  · have ⟨r, hr, hfr⟩ := exists_slice hf hm
    have := (hw r (hs.subset hr)).stop
    have := hfr.stop
    exact ⟨by omega, hfr.data⟩
  · have ⟨r, hr, hfr⟩ := exists_slice hf hm
    exact (hw r (hs.subset hr)).clear (hc.trans hfr.mem)

-- The ranges of the whole loop.
theorem slices_start (sep body : Bytes) : (∀ r ∈ slices sep body 0 none, Within sep body 0 r) ∧
    (slices sep body 0 none).Pairwise fun r r' => r.1 + r.2 < r'.1 := by
  cases h : body.find sep with
  | none    => simp [slices_none h]
  | some it =>
    rw [slices_some h]
    split
    case isTrue  => exact ⟨by simp [called], by simp [called]⟩
    case isFalse =>
      obtain ⟨h₁, h₂⟩ := slices_within sep body (it + sep.length + 2)
      exact ⟨fun r hr => ⟨Nat.zero_le _, (h₁ r hr).stop, (h₁ r hr).clear⟩, h₂⟩

-- The loop is over after finitely many calls, on ranges of the body. The parts that have been recorded
-- after any number of them, the last one or the one in front of an exception, lie one behind the other.
theorem parse_sliced (body contentType : Bytes) :
    let sep := Bytes.ofString "--" ++ boundaryOf contentType
    let calls := if boundaryOf contentType = [] then [] else slices sep body 0 none
    parse body contentType = calls.foldlM (parseSlice body) [] ∧
    (∀ r ∈ calls, r.1 + r.2 ≤ body.length) ∧
    ∀ n parts, (calls.take n).foldlM (parseSlice body) [] = .ok parts → Sliced sep body parts := by
  intro sep calls
  have ⟨hw, hp⟩ : (∀ r ∈ calls, Within sep body 0 r) ∧ calls.Pairwise fun r r' => r.1 + r.2 < r'.1 := by
    by_cases hb : boundaryOf contentType = []
    case pos => simp [calls, hb]
    case neg => simpa only [calls, hb, if_false] using slices_start sep body
  refine ⟨?_, fun r hr => (hw r hr).stop.le, fun n parts h => ?_⟩
  · by_cases hb : boundaryOf contentType = []
    case pos =>
      simp only [parse, extractBoundary_eq, bind, Except.bind, calls, hb, if_true]
      rfl
    case neg =>
      simp only [parse, extractBoundary_eq, bind, Except.bind, calls, hb, if_false]
      exact parse.go_eq 0 none []
  · exact sliced_of_foldlM (fun r hr => hw r (List.mem_of_mem_take hr)) (hp.sublist (List.take_sublist ..)) h

end YNet.MultipartParser
