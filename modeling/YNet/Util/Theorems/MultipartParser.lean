import YNet.Util.MultipartParser

namespace YNet.MultipartParser

-- The byte ranges between consecutive delimiters of a text that starts behind a delimiter. Two bytes
-- behind each delimiter and two bytes in front of it belong to the delimiter's line.
def ranges (sep s : Bytes) : List Bytes :=
  match s.find sep with
  | none    => []
  | some it =>
    (if it > 2 then [s.take (it - 2)] else []) ++
      if it + sep.length + 2 > s.length then [] else ranges sep (s.drop (it + sep.length + 2))
termination_by s.length
decreasing_by simp; omega

-- The ranges of a body that `parse` treats as parts.
def partRanges (sep body : Bytes) : List Bytes :=
  match body.find sep with
  | none    => []
  | some it =>
    if it + sep.length + 2 > body.length then [] else ranges sep (body.drop (it + sep.length + 2))

-- A part whose attributes are complete, but whose header ends with the name of the content type
-- field, so that the fourteen bytes that are skipped are not there.
structure CutShort (header : Bytes) : Prop where
  name        : ∃ start, nameStart header (header.find "filename=\"") = some start ∧
    (header.find "\"" (start + 6)).isSome
  filename    : ∀ start, header.find "filename=\"" = some start →
    (header.find "\"" (start + 10)).isSome
  contentType : ∃ start, header.find "Content-Type:" = some start ∧ start + 13 = header.length

def PartCutShort (raw : Bytes) : Prop :=
  ∃ stop, raw.find "\r\n\r\n" = some stop ∧ CutShort (raw.take stop)

theorem quotedValue_ok {header : Bytes} (h : start ≤ header.length) :
    ∃ value, quotedValue header start = .ok value ∧
      value.isSome = (header.find "\"" start).isSome := by
  unfold quotedValue
  cases header.find "\"" start
  case none => exact ⟨none, rfl, rfl⟩
  case some stop =>
    simp only [Bytes.substr_of_le h]
    exact ⟨some _, rfl, rfl⟩

theorem nameStart_le {header : Bytes} (h : nameStart header filename = some start) :
    start + 6 ≤ header.length := by
  unfold nameStart at h
  split at h
  case h_1 hf =>
    split_ifs at h
    case pos => exact Bytes.find_add_length_le h
    case neg =>
      cases h
      exact Bytes.find_add_length_le hf
  case h_2 => exact Bytes.find_add_length_le h

theorem partContentType_eq_error_iff {header : Bytes} :
    (∃ e, partContentType header = .error e) ↔
      ∃ start, header.find "Content-Type:" = some start ∧ start + 13 = header.length := by
  unfold partContentType
  cases h : header.find "Content-Type:"
  case none => simp [pure, Except.pure]
  case some start =>
    have hle : start + 13 ≤ header.length := Bytes.find_add_length_le h
    simp only [Option.some.injEq, exists_eq_left']
    by_cases hl : start + 13 = header.length
    case pos =>
      -- The line end is searched behind the end of the header, and not found there.
      have hn : header.find "\r\n" (start + 14) = none := if_neg (by omega)
      have hs : header.substrFrom (start + 14) = .error .outOfRange := if_neg (by omega)
      simp only [hn, hs, hl, iff_true]
      exact ⟨_, rfl⟩
    case neg =>
      simp only [hl, iff_false]
      rintro ⟨e, he⟩
      split at he
      case h_1 => simp [Bytes.substr_of_le (s := header) (show start + 14 ≤ _ by omega)] at he
      case h_2 => simp [Bytes.substrFrom_of_le (s := header) (show start + 14 ≤ _ by omega)] at he

theorem filenameValue_ok (header : Bytes) :
    ∃ value, filenameValue header (header.find "filename=\"") = .ok value ∧
      (value.isSome ↔ ∀ start, header.find "filename=\"" = some start →
        (header.find "\"" (start + 10)).isSome) := by
  cases h : header.find "filename=\""
  case none => exact ⟨some [], rfl, by simp⟩
  case some start =>
    have ⟨value, hv, hs⟩ := quotedValue_ok (Bytes.find_add_length_le h)
    exact ⟨value, hv, by rw [hs]; simp; rfl⟩

-- Once the attributes are complete, only the content type can fail.
theorem partHeader_of_complete {header : Bytes} (hn : nameStart header (header.find "filename=\"") = some start)
    (hq : quotedValue header (start + 6) = .ok (some name))
    (hf : filenameValue header (header.find "filename=\"") = .ok (some filename)) :
    partHeader header = (partContentType header).map fun ct => some (name, filename, ct) := by
  simp only [partHeader, hn, hq, hf, bind, Except.bind]
  cases partContentType header <;> rfl

theorem partHeader_ok_iff {header : Bytes} :
    (∃ part, partHeader header = .ok part) ↔ ¬CutShort header := by
  cases hn : nameStart header (header.find "filename=\"")
  case none =>
    have : partHeader header = .ok none := by simp only [partHeader, hn]; rfl
    refine iff_of_true ⟨_, this⟩ fun ⟨⟨start, h, _⟩, _, _⟩ => ?_
    exact absurd (hn.symm.trans h) (by simp)
  case some start =>
    have ⟨name, hq, hqs⟩ := quotedValue_ok (nameStart_le hn)
    have ⟨filename, hf, hfs⟩ := filenameValue_ok header
    cases name
    case none =>
      have : partHeader header = .ok none := by simp only [partHeader, hn, hq]; rfl
      refine iff_of_true ⟨_, this⟩ fun ⟨⟨_, h, hs⟩, _, _⟩ => ?_
      cases hn.symm.trans h
      exact absurd (hqs.trans hs) (by simp)
    case some name =>
      cases filename
      case none =>
        have : partHeader header = .ok none := by simp only [partHeader, hn, hq, hf]; rfl
        exact iff_of_true ⟨_, this⟩ fun h => absurd (hfs.mpr h.filename) (by simp)
      case some filename =>
        rw [partHeader_of_complete hn hq hf]
        have hc : CutShort header ↔ ∃ e, partContentType header = .error e :=
          ⟨fun h => partContentType_eq_error_iff.mpr h.contentType, fun h =>
            ⟨⟨start, hn, by simp [← hqs]⟩, hfs.mp rfl, partContentType_eq_error_iff.mp h⟩⟩
        rw [hc]
        cases partContentType header <;> simp [Except.map]

theorem parsePart_ok_iff {raw : Bytes} :
    (∃ parts', parsePart offset raw parts = .ok parts') ↔ ¬PartCutShort raw := by
  cases hs : raw.find "\r\n\r\n"
  case none => simp [parsePart, PartCutShort, hs, pure, Except.pure]
  case some stop =>
    have : PartCutShort raw ↔ CutShort (raw.take stop) := by simp [PartCutShort, hs]
    rw [this, ← partHeader_ok_iff]
    simp only [parsePart, hs, bind, Except.bind]
    rcases partHeader (raw.take stop) with e | _ | ⟨name, filename, ct⟩
    · simp
    · simp [pure, Except.pure]
    · dsimp only
      split <;> simp [pure, Except.pure]

-- The value of the boundary parameter, without its quotes.
def boundaryOf (contentType : Bytes) : Bytes :=
  match contentType.find "boundary" with
  | none       => []
  | some start =>
    let value := ((contentType.drop start).dropWhile (· ≠ Ascii.equals)).tail
    if value.head? = some Ascii.quote then value.tail.takeWhile (· ≠ Ascii.quote) else value

theorem extractBoundary_quoted {ct : Bytes} (h : pos ≤ ct.length) :
    (match ct.find "\"" pos with
      | some stop => ct.substr pos (stop - pos)
      | none      => ct.substrFrom pos) = .ok ((ct.drop pos).takeWhile (· ≠ Ascii.quote)) := by
  have hm := Bytes.find_eq_map [Ascii.quote] h
  split
  case h_1 stop hs =>
    rw [show ct.find [Ascii.quote] pos = some stop from hs, eq_comm, Option.map_eq_some_iff] at hm
    obtain ⟨i, hi, he⟩ := hm
    subst he
    rw [Bytes.substr_of_le h, (Bytes.span_of_find_byte hi).1, Nat.add_sub_cancel_left]
  case h_2 hs =>
    rw [show ct.find [Ascii.quote] pos = none from hs, eq_comm, Option.map_eq_none_iff] at hm
    rw [Bytes.substrFrom_of_le h, (Bytes.span_of_find_byte_none hm).1]

theorem extractBoundary_eq (ct : Bytes) : extractBoundary ct = .ok (boundaryOf ct) := by
  simp only [extractBoundary, boundaryOf]
  cases h : ct.find "boundary"
  case none => rfl
  case some start =>
    have hs : start ≤ ct.length := (Nat.le_add_right ..).trans (Bytes.find_add_length_le h)
    dsimp only
    have hm := Bytes.find_eq_map [Ascii.equals] hs
    split
    case h_1 he =>
      rw [show ct.find [Ascii.equals] start = none from he, eq_comm, Option.map_eq_none_iff] at hm
      rw [(Bytes.span_of_find_byte_none hm).2]
      rfl
    case h_2 eq he =>
      rw [show ct.find [Ascii.equals] start = some eq from he, eq_comm, Option.map_eq_some_iff] at hm
      obtain ⟨i, hi, he'⟩ := hm
      subst he'
      rw [(Bytes.span_of_find_byte hi).2, List.tail_cons, List.drop_drop, ← Nat.add_assoc]
      by_cases hl : start + i + 1 ≥ ct.length
      case pos =>
        rw [if_pos hl, List.drop_eq_nil_of_le hl]
        rfl
      rw [if_neg hl, List.drop_eq_getElem_cons (by omega), List.getD_eq_getElem _ _ (by omega)]
      simp only [List.head?_cons, Option.some.injEq, List.tail_cons]
      by_cases hq : ct[start + i + 1] = Ascii.quote
      case neg =>
        rw [if_neg hq, if_neg hq, ← List.drop_eq_getElem_cons]
        exact Bytes.substrFrom_of_le (by omega)
      rw [if_pos hq, if_pos hq]
      exact extractBoundary_quoted (by omega)

-- The condition under which the part in front of a delimiter is parsed without an exception.
theorem parsePart_range_ok_iff (offset it : Nat) (raw : Bytes) (parts : List Part) :
    (∃ parts', (if it > 2 then parsePart offset (raw.take (it - 2)) parts else pure parts) = .ok parts') ↔
      ∀ part ∈ (if it > 2 then [raw.take (it - 2)] else []), ¬PartCutShort part := by
  split
  case isTrue  => simp [parsePart_ok_iff]
  case isFalse => simp [pure, Except.pure]

theorem parse.go_none {body sep : Bytes} (h : cur ≤ body.length)
    (hf : Bytes.find (body.drop cur) sep = none) : parse.go body sep cur prev parts = .ok parts := by
  have hm := Bytes.find_eq_map sep h
  rw [hf] at hm
  rw [parse.go]
  split
  case h_1 => rfl
  case h_2 h' => exact absurd (h'.symm.trans hm) (by simp)

-- What is in front of the first delimiter is ignored.
theorem parse.go_first {body sep : Bytes} (h : body.find sep = some it)
    (hl : it + sep.length + 2 ≤ body.length) : parse.go body sep 0 none parts =
      parse.go body sep (it + sep.length + 2) (some (it + sep.length + 2)) parts := by
  conv_lhs => rw [parse.go]
  split
  case h_1 h' => exact absurd (h'.symm.trans h) (by simp)
  case h_2 _ h' =>
    cases h'.symm.trans h
    simp only [pure_bind, if_neg (Nat.not_lt.mpr hl)]

theorem parse.go_some {body sep : Bytes} (h : cur ≤ body.length)
    (hf : Bytes.find (body.drop cur) sep = some it) : parse.go body sep cur (some cur) parts =
      (if it > 2 then parsePart cur ((body.drop cur).take (it - 2)) parts else pure parts) >>= fun parts =>
        if cur + it + sep.length + 2 > body.length then pure parts
        else parse.go body sep (cur + it + sep.length + 2) (some (cur + it + sep.length + 2)) parts := by
  have hm := Bytes.find_eq_map sep h
  rw [hf] at hm
  conv_lhs => rw [parse.go]
  split
  case h_1 h' => exact absurd (h'.symm.trans hm) (by simp)
  case h_2 _ h' =>
    cases h'.symm.trans hm
    simp only [Nat.add_sub_cancel_left]
    split <;> rfl

theorem parse.go_ok_iff {body sep : Bytes} {parts : List Part} (h : cur ≤ body.length) :
    (∃ parts', parse.go body sep cur (some cur) parts = .ok parts') ↔
      ∀ part ∈ ranges sep (body.drop cur), ¬PartCutShort part := by
  rw [ranges]
  cases hf : Bytes.find (body.drop cur) sep
  case none => simp [parse.go_none h hf]
  case some it =>
    have hr (parts : List Part) :
        (∃ parts', (if cur + it + sep.length + 2 > body.length then pure parts
          else parse.go body sep (cur + it + sep.length + 2)
            (some (cur + it + sep.length + 2)) parts) = .ok parts') ↔
          ∀ part ∈ (if it + sep.length + 2 > (body.drop cur).length then []
            else ranges sep ((body.drop cur).drop (it + sep.length + 2))), ¬PartCutShort part := by
      have hl : cur + it + sep.length + 2 > body.length ↔
          it + sep.length + 2 > (body.drop cur).length := by simp; omega
      by_cases hc : cur + it + sep.length + 2 > body.length
      case pos =>
        rw [if_pos hc, if_pos (hl.mp hc)]
        simp [pure, Except.pure]
      case neg =>
        rw [if_neg hc, if_neg (hl.not.mp hc), List.drop_drop, parse.go_ok_iff (by omega)]
        simp only [Nat.add_assoc]
    simp only [List.forall_mem_append]
    rw [parse.go_some h hf, ← parsePart_range_ok_iff cur, ← Exn.bind_ok_iff hr]
termination_by body.length - cur

theorem parse_ok_iff {body ct : Bytes} :
    (∃ parts, parse body ct = .ok parts) ↔ boundaryOf ct = [] ∨
      ∀ part ∈ partRanges (Bytes.ofString "--" ++ boundaryOf ct) body, ¬PartCutShort part := by
  simp only [parse, extractBoundary_eq, bind, Except.bind]
  by_cases hn : boundaryOf ct = []
  case pos => simp [hn, pure, Except.pure]
  case neg =>
    rw [if_neg hn, parse.go, partRanges]
    simp only [hn, false_or]
    split
    case h_1 h => simp [h, pure, Except.pure]
    case h_2 it h =>
      simp only [h, bind, Except.bind, pure, Except.pure]
      split
      case isTrue => simp
      case isFalse hl => rw [parse.go_ok_iff (by omega)]

end YNet.MultipartParser
