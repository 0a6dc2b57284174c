import YNet.Core.Theorems.Request.Parse
import YNet.Util.Theorems.Slices

open Lines Cpp

namespace YNet.Request

-- A form whose boundary is missing.
def LacksBoundary (headers : StringMap) : Prop :=
  ∃ ct, headers.lookup ("Content-Type" : Bytes) = some ct ∧ (ct.find "multipart/form-data").isSome ∧
    (ct.find "boundary=").isNone

-- `parseForm` changes nothing but the form's data, unless the boundary is missing.
theorem parseForm_cases (h : parseForm req = .ok req') :
    (∃ parts formData, req' = { req with parts, formData }) ∨
      (LacksBoundary req.headers ∧ req' = req.fail 400) := by
  unfold parseForm at h
  split at h
  case h_1 => cases h; exact .inl ⟨_, _, rfl⟩
  case h_2 ct hc =>
    split_ifs at h with hm hb hu
    case pos => cases h; exact .inr ⟨⟨ct, hc, hm, hb⟩, rfl⟩
    case neg =>
      have ⟨_, _, h⟩ := Exn.bind_eq_ok h
      cases h
      exact .inl ⟨_, _, rfl⟩
    case pos =>
      have ⟨_, _, h⟩ := Exn.bind_eq_ok h
      cases h
      exact .inl ⟨_, _, rfl⟩
    case neg => cases h; exact .inl ⟨_, _, rfl⟩

theorem parseForm_of_not_multipart (req : Request)
    (h : ∀ ct, req.headers.lookup ("Content-Type" : Bytes) = some ct → ct.find "multipart/form-data" = none) :
    ∃ formData, parseForm req = .ok { req with formData } := by
  unfold parseForm getHeader
  split
  case h_1 => exact ⟨_, rfl⟩
  case h_2 ct hc =>
    have ⟨query, hq⟩ := parseQuery_ok req.body
    rw [h ct hc, if_neg (by simp), hq]
    split <;> exact ⟨_, rfl⟩

-- A form with a part whose header is cut short.
def HasPartCutShort (headers : StringMap) (body : Bytes) : Prop :=
  ∃ ct, headers.lookup ("Content-Type" : Bytes) = some ct ∧
    (ct.find "multipart/form-data").isSome ∧ (ct.find "boundary=").isSome ∧
    MultipartParser.boundaryOf ct ≠ [] ∧
    ∃ part ∈ MultipartParser.partRanges (Bytes.ofString "--" ++ MultipartParser.boundaryOf ct) body,
      MultipartParser.PartCutShort part

theorem parseForm_ok_iff (req : Request) :
    (∃ req', parseForm req = .ok req') ↔ ¬HasPartCutShort req.headers req.body := by
  cases hc : req.headers.lookup ("Content-Type" : Bytes)
  case none => simp [parseForm, getHeader, hc, HasPartCutShort, pure, Except.pure]
  case some ct =>
    by_cases hm : (ct.find "multipart/form-data").isSome
    case neg =>
      refine iff_of_true ?_ ?_
      case refine_1 =>
        obtain ⟨query, hq⟩ := parseQuery_ok req.body
        simp only [parseForm, getHeader, hc, hq, bind, Except.bind]
        rw [if_neg hm]
        split <;> exact ⟨_, rfl⟩
      case refine_2 =>
        rintro ⟨_, hct, h, _⟩
        cases hc.symm.trans hct
        exact hm h
    by_cases hs : (ct.find "boundary=").isSome
    case neg =>
      refine iff_of_true ?_ ?_
      case refine_1 =>
        refine ⟨req.fail 400, ?_⟩
        simp only [parseForm, getHeader, hc, hm, if_true]
        exact if_pos (by simpa using hs)
      case refine_2 =>
        rintro ⟨_, hct, _, h, _⟩
        cases hc.symm.trans hct
        exact hs h
    have hp : HasPartCutShort req.headers req.body ↔
        ¬∃ parts, MultipartParser.parse req.body ct = .ok parts := by
      rw [MultipartParser.parse_ok_iff]
      simp [HasPartCutShort, hc, hm, hs]
    have : (∃ req', parseForm req = .ok req') ↔ ∃ parts, MultipartParser.parse req.body ct = .ok parts := by
      simp only [parseForm, getHeader, hc, hm, if_true]
      rw [if_neg (by simpa [Option.isSome_iff_ne_none] using hs)]
      cases MultipartParser.parse req.body ct <;> simp [bind, Except.bind, pure, Except.pure]
    rw [this, hp, not_not]

-- As long as the body lives, the view that is left of a part shows the data of the part.
theorem read_dangling {body ct : Bytes} {parts : List Part} (h : MultipartParser.parse body ct = .ok parts)
    (hp : part ∈ parts) : part.dangling.data.read (body[·]?) = some part.data := by
  have ⟨he, _, hs⟩ := MultipartParser.parse_sliced body ct
  have hs := hs _ parts (by rw [List.take_length]; exact he.symm.trans h)
  have ⟨hl, hd⟩ := hs.range part hp
  exact (View.read_buffer hl).trans (congrArg some hd.symm)

-- `parse` returns a request, accepted or rejected, unless the message reaches the parser of the form
-- and a part's header is cut short.
theorem parse_returns_iff (raw : Bytes) (config : Config) :
    (∃ req, parse raw config = .ok req) ↔
      ¬∃ (m : Message) (sp1 sp2 : Nat), m.bytes = raw ∧ m.Fits config ∧ m.Valid sp1 sp2 ∧
        HasPartCutShort m.headers m.body := by
  by_cases hm : ∃ m : Message, m.bytes = raw
  case neg =>
    have ⟨_, _, h⟩ := parse_rejects config fun m (hr : m.bytes = raw) => hm ⟨m, hr⟩
    exact iff_of_true ⟨_, h⟩ fun ⟨m, _, _, h, _⟩ => hm ⟨m, h⟩
  case pos =>
    have ⟨m, hr⟩ := hm
    subst hr
    constructor
    case mp =>
      rintro ho ⟨m', sp1, sp2, hr, hf, hv, hc⟩
      have ⟨_, _, h⟩ := parse_of_valid hf hv
      rw [← hr, h, parseForm_ok_iff] at ho
      exact ho hc
    case mpr =>
      intro hn
      rcases parse_cases m config with ⟨sp1, sp2, ⟨hf, hv⟩, _, _, h⟩ | ⟨_, _, _, h⟩
      case inl =>
        rw [h, parseForm_ok_iff]
        exact fun hc => hn ⟨m, sp1, sp2, rfl, hf, hv, hc⟩
      case inr => exact ⟨_, h⟩

-- What `parse` has read from a message that it accepts.
theorem exists_request_of_accepted (h : parse raw config = .ok req) (ha : req.parseError = false) :
    ∃ (m : Message) (sp1 sp2 : Nat) (query : StringMap) (parts : List DanglingPart) (formData : StringMap),
      m.bytes = raw ∧ m.Fits config ∧ m.Valid sp1 sp2 ∧ parseQuery (queryPart (m.target sp1 sp2)) = .ok query ∧
        req = { m.request sp1 sp2 query with parts, formData } := by
  have hr : ¬Rejects (parse raw config) := by
    rintro ⟨_, _, h'⟩
    cases h.symm.trans h'
    contradiction
  by_cases hm : ∃ m : Message, m.bytes = raw
  case neg => exact absurd (parse_rejects config fun m (he : m.bytes = raw) => hm ⟨m, he⟩) hr
  case pos =>
    have ⟨m, he⟩ := hm
    subst he
    cases parse_cases m config
    case inr hc => exact absurd hc.2 hr
    case inl hc =>
      have ⟨sp1, sp2, ⟨hf, hv⟩, query, hq, hp⟩ := hc
      rw [hp] at h
      cases parseForm_cases h
      case inl he =>
        have ⟨parts, formData, he⟩ := he
        exact ⟨m, sp1, sp2, query, parts, formData, rfl, hf, hv, hq, he⟩
      case inr he =>
        rw [he.2] at ha
        exact absurd ha (by simp [fail])

-- The header of the only part ends with `Content-Type:`.
theorem parse_throws_on_cut_short_part :
    ¬∃ req, parse ("POST / HTTP/1.1\r\nContent-Type: multipart/form-data; boundary=B\r\n\r\n" ++
      "--B\r\nname=\"a\"\r\nContent-Type:\r\n\r\nxyz\r\n--B--" : String) {} = .ok req := by
  rintro ⟨req, h⟩
  have : (parse ("POST / HTTP/1.1\r\nContent-Type: multipart/form-data; boundary=B\r\n\r\n" ++
      "--B\r\nname=\"a\"\r\nContent-Type:\r\n\r\nxyz\r\n--B--" : String) {}).toBool = false := by
    decide +kernel
  rw [h] at this
  contradiction

end YNet.Request
