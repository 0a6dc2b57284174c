import YNet.Core.Theorems.Request.Headers
import YNet.Util.Theorems.MultipartParser
import YNet.Util.Theorems.Url

open Lines Cpp

namespace YNet

-- The path and the query string of a request target.
def pathPart (target : Bytes) : Bytes :=
  target.takeWhile (· ≠ Ascii.question)

def queryPart (target : Bytes) : Bytes :=
  (target.dropWhile (· ≠ Ascii.question)).tail

namespace Message

variable (m : Message)

def target (sp1 sp2 : Nat) : Bytes :=
  (m.bytes.drop (sp1 + 1)).take (sp2 - (sp1 + 1))

def path (sp1 sp2 : Nat) : Bytes :=
  urlDecode (pathPart (m.target sp1 sp2))

-- If the second space lies behind the request line, the version is the rest of the message.
def version (sp2 : Nat) : Bytes :=
  (m.bytes.drop (sp2 + 1)).take (Bytes.sizeSub m.start.length (sp2 + 1))

-- The request that is handed to `parseForm` when all checks are passed.
def request (sp1 sp2 : Nat) (queryParams : StringMap) : Request where
  method  := m.bytes.take sp1
  path    := canonicalPath (m.path sp1 sp2)
  version := m.version sp2
  headers := m.headers
  body    := m.body
  queryParams

-- The limits of the configuration. The sum of the first two limits wraps around.
structure Fits (config : Config) : Prop where
  length  : m.bytes.length ≤ (config.maxHeaderSize + config.maxBodySize).toNat
  headEnd : m.headEnd ≤ config.maxHeaderSize.toNat
  body    : m.body.length ≤ config.maxBodySize.toNat
  headers : m.fields = [] ∨ m.fields.length ≤ config.maxHeaders.toInt

-- The checks of what the message says, where `sp1` and `sp2` are the positions of the first two spaces.
structure Valid (sp1 sp2 : Nat) : Prop where
  space₁        : m.bytes.find " " = some sp1
  space₂        : m.bytes.find " " (sp1 + 1) = some sp2
  path          : isDoubleEncoded (m.path sp1 sp2) = false
  method        : m.bytes.take sp1 ∈ Request.methods
  version       : m.version sp2 ∈ Request.versions
  contentLength : ∀ cl, m.headers.lookup ("Content-Length" : Bytes) = some cl →
    fromChars cl = some m.body.length

end Message

namespace Request

-- A request that `parse` has rejected.
def Rejects (result : Except Exn Request) : Prop :=
  ∃ req code, result = .ok (Request.fail req code)

theorem parseTarget_eq (target : Bytes) :
    ∃ query, parseQuery (queryPart target) = .ok query ∧
      parseTarget target = .ok (pathPart target, query) := by
  unfold parseTarget
  split
  case h_1 h =>
    obtain ⟨ht, hd⟩ := Bytes.span_of_find_byte_none (c := Ascii.question) h
    refine ⟨∅, ?_, ?_⟩
    · rw [queryPart, hd, List.tail_nil, parseQuery, parseQuery.go]
      rfl
    · rw [pathPart, ht]
      rfl
  case h_2 qpos h =>
    have hl : qpos + 1 ≤ target.length := Bytes.find_add_length_le h
    obtain ⟨ht, hd⟩ := Bytes.span_of_find_byte (c := Ascii.question) h
    obtain ⟨query, hq⟩ := parseQuery_ok (target.drop (qpos + 1))
    refine ⟨query, by rwa [queryPart, hd], ?_⟩
    rw [Bytes.substr_of_le (Nat.zero_le _), Bytes.substrFrom_of_le hl, pathPart, ht]
    simp only [hq, bind, Except.bind]
    rfl

section Stages

-- Each of the following theorems is about one stage of `parse`: either the stage's checks are passed
-- and the result is that of the next stage, or the request is rejected.

variable {config : Config} {req : Request} {data body : Bytes}

theorem parseBody_cases (req : Request) (hb : data.substrFrom (pos + 2) = .ok body) :
    let checked := ∀ cl, req.headers.lookup ("Content-Length" : Bytes) = some cl →
      fromChars cl = some body.length
    (checked ∧ parseBody data req pos = parseForm { req with body }) ∨
      (¬checked ∧ Rejects (parseBody data req pos)) := by
  dsimp only
  simp only [parseBody, hb, bind, Except.bind, getHeader]
  cases req.headers.lookup ("Content-Length" : Bytes)
  case none => exact .inl ⟨by simp, rfl⟩
  case some cl =>
    simp only [Option.some.injEq, forall_eq']
    cases fromChars cl
    case none => exact .inr ⟨by simp, _, _, rfl⟩
    case some n =>
      by_cases hn : n = body.length
      case pos => exact .inl ⟨by simp [hn], by simp [hn]⟩
      case neg => exact .inr ⟨by simp [hn], _, _, if_pos hn⟩

theorem parseHeaders_cases (config : Config) (req : Request) (m : Message) :
    let checked := m.fields = [] ∨ m.fields.length ≤ config.maxHeaders.toInt
    let result := parseHeaders m.bytes config req (m.start.length + 2) 0
    (checked ∧ result = .ok (.ok ({ req with headers := m.fields.foldl Message.insertField req.headers },
      m.headEnd + 2))) ∨ (¬checked ∧ ∃ req', result = .ok (.error (Request.fail req' 431))) := by
  dsimp only
  have hd : m.bytes.drop (m.start.length + 2) = wire m.lines ++ (crlf ++ m.body) := by
    simp [Message.bytes, ← List.drop_drop]
  have hp : m.start.length + 2 ≤ m.bytes.length := by
    rw [Message.length_bytes, Message.headEnd]
    omega
  by_cases hc : m.fields = [] ∨ m.fields.length ≤ config.maxHeaders.toInt
  case pos =>
    refine .inl ⟨hc, ?_⟩
    rw [parseHeaders_eq m.isLine_lines hp hd (by simpa [Message.fields] using hc), Message.headEnd,
      Nat.add_right_comm]
    rfl
  case neg =>
    rw [not_or, not_le] at hc
    refine .inr ⟨by simpa using hc, ?_⟩
    exact parseHeaders_reject m.isLine_lines hp hd hc.1 (by simpa [Message.fields] using hc.2)

theorem substrFrom_body (m : Message) : m.bytes.substrFrom (m.headEnd + 2 + 2) = .ok m.body := by
  have : m.bytes = (m.start ++ (crlf ++ (wire m.lines ++ crlf))) ++ m.body := by simp [Message.bytes]
  rw [this]
  apply Bytes.substrFrom_append
  simp only [Message.headEnd, List.length_append, List.length_cons, List.length_nil]
  omega

theorem parseMessage_cases {m : Message} (config : Config) (h₁ : m.bytes.find " " = some sp1)
    (h₂ : m.bytes.find " " (sp1 + 1) = some sp2) :
    let checked := (m.fields = [] ∨ m.fields.length ≤ config.maxHeaders.toInt) ∧ m.Valid sp1 sp2
    let result := parseMessage m.bytes config sp1 sp2 m.start.length
    (checked ∧ ∃ query, parseQuery (queryPart (m.target sp1 sp2)) = .ok query ∧
      result = parseForm (m.request sp1 sp2 query)) ∨ (¬checked ∧ Rejects result) := by
  dsimp only
  have hs₀ : m.bytes.substr 0 sp1 = .ok (m.bytes.take sp1) :=
    Bytes.substr_of_le (Nat.zero_le _)
  have hs₁ : m.bytes.substr (sp1 + 1) (Bytes.sizeSub sp2 (sp1 + 1)) = .ok (m.target sp1 sp2) := by
    rw [Bytes.sizeSub_of_le (Bytes.le_of_find h₂)]
    exact Bytes.substr_of_le (Bytes.find_add_length_le h₁)
  have hs₂ : m.bytes.substr (sp2 + 1) (Bytes.sizeSub m.start.length (sp2 + 1)) = .ok (m.version sp2) :=
    Bytes.substr_of_le (Bytes.find_add_length_le h₂)
  have hp : urlDecode (pathPart (m.target sp1 sp2)) = m.path sp1 sp2 :=
    rfl
  have ⟨query, hq, ht⟩ := parseTarget_eq (m.target sp1 sp2)
  simp only [parseMessage, hs₀, hs₁, hs₂, hp, ht, normalizePath_eq, bind, Except.bind]
  by_cases hp : isDoubleEncoded (m.path sp1 sp2)
  case pos => exact .inr ⟨fun h => by simp [h.2.path] at hp, _, _, if_pos hp⟩
  rw [if_neg hp]
  by_cases hm : m.bytes.take sp1 ∈ methods
  case neg => exact .inr ⟨fun h => hm h.2.method, _, _, if_pos hm⟩
  rw [if_neg (not_not.mpr hm)]
  by_cases hv : m.version sp2 ∈ versions
  case neg => exact .inr ⟨fun h => hv h.2.version, _, _, if_pos hv⟩
  rw [if_neg (not_not.mpr hv)]
  have hr := parseHeaders_cases config ⟨m.bytes.take sp1, canonicalPath (m.path sp1 sp2),
    m.version sp2, ∅, [], [], query, [], [], ∅, false, 0, ∅⟩ m
  rcases hr with ⟨hh, hr⟩ | ⟨hh, req, hr⟩
  case inr => exact .inr ⟨fun h => hh h.1, _, _, by rw [hr]; rfl⟩
  rw [hr]
  rcases parseBody_cases (m.request sp1 sp2 query) (substrFrom_body m) with ⟨hc, hb⟩ | ⟨hc, hb⟩
  case inl => exact .inl ⟨⟨hh, h₁, h₂, by simpa using hp, hm, hv, hc⟩, query, hq, hb⟩
  case inr => exact .inr ⟨fun h => hc h.2.contentLength, hb⟩

end Stages

theorem parse_cases (m : Message) (config : Config) :
    (∃ sp1 sp2, (m.Fits config ∧ m.Valid sp1 sp2) ∧
      ∃ query, parseQuery (queryPart (m.target sp1 sp2)) = .ok query ∧
        parse m.bytes config = parseForm (m.request sp1 sp2 query)) ∨
      ((∀ sp1 sp2, m.Fits config → ¬m.Valid sp1 sp2) ∧ Rejects (parse m.bytes config)) := by
  have hb : m.bytes.length - (m.headEnd + 4) = m.body.length := by
    rw [m.length_bytes]
    omega
  have hh : m.bytes.find "\r\n\r\n" = some m.headEnd := m.find_blank
  have hc : m.bytes.find "\r\n" = some m.start.length := m.find_crlf
  simp only [parse, hh, hc, hb]
  by_cases hl : m.bytes.length > (config.maxHeaderSize + config.maxBodySize).toNat
  case pos => exact .inr ⟨fun _ _ h => absurd h.length (not_le.mpr hl), _, _, if_pos hl⟩
  rw [if_neg hl]
  by_cases hh : m.headEnd > config.maxHeaderSize.toNat
  case pos => exact .inr ⟨fun _ _ h => absurd h.headEnd (not_le.mpr hh), _, _, if_pos hh⟩
  rw [if_neg hh]
  by_cases hd : m.body.length > config.maxBodySize.toNat
  case pos => exact .inr ⟨fun _ _ h => absurd h.body (not_le.mpr hd), _, _, if_pos hd⟩
  rw [if_neg hd]
  cases h₁ : m.bytes.find " "
  case none => exact .inr ⟨fun _ _ _ h => by simp [h.space₁] at h₁, _, _, rfl⟩
  case some sp1 =>
    simp only [Option.elim_some]
    cases h₂ : m.bytes.find " " (sp1 + 1)
    case none =>
      refine .inr ⟨fun _ _ _ h => ?_, _, _, rfl⟩
      cases h.space₁.symm.trans h₁
      exact absurd (h.space₂.symm.trans h₂) (by simp)
    case some sp2 =>
      rcases parseMessage_cases config h₁ h₂ with ⟨⟨hh', hv⟩, hp⟩ | ⟨hc, hr⟩
      case inl => exact .inl ⟨sp1, sp2, ⟨⟨not_lt.mp hl, not_lt.mp hh, not_lt.mp hd, hh'⟩, hv⟩, hp⟩
      case inr =>
        refine .inr ⟨fun _ _ hf h => hc ?_, hr⟩
        cases h.space₁.symm.trans h₁
        cases h.space₂.symm.trans h₂
        exact ⟨hf.headers, h⟩

-- A message without an empty line is rejected.
theorem parse_rejects {raw : Bytes} (config : Config) (h : ∀ m : Message, m.bytes ≠ raw) : Rejects (parse raw config) := by
  cases hb : raw.find "\r\n\r\n"
  case some => exact absurd (Message.exists_of_find_blank hb) (by simpa using h)
  case none =>
    simp only [parse, hb]
    split <;> exact ⟨_, _, rfl⟩

-- The result for a message that passes all checks.
theorem parse_of_valid {m : Message} (hf : m.Fits config) (hv : m.Valid sp1 sp2) :
    ∃ query, parseQuery (queryPart (m.target sp1 sp2)) = .ok query ∧
      parse m.bytes config = parseForm (m.request sp1 sp2 query) := by
  rcases parse_cases m config with ⟨sp1', sp2', ⟨_, hv'⟩, h⟩ | ⟨hn, _⟩
  case inr => exact absurd hv (hn sp1 sp2 hf)
  case inl =>
    cases hv.space₁.symm.trans hv'.space₁
    cases hv.space₂.symm.trans hv'.space₂
    exact h

end Request
end YNet
