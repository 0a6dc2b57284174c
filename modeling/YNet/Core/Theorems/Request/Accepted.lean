import YNet.Core.Theorems.Request.Form
import YNet.Lib.Fill

open Lines

namespace YNet.Request

section Head

-- A header map is filled line by line.
theorem lookup_headers (m : Message) : m.headers.lookup name = m.fields.reverse.lookup name := by
  have : m.headers = Finmap.fill ∅ m.fields := rfl
  rw [this, Finmap.lookup_fill, Finmap.lookup_empty, Option.or_none]

theorem drop_body (m : Message) : m.bytes.drop (m.headEnd + 4) = m.body := by
  have : m.bytes = (m.start ++ (crlf ++ (wire m.lines ++ crlf))) ++ m.body := by simp [Message.bytes]
  rw [this]
  apply List.drop_left'
  simp only [Message.headEnd, List.length_append, List.length_cons, List.length_nil]
  omega

-- The loop over the headers stops at the first empty line, and the body is what lies behind it.
theorem accepted_head (h : parse raw config = .ok req) (ha : req.parseError = false)
    (hc : 0 ≤ config.maxHeaders.toInt) :
    ∃ m : Message, m.bytes = raw ∧ raw.find "\r\n" = some m.start.length ∧
      raw.find "\r\n\r\n" = some m.headEnd ∧
      (∀ req₀, parseHeaders raw config req₀ (m.start.length + 2) 0 =
        .ok (.ok ({ req₀ with headers := req₀.headers.fill m.fields }, m.headEnd + 2))) ∧
      req.body = raw.drop (m.headEnd + 4) ∧
      (∀ name, req.headers.lookup name = m.fields.reverse.lookup name) ∧
      m.fields.length ≤ config.maxHeaders.toInt := by
  have ⟨m, sp1, sp2, query, parts, formData, hb, hf, hv, _, he⟩ := exists_request_of_accepted h ha
  subst hb he
  have hcount : m.fields.length ≤ config.maxHeaders.toInt := by
    cases hf.headers
    case inl hn => rwa [hn]
    case inr hl => exact hl
  refine ⟨m, rfl, m.find_crlf, m.find_blank, fun req₀ => ?_, (drop_body m).symm, fun _ => lookup_headers m,
    hcount⟩
  cases parseHeaders_cases config req₀ m
  case inl hp => exact hp.2
  case inr hp => exact absurd hf.headers hp.1

theorem accepted_head_duplicate : ∃ req : Request,
    parse "GET / HTTP/1.1\r\nA: 1\r\nx\r\n:\r\nA:\t2 \r\n\r\nb" {} = .ok req ∧
      ∃ m : Message, m.bytes = Bytes.ofString "GET / HTTP/1.1\r\nA: 1\r\nx\r\n:\r\nA:\t2 \r\n\r\nb" ∧
        (∀ name, req.headers.lookup name = m.fields.reverse.lookup name) ∧ m.fields.length ≤ (64 : Int) := by
  have he : (parse "GET / HTTP/1.1\r\nA: 1\r\nx\r\n:\r\nA:\t2 \r\n\r\nb" {}).toOption.map
      (fun req => req.parseError) = some false := by
    decide +kernel
  have ⟨req, h, ha⟩ := Exn.exists_of_map_toOption he
  have ⟨m, hb, _, _, _, _, hl, hc⟩ := accepted_head h ha (by decide)
  exact ⟨req, h, m, hb, hl, hc⟩

end Head

section Line

-- The first line of a request is made of the method, the target and the version that `parse` reports,
-- and the path and the query are those of the target.
def IsRequestLine (line : Bytes) (req : Request) : Prop :=
  ∃ target, line = req.method ++ (Ascii.space :: (target ++ (Ascii.space :: req.version))) ∧
    Ascii.space ∉ target ∧ req.path = canonicalPath (urlDecode (pathPart target)) ∧
    parseQuery (queryPart target) = .ok req.queryParams

theorem two_le_count_of_isRequestLine (h : IsRequestLine line req) : 2 ≤ line.count Ascii.space := by
  have ⟨target, he, _⟩ := h
  rw [he, List.count_append, List.count_cons_self, List.count_append, List.count_cons_self]
  omega

variable {m : Message}

-- What lies in front of the second space.
theorem bytes_eq_of_valid (hv : m.Valid sp1 sp2) : m.bytes = m.bytes.take sp1 ++
    (Ascii.space :: (m.target sp1 sp2 ++ (Ascii.space :: m.bytes.drop (sp2 + 1)))) ∧
      Ascii.space ∉ m.bytes.take sp1 ∧ Ascii.space ∉ m.target sp1 sp2 := by
  have ⟨t₁, hm₁, ht₁, h₁⟩ := Bytes.drop_eq_of_find_byte (c := Ascii.space) hv.space₁
  have ⟨t₂, hm₂, ht₂, h₂⟩ := Bytes.drop_eq_of_find_byte (c := Ascii.space) hv.space₂
  rw [List.drop_zero] at ht₁ h₁
  rw [Nat.sub_zero] at ht₁
  have ht₂ : m.target sp1 sp2 = t₂ := ht₂
  rw [ht₁, ht₂, ← h₂]
  exact ⟨h₁, hm₁, hm₂⟩

theorem length_front (hv : m.Valid sp1 sp2) :
    (m.bytes.take sp1 ++ (Ascii.space :: m.target sp1 sp2)).length = sp2 := by
  have h₁ : sp1 + 1 ≤ m.bytes.length := Bytes.find_add_length_le hv.space₁
  have h₂ : sp2 + 1 ≤ m.bytes.length := Bytes.find_add_length_le hv.space₂
  have h₃ := Bytes.le_of_find hv.space₂
  simp only [Message.target, List.length_append, List.length_cons, List.length_take, List.length_drop]
  omega

-- If the second space lies behind the first line, there is only one space in this line.
theorem count_le_one (hv : m.Valid sp1 sp2) (hl : m.start.length ≤ sp2) : m.start.count Ascii.space ≤ 1 := by
  have ⟨hb, hm₁, hm₂⟩ := bytes_eq_of_valid hv
  let front := m.bytes.take sp1 ++ (Ascii.space :: m.target sp1 sp2)
  have hfront : m.bytes = front ++ (Ascii.space :: m.bytes.drop (sp2 + 1)) := by
    simpa [front] using hb
  have hlen : front.length = sp2 := length_front hv
  have hp : m.start <+: m.bytes := List.prefix_append ..
  rw [hfront] at hp
  have hp := List.prefix_of_prefix_length_le hp (List.prefix_append ..) (hlen ▸ hl)
  calc m.start.count Ascii.space
    _ ≤ front.count Ascii.space := hp.sublist.count_le _
    _ = 1 := by
      rw [List.count_append, List.count_cons_self, List.count_eq_zero.mpr hm₁, List.count_eq_zero.mpr hm₂]

theorem isRequestLine_of_lt {query : StringMap} {parts : List DanglingPart} {formData : StringMap} (hv : m.Valid sp1 sp2)
    (hq : parseQuery (queryPart (m.target sp1 sp2)) = .ok query) (hl : sp2 < m.start.length) :
    IsRequestLine m.start { m.request sp1 sp2 query with parts, formData } := by
  have ⟨hb, _, hm₂⟩ := bytes_eq_of_valid hv
  refine ⟨m.target sp1 sp2, ?_, hm₂, rfl, hq⟩
  let front := m.bytes.take sp1 ++ (Ascii.space :: (m.target sp1 sp2 ++ [Ascii.space]))
  have hfront : m.bytes = front ++ m.bytes.drop (sp2 + 1) := by
    simpa [front] using hb
  have hlen : front.length = sp2 + 1 := by
    have := length_front hv
    simp only [front, List.length_append, List.length_cons, List.length_nil] at this ⊢
    omega
  have hversion : m.version sp2 = (m.bytes.drop (sp2 + 1)).take (m.start.length - front.length) := by
    rw [Message.version, Bytes.sizeSub_of_le hl, hlen]
  have hs : m.start = front ++ m.version sp2 := by
    calc m.start
      _ = m.bytes.take m.start.length := List.take_left.symm
      _ = (front ++ m.bytes.drop (sp2 + 1)).take m.start.length := congrArg (List.take _) hfront
      _ = front ++ m.version sp2 := by
        rw [List.take_append, List.take_of_length_le (hlen ▸ hl), ← hversion]
  change m.start = m.bytes.take sp1 ++ (Ascii.space :: (m.target sp1 sp2 ++ (Ascii.space :: m.version sp2)))
  simpa [front] using hs

-- The request line is the first line exactly when the first line contains two spaces.
theorem isRequestLine_iff (h : parse raw config = .ok req) (ha : req.parseError = false)
    (hl : raw.find "\r\n" = some lineEnd) :
    IsRequestLine (raw.take lineEnd) req ↔ 2 ≤ (raw.take lineEnd).count Ascii.space := by
  refine ⟨two_le_count_of_isRequestLine, fun hc => ?_⟩
  have ⟨m, sp1, sp2, query, parts, formData, hb, _, hv, hq, he⟩ := exists_request_of_accepted h ha
  subst hb he
  cases m.find_crlf.symm.trans hl
  have hs : m.bytes.take m.start.length = m.start := List.take_left
  rw [hs] at hc ⊢
  refine isRequestLine_of_lt hv hq (Nat.lt_of_not_le fun hle => ?_)
  have := count_le_one hv hle
  omega

theorem isRequestLine_iff_query : ∃ req : Request,
    parse "GET /a?b=c HTTP/1.0\r\n\r\n" {} = .ok req ∧
      (IsRequestLine "GET /a?b=c HTTP/1.0" req ↔ 2 ≤ (Bytes.ofString "GET /a?b=c HTTP/1.0").count Ascii.space) := by
  have he : (parse "GET /a?b=c HTTP/1.0\r\n\r\n" {}).toOption.map (fun req => req.parseError) = some false := by
    decide +kernel
  have hl : Bytes.find "GET /a?b=c HTTP/1.0\r\n\r\n" "\r\n" = some 19 := by decide +kernel
  have ⟨req, h, ha⟩ := Exn.exists_of_map_toOption he
  exact ⟨req, h, isRequestLine_iff h ha hl⟩

-- The version stands at the end of the body.
theorem not_isRequestLine : ∃ req : Request,
    parse "GET /a\r\n\r\nb HTTP/1.1" {} = .ok req ∧ req.parseError = false ∧
      Bytes.find "GET /a\r\n\r\nb HTTP/1.1" "\r\n" = some 6 ∧ ¬IsRequestLine "GET /a" req := by
  have he : (parse "GET /a\r\n\r\nb HTTP/1.1" {}).toOption.map (fun req => req.parseError) = some false := by
    decide +kernel
  have ⟨req, h, ha⟩ := Exn.exists_of_map_toOption he
  refine ⟨req, h, ha, by decide +kernel, fun hl => ?_⟩
  exact absurd (two_le_count_of_isRequestLine hl) (by decide +kernel)

end Line

end YNet.Request
