import YNet.Core.Serialization
import YNet.Core.Theorems.Request.Form
import YNet.Lib.Fill

open Cpp

namespace YNet

namespace Serialization

variable {s : Serialization} {config : Config}

-- The limits of the configuration.
def Fits (s : Serialization) (config : Config) : Prop :=
  s.message.Fits config

-- If there is a length, then it is the one of the body.
def LengthMatches (s : Serialization) : Prop :=
  ∀ f ∈ s.headers, f.1 = "Content-Length" → f.2 = natToString s.body.length

def IsMultipart (s : Serialization) : Prop :=
  ∃ f ∈ s.headers, f.1 = "Content-Type" ∧ (f.2.find "multipart/form-data").isSome

instance : Decidable s.LengthMatches :=
  inferInstanceAs (Decidable (∀ f ∈ s.headers, _))

instance : Decidable s.IsMultipart :=
  inferInstanceAs (Decidable (∃ f ∈ s.headers, _))

theorem lookup_headers :
    s.message.headers.lookup key = some value ↔ (key, value) ∈ s.headers := by
  have he : s.message.headers = Finmap.fill ∅ s.headers := congrArg (Finmap.fill ∅) (fields_eq s)
  rw [he]
  exact Finmap.lookup_fill_iff s.names_nodup

theorem message_valid (hp : isDoubleEncoded (urlDecode (pathPart s.target)) = false)
    (hc : s.LengthMatches) (hb : s.body.length < 2 ^ 64) : s.message.Valid s.sp1 s.sp2 where
  space₁ := find_sp1 s
  space₂ := find_sp2 s
  path := by rwa [Message.path, target_eq]
  method := by
    rw [take_sp1]
    exact s.method_mem
  version := by
    rw [version_eq]
    exact s.version_mem
  contentLength cl h := by
    rw [lookup_headers] at h
    rw [show cl = _ from hc _ h rfl]
    exact fromChars_natToString hb

theorem parse_bytes (hf : s.Fits config) (hp : isDoubleEncoded (urlDecode (pathPart s.target)) = false)
    (hc : s.LengthMatches) (hm : ¬s.IsMultipart) :
    ∃ query formData, parseQuery (queryPart s.target) = .ok query ∧
      Request.parse s.bytes config = .ok { s.message.request s.sp1 s.sp2 query with formData } := by
  have hb : s.body.length < 2 ^ 64 := hf.body.trans_lt config.maxBodySize.toNat_lt
  have ⟨query, hq, h⟩ := Request.parse_of_valid hf (message_valid hp hc hb)
  rw [target_eq] at hq
  have ⟨formData, hr⟩ := Request.parseForm_of_not_multipart (s.message.request s.sp1 s.sp2 query)
    fun ct hct => Option.not_isSome_iff_eq_none.mp fun h => hm ⟨_, lookup_headers.mp hct, rfl, h⟩
  exact ⟨query, formData, hq, h.trans hr⟩

-- The checks of the form are passed.
def FormAccepted (s : Serialization) : Prop :=
  ¬Request.LacksBoundary s.message.headers ∧ ¬Request.HasPartCutShort s.message.headers s.body

theorem parse_accepts (hf : s.Fits config)
    (hp : isDoubleEncoded (urlDecode (pathPart s.target)) = false) (hc : s.LengthMatches)
    (ha : s.FormAccepted) :
    ∃ req, Request.parse s.bytes config = .ok req ∧ req.parseError = false ∧
      req.headers = s.message.headers := by
  have hb : s.body.length < 2 ^ 64 := hf.body.trans_lt config.maxBodySize.toNat_lt
  have ⟨query, _, h⟩ := Request.parse_of_valid hf (message_valid hp hc hb)
  have ⟨req, hr⟩ := (Request.parseForm_ok_iff (s.message.request s.sp1 s.sp2 query)).mpr ha.2
  refine ⟨req, h.trans hr, ?_⟩
  rcases Request.parseForm_cases hr with ⟨_, _, rfl⟩ | ⟨hl, _⟩
  · exact ⟨rfl, rfl⟩
  · exact absurd hl ha.1

end Serialization

-- `parse` inverts the serialisation.
theorem Request.parse_serialization (s : Serialization) (config : Config) (hf : s.Fits config)
    (hn : Ascii.nul ∉ urlDecode (pathPart s.target)) (he : ¬Escaped (urlDecode (pathPart s.target)))
    (hc : s.LengthMatches) (hm : ¬s.IsMultipart) :
    ∃ req, Request.parse s.bytes config = .ok req ∧ req.parseError = false ∧
      req.method = s.method ∧ req.version = s.version ∧ req.body = s.body ∧
      (∀ key value, req.headers.lookup key = some value ↔ (key, value) ∈ s.headers) ∧
      normalizePath (urlDecode (pathPart s.target)) = .ok req.path ∧
      parseQuery (queryPart s.target) = .ok req.queryParams := by
  have ⟨query, formData, hq, h⟩ :=
    Serialization.parse_bytes hf (isDoubleEncoded_eq_false_iff.mpr ⟨hn, he⟩) hc hm
  refine ⟨_, h, rfl, s.take_sp1, s.version_eq, rfl, fun _ _ => Serialization.lookup_headers, ?_, hq⟩
  rw [normalizePath_eq]
  simp [Message.request, Message.path, s.target_eq]

def Serialization.sample : Serialization where
  method  := "POST"
  target  := "/a%20b//c?x=1&y"
  version := "HTTP/1.1"
  headers := [("Host", "h:80"), ("Content-Length", "4"), ("Empty", "")]
  body    := "a b\n"
  method_mem  := by decide
  target_mem  := by decide +kernel
  version_mem := by decide
  isHeader    := by
    have : ∀ f ∈ [(("Host" : Bytes), ("h:80" : Bytes)), ("Content-Length", "4"), ("Empty", "")],
      (∀ b ∈ [Ascii.colon, Ascii.cr, Ascii.lf], b ∉ f.1) ∧ ¬Lines.crlf <:+: f.2 ∧
        ∀ b ∈ f.2.head?, b ∉ [Ascii.space, Ascii.tab] := by decide +kernel
    exact fun f hf => ⟨(this f hf).1, (this f hf).2.1, (this f hf).2.2⟩
  names_nodup := by decide

theorem Request.parse_serialization_sample :
    ∃ req, Request.parse Serialization.sample.bytes {} = .ok req ∧ req.parseError = false ∧
      req.method = "POST" ∧ req.version = "HTTP/1.1" ∧ req.body = "a b\n" ∧
      (∀ key value, req.headers.lookup key = some value ↔ (key, value) ∈ Serialization.sample.headers) ∧
      normalizePath (urlDecode (pathPart "/a%20b//c?x=1&y")) = .ok req.path ∧
      parseQuery (queryPart "/a%20b//c?x=1&y") = .ok req.queryParams :=
  Request.parse_serialization .sample {}
    ⟨by decide +kernel, by decide +kernel, by decide +kernel, .inr (by decide +kernel)⟩
    (by decide +kernel) (by decide +kernel) (by decide +kernel) (by decide +kernel)

end YNet
