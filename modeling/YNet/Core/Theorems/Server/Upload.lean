import YNet.Core.Theorems.Server.Middlewares
import YNet.Core.Theorems.Server.Receive

open Lines Cpp

namespace YNet.Server

variable {σ : Type} {server : Server σ} {conn : Connection} {s : Serialization} {cs : List Chunk}

-- A request with a body that is announced, which only its size can get rejected.
structure Upload (config : Config) (s : Serialization) : Prop where
  length  : (("Content-Length" : Bytes), natToString s.body.length) ∈ s.headers
  headEnd : s.message.headEnd ≤ config.maxHeaderSize.toNat
  headers : s.headers.length ≤ config.maxHeaders.toInt
  path    : isDoubleEncoded (urlDecode (pathPart s.target)) = false
  form    : s.FormAccepted

def Dispatches (server : Server σ) (conn : Connection) (raw : Bytes) : Prop :=
  ∃ req, Request.parse raw server.config = .ok req ∧ req.parseError = false ∧
    server.handleRequest conn = .emit (.parse raw) (server.handleParsed { req with clientIp := conn.clientIp })

def Answers (server : Server σ) (conn : Connection) (code : Int) : Prop :=
  ∃ res t, res.statusCode = code ∧ server.handleRequest conn = .emit (.send res) t

-- The limits behind the one of the uploads.
def WithinBody (config : Config) (s : Serialization) : Prop :=
  s.body.length ≤ config.maxBodySize.toNat ∧
    s.bytes.length ≤ (config.maxHeaderSize + config.maxBodySize).toNat

namespace Upload

variable {config : Config}

theorem lengthMatches (h : Upload config s) : s.LengthMatches := by
  intro f hf hk
  have hm : (("Content-Length" : Bytes), f.2) ∈ s.headers := hk ▸ hf
  have h₁ := Serialization.lookup_headers.mpr hm
  have h₂ := Serialization.lookup_headers.mpr h.length
  exact Option.some.inj (h₁.symm.trans h₂)

theorem fits_iff (h : Upload config s) : s.Fits config ↔ WithinBody config s := by
  constructor
  · intro hf
    exact ⟨hf.body, hf.length⟩
  · intro hw
    exact ⟨hw.2, h.headEnd, hw.1, .inr (s.fields_eq ▸ h.headers)⟩

theorem parse_iff (h : Upload config s) :
    (∃ req, Request.parse s.bytes config = .ok req ∧ req.parseError = false) ↔ WithinBody config s := by
  rw [← h.fits_iff]
  constructor
  · rintro ⟨req, hp, ha⟩
    rcases Request.parse_cases s.message config with ⟨_, _, ⟨hf, _⟩, _⟩ | ⟨_, _, _, hr⟩
    · exact hf
    · cases hp.symm.trans hr
      contradiction
  · intro hf
    have ⟨req, hp, ha, _⟩ := s.parse_accepts hf h.path h.lengthMatches h.form
    exact ⟨req, hp, ha⟩

end Upload

theorem answers_tooLarge_iff (hh : conn.handshake ≠ some false) :
    server.Answers conn 413 ↔ (receive server.config conn.arrivals).1 = .tooLarge := by
  simp only [Answers, handleRequest, if_neg hh]
  cases (receive server.config conn.arrivals).1 with
  | badLength => simp [Response.error, Response.header, Response.setBody, Response.status]
  | tooLarge  => simp [Response.error, Response.header, Response.setBody, Response.status]
  | raw raw   =>
    by_cases hr : raw = []
    case pos => simp [hr]
    case neg => simp [hr]

theorem dispatches_iff (hw : Upload server.config s) (hh : conn.handshake ≠ some false)
    (ha : conn.arrivals = cs.map some) (hd : payload cs = s.bytes) :
    server.Dispatches conn s.bytes ↔
      ReadsWhole server.config s.message.headEnd cs ∧ WithinBody server.config s := by
  have hr : (cs.map some).reduceOption = cs := reduceOption_map_some cs
  have hiff := @handleRequest_parses_iff σ server conn s hh hw.length (by rw [ha, hr, hd])
  rw [ha, hr] at hiff
  have hu : Uninterrupted (cs.map some) := ⟨0, by simp [hr]⟩
  constructor
  · rintro ⟨req, hp, he, ht⟩
    exact ⟨(hiff.mp ⟨_, ht⟩).2, hw.parse_iff.mp ⟨req, hp, he⟩⟩
  · rintro ⟨hreads, hwithin⟩
    have ⟨req, hp, he⟩ := hw.parse_iff.mpr hwithin
    have hraw := (handleRequest_parse_iff hh s.bytes_ne_nil).mp (hiff.mpr ⟨hu, hreads⟩)
    exact ⟨req, hp, he, handleRequest_of_accepts ⟨hh, hraw, s.bytes_ne_nil, hp, he⟩⟩

theorem upload_iff (hw : Upload server.config s) (hh : conn.handshake ≠ some false)
    (ha : conn.arrivals = cs.map some) (hd : payload cs = s.bytes) :
    ((s.body.length ≤ server.config.maxUploadSize.toNat → server.Dispatches conn s.bytes) ∧
        (server.config.maxUploadSize.toNat < s.body.length → server.Answers conn 413)) ↔
      (s.body.length ≤ server.config.maxUploadSize.toNat →
        ReadsWhole server.config s.message.headEnd cs ∧ WithinBody server.config s) ∧
      (server.config.maxUploadSize.toNat < s.body.length →
        ∃ n, Announces s.bytes n ∧ server.config.maxUploadSize.toNat < n) := by
  have hb : (payload cs).find blank = some s.message.headEnd := hd ▸ s.message.find_blank
  have ⟨p, hp, hpe⟩ := exists_length_header hw.length
  rw [dispatches_iff hw hh ha hd, answers_tooLarge_iff hh, ha, receive_tooLarge_iff hb (hd ▸ hp) hpe, hd]

section Sample

theorem sample_formAccepted : Serialization.sample.FormAccepted := by
  have hl : Serialization.sample.message.headers.lookup ("Content-Type" : Bytes) = none := by
    decide +kernel
  constructor <;>
  · rintro ⟨_, hc, _⟩
    exact absurd (hl.symm.trans hc) (by simp)

theorem sample_upload : Upload {} Serialization.sample :=
  ⟨by decide +kernel, by decide +kernel, by decide +kernel, by decide +kernel, sample_formAccepted⟩

def sampleConnection : Connection where
  clientIp := []
  arrivals := [some wholeChunk]

theorem upload_iff_sample :
    ((Serialization.sample.body.length ≤ plainServer.config.maxUploadSize.toNat →
          plainServer.Dispatches sampleConnection Serialization.sample.bytes) ∧
        (plainServer.config.maxUploadSize.toNat < Serialization.sample.body.length →
          plainServer.Answers sampleConnection 413)) ↔
      (Serialization.sample.body.length ≤ plainServer.config.maxUploadSize.toNat →
        ReadsWhole plainServer.config Serialization.sample.message.headEnd [wholeChunk] ∧
          WithinBody plainServer.config Serialization.sample) ∧
      (plainServer.config.maxUploadSize.toNat < Serialization.sample.body.length →
        ∃ n, Announces Serialization.sample.bytes n ∧ plainServer.config.maxUploadSize.toNat < n) :=
  upload_iff sample_upload (by simp [sampleConnection]) rfl (by simp [payload, wholeChunk])

-- The limit of the bodies is below the one of the uploads, as it is by default.
def smallServer : Server Unit :=
  { plainServer with config := { maxBodySize := 3 } }

theorem upload_badRequest :
    Upload smallServer.config Serialization.sample ∧ payload [wholeChunk] = Serialization.sample.bytes ∧
      Serialization.sample.body.length ≤ smallServer.config.maxUploadSize.toNat ∧
      smallServer.handleRequest sampleConnection
        = .emit (.parse Serialization.sample.bytes) (.emit (.send (.error 400)) (.emit .erase .stop)) := by
  have hr : (receive smallServer.config sampleConnection.arrivals).1 = .raw Serialization.sample.bytes := by
    decide +kernel
  have he : (Request.parse Serialization.sample.bytes smallServer.config).toOption.map
      (fun req => req.parseError) = some true := by
    decide +kernel
  have ⟨req, hp, he⟩ := Exn.exists_of_map_toOption he
  refine ⟨⟨?_, ?_, ?_, ?_, sample_formAccepted⟩, by simp [payload, wholeChunk], by decide +kernel, ?_⟩
  case refine_5 =>
    have hh : sampleConnection.handshake ≠ some false := by simp [sampleConnection]
    simp [handleRequest, hh, hr, Serialization.bytes_ne_nil, hp, handleParsed, he]
  all_goals decide +kernel

end Sample

end YNet.Server
