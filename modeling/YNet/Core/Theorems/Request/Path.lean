import YNet.Core.Theorems.Request.Roundtrip
import YNet.Security.PathGuard

open Cpp

namespace YNet

namespace Request

theorem exists_message_of_accepted (h : parse raw config = .ok req) (ha : req.parseError = false) :
    ∃ (m : Message) (sp1 sp2 : Nat), m.bytes = raw ∧ m.Fits config ∧ m.Valid sp1 sp2 ∧
      req.method = m.bytes.take sp1 ∧ req.path = canonicalPath (m.path sp1 sp2) := by
  have ⟨m, sp1, sp2, _, _, _, hb, hf, hv, _, he⟩ := exists_request_of_accepted h ha
  exact ⟨m, sp1, sp2, hb, hf, hv, he ▸ rfl, he ▸ rfl⟩

-- The path of an accepted request is canonical, and decoding it once more does not change it.
theorem accepted_path_canonical (h : parse raw config = .ok req) (ha : req.parseError = false) :
    Canonical req.path ∧ percentDecode req.path = req.path := by
  have ⟨m, sp1, sp2, _, _, hv, _, hp⟩ := exists_message_of_accepted h ha
  have ⟨hn, he⟩ := isDoubleEncoded_eq_false_iff.mp hv.path
  have hc := canonicalPath_canonical hn he
  rw [← hp] at hc
  exact ⟨hc, percentDecode_of_not_escaped hc.escaped⟩

theorem accepted_path_canonical_dots : ∃ req : Request,
    parse "GET /%2e/a%2fb/../%25/ HTTP/1.1\r\n\r\n" {} = .ok req ∧ req.path = "/a/%" ∧
      Canonical req.path ∧ percentDecode req.path = req.path := by
  have he : (parse "GET /%2e/a%2fb/../%25/ HTTP/1.1\r\n\r\n" {}).toOption.map
      (fun req => (req.parseError, req.path)) = some (false, ("/a/%" : Bytes)) := by
    decide +kernel
  have ⟨req, h, hp⟩ := Exn.exists_of_map_toOption he
  have ⟨ha, hp⟩ := Prod.mk.inj hp
  exact ⟨req, h, hp, accepted_path_canonical h ha⟩

-- The method and the path of an accepted request are what stands in front of its first two spaces.
theorem accepted_of_spaces {method target : Bytes} (hm : Ascii.space ∉ method)
    (ht : Ascii.space ∉ target)
    (h : parse (method ++ (Ascii.space :: (target ++ (Ascii.space :: rest)))) config = .ok req)
    (ha : req.parseError = false) :
    req.method = method ∧ req.path = canonicalPath (urlDecode (pathPart target)) := by
  have ⟨m, sp1, sp2, hb, _, hv, hmethod, hpath⟩ := exists_message_of_accepted h ha
  have h₁ : m.bytes.find " " = some method.length := by
    rw [hb, Bytes.find_zero]
    exact Bytes.indexOf_append_self (p := []) hm
  have hb' : m.bytes = (method ++ [Ascii.space]) ++ (target ++ (Ascii.space :: rest)) := by
    rw [hb]
    simp
  have h₂ : m.bytes.find " " (method.length + 1) = some (method.length + 1 + target.length) := by
    rw [hb', Bytes.find_append_left (by simp)]
    exact congrArg (Option.map _) (Bytes.indexOf_append_self (p := []) ht)
  cases hv.space₁.symm.trans h₁
  cases hv.space₂.symm.trans h₂
  have htarget : m.target method.length (method.length + 1 + target.length) = target := by
    rw [Message.target, hb', List.drop_left' (by simp), List.take_left' (by simp)]
  rw [Message.path, htarget] at hpath
  rw [hb, List.take_left' rfl] at hmethod
  exact ⟨hmethod, hpath⟩

end Request

section Spelling

-- The serialisation of a request without headers and body.
def spelled (hm : method ∈ Request.methods) (hv : version ∈ Request.versions) (h : Spelling t p) :
    Serialization where
  method
  target := t
  version
  headers := []
  body := []
  method_mem  := hm
  target_mem  := fun b hb => h.not_mem (by simp at hb; rcases hb with rfl | rfl | rfl <;> simp)
  version_mem := hv
  isHeader    := by simp
  names_nodup := by simp

theorem spelled_bytes (hm : method ∈ Request.methods) (hv : version ∈ Request.versions)
    (h : Spelling t p) : (spelled hm hv h).bytes
      = method ++ (Ascii.space :: (t ++ (Ascii.space :: (version ++ Lines.blank)))) :=
  Serialization.bytes_eq _

theorem Spelling.pathPart_eq (h : Spelling t p) : pathPart t = t := by
  refine List.takeWhile_eq_self_iff.mpr fun b hb => ?_
  simpa using fun he : b = Ascii.question => h.not_mem (by simp) (he ▸ hb)

theorem parse_spelled (hn : Ascii.nul ∉ p) (he : ¬Escaped p) (hm : method ∈ Request.methods)
    (hv : version ∈ Request.versions) (h : Spelling t p) (hf : (spelled hm hv h).Fits config) :
    ∃ req, Request.parse (spelled hm hv h).bytes config = .ok req ∧ req.parseError = false ∧
      req.path = canonicalPath p := by
  have hp : urlDecode (pathPart t) = p := by
    rw [h.pathPart_eq, h.urlDecode_eq]
  have hd : isDoubleEncoded (urlDecode (pathPart t)) = false := by
    rw [hp]
    exact isDoubleEncoded_eq_false_iff.mpr ⟨hn, he⟩
  have ⟨_, _, _, hr⟩ := Serialization.parse_bytes hf hd
    (by simp [spelled, Serialization.LengthMatches]) (by simp [spelled, Serialization.IsMultipart])
  refine ⟨_, hr, rfl, ?_⟩
  change canonicalPath (Message.path ..) = _
  rw [Message.path, Serialization.target_eq]
  exact congrArg canonicalPath hp

-- All spellings of a path are accepted as that path, so that the guard cannot tell them apart.
theorem parse_spelling (hn : Ascii.nul ∉ p) (he : ¬Escaped p) :
    ∃ path, normalizePath p = .ok path ∧ ∀ (guard : PathGuard) (ip : Bytes), ∃ result,
      ∀ method ∈ Request.methods, ∀ version ∈ Request.versions, ∀ (t : Bytes) (config : Config),
        let raw := method ++ (Ascii.space :: (t ++ (Ascii.space :: (version ++ Lines.blank))))
        Spelling t p → raw.length ≤ (config.maxHeaderSize + config.maxBodySize).toNat →
        raw.length ≤ config.maxHeaderSize.toNat + 4 →
        ∃ req, Request.parse raw config = .ok req ∧ req.parseError = false ∧ req.path = path ∧
          guard.check { req with clientIp := ip } = result := by
  refine ⟨canonicalPath p, normalizePath_eq p, fun guard ip => ?_⟩
  refine ⟨guard.check { path := canonicalPath p, clientIp := ip }, ?_⟩
  intro method hm version hv t config raw h hl hh
  have hraw : (spelled hm hv h).bytes = raw := spelled_bytes hm hv h
  have hlen : (spelled hm hv h).bytes.length = (spelled hm hv h).message.headEnd + 4 + 0 :=
    Message.length_bytes _
  have hf : (spelled hm hv h).Fits config := by
    refine ⟨?_, ?_, Nat.zero_le _, .inl (Serialization.fields_eq _)⟩
    · exact (congrArg List.length hraw).trans_le hl
    · rw [hraw] at hlen
      omega
  have ⟨req, hr, ha, hp⟩ := parse_spelled hn he hm hv h hf
  rw [hraw] at hr
  exact ⟨req, hr, ha, hp, PathGuard.check_congr hp rfl⟩

theorem parse_spelling_env : ∃ req req' : Request,
    Request.parse "GET /%2e%65nv HTTP/1.1\r\n\r\n" {} = .ok req ∧ req.parseError = false ∧
      Request.parse "PUT /.env HTTP/1.0\r\n\r\n" {} = .ok req' ∧ req'.parseError = false ∧
      req.path = req'.path ∧ PathGuard.check {} { req with clientIp := "9.9.9.9" }
        = PathGuard.check {} { req' with clientIp := "9.9.9.9" } := by
  have ⟨path, _, h⟩ := parse_spelling (p := "/.env") (by decide +kernel) (by decide +kernel)
  have ⟨result, h⟩ := h {} "9.9.9.9"
  have h₁ : Spelling "env" "env" :=
    .literal (by decide) <| .literal (by decide) <| .literal (by decide) .nil
  have h₂ : Spelling "/.env" "/.env" := .literal (by decide) <| .literal (by decide) h₁
  have h₃ : Spelling "/%2e%65nv" "/.env" := by
    refine .literal (by decide) <| .escape (by decide) (by decide) (by decide) <|
      .escape (by decide) (by decide) (by decide) ?_
    exact .literal (by decide) <| .literal (by decide) .nil
  have ⟨req, hr, ha, hp, hc⟩ := h "GET" (by decide) "HTTP/1.1" (by decide) _ {} h₃ (by decide) (by decide)
  have ⟨req', hr', ha', hp', hc'⟩ := h "PUT" (by decide) "HTTP/1.0" (by decide) _ {} h₂ (by decide) (by decide)
  exact ⟨req, req', hr, ha, hr', ha', hp.trans hp'.symm, hc.trans hc'.symm⟩

end Spelling

end YNet
