import YNet.Core.Router
import YNet.Core.Theorems.Request.Path

open Cpp

namespace YNet

-- The bytes in the path of a route that stand for themselves in a request target.
def isRouteByte (b : UInt8) : Bool :=
  (0x30 ≤ b && b ≤ 0x39) || (0x41 ≤ b && b ≤ 0x5A) || (0x61 ≤ b && b ≤ 0x7A)
    || b = Ascii.minus || b = 0x5F || b = Ascii.dot || b = 0x7E || b = Ascii.slash

structure IsRoutePath (path : Bytes) : Prop where
  head  : path.head? = some Ascii.slash
  bytes : ∀ b ∈ path, isRouteByte b
  dots  : ∀ s ∈ path.tail.splitOn Ascii.slash, s ≠ ("." : Bytes) ∧ s ≠ (".." : Bytes)

-- The paths without empty segments.
def IsTight (path : Bytes) : Prop :=
  path = ("/" : Bytes) ∨ ∀ s ∈ path.tail.splitOn Ascii.slash, s ≠ []

namespace IsRoutePath

variable {path : Bytes}

theorem not_mem (h : IsRoutePath path) (hb : ¬isRouteByte b) : b ∉ path :=
  fun hm => hb (h.bytes b hm)

theorem not_escaped (h : IsRoutePath path) : ¬Escaped path :=
  fun ⟨_, _, _, _, hi⟩ => h.not_mem (by decide) (hi.subset List.mem_cons_self)

theorem spelling_of_bytes (h : ∀ b ∈ path, isRouteByte b) : Spelling path path := by
  have hlit : ∀ b, isRouteByte b →
      b ∉ [Ascii.space, Ascii.cr, Ascii.lf, Ascii.percent, Ascii.plus, Ascii.question] := by decide +kernel
  induction path with
  | nil         => exact .nil
  | cons b t hi =>
    have ⟨hb, ht⟩ := List.forall_mem_cons.mp h
    exact .literal (hlit b hb) (hi ht)

theorem canonicalPath_eq_self_iff (h : IsRoutePath path) : canonicalPath path = path ↔ IsTight path := by
  cases path with
  | nil      => cases h.head
  | cons c t =>
    cases h.head
    have hc := YNet.canonicalPath_eq_self_iff h.dots (h.not_mem (by decide)) h.not_escaped
    exact hc.trans <| or_congr_left ⟨fun ht => congrArg _ ht, fun ht => (List.cons.inj ht).2⟩

end IsRoutePath

namespace Router

def routeMethods : List Bytes :=
  ["GET", "POST", "PUT", "DELETE"]

-- The key of a route.
abbrev routeKey (method pattern : Bytes) : Bytes :=
  method ++ Bytes.ofString ":" ++ pattern

section RouteKey

variable {method pattern : Bytes}

theorem find_routeKey (hm : Ascii.colon ∉ method) : (routeKey method pattern).find ":" = some method.length := by
  have he : routeKey method pattern = method ++ (Ascii.colon :: pattern) := List.append_assoc ..
  rw [he]
  exact Bytes.find_byte_append hm

theorem take_routeKey : (routeKey method pattern).take method.length = method := by
  simp [routeKey]

theorem drop_routeKey : (routeKey method pattern).drop (method.length + 1) = pattern :=
  List.drop_left' (by rw [List.length_append]; rfl)

end RouteKey

variable {σ : Type} {router router' : Router σ} {handler : Handler σ}

theorem not_mem_routeMethod (hm : method ∈ routeMethods) : Ascii.space ∉ method ∧ Ascii.colon ∉ method := by
  have h : ∀ m ∈ routeMethods, Ascii.space ∉ m ∧ Ascii.colon ∉ m := by decide +kernel
  exact h method hm

-- A route without parameters matches nothing but its own path.
theorem matches_routeKey (hm : method ∈ routeMethods) (hp : IsRoutePath path)
    (h : Matches method path' (method ++ Bytes.ofString ":" ++ path)) : path' = path := by
  rcases h with he | hs
  · exact (List.append_cancel_left he).symm
  · have hc : path.find ":" = none := Bytes.find_byte_eq_none_iff.mpr (hp.not_mem (by decide))
    rw [routeParams, find_routeKey (not_mem_routeMethod hm).2] at hs
    simp only [take_routeKey, drop_routeKey, hc] at hs
    simp at hs

-- A route is reached by the request for its path exactly when the path has no empty segment.
theorem resolve_addRoute_iff (hm : method ∈ routeMethods) (hp : IsRoutePath path)
    (hr : router'.routes.Perm (router.addRoute method path handler).routes)
    (h : Request.parse (method ++ (Ascii.space :: (path ++ (Ascii.space :: rest)))) config = .ok req)
    (ha : req.parseError = false)
    (ho : ∀ r ∈ router.routes, r.1 ≠ method ++ Bytes.ofString ":" ++ path → ¬Matches req.method req.path r.1) :
    (router'.resolve req.method req.path req).1 = some handler ↔ IsTight path := by
  have hs := IsRoutePath.spelling_of_bytes hp.bytes
  have ⟨hmethod, hpath⟩ := Request.accepted_of_spaces (not_mem_routeMethod hm).1 (hp.not_mem (by decide)) h ha
  rw [hs.pathPart_eq, hs.urlDecode_eq] at hpath
  rw [← hp.canonicalPath_eq_self_iff, ← hpath]
  subst hmethod
  constructor
  · intro hres
    have ⟨r, hmem, _, hmatch⟩ := matches_of_resolve hres
    cases hr.mem_iff.mp hmem with
    | head       => exact matches_routeKey hm hp hmatch
    | tail _ hmem =>
      have ⟨hmem, hne⟩ := List.mem_filter.mp hmem
      exact absurd hmatch (ho r hmem (of_decide_eq_true hne))
  · intro he
    rw [he]
    exact resolve_of_mem (hr.mem_iff.mpr List.mem_cons_self)

def counting : Handler Nat := fun x => .act (· + 1) fun _ => .ret x

def noRoutes : Router Nat := ⟨[], List.nodup_nil⟩

theorem resolve_addRoute_iff_file : ∃ req : Request,
    Request.parse "GET /a.b/~c HTTP/1.1\r\n\r\n" {} = .ok req ∧
      (((noRoutes.addRoute "GET" "/a.b/~c" counting).resolve req.method req.path req).1 = some counting ↔
        IsTight "/a.b/~c") := by
  have he : (Request.parse "GET /a.b/~c HTTP/1.1\r\n\r\n" {}).toOption.map
      (fun req => req.parseError) = some false := by
    decide +kernel
  have ⟨req, h, ha⟩ := Exn.exists_of_map_toOption he
  have hp : IsRoutePath "/a.b/~c" := ⟨by decide, by decide +kernel, by decide +kernel⟩
  exact ⟨req, h, resolve_addRoute_iff (by decide) hp (.refl _) h ha (by simp [noRoutes])⟩

-- The request for `/a/` is looked up as `/a`.
theorem trailing_slash_unreachable : IsRoutePath "/a/" ∧ ∃ req : Request,
    Request.parse "GET /a/ HTTP/1.1\r\n\r\n" {} = .ok req ∧ req.parseError = false ∧
      ((noRoutes.addRoute "GET" "/a/" counting).resolve req.method req.path req).1 = none := by
  have he : (Request.parse "GET /a/ HTTP/1.1\r\n\r\n" {}).toOption.map
      (fun req => (req.parseError, req.method, req.path)) = some (false, ("GET" : Bytes), ("/a" : Bytes)) := by
    decide +kernel
  have ⟨req, h, hr⟩ := Exn.exists_of_map_toOption he
  have ⟨ha, hr⟩ := Prod.mk.inj hr
  have ⟨hm, hp⟩ := Prod.mk.inj hr
  refine ⟨⟨by decide, by decide +kernel, by decide +kernel⟩, req, h, ha, ?_⟩
  rw [hm, hp]
  rfl

end Router
end YNet
