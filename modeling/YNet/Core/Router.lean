import YNet.Core.Response
import YNet.Lib.Code
import YNet.Lib.Fill

namespace YNet

-- The exceptions of application code. The server catches those that derive from `std::exception`.
inductive Fault
  | exception
  | other

-- What is handed to middlewares and handlers by reference.
structure Exchange where
  req : Request
  res : Response

-- The `next` of a middleware is the code that it is wrapped around. Handlers have no `next`.
abbrev Middleware (σ : Type) :=
  Exchange → Code σ Fault Exchange

abbrev Handler (σ : Type) :=
  Exchange → Code σ Fault Exchange

-- The entries of the `unordered_map`, in the order of an iteration over it.
structure Router (σ : Type) where
  routes : List (Bytes × Handler σ)
  nodup  : (routes.map Prod.fst).Nodup

namespace Router

theorem nodup_assign {σ : Type} (router : Router σ) (key : Bytes) (handler : Handler σ) :
    (((key, handler) :: router.routes.filter (·.1 ≠ key)).map Prod.fst).Nodup := by
  have hs : List.Sublist ((router.routes.filter (·.1 ≠ key)).map Prod.fst) (router.routes.map Prod.fst) :=
    List.filter_sublist.map _
  exact List.nodup_cons.mpr ⟨by simp, router.nodup.sublist hs⟩

-- The assignment `routes[key] = handler`, which replaces the handler of a key that is present.
def assign {σ : Type} (router : Router σ) (key : Bytes) (handler : Handler σ) : Router σ where
  routes := (key, handler) :: router.routes.filter (·.1 ≠ key)
  nodup  := nodup_assign router key handler

def addRoute {σ : Type} (router : Router σ) (method path : Bytes) (handler : Handler σ) : Router σ :=
  router.assign (method ++ Bytes.ofString ":" ++ path) handler

-- The segments of a path. The first byte of the path is skipped.
def parts (path : Bytes) : List Bytes :=
  go 1
where
  go (start : Nat) : List Bytes :=
    if start < path.length then
      match h : path.find "/" start with
      | none       => [path.drop start]
      | some slash => (path.drop start).take (slash - start) :: go (slash + 1)
    else []
  termination_by path.length - start
  decreasing_by
    have := Bytes.le_of_find h
    have : _ + 1 ≤ _ := Bytes.find_add_length_le h
    omega

-- The parameters when the segments match. The result is `none` when they do not.
def matchParts (params : StringMap) : List Bytes → List Bytes → Option StringMap
  | [], []                     => some params
  | (c :: name) :: rs, p :: ps =>
    if c = Ascii.colon then matchParts (params.insert name p) rs ps
    else if c :: name = p then matchParts params rs ps
    else none
  | _, _                       => none

def routeParams (method path key : Bytes) : Option StringMap :=
  -- Without a colon, the position is `npos` and the path is the whole key.
  let (routeMethod, routePath) : Bytes × Bytes := match key.find ":" with
    | some colon => (key.take colon, key.drop (colon + 1))
    | none       => (key, key)
  if routeMethod ≠ method then none
  else if (Bytes.find routePath ":").isNone then none
  else matchParts ∅ (parts routePath) (parts path)

def resolve {σ : Type} (router : Router σ) (method path : Bytes) (req : Request) :
    Option (Handler σ) × Request :=
  match router.routes.lookup (method ++ Bytes.ofString ":" ++ path) with
  | some handler => (some handler, req)
  | none         =>
    match router.routes.findSome? fun (key, handler) => (routeParams method path key).map (handler, ·) with
    | some (handler, params) => (some handler, { req with params := params ∪ req.params })
    | none                   => (none, req)

theorem resolve_frame {σ : Type} (router : Router σ) (method path : Bytes) (req : Request) :
    ∃ params, (router.resolve method path req).2 = { req with params } := by
  unfold resolve
  split
  case h_1 => exact ⟨_, rfl⟩
  case h_2 => split <;> exact ⟨_, rfl⟩

-- The ways in which a route can be meant by a request.
def Matches (method path key : Bytes) : Prop :=
  key = method ++ Bytes.ofString ":" ++ path ∨ (routeParams method path key).isSome

theorem matches_of_resolve {σ : Type} {router : Router σ} {handler : Handler σ}
    (h : (router.resolve method path req).1 = some handler) :
    ∃ r ∈ router.routes, r.2 = handler ∧ Matches method path r.1 := by
  unfold resolve at h
  split at h
  case h_1 hl =>
    cases h
    have ⟨l₁, l₂, he, _⟩ := List.lookup_eq_some_iff.mp hl
    exact ⟨_, he ▸ List.mem_append_right _ List.mem_cons_self, rfl, .inl rfl⟩
  case h_2 =>
    split at h
    case h_2 => contradiction
    case h_1 hf =>
      cases h
      have ⟨r, hr, he⟩ := List.exists_of_findSome?_eq_some hf
      have ⟨params, hp, he⟩ := Option.map_eq_some_iff.mp he
      exact ⟨r, hr, (Prod.mk.inj he).1, .inr (hp ▸ rfl)⟩

theorem resolve_of_mem {σ : Type} {router : Router σ} {handler : Handler σ}
    (h : (method ++ Bytes.ofString ":" ++ path, handler) ∈ router.routes) :
    (router.resolve method path req).1 = some handler := by
  rw [resolve, List.lookup_of_nodup router.nodup h]

end Router
end YNet
