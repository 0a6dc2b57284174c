import YNet.Core.Theorems.Request.Accepted
import YNet.Core.Theorems.Router
import YNet.Lib.Fill
import YNet.Lib.Split

namespace YNet

-- The pieces of a path behind its first slash. An empty piece at the end is ignored.
def segments (path : Bytes) : List Bytes :=
  let pieces := path.tail.splitOn Ascii.slash
  if pieces.getLast? = some [] then pieces.dropLast else pieces

-- A segment of a pattern stands for itself or for any segment.
def SegmentMatches (pattern segment : Bytes) : Prop :=
  pattern ≠ [] ∧ (pattern.head? = some Ascii.colon ∨ pattern = segment)

def PatternMatches (pattern path : Bytes) : Prop :=
  List.Forall₂ SegmentMatches (segments pattern) (segments path)

namespace Router

section Parts

def dropEmpty (pieces : List Bytes) : List Bytes :=
  if pieces.getLast? = some [] then pieces.dropLast else pieces

theorem dropEmpty_cons {pieces : List Bytes} (h : pieces ≠ []) :
    dropEmpty (piece :: pieces) = piece :: dropEmpty pieces := by
  unfold dropEmpty
  rw [List.getLast?_cons_of_ne_nil h, List.dropLast_cons_of_ne_nil h]
  split <;> rfl

theorem parts.go_eq {path : Bytes} (h : start ≤ path.length) :
    parts.go path start = dropEmpty ((path.drop start).splitOn Ascii.slash) := by
  fun_induction parts.go path start
  case case1 start hlt hf =>
    have hm := Bytes.not_mem_of_find_byte_none (c := Ascii.slash) hf h
    rw [List.splitOn_eq_singleton hm, dropEmpty, if_neg]
    simpa using hlt
  case case2 start hlt slash hf hi =>
    have hle : slash + 1 ≤ path.length := Bytes.find_add_length_le hf
    have ⟨t, hm, ht, hs⟩ := Bytes.drop_eq_of_find_byte (c := Ascii.slash) hf
    rw [hi hle, ht, hs, List.splitOn_append_cons_self_of_not_mem hm, dropEmpty_cons (List.splitOn_ne_nil _ _)]
  case case3 start hlt =>
    rw [List.drop_eq_nil_of_le (Nat.not_lt.mp hlt)]
    rfl

theorem parts_eq (path : Bytes) : parts path = segments path := by
  cases path with
  | nil         =>
    rw [parts, parts.go, if_neg (by simp)]
    rfl
  | cons c path => exact parts.go_eq (Nat.succ_le_succ (Nat.zero_le _))

end Parts

section Match

-- The parameters of a pattern with the segments that they stand for.
def bindings : List Bytes → List Bytes → List (Bytes × Bytes)
  | (c :: name) :: rs, p :: ps => if c = Ascii.colon then (name, p) :: bindings rs ps else bindings rs ps
  | _ :: rs, _ :: ps           => bindings rs ps
  | _, _                       => []

theorem matchParts_eq_some_iff {params params' : StringMap} : matchParts params rs ps = some params' ↔
    List.Forall₂ SegmentMatches rs ps ∧ params' = params.fill (bindings rs ps) := by
  fun_induction matchParts params rs ps with
  | case1 => simp [bindings, Finmap.fill, eq_comm]
  | case2 params name rs p ps hi =>
    have hb : bindings ((Ascii.colon :: name) :: rs) (p :: ps) = (name, p) :: bindings rs ps := rfl
    have hm : SegmentMatches (Ascii.colon :: name) p := ⟨List.cons_ne_nil _ _, .inl rfl⟩
    rw [hi, hb, List.forall₂_cons, and_iff_right hm]
    rfl
  | case3 params c name rs ps h hi =>
    have hb : bindings ((c :: name) :: rs) ((c :: name) :: ps) = bindings rs ps := if_neg h
    have hm : SegmentMatches (c :: name) (c :: name) := ⟨List.cons_ne_nil _ _, .inr rfl⟩
    rw [hi, hb, List.forall₂_cons, and_iff_right hm]
  | case4 params c name rs p ps h h' =>
    refine iff_of_false (by simp) fun hf => ?_
    cases (List.forall₂_cons.mp hf.1).1.2
    case inl hc => exact h (Option.some.inj hc)
    case inr he => exact h' he
  | case5 rs params ps h h' =>
    refine iff_of_false (by simp) fun hf => ?_
    cases hf.1
    case nil => exact h rfl rfl
    case cons r p rs ps hm _ =>
      cases r with
      | nil         => exact hm.1 rfl
      | cons c name => exact h' _ _ _ _ _ rfl rfl

variable {method path pattern : Bytes}

theorem routeKey_inj (hm : Ascii.colon ∉ method) (hm' : Ascii.colon ∉ method')
    (h : routeKey method pattern = routeKey method' pattern') : method = method' ∧ pattern = pattern' := by
  have hl := (find_routeKey hm).symm.trans (h ▸ find_routeKey hm')
  have ⟨he, hp⟩ := List.append_inj h (by simpa using hl)
  exact ⟨List.append_cancel_right he, hp⟩

-- The pattern of a route is what follows its method in the key.
theorem routeParams_eq_some_iff {params : StringMap} (hm : Ascii.colon ∉ method') :
    routeParams method path (routeKey method' pattern) = some params ↔
      (method' = method ∧ Ascii.colon ∈ pattern ∧ PatternMatches pattern path) ∧
        params = Finmap.fill ∅ (bindings (segments pattern) (segments path)) := by
  have hn : (Bytes.find pattern ":").isNone ↔ Ascii.colon ∉ pattern :=
    Option.isNone_iff_eq_none.trans Bytes.find_byte_eq_none_iff
  simp only [routeParams, find_routeKey hm, take_routeKey, drop_routeKey, hn, parts_eq]
  by_cases he : method' = method
  case neg => simp [he]
  case pos =>
    by_cases hc : Ascii.colon ∈ pattern
    case neg => simp [he, hc]
    case pos => simpa [he, hc, PatternMatches] using matchParts_eq_some_iff

end Match

section Resolve

variable {σ : Type} {router : Router σ} {method path : Bytes}

-- The entry whose handler is returned.
def chosen (router : Router σ) (method path : Bytes) : Option (Bytes × Handler σ) :=
  match router.routes.lookup (routeKey method path) with
  | some handler => some (routeKey method path, handler)
  | none         => router.routes.find? fun e => (routeParams method path e.1).isSome

-- The ways in which `resolve` comes to its result.
inductive Resolves (router : Router σ) (method path : Bytes) (req : Request) :
    Option (Bytes × Handler σ) → Option (Handler σ) × Request → Prop
  | equal {e} (h : e ∈ router.routes) (hk : e.1 = routeKey method path) :
    Resolves router method path req (some e) (some e.2, req)
  | pattern {e} (hn : routeKey method path ∉ router.routes.map Prod.fst) (h : e ∈ router.routes)
    (hp : routeParams method path e.1 = some params) :
    Resolves router method path req (some e) (some e.2, { req with params := params ∪ req.params })
  | absent (hn : routeKey method path ∉ router.routes.map Prod.fst)
    (hp : ∀ e ∈ router.routes, routeParams method path e.1 = none) :
    Resolves router method path req none (none, req)

theorem not_mem_of_lookup_none (h : router.routes.lookup key = none) : key ∉ router.routes.map Prod.fst := by
  rw [List.lookup_eq_none_iff] at h
  intro hm
  have ⟨e, he, hk⟩ := List.mem_map.mp hm
  exact absurd (h e he) (by simp [hk])

theorem resolves (router : Router σ) (method path : Bytes) (req : Request) :
    Resolves router method path req (router.chosen method path) (router.resolve method path req) := by
  unfold resolve chosen
  cases hl : router.routes.lookup (routeKey method path)
  case some handler =>
    have ⟨l₁, l₂, he, _⟩ := List.lookup_eq_some_iff.mp hl
    exact .equal (he ▸ List.mem_append_right _ List.mem_cons_self) rfl
  case none =>
    have hn := not_mem_of_lookup_none hl
    dsimp only
    split
    case h_1 hf =>
      have ⟨l₁, e, l₂, he, hm, hp⟩ := List.findSome?_eq_some_iff.mp hf
      have ⟨params, hs, hm⟩ := Option.map_eq_some_iff.mp hm
      cases hm
      have hc : router.routes.find? (fun e => (routeParams method path e.1).isSome) = some e := by
        refine List.find?_eq_some_iff_append.mpr ⟨hs ▸ rfl, l₁, l₂, he, fun e' he' => ?_⟩
        simpa using hp e' he'
      rw [hc]
      exact .pattern hn (he ▸ List.mem_append_right _ List.mem_cons_self) hs
    case h_2 hf =>
      have hp : ∀ e ∈ router.routes, routeParams method path e.1 = none := by
        intro e he
        simpa using List.findSome?_eq_none_iff.mp hf e he
      have hc : router.routes.find? (fun e => (routeParams method path e.1).isSome) = none := by
        simpa [List.find?_eq_none] using fun key handler he => hp (key, handler) he
      rw [hc]
      exact .absent hn hp

end Resolve

section Registered

-- What is handed to `addRoute`.
structure Registration (σ : Type) where
  method  : Bytes
  path    : Bytes
  handler : Handler σ

variable {σ : Type} {router : Router σ} {rs : List (Registration σ)} {r : Registration σ}

namespace Registration

abbrev key (r : Registration σ) : Bytes :=
  routeKey r.method r.path

def Equals (r : Registration σ) (method path : Bytes) : Prop :=
  r.method = method ∧ r.path = path

def Fits (r : Registration σ) (method path : Bytes) : Prop :=
  r.method = method ∧ Ascii.colon ∈ r.path ∧ PatternMatches r.path path

end Registration

def register (rs : List (Registration σ)) : Router σ :=
  rs.foldl (fun router r => router.addRoute r.method r.path r.handler) ⟨[], List.nodup_nil⟩

-- The map can be iterated in any order.
def IsTable (router : Router σ) (rs : List (Registration σ)) : Prop :=
  router.routes.Perm (register rs).routes

theorem register_concat : register (rs ++ [r]) = (register rs).addRoute r.method r.path r.handler :=
  List.foldl_concat ..

theorem exists_registration (h : e ∈ (register rs).routes) : ∃ r ∈ rs, e = (r.key, r.handler) := by
  induction rs using List.reverseRecOn with
  | nil               => contradiction
  | append_singleton rs r hi =>
    rw [register_concat] at h
    cases h with
    | head     => exact ⟨r, by simp, rfl⟩
    | tail _ h =>
      have ⟨r', hr', he⟩ := hi (List.mem_filter.mp h).1
      exact ⟨r', List.mem_append_left _ hr', he⟩

theorem exists_entry (h : r ∈ rs) : ∃ handler, (r.key, handler) ∈ (register rs).routes := by
  induction rs using List.reverseRecOn with
  | nil               => contradiction
  | append_singleton rs r' hi =>
    rw [register_concat]
    by_cases hk : r.key = r'.key
    case pos => exact ⟨r'.handler, hk ▸ List.mem_cons_self⟩
    case neg =>
      cases List.mem_append.mp h with
      | inl h =>
        have ⟨handler, hm⟩ := hi h
        exact ⟨handler, List.mem_cons_of_mem _ (List.mem_filter.mpr ⟨hm, by simpa using hk⟩)⟩
      | inr h => exact absurd (congrArg Registration.key (List.mem_singleton.mp h)) hk

theorem IsTable.exists_registration (ht : IsTable router rs) (h : e ∈ router.routes) :
    ∃ r ∈ rs, e = (r.key, r.handler) :=
  Router.exists_registration (ht.mem_iff.mp h)

theorem IsTable.exists_entry (ht : IsTable router rs) (h : r ∈ rs) :
    ∃ handler, (r.key, handler) ∈ router.routes :=
  have ⟨handler, hm⟩ := Router.exists_entry h
  ⟨handler, ht.mem_iff.mpr hm⟩

theorem IsTable.key_not_mem_iff (ht : IsTable router rs) (hr : ∀ r ∈ rs, Ascii.colon ∉ r.method)
    (hm : Ascii.colon ∉ method) :
    routeKey method path ∉ router.routes.map Prod.fst ↔ ∀ r ∈ rs, ¬r.Equals method path := by
  constructor
  · intro hn r h he
    have ⟨handler, hmem⟩ := ht.exists_entry h
    have hk : r.key = routeKey method path := congrArg₂ routeKey he.1 he.2
    exact hn (hk ▸ List.mem_map_of_mem hmem)
  · intro hn hmem
    have ⟨e, he, hk⟩ := List.mem_map.mp hmem
    have ⟨r, h, hr'⟩ := ht.exists_registration he
    subst hr'
    exact hn r h (routeKey_inj (hr r h) hm hk)

theorem Registration.routeParams_isSome_iff {method path : Bytes} (hr : Ascii.colon ∉ r.method) :
    (routeParams method path r.key).isSome ↔ r.Fits method path := by
  rw [Option.isSome_iff_exists]
  exact (exists_congr fun _ => routeParams_eq_some_iff hr).trans (by simp [Registration.Fits])

-- The equal path is looked up first. A pattern is only tried when there is none.
theorem resolve_spec (ht : IsTable router rs) (hr : ∀ r ∈ rs, Ascii.colon ∉ r.method)
    (hm : Ascii.colon ∉ method) :
    ((router.resolve method path req).1 = none ↔
      ∀ r ∈ rs, ¬(r.Equals method path ∨ r.Fits method path)) ∧
    (∀ handler, (router.resolve method path req).1 = some handler →
      ∃ r ∈ rs, r.handler = handler ∧
        (r.Equals method path ∨ r.Fits method path ∧ ∀ r' ∈ rs, ¬r'.Equals method path)) ∧
    ((router.resolve method path req).1 = none → (router.resolve method path req).2 = req) := by
  have h := resolves router method path req
  generalize router.chosen method path = entry, router.resolve method path req = result at h ⊢
  cases h with
  | equal h hk      =>
    have ⟨r, hmem, he⟩ := ht.exists_registration h
    subst he
    have he := routeKey_inj (hr r hmem) hm hk
    refine ⟨iff_of_false (by simp) fun hn => hn r hmem (.inl he), fun handler hs => ?_, by simp⟩
    exact ⟨r, hmem, Option.some.inj hs, .inl he⟩
  | pattern hn h hp =>
    have hn := (ht.key_not_mem_iff hr hm).mp hn
    have ⟨r, hmem, he⟩ := ht.exists_registration h
    subst he
    have hf := (Registration.routeParams_isSome_iff (hr r hmem)).mp (Option.isSome_of_eq_some hp)
    refine ⟨iff_of_false (by simp) fun hn => hn r hmem (.inr hf), fun handler hs => ?_, by simp⟩
    exact ⟨r, hmem, Option.some.inj hs, .inr ⟨hf, hn⟩⟩
  | absent hn hp    =>
    have hn := (ht.key_not_mem_iff hr hm).mp hn
    refine ⟨iff_of_true rfl fun r hmem => ?_, by simp, fun _ => rfl⟩
    apply not_or.mpr ⟨hn r hmem, fun hf => ?_⟩
    have ⟨handler, he⟩ := ht.exists_entry hmem
    have hs := (Registration.routeParams_isSome_iff (hr r hmem)).mpr hf
    rw [hp _ he] at hs
    contradiction

def usersTable : List (Registration Nat) :=
  [⟨"GET", "/users/:id", counting⟩, ⟨"GET", "/users/me", counting⟩, ⟨"POST", "/:a:/b", counting⟩]

theorem resolve_spec_users : ((register usersTable).resolve "GET" "/users/a:b" {}).1 = none ↔
    ∀ r ∈ usersTable, ¬(r.Equals "GET" "/users/a:b" ∨ r.Fits "GET" "/users/a:b") :=
  (resolve_spec (.refl _ : IsTable (register usersTable) usersTable) (by decide +kernel) (by decide)).1

end Registered

section Parameters

variable {σ : Type} {router : Router σ} {handler : Handler σ} {method pattern path s : Bytes} {req : Request}

def paramName (segment : Bytes) : Option Bytes :=
  if segment.head? = some Ascii.colon then some segment.tail else none

def paramNames (pattern : Bytes) : List Bytes :=
  (segments pattern).filterMap paramName

-- Each parameter stands for the segment at its place.
def BindsParams (pattern path : Bytes) (req : Request) : Prop :=
  ∀ (i : Nat) (name : Bytes), (segments pattern)[i]? = some (Ascii.colon :: name) →
    ∃ s, (segments path)[i]? = some s ∧ req.getParam name = some s

theorem paramName_eq_some_iff : paramName s = some name ↔ s = Ascii.colon :: name := by
  cases s with
  | nil       => simp [paramName]
  | cons c s  =>
    simp only [paramName, List.head?_cons, List.tail_cons, Option.ite_none_right_eq_some, Option.some.injEq,
      List.cons.injEq]

theorem paramName_cons : paramName (c :: name) = if c = Ascii.colon then some name else none := by
  simp [paramName]

theorem bindings_map_fst (h : List.Forall₂ SegmentMatches rs ps) :
    (bindings rs ps).map Prod.fst = rs.filterMap paramName := by
  induction h with
  | nil => rfl
  | @cons r p rs ps hm _ hi =>
    cases r with
    | nil         => exact absurd rfl hm.1
    | cons c name =>
      rw [List.filterMap_cons, paramName_cons, bindings]
      split
      · rw [List.map_cons, hi]
      · exact hi

theorem exists_binding {rs ps : List Bytes} {i : Nat} (h : List.Forall₂ SegmentMatches rs ps) (hr : rs[i]? = some (Ascii.colon :: name)) :
    ∃ p, ps[i]? = some p ∧ (name, p) ∈ bindings rs ps := by
  induction h generalizing i with
  | nil => simp at hr
  | @cons r p rs ps hm _ hi =>
    cases i with
    | zero   =>
      cases hr
      exact ⟨p, rfl, by simp [bindings]⟩
    | succ i =>
      have ⟨p', hp, hb⟩ := hi hr
      refine ⟨p', hp, ?_⟩
      cases r with
      | nil         => exact absurd rfl hm.1
      | cons c name =>
        rw [bindings]
        split
        · exact List.mem_cons_of_mem _ hb
        · exact hb

theorem bindsParams_of_matches (hp : PatternMatches pattern path) (hd : (paramNames pattern).Nodup) :
    BindsParams pattern path
      { req with params := Finmap.fill ∅ (bindings (segments pattern) (segments path)) ∪ params } := by
  intro i name hi
  have ⟨p, hs, hb⟩ := exists_binding hp hi
  have hn : ((bindings (segments pattern) (segments path)).map Prod.fst).Nodup := (bindings_map_fst hp).symm ▸ hd
  have hl := (Finmap.lookup_fill_iff hn).mpr hb
  exact ⟨p, hs, (Finmap.lookup_union_left (Finmap.mem_of_lookup_eq_some hl)).trans hl⟩

-- Without any parameters set, a pattern is bound only if it has none.
theorem bindsParams_empty_iff (h : req.params = ∅) : BindsParams pattern path req ↔ paramNames pattern = [] := by
  rw [paramNames, List.filterMap_eq_nil_iff]
  constructor
  · intro hb s hs
    rw [Option.eq_none_iff_forall_ne_some]
    intro name hn
    have ⟨i, hi⟩ := List.getElem?_of_mem hs
    have ⟨s, _, hg⟩ := hb i name (paramName_eq_some_iff.mp hn ▸ hi)
    rw [Request.getParam, h, Finmap.lookup_empty] at hg
    contradiction
  · intro hn i name hi
    have he := hn _ (List.mem_of_getElem? hi)
    rw [paramName_eq_some_iff.mpr rfl] at he
    contradiction

theorem params_of_accepted (h : Request.parse raw config = .ok req) (ha : req.parseError = false) :
    req.params = ∅ ∧ Ascii.colon ∉ req.method := by
  have hm : ∀ method ∈ Request.methods, Ascii.colon ∉ method := by decide +kernel
  have ⟨m, sp1, sp2, query, parts, formData, _, _, hv, _, he⟩ := Request.exists_request_of_accepted h ha
  subst he
  exact ⟨rfl, hm _ hv.method⟩

-- The handler of a route gets its parameters except when the path of the request is the pattern itself,
-- whose entry is found without a look at its segments.
theorem bindsParams_resolve_iff (h : Request.parse raw config = .ok req) (ha : req.parseError = false)
    (hm : Ascii.colon ∉ method) (hd : (paramNames pattern).Nodup)
    (hc : router.chosen req.method req.path = some (routeKey method pattern, handler)) :
    (router.resolve req.method req.path req).1 = some handler ∧
      (BindsParams pattern req.path (router.resolve req.method req.path req).2 ↔
        paramNames pattern = [] ∨ req.path ≠ pattern) := by
  have ⟨hp, hm'⟩ := params_of_accepted h ha
  have hr := resolves router req.method req.path req
  rw [hc] at hr
  generalize router.resolve req.method req.path req = result at hr ⊢
  cases hr with
  | equal _ hk      =>
    have he := (routeKey_inj hm hm' hk).2
    exact ⟨rfl, (bindsParams_empty_iff hp).trans (by simp [he])⟩
  | pattern hn h hs =>
    have ⟨⟨he, _, hmatch⟩, hparams⟩ := (routeParams_eq_some_iff hm).mp hs
    subst he hparams
    have hne : req.path ≠ pattern := fun he => hn (he ▸ List.mem_map_of_mem h)
    exact ⟨rfl, iff_of_true (bindsParams_of_matches hmatch hd) (.inr hne)⟩

def users : Router Nat :=
  noRoutes.addRoute "GET" "/users/:id" counting

theorem bindsParams_resolve_iff_users : ∃ req : Request,
    Request.parse "GET /users/a:b HTTP/1.1\r\n\r\n" {} = .ok req ∧
      (BindsParams "/users/:id" req.path (users.resolve req.method req.path req).2 ↔
        paramNames "/users/:id" = [] ∨ req.path ≠ ("/users/:id" : Bytes)) := by
  have he : (Request.parse "GET /users/a:b HTTP/1.1\r\n\r\n" {}).toOption.map
      (fun req => (req.parseError, (users.chosen req.method req.path).map Prod.fst)) =
        some (false, some (routeKey "GET" "/users/:id")) := by
    decide +kernel
  have ⟨req, h, ha⟩ := Exn.exists_of_map_toOption he
  have ⟨ha, hc⟩ := Prod.mk.inj ha
  have ⟨e, hc, hk⟩ := Option.map_eq_some_iff.mp hc
  have hc : users.chosen req.method req.path = some (routeKey "GET" "/users/:id", e.2) := hk ▸ hc
  exact ⟨req, h, (bindsParams_resolve_iff h ha (by decide) (by decide +kernel) hc).2⟩

theorem not_bindsParams_pattern : ∃ req : Request,
    Request.parse "GET /users/:id HTTP/1.1\r\n\r\n" {} = .ok req ∧ req.parseError = false ∧
      (users.resolve req.method req.path req).1 = some counting ∧
      ¬BindsParams "/users/:id" req.path (users.resolve req.method req.path req).2 := by
  have he : (Request.parse "GET /users/:id HTTP/1.1\r\n\r\n" {}).toOption.map
      (fun req => (req.parseError, req.method, req.path, (users.resolve req.method req.path req).2.getParam "id")) =
        some (false, ("GET" : Bytes), ("/users/:id" : Bytes), none) := by
    decide +kernel
  have ⟨req, h, hr⟩ := Exn.exists_of_map_toOption he
  have ⟨ha, hr⟩ := Prod.mk.inj hr
  have ⟨hm, hr⟩ := Prod.mk.inj hr
  have ⟨hp, hg⟩ := Prod.mk.inj hr
  have hmem : (routeKey req.method req.path, counting) ∈ users.routes := by
    rw [hm, hp]
    exact List.mem_cons_self
  refine ⟨req, h, ha, resolve_of_mem hmem, fun hb => ?_⟩
  have ⟨s, _, hs⟩ := hb 1 "id" (by decide +kernel)
  exact absurd (hg.symm.trans hs) (by simp)

end Parameters

section Orders

variable {σ : Type} {router router' : Router σ} {method path : Bytes} {c c' : Option (Bytes × Handler σ)}
  {r r' : Option (Handler σ) × Request}

theorem Resolves.perm (hr : router'.routes.Perm router.routes) (h : Resolves router' method path req c r) :
    Resolves router method path req c r := by
  have hk : routeKey method path ∈ router'.routes.map Prod.fst ↔ routeKey method path ∈ router.routes.map Prod.fst :=
    (hr.map _).mem_iff
  cases h with
  | equal h hk      => exact .equal (hr.mem_iff.mp h) hk
  | pattern hn h hp => exact .pattern (hk.not.mp hn) (hr.mem_iff.mp h) hp
  | absent hn hp    => exact .absent (hk.not.mp hn) fun e he => hp e (hr.mem_iff.mpr he)

-- Whether the outcome is the same for each order of the entries.
def Unambiguous (router : Router σ) (method path : Bytes) : Prop :=
  routeKey method path ∈ router.routes.map Prod.fst ∨
    ∀ e ∈ router.routes, ∀ e' ∈ router.routes, (routeParams method path e.1).isSome →
      (routeParams method path e'.1).isSome → e.1 = e'.1

theorem Resolves.unique (hu : Unambiguous router method path) (h : Resolves router method path req c r)
    (h' : Resolves router method path req c' r') : c = c' ∧ r = r' := by
  have hinj {e e' : Bytes × Handler σ} (he : e ∈ router.routes) (he' : e' ∈ router.routes) (hk : e.1 = e'.1) :
      e = e' :=
    List.inj_on_of_nodup_map router.nodup he he' hk
  cases h with
  | equal he hk      =>
    cases h' with
    | equal he' hk'    =>
      cases hinj he he' (hk.trans hk'.symm)
      exact ⟨rfl, rfl⟩
    | pattern hn       => exact absurd (hk ▸ List.mem_map_of_mem he) hn
    | absent hn        => exact absurd (hk ▸ List.mem_map_of_mem he) hn
  | pattern hn he hp =>
    cases h' with
    | equal he' hk'      => exact absurd (hk' ▸ List.mem_map_of_mem he') hn
    | pattern _ he' hp'  =>
      have hk := hu.resolve_left hn _ he _ he' (Option.isSome_of_eq_some hp) (Option.isSome_of_eq_some hp')
      cases hinj he he' hk
      cases hp.symm.trans hp'
      exact ⟨rfl, rfl⟩
    | absent _ ha        => exact absurd (hp.symm.trans (ha _ he)) (by simp)
  | absent hn ha     =>
    cases h' with
    | equal he' hk'     => exact absurd (hk' ▸ List.mem_map_of_mem he') hn
    | pattern _ he' hp' => exact absurd (hp'.symm.trans (ha _ he')) (by simp)
    | absent            => exact ⟨rfl, rfl⟩

-- Some iteration begins with a given entry.
theorem exists_order (hn : routeKey method path ∉ router.routes.map Prod.fst) (he : e ∈ router.routes)
    (hp : (routeParams method path e.1).isSome) :
    ∃ router' : Router σ, router'.routes.Perm router.routes ∧ router'.chosen method path = some e := by
  have ⟨l₁, l₂, hs⟩ := List.append_of_mem he
  have hr : (e :: (l₁ ++ l₂)).Perm router.routes := hs ▸ List.perm_middle.symm
  refine ⟨⟨e :: (l₁ ++ l₂), (hr.map _).nodup_iff.mpr router.nodup⟩, hr, ?_⟩
  have hl : List.lookup (routeKey method path) (e :: (l₁ ++ l₂)) = none := by
    rw [List.lookup_eq_none_iff]
    intro e' he'
    have hne : e'.1 ≠ routeKey method path := fun hk => hn (hk ▸ List.mem_map_of_mem (hr.mem_iff.mp he'))
    simpa using hne.symm
  rw [chosen, hl]
  exact List.find?_cons_of_pos hp

theorem resolve_orders_iff :
    (∀ router₁ router₂ : Router σ, router₁.routes.Perm router.routes → router₂.routes.Perm router.routes →
      router₁.chosen method path = router₂.chosen method path ∧
        ∀ req, router₁.resolve method path req = router₂.resolve method path req) ↔
      Unambiguous router method path := by
  constructor
  · intro h
    apply or_iff_not_imp_left.mpr
    intro hn e he e' he' hp hp'
    have ⟨router₁, hr₁, hc₁⟩ := exists_order hn he hp
    have ⟨router₂, hr₂, hc₂⟩ := exists_order hn he' hp'
    have hc := (h router₁ router₂ hr₁ hr₂).1
    rw [hc₁, hc₂] at hc
    exact congrArg Prod.fst (Option.some.inj hc)
  · intro hu router₁ router₂ hr₁ hr₂
    have h (req : Request) := ((resolves router₁ method path req).perm hr₁).unique hu
      ((resolves router₂ method path req).perm hr₂)
    exact ⟨(h {}).1, fun req => (h req).2⟩

-- The path `/y/x` belongs to two patterns.
theorem not_unambiguous_overlap : ∃ router₁ router₂ : Router Nat, router₁.routes.Perm router₂.routes ∧
    (router₁.chosen "GET" "/y/x").map Prod.fst = some (routeKey "GET" "/:a/x") ∧
    (router₂.chosen "GET" "/y/x").map Prod.fst = some (routeKey "GET" "/y/:b") ∧
    (router₁.resolve "GET" "/y/x" {}).2.getParam "a" = some ("y" : Bytes) ∧
    (router₂.resolve "GET" "/y/x" {}).2.getParam "a" = none := by
  let a : Registration Nat := ⟨"GET", "/:a/x", counting⟩
  let b : Registration Nat := ⟨"GET", "/y/:b", counting⟩
  exact ⟨register [b, a], register [a, b], .swap _ _ _, by decide +kernel, by decide +kernel, by decide +kernel,
    by decide +kernel⟩

end Orders

end Router
end YNet
