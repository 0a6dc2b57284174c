import YNet.Lib.Recency
import YNet.Cache.Theorems.Loads

open Recency

namespace YNet.Cache

variable {entries entries' : Entries} {l : List Bytes} {f g z : Bytes} {entry : CacheEntry}

section Order

-- The entries have been accessed in the order of the list, the first one of it last.
structure Ordered (entries : Entries) (l : List Bytes) : Prop where
  nodup : l.Nodup
  mem   : ∀ f, f ∈ entries ↔ f ∈ l
  order : l.Pairwise fun f g => ∀ a b, entries.lookup f = some a → entries.lookup g = some b → b.lastAccess < a.lastAccess

theorem Ordered.perm (h : Ordered entries l) : entries.keys.Perm l :=
  (List.perm_ext_iff_of_nodup entries.keys_nodup h.nodup).mpr fun f => AList.mem_keys.symm.trans (h.mem f)

theorem Ordered.length_eq (h : Ordered entries l) : entries.keys.length = l.length :=
  h.perm.length_eq

theorem Ordered.empty : Ordered ∅ [] where
  nodup := .nil
  mem   := by simp
  order := .nil

-- An entry that is stored with a later access than all others is the first one.
theorem Ordered.store (h : Ordered entries l) (hs : Stored entries f entry entries')
    (ht : ∀ g e, entries.lookup g = some e → e.lastAccess < entry.lastAccess) : Ordered entries' (touch f l) := by
  have hself : entries'.lookup f = some entry := (AList.perm_lookup hs).trans (AList.lookup_insert _)
  have hother {g : Bytes} (hg : g ∈ l.filter (· ≠ f)) : entries'.lookup g = entries.lookup g :=
    (AList.perm_lookup hs).trans (AList.lookup_insert_ne (by simpa using (List.mem_filter.mp hg).2))
  constructor
  case nodup => exact nodup_touch h.nodup
  case mem =>
    intro g
    rw [AList.mem_of_perm hs, AList.mem_insert, mem_touch, h.mem]
  case order =>
    refine List.pairwise_cons.mpr ⟨fun g hg a b ha hb => ?_, ?_⟩
    · cases hself.symm.trans ha
      exact ht g b ((hother hg).symm.trans hb)
    · refine (h.order.sublist List.filter_sublist).imp_of_mem fun hf hg hlt a b ha hb => ?_
      exact hlt a b ((hother hf).symm.trans ha) ((hother hg).symm.trans hb)

theorem oldest_spec {es : List (Sigma fun _ : Bytes => CacheEntry)} (h : LRUPolicy.oldest es = some o) :
    o ∈ es ∧ ∀ e ∈ es, o.2.lastAccess ≤ e.2.lastAccess := by
  cases es with
  | nil => contradiction
  | cons e es =>
    have hfold (es : List (Sigma fun _ : Bytes => CacheEntry)) (e : Sigma fun _ : Bytes => CacheEntry) :
        let o := es.foldl (fun oldest it => if it.2.lastAccess < oldest.2.lastAccess then it else oldest) e
        o ∈ e :: es ∧ ∀ e' ∈ e :: es, o.2.lastAccess ≤ e'.2.lastAccess := by
      induction es generalizing e with
      | nil => simp
      | cons e' es hi =>
        rw [List.foldl_cons]
        split
        case isTrue hlt =>
          have ⟨hm, hle⟩ := hi e'
          refine ⟨List.mem_cons_of_mem _ hm, List.forall_mem_cons.mpr ⟨?_, hle⟩⟩
          exact (hle e' List.mem_cons_self).trans hlt.le
        case isFalse hge =>
          have ⟨hm, hle⟩ := hi e
          have hfirst := hle e List.mem_cons_self
          refine ⟨?_, List.forall_mem_cons.mpr ⟨hfirst, List.forall_mem_cons.mpr ⟨?_, fun x hx => ?_⟩⟩⟩
          · exact List.cons_subset_cons _ (List.subset_cons_self ..) hm
          · exact hfirst.trans (not_lt.mp hge)
          · exact hle x (List.mem_cons_of_mem _ hx)
    cases h
    exact hfold es e

-- The least recently used entry is evicted.
theorem Ordered.oldest (h : Ordered entries (l ++ [z])) : ∃ o, LRUPolicy.oldest entries.entries = some o ∧ o.1 = z := by
  cases ho : LRUPolicy.oldest entries.entries with
  | none =>
    have hnil : entries.entries = [] := by
      cases he : entries.entries with
      | nil  => rfl
      | cons => simp [he, LRUPolicy.oldest] at ho
    have hlen := h.length_eq
    simp [AList.keys, hnil] at hlen
  | some o =>
    refine ⟨o, rfl, ?_⟩
    obtain ⟨hm, hle⟩ := oldest_spec ho
    have hlookup : entries.lookup o.1 = some o.2 := AList.mem_lookup_iff.mpr hm
    have hmem : o.1 ∈ l ++ [z] := (h.mem _).mp (AList.lookup_isSome.mp (by rw [hlookup]; rfl))
    cases List.mem_append.mp hmem with
    | inr hz => exact List.mem_singleton.mp hz
    | inl hl =>
      have hz : z ∈ entries := (h.mem _).mpr (by simp)
      obtain ⟨e, he⟩ := Option.isSome_iff_exists.mp (AList.lookup_isSome.mpr hz)
      have hlt := (List.pairwise_append.mp h.order).2.2 _ hl z List.mem_cons_self o.2 e hlookup he
      have hge := hle ⟨z, e⟩ (AList.mem_lookup_iff.mp he)
      exact absurd hlt (not_lt.mpr hge)

theorem Ordered.erase (h : Ordered entries (l ++ [z])) : Ordered (entries.erase z) l := by
  have ⟨hn, _, hz⟩ := List.nodup_append.mp h.nodup
  have hz {f : Bytes} (hf : f ∈ l) : f ≠ z := hz f hf z List.mem_cons_self
  constructor
  case nodup => exact hn
  case mem =>
    intro f
    rw [AList.mem_erase, h.mem, List.mem_append, List.mem_singleton]
    exact ⟨fun ⟨hne, hm⟩ => hm.resolve_right hne, fun hm => ⟨hz hm, .inl hm⟩⟩
  case order =>
    refine (List.pairwise_append.mp h.order).1.imp_of_mem fun hf hg hlt a b ha hb => ?_
    rw [AList.lookup_erase_ne (hz hf)] at ha
    rw [AList.lookup_erase_ne (hz hg)] at hb
    exact hlt a b ha hb

theorem Ordered.evict (h : Ordered entries (l ++ [z])) : LRUPolicy.evict entries = some (entries.erase z) := by
  have ⟨o, ho, hz⟩ := h.oldest
  rw [LRUPolicy.evict, ho, Option.map_some, hz]

end Order

section Runs

variable {files : Bytes → Option File} {maxEntries : Nat} {s s' : World} {tr : List Act}

def loaded : Act → Option Bytes
  | .ret _ f _ => some f
  | _          => none

-- The files that have been loaded, the most recently loaded one first.
def recentLoads (tr : List Act) : List Bytes :=
  recent (tr.filterMap loaded)

-- The entry of a file that is loaded gets a later access time than all others.
def Later (s : World) (e : Act) : Prop :=
  ∀ k f content, e = .ret k f content → ∀ g entry, s.entries.lookup g = some entry → entry.lastAccess < s.now

-- A file that is in the cache is read again only if there is room, or if it is the one to be evicted.
def Roomy (maxEntries : Nat) (s : World) (e : Act) : Prop :=
  ∀ k f mtime, e = .miss k → s.phase k = .stamped f mtime → f ∈ s.entries →
    s.entries.keys.length < maxEntries ∨ ∃ o, LRUPolicy.oldest s.entries.entries = some o ∧ o.1 = f

-- The runs of a cache that is not cleared.
structure LoadStep (maxEntries : Nat) (s : World) (e : Act) (s' : World) : Prop where
  step  : Step LRUPolicy maxEntries s e s'
  later : Later s e
  loads : e ≠ .clear

-- The file whose entry is missing while a call reads it.
def Phase.filling : Phase → Option Bytes
  | .missed f _ | .read f _ _ => some f
  | _                         => none

structure LruInv (maxEntries : Nat) (tr : List Act) (s : World) : Prop where
  locked  : ∀ k, (s.phase k).Locked ↔ s.holder = some k
  kept    : (∀ k, (s.phase k).filling = none) → Ordered s.entries ((recentLoads tr).take maxEntries)
  filling : ∀ k f, (s.phase k).filling = some f →
    ∃ l, Ordered s.entries l ∧ touch f l = (touch f (recentLoads tr)).take maxEntries

theorem recentLoads_concat (h : loaded e = none) : recentLoads (tr ++ [e]) = recentLoads tr := by
  simp [recentLoads, h]

theorem recentLoads_ret : recentLoads (tr ++ [.ret k f content]) = touch f (recentLoads tr) := by
  simp [recentLoads, loaded, recent_concat]

theorem Phase.locked_of_filling {p : Phase} (h : p.filling = some f) : p.Locked := by
  cases p <;> trivial

theorem LruInv.start : LruInv maxEntries [] (.start files) where
  locked _ := ⟨nofun, nofun⟩
  kept _   := by
    have hnil : (recentLoads []).take maxEntries = [] := by simp [recentLoads, recent]
    exact hnil ▸ Ordered.empty
  filling  := nofun

theorem LruInv.holder_of (h : LruInv maxEntries tr s) (hk : s.phase k = p) (hp : p.Locked) : s.holder = some k :=
  (h.locked k).mp (hk ▸ hp)

theorem LruInv.not_holder_of (h : LruInv maxEntries tr s) (hk : s.phase k = p) (hp : ¬p.Locked) : s.holder ≠ some k :=
  fun hh => hp (hk ▸ (h.locked k).mpr hh)

-- While a call holds the lock, no other call is reading a file.
theorem LruInv.filling_none (h : LruInv maxEntries tr s) (hk : s.phase k = p) (hp : p.Locked) (hj : j ≠ k) :
    (s.phase j).filling = none := by
  cases hf : (s.phase j).filling with
  | none   => rfl
  | some f =>
    have hl := (h.locked j).mp (Phase.locked_of_filling hf)
    exact absurd (Option.some.inj (hl.symm.trans (h.holder_of hk hp))) hj

theorem LruInv.kept_of (h : LruInv maxEntries tr s) (hk : s.phase k = p) (hp : p.Locked) (hf : p.filling = none) :
    Ordered s.entries ((recentLoads tr).take maxEntries) := by
  refine h.kept fun j => ?_
  by_cases hj : j = k
  case pos => exact hj ▸ hk ▸ hf
  case neg => exact h.filling_none hk hp hj

-- What makes room leaves the files that have been used most recently.
theorem Ordered.makeRoom (h : Ordered entries (l.take maxEntries)) (hl : l.Nodup) (hm : 1 ≤ maxEntries)
    (hr : f ∈ entries → entries.keys.length < maxEntries ∨
      ∃ o, LRUPolicy.oldest entries.entries = some o ∧ o.1 = f)
    (he : Cache.makeRoom LRUPolicy maxEntries entries = some entries') :
    ∃ l', Ordered entries' l' ∧ touch f l' = (touch f l).take maxEntries := by
  have hlen := h.length_eq
  unfold Cache.makeRoom at he
  split at he
  case isTrue hfull =>
    have hne : l.take maxEntries ≠ [] := by
      refine List.ne_nil_of_length_pos ?_
      omega
    obtain ⟨l', z, hz⟩ : ∃ l' z, l.take maxEntries = l' ++ [z] :=
      ⟨_, _, (List.dropLast_concat_getLast hne).symm⟩
    rw [hz] at h
    cases h.evict.symm.trans he
    refine ⟨l', h.erase, ?_⟩
    by_cases hf : f ∈ entries
    case pos =>
      obtain ⟨o, ho, hof⟩ := (hr hf).resolve_left (by omega)
      obtain ⟨o', ho', hoz⟩ := h.oldest
      cases ho.symm.trans ho'
      have hzf : z = f := hoz.symm.trans hof
      rw [take_touch_of_mem hl (by simp [hz, hzf]), hz, hzf]
      simp [touch]
    case neg =>
      obtain ⟨n, hn⟩ := Nat.exists_eq_add_of_le' hm
      subst hn
      have hnot : f ∉ l.take (n + 1) := fun hm => hf ((h.mem f).mpr (hz ▸ hm))
      have hl' : l' = l.take n := by
        have hlen' := congrArg List.length hz
        have hle := List.length_take_le (n + 1) l
        have htake := congrArg (List.take n) hz
        rw [List.take_take, min_eq_left (Nat.le_succ n)] at htake
        rw [htake, List.take_left']
        simp only [List.length_append, List.length_singleton] at hlen'
        omega
      rw [take_touch_of_notMem hnot, hl']
  case isFalse hroom =>
    cases he
    have hall : l.length < maxEntries := by
      rw [List.length_take] at hlen
      omega
    rw [List.take_of_length_le hall.le] at h
    refine ⟨l, h, (List.take_of_length_le ?_).symm⟩
    have hle := List.length_filter_le (fun b => decide (b ≠ f)) l
    rw [touch, List.length_cons]
    omega

theorem locked_update {phase : Nat → Phase} {p : Phase} (h : ∀ j, (phase j).Locked ↔ holder = some j)
    (hp : p.Locked ↔ holder' = some k) (hh : ∀ j ≠ k, holder = some j ↔ holder' = some j) :
    ∀ j, (Function.update phase k p j).Locked ↔ holder' = some j := by
  intro j
  by_cases hj : j = k
  case pos => simpa [hj] using hp
  case neg => simpa [Function.update_of_ne hj] using (h j).trans (hh j hj)

theorem filling_update {phase : Nat → Phase} {p : Phase} (hp : p.filling = (phase k).filling) :
    ∀ j, (Function.update phase k p j).filling = (phase j).filling := by
  intro j
  by_cases hj : j = k
  case pos => simp [hj, hp]
  case neg => simp [Function.update_of_ne hj]

-- A step that neither changes the entries nor loads a file.
theorem LruInv.same (h : LruInv maxEntries tr s) (he : loaded e = none) (hent : s'.entries = s.entries)
    (hl : ∀ j, (s'.phase j).Locked ↔ s'.holder = some j) (hp : ∀ j, (s'.phase j).filling = (s.phase j).filling) :
    LruInv maxEntries (tr ++ [e]) s' where
  locked          := hl
  kept hn         := by
    rw [hent, recentLoads_concat he]
    exact h.kept fun j => (hp j).symm.trans (hn j)
  filling k f hf  := by
    rw [hent, recentLoads_concat he]
    exact h.filling k f ((hp k).symm.trans hf)

-- The step at whose end a call returns.
theorem LruInv.ret {entries : Entries} (h : LruInv maxEntries tr s) (hk : s.phase k = p) (hp : p.Locked)
    (ho : Ordered entries ((touch f (recentLoads tr)).take maxEntries)) : LruInv maxEntries (tr ++ [.ret k f content])
      { s with entries, holder := none, phase := Function.update s.phase k .returned } where
  locked := by
    have hlock := h.holder_of hk hp
    exact locked_update h.locked ⟨nofun, nofun⟩ fun j hj => by simp [hlock, hj.symm]
  kept _ := recentLoads_ret ▸ ho
  filling j g hg := by
    by_cases hj : j = k
    case pos => simp [hj, Phase.filling] at hg
    case neg =>
      have hg : (s.phase j).filling = some g := by simpa [Function.update_of_ne hj] using hg
      exact absurd ((h.filling_none hk hp hj).symm.trans hg) (by simp)

theorem LruInv.step (h : LruInv maxEntries tr s) (hm : 1 ≤ maxEntries) (hs : LoadStep maxEntries s e s')
    (hr : Roomy maxEntries s e) : LruInv maxEntries (tr ++ [e]) s' := by
  have hnodup : (recentLoads tr).Nodup := nodup_recent (tr.filterMap loaded)
  cases hs.step with
  | tick | write => exact h.same rfl rfl h.locked fun _ => rfl
  | clear        => exact absurd rfl hs.loads
  | call hk      =>
    exact h.same rfl rfl (locked_update h.locked (iff_of_false nofun (h.not_holder_of hk nofun)) fun _ _ => Iff.rfl)
      (filling_update (hk ▸ rfl))
  | enter hk hn  =>
    exact h.same rfl rfl (locked_update h.locked (iff_of_true trivial rfl) fun j hj => by simp [hn, hj.symm])
      (filling_update (hk ▸ rfl))
  | stamp hk     =>
    exact h.same rfl rfl (locked_update h.locked (iff_of_true trivial (h.holder_of hk trivial)) fun _ _ => Iff.rfl)
      (filling_update (hk ▸ rfl))
  | read hk      =>
    exact h.same rfl rfl (locked_update h.locked (iff_of_true trivial (h.holder_of hk trivial)) fun _ _ => Iff.rfl)
      (filling_update (hk ▸ rfl))
  | hit hk hh hst =>
    have ho := h.kept_of hk trivial rfl
    have hf := (ho.mem _).mp (AList.lookup_isSome.mp (Option.isSome_of_mem (hit_eq_some hh).1))
    exact h.ret hk trivial (take_touch_of_mem hnodup hf ▸ ho.store hst (hs.later _ _ _ rfl))
  | @miss f mtime entries _ k hk hh hroom =>
    have ho := h.kept_of hk trivial rfl
    have ⟨l, hl, ht⟩ := ho.makeRoom hnodup hm (hr _ _ _ rfl hk) hroom
    constructor
    case locked =>
      exact locked_update h.locked (iff_of_true trivial (h.holder_of hk trivial)) fun _ _ => Iff.rfl
    case kept => exact fun hn => absurd (hn k) (by simp [Phase.filling])
    case filling =>
      intro j g hg
      rw [recentLoads_concat rfl]
      by_cases hj : j = k
      case pos =>
        have hg : g = f := by simpa [hj, Phase.filling, eq_comm] using hg
        subst hg
        exact ⟨l, hl, ht⟩
      case neg =>
        have hg : (s.phase j).filling = some g := by simpa [Function.update_of_ne hj] using hg
        exact absurd ((h.filling_none hk trivial hj).symm.trans hg) (by simp)
  | store hk hst =>
    have ⟨l, hl, ht⟩ := h.filling _ _ (congrArg Phase.filling hk)
    exact h.ret hk trivial (ht ▸ hl.store hst (hs.later _ _ _ rfl))

theorem LruInv.of_run (h : Run (fun s e s' => LoadStep maxEntries s e s' ∧ Roomy maxEntries s e) (.start files) tr s)
    (hm : 1 ≤ maxEntries) : LruInv maxEntries tr s :=
  h.history (I := LruInv maxEntries) .start fun _ _ _ _ _ hs hi => hi.step hm hs.1 hs.2

-- A file that is read again takes the place of its old entry.
theorem mem_of_makeRoom
    (hr : entries.keys.length < maxEntries ∨ ∃ o, LRUPolicy.oldest entries.entries = some o ∧ o.1 = f)
    (he : makeRoom LRUPolicy maxEntries entries = some entries') (hg : g ∈ entries) (hne : g ≠ f) : g ∈ entries' := by
  unfold makeRoom at he
  split at he
  case isFalse       => exact Option.some.inj he ▸ hg
  case isTrue hfull =>
    have ⟨o, holdest, hf⟩ := hr.resolve_left (by omega)
    have he : LRUPolicy.evict entries = some entries' := he
    rw [LRUPolicy.evict, holdest, Option.map_some, hf] at he
    exact Option.some.inj he ▸ (AList.mem_erase.mpr ⟨hne, hg⟩)

-- The cache holds the files that have been loaded most recently, a file that is read again drops no
-- other one, and there always is something to be evicted.
theorem lru_law (h : Run (fun s e s' => LoadStep maxEntries s e s' ∧ Roomy maxEntries s e) (.start files) tr s)
    (hm : 1 ≤ maxEntries) :
    (s.holder = none → s.entries.keys.Perm ((recentLoads tr).take maxEntries)) ∧
    (∀ k f mtime s' g, s.phase k = .stamped f mtime → f ∈ s.entries → LoadStep maxEntries s (.miss k) s' →
      Roomy maxEntries s (.miss k) → g ∈ s.entries → g ≠ f → g ∈ s'.entries) ∧
    ∀ k f mtime, s.phase k = .stamped f mtime → hit s.entries f mtime = none → maxEntries ≤ s.entries.keys.length →
      s.entries.keys ≠ [] := by
  have hi := LruInv.of_run h hm
  refine ⟨fun hn => ?_, fun k f mtime s' g hk hf hs hr hg hne => ?_, fun k f mtime _ _ hle hnil => ?_⟩
  · refine (hi.kept fun k => ?_).perm
    cases hf : (s.phase k).filling with
    | none   => rfl
    | some f => exact absurd (((hi.locked k).mp (Phase.locked_of_filling hf)).symm.trans hn) (by simp)
  · cases hs.step with
    | miss hk' _ hroom =>
      cases hk.symm.trans hk'
      exact mem_of_makeRoom (hr _ _ _ rfl hk hf) hroom hg hne
  · simp only [hnil, List.length_nil] at hle
    omega

-- A call that reads the file, without other calls in between.
def missActs (k : Nat) (f content : Bytes) : List Act :=
  [.call k f, .enter k, .stamp k, .miss k, .read k, .ret k f content]

-- A step with a condition on where it is made.
abbrev LoadStepWhere (R : World → Act → Prop) (maxEntries : Nat) (s : World) (e : Act) (s' : World) : Prop :=
  LoadStep maxEntries s e s' ∧ R s e

variable {R : World → Act → Prop}

theorem run_miss (s : World) (k : Nat) (f : Bytes) {file : File} (hR : ∀ s e, (∀ k, e ≠ .miss k) → R s e)
    (hm : ∀ phase, phase k = .stamped f file.mtime → R ⟨s.files, s.entries, some k, s.now, phase⟩ (.miss k))
    (hh : s.holder = none) (hp : s.phase k = .idle) (hf : s.files f = some file)
    (hit : hit s.entries f file.mtime = none) (hr : makeRoom LRUPolicy maxEntries s.entries = some entries)
    (hl : ∀ g entry, entries.lookup g = some entry → entry.lastAccess < s.now) :
    ∃ phase, (∀ j ≠ k, phase j = s.phase j) ∧ Run (LoadStepWhere R maxEntries) s (missActs k f file.content)
      { s with entries := entries.insert f ⟨file.content, file.mtime, s.now⟩, holder := none, phase } := by
  refine ⟨_, fun j hj => ?_,
    .cons ⟨⟨.call hp (hf ▸ rfl), nofun, nofun⟩, hR _ _ nofun⟩ <|
    .cons ⟨⟨.enter (Function.update_self ..) hh, nofun, nofun⟩, hR _ _ nofun⟩ <|
    .cons ⟨⟨.stamp (Function.update_self ..) hf, nofun, nofun⟩, hR _ _ nofun⟩ <|
    .cons ⟨⟨.miss (Function.update_self ..) hit hr, nofun, nofun⟩, hm _ (Function.update_self ..)⟩ <|
    .cons ⟨⟨.read (Function.update_self ..) hf, nofun, nofun⟩, hR _ _ nofun⟩ <|
    .single ⟨⟨.store (Function.update_self ..) (.refl _), fun _ _ _ _ => hl, nofun⟩, hR _ _ nofun⟩⟩
  simp [Function.update_of_ne hj]

theorem roomy_of_ne (s : World) (e : Act) (h : ∀ k, e ≠ .miss k) : Roomy maxEntries s e :=
  fun k _ _ he => absurd he (h k)

theorem roomy_miss (hk : s.phase k = .stamped f mtime) (h : f ∉ s.entries ∨ s.entries.keys.length < maxEntries ∨
    ∃ o, LRUPolicy.oldest s.entries.entries = some o ∧ o.1 = f) : Roomy maxEntries s (.miss k) := by
  intro k' f' mtime' he hk' hf
  cases he
  cases hk.symm.trans hk'
  exact h.resolve_left (not_not.mpr hf)

theorem later_insert {now : Int} (h : ∀ g e, entries.lookup g = some e → e.lastAccess < now) (hn : entry.lastAccess < now) :
    ∀ g e, (entries.insert f entry).lookup g = some e → e.lastAccess < now := by
  intro g e he
  by_cases hg : g = f
  case pos =>
    subst hg
    rw [AList.lookup_insert] at he
    exact Option.some.inj he ▸ hn
  case neg => exact h g e ((AList.lookup_insert_ne hg).symm.trans he)

theorem lookup_of_erase (h : (entries.erase f).lookup g = some entry) : entries.lookup g = some entry := by
  by_cases hg : g = f
  case pos =>
    subst hg
    exact absurd ((AList.lookup_erase ..).symm.trans h) (by simp)
  case neg => exact (AList.lookup_erase_ne hg).symm.trans h

end Runs

section Samples

-- Files that never change, with one content.
def sameFiles : Bytes → Option File :=
  fun _ => some ⟨[98], 0⟩

def oneLoaded : Entries :=
  AList.insert [97] ⟨[98], 0, 0⟩ ∅

def twoLoaded : Entries :=
  oneLoaded.insert [98] ⟨[98], 0, 1⟩

def threeLoaded : Entries :=
  (twoLoaded.erase [97]).insert [99] ⟨[98], 0, 2⟩

-- The second file is changed after it has been loaded.
def changedFiles : Bytes → Option File :=
  Function.update sameFiles [98] (some ⟨[99], 1⟩)

theorem later_empty (now : Int) : ∀ g entry, (∅ : Entries).lookup g = some entry → entry.lastAccess < now := by
  simp

theorem later_oneLoaded (h : 0 < now) : ∀ g entry, oneLoaded.lookup g = some entry → entry.lastAccess < now :=
  later_insert (later_empty now) h

theorem later_twoLoaded (h : 1 < now) : ∀ g entry, twoLoaded.lookup g = some entry → entry.lastAccess < now :=
  later_insert (later_oneLoaded (by omega)) h

-- The first two loads of a cache with room for two files.
theorem run_twoLoaded (hR : ∀ s e, (∀ k, e ≠ .miss k) → R s e)
    (hm : ∀ s k f mtime, s.phase k = .stamped f mtime → f ∉ s.entries → R s (.miss k)) :
    ∃ phase, (∀ j, 1 < j → phase j = .idle) ∧ Run (LoadStepWhere R 2) (.start sameFiles)
      (missActs 0 [97] [98] ++ .tick :: (missActs 1 [98] [98] ++ [.tick])) ⟨sameFiles, twoLoaded, none, 2, phase⟩ := by
  have hn₁ : [97] ∉ (∅ : Entries) := AList.notMem_empty _
  have hn₂ : [98] ∉ oneLoaded := by decide
  have ⟨p₁, h₁, r₁⟩ : ∃ p, _ ∧ Run (LoadStepWhere R 2) (.start sameFiles) (missActs 0 [97] [98])
      ⟨sameFiles, oneLoaded, none, 0, p⟩ :=
    run_miss (.start sameFiles) 0 [97] hR (fun _ hk => hm _ _ _ _ hk hn₁) rfl rfl rfl rfl rfl (later_empty 0)
  have ⟨p₂, h₂, r₂⟩ : ∃ p, _ ∧ Run (LoadStepWhere R 2) ⟨sameFiles, oneLoaded, none, 1, p₁⟩ (missActs 1 [98] [98])
      ⟨sameFiles, twoLoaded, none, 1, p⟩ :=
    run_miss ⟨sameFiles, oneLoaded, none, 1, p₁⟩ 1 [98] hR (fun _ hk => hm _ _ _ _ hk hn₂) rfl (h₁ 1 (by decide))
      rfl rfl rfl (later_oneLoaded Int.one_pos)
  have t₁ : LoadStepWhere R 2 ⟨sameFiles, oneLoaded, none, 0, p₁⟩ .tick ⟨sameFiles, oneLoaded, none, 1, p₁⟩ :=
    ⟨⟨.tick Int.one_nonneg, nofun, nofun⟩, hR _ _ nofun⟩
  have t₂ : LoadStepWhere R 2 ⟨sameFiles, twoLoaded, none, 1, p₂⟩ .tick ⟨sameFiles, twoLoaded, none, 2, p₂⟩ :=
    ⟨⟨.tick (show (1 : Int) ≤ 2 by decide), nofun, nofun⟩, hR _ _ nofun⟩
  exact ⟨p₂, fun j hj => (h₂ j (by omega)).trans (h₁ j (by omega)), r₁.append (.cons t₁ (r₂.append (.single t₂)))⟩

-- The third file takes the place of the first one. Then the second one is changed, and takes its own place.
theorem lru_law_first : ∃ tr s, Run (fun s e s' => LoadStep 2 s e s' ∧ Roomy 2 s e) (.start sameFiles) tr s ∧
    recentLoads tr = [[98], [99], [97]] ∧ s.entries.keys.Perm ((recentLoads tr).take 2) := by
  have ⟨p₂, h₂, r₂⟩ := run_twoLoaded (R := Roomy 2) roomy_of_ne fun _ _ _ _ hk hf => roomy_miss hk (.inl hf)
  have h₂' : ∀ g entry, (twoLoaded.erase [97]).lookup g = some entry → entry.lastAccess < 2 :=
    fun g entry h => later_twoLoaded (by decide) g entry (lookup_of_erase h)
  have h₃' : ∀ g entry, (threeLoaded.erase [98]).lookup g = some entry → entry.lastAccess < 3 := fun g entry h =>
    later_insert (fun g entry h => (h₂' g entry h).trans (by decide)) (by decide) g entry (lookup_of_erase h)
  have hn : [99] ∉ twoLoaded := by decide
  have ⟨p₃, h₃, r₃⟩ : ∃ p, _ ∧ Run (LoadStepWhere (Roomy 2) 2) ⟨sameFiles, twoLoaded, none, 2, p₂⟩
      (missActs 2 [99] [98]) ⟨sameFiles, threeLoaded, none, 2, p⟩ :=
    run_miss ⟨sameFiles, twoLoaded, none, 2, p₂⟩ 2 [99] roomy_of_ne (fun _ hk => roomy_miss hk (.inl hn))
      rfl (h₂ 2 (by decide)) rfl rfl rfl h₂'
  have t₃ : LoadStepWhere (Roomy 2) 2 ⟨sameFiles, threeLoaded, none, 2, p₃⟩ .tick
      ⟨sameFiles, threeLoaded, none, 3, p₃⟩ :=
    ⟨⟨.tick (show (2 : Int) ≤ 3 by decide), nofun, nofun⟩, roomy_of_ne _ _ nofun⟩
  have w : LoadStepWhere (Roomy 2) 2 ⟨sameFiles, threeLoaded, none, 3, p₃⟩ (.write [98] [99] 1)
      ⟨changedFiles, threeLoaded, none, 3, p₃⟩ :=
    ⟨⟨.write, nofun, nofun⟩, roomy_of_ne _ _ nofun⟩
  have ⟨p₄, h₄, r₄⟩ : ∃ p, _ ∧ Run (LoadStepWhere (Roomy 2) 2) ⟨changedFiles, threeLoaded, none, 3, p₃⟩
      (missActs 3 [98] [99]) ⟨changedFiles, (threeLoaded.erase [98]).insert [98] ⟨[99], 1, 3⟩, none, 3, p⟩ :=
    run_miss ⟨changedFiles, threeLoaded, none, 3, p₃⟩ 3 [98] roomy_of_ne
      (fun _ hk => roomy_miss hk (.inr (.inr ⟨_, rfl, rfl⟩))) rfl ((h₃ 3 (by decide)).trans (h₂ 3 (by decide)))
      rfl rfl rfl h₃'
  have r := r₂.append (r₃.append (.cons t₃ (.cons w r₄)))
  exact ⟨_, _, r, by decide +kernel, (lru_law r (by decide)).1 rfl⟩

-- The second file of a full cache is changed and read again. A cache without room for any file has
-- nothing to evict at the first call.
theorem not_lru_law :
    (∃ tr s, Run (LoadStep 2) (.start sameFiles) tr s ∧ s.holder = none ∧
      ¬s.entries.keys.Perm ((recentLoads tr).take 2)) ∧
    ∃ tr s k f mtime, Run (LoadStep 0) (.start sameFiles) tr s ∧ s.phase k = .stamped f mtime ∧
      hit s.entries f mtime = none ∧ makeRoom LRUPolicy 0 s.entries = none := by
  constructor
  · have ⟨p₂, h₂, r₂⟩ := run_twoLoaded (R := fun _ _ => True) (fun _ _ _ => trivial) fun _ _ _ _ _ _ => trivial
    have w : LoadStep 2 ⟨sameFiles, twoLoaded, none, 2, p₂⟩ (.write [98] [99] 1) ⟨changedFiles, twoLoaded, none, 2, p₂⟩ :=
      ⟨.write, nofun, nofun⟩
    have h₂' : ∀ g entry, (twoLoaded.erase [97]).lookup g = some entry → entry.lastAccess < 2 :=
      fun g entry h => later_twoLoaded (by decide) g entry (lookup_of_erase h)
    have ⟨p₃, _, r₃⟩ : ∃ p, _ ∧ Run (LoadStepWhere (fun _ _ => True) 2) ⟨changedFiles, twoLoaded, none, 2, p₂⟩
        (missActs 2 [98] [99]) ⟨changedFiles, (twoLoaded.erase [97]).insert [98] ⟨[99], 1, 2⟩, none, 2, p⟩ :=
      run_miss ⟨changedFiles, twoLoaded, none, 2, p₂⟩ 2 [98] (fun _ _ _ => trivial) (fun _ _ => trivial)
        rfl (h₂ 2 (by decide)) rfl rfl rfl h₂'
    have r := (r₂.append (.cons ⟨w, trivial⟩ r₃)).mono fun _ _ _ h => h.1
    have hkept : ((twoLoaded.erase [97]).insert [98] ⟨[99], 1, 2⟩).keys.length = 1 := rfl
    have hrecent : ((recentLoads (missActs 0 [97] [98] ++ .tick :: (missActs 1 [98] [98] ++ [.tick]) ++
        .write [98] [99] 1 :: missActs 2 [98] [99])).take 2).length = 2 := by decide +kernel
    refine ⟨_, _, r, rfl, fun hp => ?_⟩
    have hlen := hkept.symm.trans (hp.length_eq.trans hrecent)
    contradiction
  · have h : Run (LoadStep 0) (.start sameFiles) [.call 0 [97], .enter 0, .stamp 0] _ :=
      .cons ⟨.call rfl rfl, nofun, nofun⟩ (.cons ⟨.enter rfl rfl, nofun, nofun⟩ (.single ⟨.stamp rfl rfl, nofun, nofun⟩))
    exact ⟨_, _, 0, [97], 0, h, rfl, rfl, rfl⟩

end Samples

end YNet.Cache
