import YNet.Cache.Loads

namespace YNet.Cache

variable {files : Bytes → Option File} {tr tr' : List Act} {f content : Bytes}

section History

def writeOf (f : Bytes) : Act → Option File
  | .write f' content mtime => if f' = f then some { content, mtime } else none
  | _                       => none

-- The file that a path names after the actions.
def fileAt (files : Bytes → Option File) (tr : List Act) (f : Bytes) : Option File :=
  (Run.last (writeOf f) tr).or (files f)

def HadStamp (files : Bytes → Option File) (tr : List Act) (f : Bytes) (mtime : Int) : Prop :=
  (∃ content, files f = some { content, mtime }) ∨ ∃ content, .write f content mtime ∈ tr

-- Each write of a file gives it a modification time that it has never had before.
def FreshStamps (files : Bytes → Option File) (tr : List Act) : Prop :=
  ∀ tr₁ f content mtime tr₂, tr = tr₁ ++ .write f content mtime :: tr₂ → ¬HadStamp files tr₁ f mtime

-- The path has named a file with the content at some moment since the call.
def Saw (files : Bytes → Option File) (tr : List Act) (k : Nat) (f content : Bytes) : Prop :=
  ∃ tr₁ tr₂ tr₃ mtime, tr = tr₁ ++ .call k f :: tr₂ ++ tr₃ ∧
    fileAt files (tr₁ ++ .call k f :: tr₂) f = some { content, mtime }

-- As long as the path names a file with the modification time, the content is the one of that file.
structure Paired (files : Bytes → Option File) (tr : List Act) (f : Bytes) (mtime : Int) (content : Bytes) : Prop where
  had     : HadStamp files tr f mtime
  content : ∀ file, fileAt files tr f = some file → file.mtime = mtime → file.content = content

theorem writeOf_eq_some (h : writeOf f e = some file) : e = .write f file.content file.mtime := by
  unfold writeOf at h
  split at h
  case h_1 f' content mtime =>
    split at h
    case isTrue hf  => cases h; exact hf ▸ rfl
    case isFalse    => contradiction
  case h_2 => contradiction

theorem update_eq_writeOf (files : Bytes → Option File) (g : Bytes) :
    Function.update files f (some { content, mtime }) g = (writeOf g (.write f content mtime)).or (files g) := by
  by_cases hg : g = f
  case pos => simp [writeOf, hg]
  case neg => simp [writeOf, Ne.symm hg, Function.update_of_ne hg]

theorem FreshStamps.of_append (h : FreshStamps files (tr ++ tr')) : FreshStamps files tr :=
  fun tr₁ f content mtime tr₂ ht => h tr₁ f content mtime (tr₂ ++ tr') (by simp [ht])

theorem freshStamps_iff_each : FreshStamps files tr ↔
    Run.Each (fun tr e => ∀ f content mtime, e = .write f content mtime → ¬HadStamp files tr f mtime) tr :=
  ⟨fun h tr₁ _ tr₂ ht f content mtime he => h tr₁ f content mtime tr₂ (he ▸ ht),
    fun h tr₁ f content mtime tr₂ ht => h tr₁ _ tr₂ ht f content mtime rfl⟩

theorem fileAt_concat : fileAt files (tr ++ [e]) f = (writeOf f e).or (fileAt files tr f) := by
  simp [fileAt, Run.last_concat, Option.or_assoc]

theorem HadStamp.append (h : HadStamp files tr f mtime) : HadStamp files (tr ++ tr') f mtime :=
  h.imp_right fun ⟨content, hm⟩ => ⟨content, List.mem_append_left _ hm⟩

theorem hadStamp_of_fileAt (h : fileAt files tr f = some file) : HadStamp files tr f file.mtime := by
  cases hl : Run.last (writeOf f) tr
  case none       => exact .inl ⟨file.content, by simpa [fileAt, hl] using h⟩
  case some file' =>
    have ⟨tr₁, e, tr₂, ht, he, _⟩ := Run.last_eq_some hl
    have hf : file' = file := by simpa [fileAt, hl] using h
    subst hf
    exact .inr ⟨file'.content, by simp [ht, writeOf_eq_some he]⟩

theorem Saw.append (h : Saw files tr k f content) : Saw files (tr ++ tr') k f content := by
  have ⟨tr₁, tr₂, tr₃, mtime, ht, hf⟩ := h
  exact ⟨tr₁, tr₂, tr₃ ++ tr', mtime, by simp [ht], hf⟩

theorem saw_of_fileAt (hc : .call k f ∈ tr) (h : fileAt files tr f = some file) : Saw files tr k f file.content := by
  have ⟨tr₁, tr₂, ht⟩ := List.append_of_mem hc
  exact ⟨tr₁, tr₂, [], file.mtime, by simp [ht], ht ▸ h⟩

-- A content that is read after the modification time belongs to the time or to a later one.
theorem paired_of_missed (hm : HadStamp files tr f mtime) (h : fileAt files tr f = some file) :
    Paired files tr f mtime file.content where
  had                := hm
  content file' hf _ := by cases hf.symm.trans h; rfl

-- A write cannot bring back a modification time.
theorem Paired.concat (h : Paired files tr f mtime content) (hf : FreshStamps files (tr ++ [e])) :
    Paired files (tr ++ [e]) f mtime content where
  had := h.had.append
  content file hfile hm := by
    rw [fileAt_concat] at hfile
    cases he : writeOf f e
    case none => exact h.content file (by simpa [he] using hfile) hm
    case some file' =>
      have hff : file' = file := by simpa [he] using hfile
      subst hff
      have he := writeOf_eq_some he
      subst he
      exact absurd h.had (hm ▸ hf tr f file'.content file'.mtime [] rfl)

end History

section Invariant

variable {policy : CachePolicy} {maxEntries : Nat} {s s' : World}

def Phase.filepath : Phase → Option Bytes
  | .called f | .entered f | .stamped f _ | .missed f _ | .read f _ _ => some f
  | _                                                                 => none

def Phase.Locked : Phase → Prop
  | .idle | .called _ | .returned => False
  | _                             => True

theorem Phase.Locked.filepath {p : Phase} (h : p.Locked) : ∃ f, p.filepath = some f := by
  cases p <;> first | exact ⟨_, rfl⟩ | contradiction

-- What a call has found out so far.
def Phase.Inv (files : Bytes → Option File) (tr : List Act) (entries : Entries) (k : Nat) : Phase → Prop
  | .stamped f mtime      => HadStamp files tr f mtime ∧
      ∀ entry, entries.lookup f = some entry → entry.mtime = mtime → Saw files tr k f entry.content
  | .missed f mtime       => HadStamp files tr f mtime
  | .read f mtime content => Paired files tr f mtime content ∧ Saw files tr k f content
  | _                     => True

structure Inv (files : Bytes → Option File) (tr : List Act) (s : World) : Prop where
  file   : ∀ f, s.files f = fileAt files tr f
  entry  : ∀ f entry, s.entries.lookup f = some entry → Paired files tr f entry.mtime entry.content
  locked : ∀ k, (s.phase k).Locked ↔ s.holder = some k
  called : ∀ k f, (s.phase k).filepath = some f → .call k f ∈ tr ∧ (s.files f).isSome
  phase  : ∀ k, (s.phase k).Inv files tr s.entries k

theorem Phase.Inv.concat {p : Phase} (h : p.Inv files tr entries k) (hf : FreshStamps files (tr ++ [e])) :
    p.Inv files (tr ++ [e]) entries k := by
  cases p with
  | stamped => exact ⟨h.1.append, fun entry hl hm => (h.2 entry hl hm).append⟩
  | missed  => exact HadStamp.append h
  | read    => exact ⟨h.1.concat hf, h.2.append⟩
  | _       => trivial

-- The entries matter only to the call that holds the lock.
theorem Phase.Inv.entries {p : Phase} {entries : Entries} (h : p.Inv files tr entries k) (hp : ¬p.Locked) (entries' : Entries) :
    p.Inv files tr entries' k := by
  cases p <;> first | trivial | exact absurd trivial hp

theorem Inv.phase_of (h : Inv files tr s) (hk : s.phase k = p) : p.Inv files tr s.entries k :=
  hk ▸ h.phase k

theorem Inv.lock_of (h : Inv files tr s) (hk : s.phase k = p) (hp : p.Locked) : s.holder = some k :=
  (h.locked k).mp (hk ▸ hp)

theorem Inv.free_of (h : Inv files tr s) (hk : s.phase k = p) (hp : ¬p.Locked) : s.holder ≠ some k :=
  fun hh => hp (hk ▸ (h.locked k).mpr hh)

theorem Inv.call_of (h : Inv files tr s) (hk : s.phase k = p) (hp : p.filepath = some f) :
    .call k f ∈ tr ∧ (s.files f).isSome :=
  h.called k f (hk ▸ hp)

theorem Inv.start : Inv files [] (.start files) where
  file _   := rfl
  entry    := nofun
  locked _ := ⟨nofun, nofun⟩
  called   := nofun
  phase _  := trivial

-- A step of one of the calls.
theorem Inv.call_step {entries : Entries} {p : Phase} (h : Inv files tr s) (hf : FreshStamps files (tr ++ [e])) (he : ∀ f, writeOf f e = none)
    (hl : entries = s.entries ∨ s.holder = some k)
    (hent : ∀ f entry, entries.lookup f = some entry →
      s.entries.lookup f = some entry ∨ Paired files (tr ++ [e]) f entry.mtime entry.content)
    (hh : ∀ j ≠ k, s.holder = some j ↔ holder = some j) (hp : p.Locked ↔ holder = some k)
    (hc : ∀ f, p.filepath = some f → .call k f ∈ tr ++ [e] ∧ (s.files f).isSome)
    (hi : p.Inv files (tr ++ [e]) entries k) :
    Inv files (tr ++ [e]) { s with entries, holder, phase := Function.update s.phase k p } := by
  constructor
  case file => exact fun f => by rw [fileAt_concat, he]; exact h.file f
  case entry =>
    exact fun f entry hl => (hent f entry hl).elim (fun hl => (h.entry f entry hl).concat hf) id
  case locked =>
    intro j
    by_cases hjk : j = k
    case pos => simpa [hjk] using hp
    case neg =>
      simp only [Function.update_of_ne hjk]
      exact (h.locked j).trans (hh j hjk)
  case called =>
    intro j f hj
    by_cases hjk : j = k
    case pos => exact hjk ▸ hc f (by simpa [hjk] using hj)
    case neg =>
      simp only [Function.update_of_ne hjk] at hj
      exact (h.called j f hj).imp_left (List.mem_append_left _)
  case phase =>
    intro j
    by_cases hjk : j = k
    case pos => simpa [hjk] using hi
    case neg =>
      simp only [Function.update_of_ne hjk]
      have hj := (h.phase j).concat hf
      rcases hl with hl | hl
      · exact hl ▸ hj
      · exact hj.entries (fun hlock => hjk (Option.some.inj (((h.locked j).mp hlock).symm.trans hl))) _

-- A step that is not one of the calls'.
theorem Inv.other_step (h : Inv files tr s) (hf : FreshStamps files (tr ++ [e]))
    (hfiles : ∀ f, s'.files f = (writeOf f e).or (s.files f)) (hh : s'.holder = s.holder) (hp : s'.phase = s.phase)
    (hl : s'.entries = s.entries ∨ s.holder = none ∧ s'.entries = ∅) : Inv files (tr ++ [e]) s' := by
  constructor
  case file => exact fun f => by rw [fileAt_concat, hfiles, h.file]
  case entry =>
    intro f entry hent
    rcases hl with hl | ⟨_, hl⟩
    · exact (h.entry f entry (hl ▸ hent)).concat hf
    · simp [hl] at hent
  case locked => exact fun k => by rw [hp, hh]; exact h.locked k
  case called =>
    intro k f hk
    have ⟨hc, hs⟩ := h.called k f (hp ▸ hk)
    refine ⟨List.mem_append_left _ hc, ?_⟩
    rw [hfiles]
    cases writeOf f e
    case none   => exact hs
    case some _ => rfl
  case phase =>
    intro k
    rw [hp]
    have hk := (h.phase k).concat hf
    rcases hl with hl | ⟨hn, hl⟩
    · exact hl ▸ hk
    · exact hk.entries (fun hlock => absurd (((h.locked k).mp hlock).symm.trans hn) (by simp)) _

theorem lookup_of_stored {entries entries' : Entries} (h : Stored entries f entry entries')
    (hl : entries'.lookup g = some entry') : g = f ∧ entry' = entry ∨ entries.lookup g = some entry' := by
  have hp := (AList.perm_lookup (a := g) h).symm.trans hl
  by_cases hg : g = f
  case pos =>
    subst hg
    rw [AList.lookup_insert] at hp
    exact .inl ⟨rfl, (Option.some.inj hp).symm⟩
  case neg => exact .inr ((AList.lookup_insert_ne hg).symm.trans hp)

theorem lookup_of_makeRoom {entries : Entries} (h : makeRoom policy maxEntries entries = some entries')
    (hl : entries'.lookup f = some entry) : entries.lookup f = some entry := by
  unfold makeRoom at h
  split at h
  case isTrue  => exact policy.evict_lookup _ _ f entry h hl
  case isFalse => exact Option.some.inj h ▸ hl

theorem hit_eq_some {entries : Entries} (h : hit entries f mtime = some entry) :
    entries.lookup f = some entry ∧ entry.mtime = mtime := by
  simpa [hit, Option.filter_eq_some_iff] using h

theorem Inv.step (h : Inv files tr s) (hf : FreshStamps files (tr ++ [e])) (hs : Step policy maxEntries s e s') :
    Inv files (tr ++ [e]) s' := by
  cases hs with
  | tick  => exact h.other_step hf (fun _ => rfl) rfl rfl (.inl rfl)
  | clear hn => exact h.other_step hf (fun _ => rfl) rfl rfl (.inr ⟨hn, rfl⟩)
  | write => exact h.other_step hf (update_eq_writeOf s.files) rfl rfl (.inl rfl)
  | call hk hex =>
    refine h.call_step hf (fun _ => rfl) (.inl rfl) (fun _ _ => .inl) (fun _ _ => Iff.rfl)
      (iff_of_false nofun (h.free_of hk nofun)) (fun g hg => ?_) trivial
    cases hg
    exact ⟨by simp, hex⟩
  | enter hk hn =>
    refine h.call_step hf (fun _ => rfl) (.inl rfl) (fun _ _ => .inl) (fun j hj => by simp [hn, hj.symm])
      (iff_of_true trivial rfl) (fun g hg => ?_) trivial
    cases hg
    exact (h.call_of hk rfl).imp_left (List.mem_append_left _)
  | stamp hk hfile =>
    have hfile := (h.file _).symm.trans hfile
    have hc := h.call_of hk rfl
    refine h.call_step hf (fun _ => rfl) (.inl rfl) (fun _ _ => .inl) (fun _ _ => Iff.rfl)
      (iff_of_true trivial (h.lock_of hk trivial)) (fun g hg => ?_) ?_
    · cases hg
      exact hc.imp_left (List.mem_append_left _)
    · -- An entry with the modification time of the file has its content.
      refine ⟨(hadStamp_of_fileAt hfile).append, fun entry hl hm => ?_⟩
      have he := (h.entry _ entry hl).content _ hfile hm.symm
      exact he ▸ (saw_of_fileAt hc.1 hfile).append
  | hit hk hh hst =>
    have ⟨hl, hm⟩ := hit_eq_some hh
    have hlock := h.lock_of hk trivial
    refine h.call_step hf (fun _ => rfl) (.inr hlock) (fun g entry' hg => ?_)
      (fun j hj => by simp [hlock, hj.symm]) (iff_of_false nofun nofun) nofun trivial
    rcases lookup_of_stored hst hg with ⟨hg, he⟩ | hg
    · subst hg he
      exact .inr ((h.entry _ _ hl).concat hf)
    · exact .inl hg
  | miss hk hh hr =>
    have hp := h.phase_of hk
    have hlock := h.lock_of hk trivial
    refine h.call_step hf (fun _ => rfl) (.inr hlock) (fun g entry hg => .inl (lookup_of_makeRoom hr hg))
      (fun _ _ => Iff.rfl) (iff_of_true trivial hlock) (fun g hg => ?_) hp.1.append
    cases hg
    exact (h.call_of hk rfl).imp_left (List.mem_append_left _)
  | read hk hfile =>
    have hfile := (h.file _).symm.trans hfile
    have hc := h.call_of hk rfl
    have hp := h.phase_of hk
    refine h.call_step hf (fun _ => rfl) (.inl rfl) (fun _ _ => .inl) (fun _ _ => Iff.rfl)
      (iff_of_true trivial (h.lock_of hk trivial)) (fun g hg => ?_) ⟨?_, (saw_of_fileAt hc.1 hfile).append⟩
    · cases hg
      exact hc.imp_left (List.mem_append_left _)
    · exact (paired_of_missed hp hfile).concat hf
  | store hk hst =>
    have hlock := h.lock_of hk trivial
    have hp := h.phase_of hk
    refine h.call_step hf (fun _ => rfl) (.inr hlock) (fun g entry' hg => ?_)
      (fun j hj => by simp [hlock, hj.symm]) (iff_of_false nofun nofun) nofun trivial
    rcases lookup_of_stored hst hg with ⟨hg, he⟩ | hg
    · subst hg he
      exact .inr (hp.1.concat hf)
    · exact .inl hg

theorem Inv.of_run (h : Run (Step policy maxEntries) (.start files) tr s) (hf : FreshStamps files tr) :
    Inv files tr s :=
  h.history (I := fun tr s => FreshStamps files tr → Inv files tr s) (fun _ => .start)
    (fun _ _ _ _ _ hs hi hf => (hi hf.of_append).step hf hs) hf

theorem Inv.saw (h : Inv files tr s) (hs : Step policy maxEntries s (.ret k f content) s') :
    Saw files tr k f content := by
  cases hs with
  | hit hk hh =>
    have ⟨hl, hm⟩ := hit_eq_some hh
    exact (h.phase_of hk).2 _ hl hm
  | store hk => exact (h.phase_of hk).2

-- The call can run on to its end.
def Returns (policy : CachePolicy) (maxEntries : Nat) (s : World) (k : Nat) (f : Bytes) : Prop :=
  ∃ tr content s', Run (Step policy maxEntries) s (tr ++ [.ret k f content]) s'

theorem Returns.of_step (hs : Step policy maxEntries s e s') (h : Returns policy maxEntries s' k f) :
    Returns policy maxEntries s k f := by
  have ⟨tr, content, s'', h⟩ := h
  exact ⟨e :: tr, content, s'', .cons hs h⟩

theorem returns_of_read (h : s.phase k = .read f mtime content) : Returns policy maxEntries s k f :=
  ⟨[], content, _, .single (.store h (List.Perm.refl _))⟩

theorem returns_of_missed (h : s.phase k = .missed f mtime) (hf : (s.files f).isSome) :
    Returns policy maxEntries s k f := by
  have ⟨_, hfile⟩ := Option.isSome_iff_exists.mp hf
  exact .of_step (.read h hfile) (returns_of_read (Function.update_self ..))

-- There is something to be evicted whenever there is no room.
theorem makeRoom_isSome (policy : CachePolicy) (h : 1 ≤ maxEntries) (entries : Entries) :
    (makeRoom policy maxEntries entries).isSome := by
  unfold makeRoom
  split
  case isTrue hl => exact policy.evict_isSome _ (by omega)
  case isFalse   => rfl

theorem returns_of_stamped (h : s.phase k = .stamped f mtime) (hf : (s.files f).isSome) (hm : 1 ≤ maxEntries) :
    Returns policy maxEntries s k f := by
  match hh : hit s.entries f mtime with
  | some entry => exact ⟨[], entry.content, _, .single (.hit h hh (List.Perm.refl _))⟩
  | none       =>
    have ⟨_, hr⟩ := Option.isSome_iff_exists.mp (makeRoom_isSome policy hm s.entries)
    exact .of_step (.miss h hh hr) (returns_of_missed (Function.update_self ..) hf)

theorem returns_of_entered (h : s.phase k = .entered f) (hf : (s.files f).isSome) (hm : 1 ≤ maxEntries) :
    Returns policy maxEntries s k f := by
  have ⟨_, hfile⟩ := Option.isSome_iff_exists.mp hf
  exact .of_step (.stamp h hfile) (returns_of_stamped (Function.update_self ..) hf hm)

-- A call that holds the lock or can take it, returns.
theorem Inv.returns (h : Inv files tr s) (hm : 1 ≤ maxEntries) (hk : (s.phase k).filepath = some f)
    (hl : s.holder = none ∨ s.holder = some k) : Returns policy maxEntries s k f := by
  have hf := (h.called k f hk).2
  cases hp : s.phase k with
  | idle | returned => simp [hp, Phase.filepath] at hk
  | called =>
    cases (congrArg Phase.filepath hp).symm.trans hk
    exact .of_step (.enter hp (hl.resolve_right (h.free_of hp nofun))) (returns_of_entered (Function.update_self ..) hf hm)
  | entered =>
    cases (congrArg Phase.filepath hp).symm.trans hk
    exact returns_of_entered hp hf hm
  | stamped =>
    cases (congrArg Phase.filepath hp).symm.trans hk
    exact returns_of_stamped hp hf hm
  | missed =>
    cases (congrArg Phase.filepath hp).symm.trans hk
    exact returns_of_missed hp hf
  | read =>
    cases (congrArg Phase.filepath hp).symm.trans hk
    exact returns_of_read hp

-- A call returns what the file contained at some moment between the start and the end of the call, and
-- the calls keep returning one after the other.
theorem loadFile_not_stale (h : Run (Step policy maxEntries) (.start files) tr s) (hm : 1 ≤ maxEntries)
    (hf : FreshStamps files tr) :
    (∀ k f content s', Step policy maxEntries s (.ret k f content) s' →
      ∃ tr₁ tr₂ tr₃ m mtime, tr = tr₁ ++ .call k f :: tr₂ ++ tr₃ ∧
        Run (Step policy maxEntries) (.start files) (tr₁ ++ .call k f :: tr₂) m ∧
        m.files f = some { content, mtime }) ∧
    ∀ k f, (s.phase k).filepath = some f →
      (s.holder = none ∨ s.holder = some k → Returns policy maxEntries s k f) ∧
      ∀ j, s.holder = some j → ∃ g, (s.phase j).filepath = some g ∧ Returns policy maxEntries s j g := by
  have hi := Inv.of_run h hf
  refine ⟨fun k f content s' hs => ?_, fun k f hk => ⟨hi.returns hm hk, fun j hj => ?_⟩⟩
  · have ⟨tr₁, tr₂, tr₃, mtime, ht, hfile⟩ := hi.saw hs
    have ⟨m, hr, _⟩ := Run.append_iff.mp (ht ▸ h)
    have hfresh : FreshStamps files (tr₁ ++ .call k f :: tr₂) := (ht ▸ hf).of_append
    exact ⟨tr₁, tr₂, tr₃, m, mtime, ht, hr, ((Inv.of_run hr hfresh).file f).trans hfile⟩
  · have ⟨g, hg⟩ := Phase.Locked.filepath ((hi.locked j).mpr hj)
    exact ⟨g, hg, hi.returns hm hg (.inr hj)⟩

-- A file is loaded, written, and loaded again. Then it is in the cache.
def oldFile : Bytes → Option File :=
  fun _ => some { content := [98], mtime := 0 }

def reload : List Act :=
  [.call 0 [97], .enter 0, .stamp 0, .miss 0, .read 0, .ret 0 [97] [98]] ++ [.write [97] [99] 1] ++
    [.call 1 [97], .enter 1, .stamp 1, .miss 1, .read 1, .ret 1 [97] [99], .call 2 [97], .enter 2, .stamp 2]

theorem freshStamps_reload : FreshStamps oldFile reload := by
  simp [freshStamps_iff_each, HadStamp, oldFile, reload]

theorem run_reload : ∃ s, Run (Step LRUPolicy 1) (.start oldFile) reload s ∧ s.phase 2 = .stamped [97] 1 ∧ s.holder = some 2 ∧
    hit s.entries [97] 1 = some { content := [99], mtime := 1, lastAccess := 0 } :=
  ⟨_, .cons (.call rfl rfl) <| .cons (.enter rfl rfl) <| .cons (.stamp rfl rfl) <| .cons (.miss rfl rfl rfl) <|
    .cons (.read rfl rfl) <| .cons (.store rfl (.refl _)) <| .cons .write <|
    .cons (.call rfl rfl) <| .cons (.enter rfl rfl) <| .cons (.stamp rfl rfl) <| .cons (.miss rfl rfl rfl) <|
    .cons (.read rfl rfl) <| .cons (.store rfl (.refl _)) <|
    .cons (.call rfl rfl) <| .cons (.enter rfl rfl) <| .single (.stamp rfl rfl), rfl, rfl, rfl⟩

theorem loadFile_not_stale_first : ∃ s s', Step LRUPolicy 1 s (.ret 2 [97] [99]) s' ∧ Returns LRUPolicy 1 s 2 [97] ∧
    ∃ tr₁ tr₂ tr₃ m mtime, reload = tr₁ ++ .call 2 [97] :: tr₂ ++ tr₃ ∧
      Run (Step LRUPolicy 1) (.start oldFile) (tr₁ ++ .call 2 [97] :: tr₂) m ∧ m.files [97] = some { content := [99], mtime } := by
  have ⟨s, h, hp, hh, hhit⟩ := run_reload
  have ⟨hret, hphase⟩ := loadFile_not_stale h le_rfl freshStamps_reload
  have hs : Step LRUPolicy 1 s (.ret 2 [97] [99]) _ := .hit hp hhit (.refl _)
  exact ⟨s, _, hs, (hphase 2 [97] (hp ▸ rfl)).1 (.inr hh), hret 2 [97] [99] _ hs⟩

end Invariant

end YNet.Cache
