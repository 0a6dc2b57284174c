import YNet.Lib.Run
import YNet.Util.Uploads
import YNet.Util.Theorems.FileSaver

namespace YNet.Uploads

open Folder

variable {ι : Type} {part : Part} {parts : ι → Part} {folder : Folder} {s s' : State ι} {k : ι} {phase : Phase}

-- The file that a call has created.
def Phase.file? : Phase → Option Bytes
  | writing name _ | saved name => some (cName name)
  | _                           => none

-- What the call has written to its file.
def Phase.written (data : Bytes) : Phase → Bytes
  | writing _ pos => data.take pos
  | _             => data

def Phase.Within (data : Bytes) : Phase → Prop
  | writing _ pos => pos ≤ data.length
  | _             => True

-- A file is opened that is not in the directory at that time.
def Clear (s : State ι) (k : ι) : Prop :=
  ∀ name, s.phase k = .opening name → cName name ∉ s.folder.entries

-- Beside the files that were there, there is a file of its own for every call.
def Lossless (parts : ι → Part) (folder : Folder) (s : State ι) : Prop :=
  ∃ name : ι → Bytes, Function.Injective name ∧
    (∀ k, name k ∉ folder.entries ∧ s.folder.entries.lookup (name k) = some (.file (parts k).data)) ∧
    ∀ n, (∀ k, n ≠ name k) → s.folder.entries.lookup n = folder.entries.lookup n

namespace Clear

theorem of_testing (hp : s.phase k = .testing count name) : Clear s k :=
  fun _ h => absurd (hp.symm.trans h) (by simp)

theorem of_writing (hp : s.phase k = .writing name pos) : Clear s k :=
  fun _ h => absurd (hp.symm.trans h) (by simp)

theorem of_opening (hp : s.phase k = .opening name) (hn : cName name ∉ s.folder.entries) : Clear s k := by
  intro name' h
  cases hp.symm.trans h
  exact hn

end Clear

theorem start_file? : (start part).file? = none := by
  rw [start]
  split <;> rfl

theorem test_file? : (test filename folder count name).file? = none := by
  unfold test
  repeat' split
  all_goals rfl

theorem openFile_cases (folder : Folder) (name : Bytes) :
    folder.openFile name = none ∨ folder.openFile name = some (folder.insertFile name []) := by
  rw [openFile]
  split
  · exact .inr rfl
  · exact .inl rfl

-- A step tests for a name or is refused, it creates a file or empties it, or it writes to the file of the call.
theorem next_cases (h : next part folder phase bytes = some (folder', phase')) :
    (phase.file? = none ∧ phase'.file? = none ∧ folder' = folder) ∨
    (∃ name, phase = .opening name ∧ phase' = .writing name 0 ∧ folder' = folder.insertFile name []) ∨
    (∃ name pos chunk, phase = .writing name pos ∧ folder' = folder.writeAt name pos chunk ∧
      phase'.file? = some (cName name) ∧ phase'.written part.data = part.data.take pos ++ chunk ∧
      phase'.Within part.data) := by
  cases phase with
  | testing count name =>
    cases h
    exact .inl ⟨rfl, test_file?, rfl⟩
  | opening name =>
    simp only [next] at h
    rcases openFile_cases folder name with ho | ho <;> rw [ho] at h <;> cases h
    · exact .inl ⟨rfl, rfl, rfl⟩
    · exact .inr (.inl ⟨name, rfl, rfl, rfl⟩)
  | writing name pos =>
    cases h
    refine .inr (.inr ⟨name, pos, (part.data.drop pos).take bytes, rfl, rfl, ?_⟩)
    split
    case isTrue hl  =>
      refine ⟨rfl, ?_, hl.le⟩
      have ht : part.data.take (pos + ((part.data.drop pos).take bytes).length) =
          part.data.take pos ++ (part.data.drop pos).take bytes := by
        rw [List.take_add, ← List.prefix_iff_eq_take.mp (List.take_prefix ..)]
      exact ht
    case isFalse hl =>
      refine ⟨rfl, ?_, trivial⟩
      rw [List.length_take] at hl
      have hd : (part.data.drop pos).length ≤ bytes := by
        rw [List.length_drop] at hl ⊢
        omega
      rw [List.take_of_length_le hd, List.take_append_drop]
      rfl
  | _ => cases h

-- A call owns its file: no other call has created it, and it holds what the call has written.
structure Invariant (parts : ι → Part) (folder : Folder) (s : State ι) : Prop where
  within   : ∀ k, (s.phase k).Within (parts k).data
  new      : ∀ k n, (s.phase k).file? = some n → n ∉ folder.entries
  holds    : ∀ k n, (s.phase k).file? = some n →
    s.folder.entries.lookup n = some (.file ((s.phase k).written (parts k).data))
  distinct : ∀ j k n, (s.phase j).file? = some n → (s.phase k).file? = some n → j = k
  others   : ∀ n, (∀ k, (s.phase k).file? ≠ some n) → s.folder.entries.lookup n = folder.entries.lookup n

theorem Phase.within_of_file? (h : phase.file? = none) : phase.Within data := by
  cases phase with
  | writing => cases h
  | _       => trivial

theorem exists_of_result (h : phase.result = some (.ok true)) : ∃ name, phase = .saved name := by
  cases phase <;> cases h
  exact ⟨_, rfl⟩

theorem Invariant.init : Invariant parts folder (init parts folder) where
  within _         := Phase.within_of_file? start_file?
  new _ _ h        := absurd (start_file?.symm.trans h) (by simp)
  holds _ _ h      := absurd (start_file?.symm.trans h) (by simp)
  distinct _ _ _ h := absurd (start_file?.symm.trans h) (by simp)
  others _ _       := rfl

theorem Invariant.not_file? (hi : Invariant parts folder s) (h : n ∉ s.folder.entries) (k : ι) : (s.phase k).file? ≠ some n := by
  intro hf
  have hl := hi.holds k n hf
  rw [Finmap.lookup_eq_none.mpr h] at hl
  cases hl

variable [DecidableEq ι]

@[simp]
theorem set_folder : (s.set k folder phase).folder = folder :=
  rfl

@[simp]
theorem set_phase_self : (s.set k folder phase).phase k = phase :=
  Function.update_self ..

theorem set_phase_of_ne (h : j ≠ k) : (s.set k folder phase).phase j = s.phase j :=
  Function.update_of_ne h ..

namespace Invariant

-- A step of a call that has no file and creates none.
theorem quiet (hi : Invariant parts folder s) (h : (s.phase k).file? = none) (h' : phase.file? = none) :
    Invariant parts folder (s.set k s.folder phase) := by
  have hf : ∀ j, ((s.set k s.folder phase).phase j).file? = (s.phase j).file? := by
    intro j
    by_cases hj : j = k
    case pos => rw [hj, set_phase_self, h, h']
    case neg => rw [set_phase_of_ne hj]
  refine ⟨fun j => ?_, fun j n hn => hi.new j n (hf j ▸ hn), fun j n hn => ?_,
    fun i j n h₁ h₂ => hi.distinct i j n (hf i ▸ h₁) (hf j ▸ h₂), fun n hn => hi.others n fun j => hf j ▸ hn j⟩
  · by_cases hj : j = k
    case pos => rw [hj, set_phase_self]; exact Phase.within_of_file? h'
    case neg => rw [set_phase_of_ne hj]; exact hi.within j
  · rw [hf] at hn
    have hj : j ≠ k := by rintro rfl; cases h.symm.trans hn
    rw [set_phase_of_ne hj]
    exact hi.holds j n hn

-- A step with which a call has a file that no other call has.
theorem insertFile (hi : Invariant parts folder s) (hp : phase.file? = some (cName name)) (hw : phase.Within (parts k).data)
    (hn : cName name ∉ folder.entries) (ho : ∀ j, (s.phase j).file? = some (cName name) → j = k)
    (hk : ∀ n, (s.phase k).file? = some n → n = cName name) :
    Invariant parts folder (s.set k (s.folder.insertFile name (phase.written (parts k).data)) phase) where
  within j := by
    by_cases hj : j = k
    case pos => rw [hj, set_phase_self]; exact hw
    case neg => rw [set_phase_of_ne hj]; exact hi.within j
  new j n h := by
    by_cases hj : j = k
    case pos =>
      rw [hj, set_phase_self, hp] at h
      exact Option.some.inj h ▸ hn
    case neg =>
      rw [set_phase_of_ne hj] at h
      exact hi.new j n h
  holds j n h := by
    by_cases hj : j = k
    case pos =>
      rw [hj, set_phase_self, hp] at h
      rw [hj, set_phase_self, ← Option.some.inj h, set_folder, lookup_insertFile]
    case neg =>
      rw [set_phase_of_ne hj] at h ⊢
      have hne : n ≠ cName name := fun he => hj (ho j (he ▸ h))
      rw [set_folder, lookup_insertFile_of_ne hne, hi.holds j n h]
  distinct i j n h₁ h₂ := by
    by_cases hik : i = k <;> by_cases hjk : j = k
    · rw [hik, hjk]
    · rw [hik, set_phase_self, hp] at h₁
      rw [set_phase_of_ne hjk] at h₂
      exact absurd (ho j (h₂.trans h₁.symm)) hjk
    · rw [hjk, set_phase_self, hp] at h₂
      rw [set_phase_of_ne hik] at h₁
      exact absurd (ho i (h₁.trans h₂.symm)) hik
    · rw [set_phase_of_ne hik] at h₁
      rw [set_phase_of_ne hjk] at h₂
      exact hi.distinct i j n h₁ h₂
  others n h := by
    have hne : n ≠ cName name := by
      rintro rfl
      exact h k (by rw [set_phase_self, hp])
    rw [set_folder, lookup_insertFile_of_ne hne]
    refine hi.others n fun j hj => ?_
    by_cases hjk : j = k
    case pos => exact hne (hk n (hjk ▸ hj))
    case neg => exact h j (by rwa [set_phase_of_ne hjk])

theorem step (hi : Invariant parts folder s) (hc : Clear s e.1) (h : Step parts s e s') : Invariant parts folder s' := by
  obtain ⟨folder', phase, hn, rfl⟩ := h
  rcases next_cases hn with ⟨h, h', rfl⟩ | ⟨name, hp, rfl, rfl⟩ | ⟨name, pos, chunk, hp, rfl, hf, hw, hl⟩
  · exact hi.quiet h h'
  · have hf := hc name hp
    have hno := hi.not_file? hf
    have hnf : cName name ∉ folder.entries := by
      rw [← Finmap.lookup_eq_none, ← hi.others _ hno, Finmap.lookup_eq_none]
      exact hf
    have hw : (Phase.writing name 0).Within (parts e.1).data := Nat.zero_le _
    refine hi.insertFile rfl hw hnf (fun j hj => absurd hj (hno j)) fun n hn => ?_
    rw [hp] at hn
    cases hn
  · have hfile : (s.phase e.1).file? = some (cName name) := by rw [hp]; rfl
    have hpos := hi.within e.1
    rw [hp] at hpos
    have hlen : ((parts e.1).data.take pos).length = pos := List.length_take_of_le hpos
    have hold := hi.holds _ _ hfile
    rw [hp, Phase.written] at hold
    have := writeAt_of_lookup hold chunk
    rw [hlen, ← hw] at this
    rw [this]
    refine hi.insertFile hf hl (hi.new _ _ hfile) (fun j hj => hi.distinct _ _ _ hj hfile) fun n hn => ?_
    exact Option.some.inj (hn.symm.trans hfile)

end Invariant

-- If no file is opened that is in the directory already, no upload is lost.
theorem lossless_of_clear (h : Run (fun s e s' => Clear s e.1 ∧ Step parts s e s') (init parts folder) tr s)
    (hs : ∀ k, (s.phase k).result = some (.ok true)) : Lossless parts folder s := by
  have hi : Invariant parts folder s := h.invariant .init fun _ _ _ hstep hi => hi.step hstep.1 hstep.2
  have hp : ∀ k, ∃ name, s.phase k = .saved name := fun k => exists_of_result (hs k)
  choose name hp using hp
  have hf : ∀ k, (s.phase k).file? = some (cName (name k)) := fun k => by rw [hp k]; rfl
  refine ⟨fun k => cName (name k), fun j k he => ?_, fun k => ⟨hi.new k _ (hf k), ?_⟩, fun n hn => hi.others n fun k he => ?_⟩
  · exact hi.distinct j k _ (hf j) ((hf k).trans (congrArg some he.symm))
  · rw [hi.holds k _ (hf k), hp k]
    rfl
  · exact hn k (Option.some.inj (he.symm.trans (hf k)))

-- Every file that was not there belongs to a call.
def Known (folder : Folder) (s : State ι) : Prop :=
  ∀ n ∈ s.folder.entries, n ∈ folder.entries ∨ ∃ k, (s.phase k).file? = some n

-- A call has a file that was there, or that another call has too.
def Spoiled (folder : Folder) (s : State ι) : Prop :=
  ∃ k n, (s.phase k).file? = some n ∧ (n ∈ folder.entries ∨ ∃ j, j ≠ k ∧ (s.phase j).file? = some n)

theorem Step.file? (h : Step parts s e s') (hf : (s.phase k).file? = some n) : (s'.phase k).file? = some n := by
  obtain ⟨folder', phase, hn, rfl⟩ := h
  by_cases hk : k = e.1
  case neg => rwa [set_phase_of_ne hk]
  case pos =>
    subst hk
    rw [set_phase_self]
    rcases next_cases hn with ⟨h, _, _⟩ | ⟨_, hp, _, _⟩ | ⟨name, pos, _, hp, _, h, _, _⟩
    · cases h.symm.trans hf
    · rw [hp] at hf
      cases hf
    · rw [hp] at hf
      exact h.trans hf

theorem Known.step (hk : Known folder s) (h : Step parts s e s') : Known folder s' := by
  have keep : ∀ n ∈ s.folder.entries, n ∈ folder.entries ∨ ∃ k, (s'.phase k).file? = some n := fun n hn =>
    (hk n hn).imp_right fun ⟨k, hf⟩ => ⟨k, h.file? hf⟩
  obtain ⟨folder', phase, hn, rfl⟩ := h
  intro n hmem
  rw [set_folder] at hmem
  rcases next_cases hn with ⟨_, _, rfl⟩ | ⟨name, _, rfl, rfl⟩ | ⟨_, _, _, _, rfl, _⟩
  · exact keep n hmem
  · rcases mem_insertFile.mp hmem with rfl | hmem
    · exact .inr ⟨e.1, by rw [set_phase_self]; rfl⟩
    · exact keep n hmem
  · exact keep n (mem_writeAt hmem)

theorem Spoiled.step (hs : Spoiled folder s) (h : Step parts s e s') : Spoiled folder s' := by
  obtain ⟨k, n, hf, ho⟩ := hs
  refine ⟨k, n, h.file? hf, ho.imp_right ?_⟩
  rintro ⟨j, hj, hf'⟩
  exact ⟨j, hj, h.file? hf'⟩

theorem Step.refused (h : Step parts s e s') (hr : s.phase k = .refused) : s'.phase k = .refused := by
  obtain ⟨folder', phase, hn, rfl⟩ := h
  by_cases hk : k = e.1
  case neg => rwa [set_phase_of_ne hk]
  case pos =>
    rw [← hk, hr] at hn
    cases hn

-- A file that is opened although it is in the directory was there, or another call has created it.
theorem Known.spoiled (hk : Known folder s) (hc : ¬Clear s e.1) (h : Step parts s e s') :
    Spoiled folder s' ∨ s'.phase e.1 = .refused := by
  have ⟨name, hp, hmem⟩ : ∃ name, s.phase e.1 = .opening name ∧ cName name ∈ s.folder.entries := by
    simpa [Clear] using hc
  have hstep := h
  obtain ⟨folder', phase, hn, rfl⟩ := h
  rw [hp, next] at hn
  rcases openFile_cases s.folder name with ho | ho <;> rw [ho] at hn <;> cases hn
  · exact .inr set_phase_self
  · refine .inl ⟨e.1, cName name, by rw [set_phase_self]; rfl, (hk _ hmem).imp_right ?_⟩
    rintro ⟨j, hf⟩
    refine ⟨j, ?_, hstep.file? hf⟩
    rintro rfl
    rw [hp] at hf
    cases hf

omit [DecidableEq ι] in
-- A directory with too few new files for the calls.
theorem Spoiled.lost [Finite ι] (h : Spoiled folder s) (hk : Known folder s) : ¬Lossless parts folder s := by
  rintro ⟨name, hi, hn, _⟩
  have ho : ∀ k, ∃ j, (s.phase j).file? = some (name k) := fun k =>
    (hk _ (Finmap.mem_of_lookup_eq_some (hn k).2)).resolve_left (hn k).1
  choose owner ho using ho
  have hinj : Function.Injective owner := fun j k he => hi (Option.some.inj ((ho j).symm.trans (he ▸ ho k)))
  have hsurj : Function.Surjective owner := Finite.surjective_of_injective hinj
  obtain ⟨k, n, hf, h⟩ := h
  obtain ⟨k, rfl⟩ := hsurj k
  cases (ho k).symm.trans hf
  rcases h with h | ⟨j, hj, hf'⟩
  · exact (hn k).1 h
  · obtain ⟨j, rfl⟩ := hsurj j
    exact hj (congrArg owner (hi (Option.some.inj ((ho j).symm.trans hf'))))

-- No upload is lost if and only if every file that is opened is not in the directory at that time.
theorem lossless_iff [Finite ι] (h : Run (Step parts) (init parts folder) tr s)
    (hs : ∀ k, (s.phase k).result = some (.ok true)) :
    Lossless parts folder s ↔ Run (fun s e s' => Clear s e.1 ∧ Step parts s e s') (init parts folder) tr s := by
  refine ⟨fun hl => ?_, fun hr => lossless_of_clear hr hs⟩
  have hknown : ∀ {tr m}, Run (Step parts) (init parts folder) tr m → Known folder m := fun h =>
    h.invariant (fun n hn => .inl hn) fun _ _ _ hstep hk => hk.step hstep
  let P (tr : List (ι × Nat)) (m : State ι) : Prop :=
    Run (fun s e s' => Clear s e.1 ∧ Step parts s e s') (init parts folder) tr m ∨
      Spoiled folder m ∨ ∃ k, m.phase k = .refused
  have hr : P tr s := by
    refine h.history (I := P) (.inl .nil) fun tr m e m' h hstep hi => ?_
    rcases hi with hr | hsp | ⟨k, hk⟩
    · by_cases hc : Clear m e.1
      case pos => exact .inl (hr.append (.single ⟨hc, hstep⟩))
      case neg => exact .inr (((hknown h).spoiled hc hstep).imp_right fun hk => ⟨e.1, hk⟩)
    · exact .inr (.inl (hsp.step hstep))
    · exact .inr (.inr ⟨k, hstep.refused hk⟩)
  rcases hr with hr | hsp | ⟨k, hk⟩
  · exact hr
  · exact absurd hl (hsp.lost (hknown h))
  · have := hs k
    rw [hk] at this
    cases this

section Two

abbrev emptyFolder : Folder where
  path    := Bytes.ofString "/srv"
  entries := ∅

-- Both files are opened before one of them is written.
theorem lossless_iff_two :
    let parts (k : Bool) := upload (if k then "b.txt" else "a.txt") (if k then "2" else "1")
    ∃ tr s, Run (Step parts) (init parts emptyFolder) tr s ∧ (∀ k, (s.phase k).result = some (.ok true)) ∧
      Lossless parts emptyFolder s := by
  intro parts
  let a := Bytes.ofString "a.txt"
  let b := Bytes.ofString "b.txt"
  let opened := (emptyFolder.insertFile a []).insertFile b []
  let saved := (opened.write a (Bytes.ofString "1")).write b (Bytes.ofString "2")
  let s₀ := init parts emptyFolder
  let s₁ := s₀.set false emptyFolder (.opening a)
  let s₂ := s₁.set true emptyFolder (.opening b)
  let s₃ := s₂.set false (emptyFolder.insertFile a []) (.writing a 0)
  let s₄ := s₃.set true opened (.writing b 0)
  let s₅ := s₄.set false (opened.write a (Bytes.ofString "1")) (.saved a)
  let s₆ := s₅.set true saved (.saved b)
  have h₁ : Step parts s₀ (false, 0) s₁ := ⟨_, _, rfl, rfl⟩
  have h₂ : Step parts s₁ (true, 0) s₂ := ⟨_, _, rfl, rfl⟩
  have h₃ : Step parts s₂ (false, 0) s₃ := ⟨_, _, rfl, rfl⟩
  have h₄ : Step parts s₃ (true, 0) s₄ := ⟨_, _, rfl, rfl⟩
  have h₅ : Step parts s₄ (false, 1) s₅ := ⟨_, _, rfl, rfl⟩
  have h₆ : Step parts s₅ (true, 1) s₆ := ⟨_, _, rfl, rfl⟩
  have c₁ : Clear s₀ false := .of_testing rfl
  have c₂ : Clear s₁ true := .of_testing rfl
  have c₃ : Clear s₂ false := .of_opening rfl (by decide)
  have c₄ : Clear s₃ true := .of_opening rfl (by decide)
  have c₅ : Clear s₄ false := .of_writing rfl
  have c₆ : Clear s₅ true := .of_writing rfl
  have hr : Run (Step parts) s₀ [(false, 0), (true, 0), (false, 0), (true, 0), (false, 1), (true, 1)] s₆ :=
    .cons h₁ (.cons h₂ (.cons h₃ (.cons h₄ (.cons h₅ (.single h₆)))))
  have hs : ∀ k, (s₆.phase k).result = some (.ok true) := by decide
  refine ⟨_, s₆, hr, hs, (lossless_iff hr hs).mpr ?_⟩
  exact .cons ⟨c₁, h₁⟩ (.cons ⟨c₂, h₂⟩ (.cons ⟨c₃, h₃⟩ (.cons ⟨c₄, h₄⟩ (.cons ⟨c₅, h₅⟩ (.single ⟨c₆, h₆⟩)))))

-- Both names are tested before one of the files is created.
theorem not_lossless : ¬∀ (ι : Type) [DecidableEq ι] [Finite ι] (parts : ι → Part) (folder : Folder)
    (tr : List (ι × Nat)) (s : State ι), Run (Step parts) (init parts folder) tr s →
    (∀ k, (s.phase k).result = some (.ok true)) → Lossless parts folder s := by
  intro h
  let parts (k : Bool) := upload "a.txt" (if k then "2" else "1")
  let name := Bytes.ofString "a.txt"
  let first := (emptyFolder.insertFile name []).write name (Bytes.ofString "1")
  let second := (first.insertFile name []).write name (Bytes.ofString "2")
  let s₀ := init parts emptyFolder
  let s₁ := s₀.set false emptyFolder (.opening name)
  let s₂ := s₁.set true emptyFolder (.opening name)
  let s₃ := s₂.set false (emptyFolder.insertFile name []) (.writing name 0)
  let s₄ := s₃.set false first (.saved name)
  let s₅ := s₄.set true (first.insertFile name []) (.writing name 0)
  let s₆ := s₅.set true second (.saved name)
  have h₁ : Step parts s₀ (false, 0) s₁ := ⟨_, _, rfl, rfl⟩
  have h₂ : Step parts s₁ (true, 0) s₂ := ⟨_, _, rfl, rfl⟩
  have h₃ : Step parts s₂ (false, 0) s₃ := ⟨_, _, rfl, rfl⟩
  have h₄ : Step parts s₃ (false, 1) s₄ := ⟨_, _, rfl, rfl⟩
  have h₅ : Step parts s₄ (true, 0) s₅ := ⟨_, _, rfl, rfl⟩
  have h₆ : Step parts s₅ (true, 1) s₆ := ⟨_, _, rfl, rfl⟩
  obtain ⟨name', _, hn, _⟩ := h Bool parts emptyFolder _ s₆
    (.cons h₁ (.cons h₂ (.cons h₃ (.cons h₄ (.cons h₅ (.single h₆)))))) (by decide)
  have hl : second.entries.lookup (name' false) = some (.file (Bytes.ofString "1")) := (hn false).2
  have hf : first = emptyFolder.insertFile name (Bytes.ofString "1") := write_insertFile _
  have hsec : second = first.insertFile name (Bytes.ofString "2") := write_insertFile _
  rw [hsec] at hl
  by_cases he : name' false = cName name
  case pos =>
    rw [he, lookup_insertFile] at hl
    exact absurd hl (by decide)
  case neg =>
    rw [lookup_insertFile_of_ne he, hf, lookup_insertFile_of_ne he] at hl
    simp at hl

end Two

section Alone

-- The trace consists of steps of one of the calls.
def Alone (k : ι) (tr : List (ι × Nat)) : Prop :=
  ∀ e ∈ tr, e.1 = k

omit [DecidableEq ι] in
theorem Alone.append (h : Alone k tr) (h' : Alone k tr') : Alone k (tr ++ tr') :=
  fun e he => (List.mem_append.mp he).elim (h e) (h' e)

theorem Step.test (h : s.phase k = .testing count name) : Step parts s (k, n)
    (s.set k s.folder (test (lastComponent (parts k).filename) s.folder count name)) :=
  ⟨_, _, by rw [h]; rfl, rfl⟩

theorem Step.openFile (h : s.phase k = .opening name) (ho : s.folder.openFile name = some folder) :
    Step parts s (k, n) (s.set k folder (.writing name 0)) :=
  ⟨_, _, by rw [h, next, ho], rfl⟩

theorem Step.refuse (h : s.phase k = .opening name) (ho : s.folder.openFile name = none) :
    Step parts s (k, n) (s.set k s.folder .refused) :=
  ⟨_, _, by rw [h, next, ho], rfl⟩

theorem Step.write (h : s.phase k = .writing name 0) :
    Step parts s (k, (parts k).data.length) (s.set k (s.folder.write name (parts k).data) (.saved name)) := by
  refine ⟨_, _, ?_, rfl⟩
  rw [h, next]
  simp [Folder.write]

@[simp]
theorem set_set : (s.set k folder phase).set k folder' phase' = s.set k folder' phase' := by
  simp [State.set]

def Phase.ofChoice : Except Failure Bytes → Phase
  | .error f => .failed f
  | .ok name => .opening name

-- The tests of a call that runs alone come to the choice of `saveFile`.
theorem exists_tests (count : Nat) (name : Bytes) (s : State ι) (h : s.phase k = .testing count name) : ∃ tr, Alone k tr ∧
    Run (Step parts) s tr (s.set k s.folder (.ofChoice (s.folder.choose (lastComponent (parts k).filename) count name))) := by
  let filename := lastComponent (parts k).filename
  have last (he : test filename s.folder count name = .ofChoice (s.folder.choose filename count name)) : ∃ tr, Alone k tr ∧
      Run (Step parts) s tr (s.set k s.folder (.ofChoice (s.folder.choose filename count name))) :=
    ⟨[(k, 0)], by simp [Alone], .single (he ▸ .test h)⟩
  cases he : s.folder.fileExists name with
  | error e => exact last (by rw [test, choose, he]; rfl)
  | ok b    =>
    cases b with
    | false => exact last (by rw [test, choose, he]; rfl)
    | true  =>
      by_cases hl : count + 1 < 2 ^ 31
      case neg => exact last (by rw [test, choose, he]; simp only [if_neg hl, Phase.ofChoice])
      case pos =>
        cases hr : renamed filename (count + 1) with
        | error e => exact last (by rw [test, choose, he]; simp only [if_pos hl, hr, Phase.ofChoice])
        | ok c    =>
          have ht : test filename s.folder count name = .testing (count + 1) c := by
            rw [test, he]
            simp only [if_pos hl, hr]
          have hc : s.folder.choose filename count name = s.folder.choose filename (count + 1) c := by
            rw [choose, he]
            simp only [if_pos hl, hr]
          have hs : Step parts s (k, 0) (s.set k s.folder (.testing (count + 1) c)) := ht ▸ .test h
          obtain ⟨tr, ha, hr⟩ := exists_tests (count + 1) c (s.set k s.folder _) set_phase_self
          rw [set_set, set_folder] at hr
          exact ⟨(k, 0) :: tr, List.forall_mem_cons.mpr ⟨rfl, ha⟩, hc ▸ .cons hs hr⟩
termination_by 2 ^ 31 - count

-- A call that runs alone does what `saveFile` does.
theorem exists_run (h : s.phase k = start (parts k)) : ∃ tr s' r, Alone k tr ∧ Run (Step parts) s tr s' ∧
    (s'.phase k).result = some r ∧ saveFile (parts k) (some s.folder) = r.map fun b => (b, some s'.folder) := by
  by_cases hn : lastComponent (parts k).filename = []
  case pos =>
    rw [start, if_pos hn] at h
    refine ⟨[], s, .ok false, by simp [Alone], .nil, by rw [h]; rfl, ?_⟩
    rw [saveFile, if_pos hn]
    rfl
  case neg =>
    rw [start, if_neg hn] at h
    obtain ⟨tr, ha, hr⟩ := exists_tests 0 _ s h
    cases hc : s.folder.choose (lastComponent (parts k).filename) 0 (lastComponent (parts k).filename) with
    | error f =>
      rw [hc] at hr
      refine ⟨tr, _, .error f, ha, hr, by rw [set_phase_self]; rfl, ?_⟩
      simp [saveFile, hn, hc, bind, Except.bind, Except.map]
    | ok name =>
      rw [hc] at hr
      have hm : (s.set k s.folder (.opening name)).phase k = .opening name := set_phase_self
      rcases openFile_cases s.folder name with ho | ho
      · have hs : Step parts _ (k, 0) _ := .refuse hm ho
        rw [set_set, set_folder] at hs
        refine ⟨tr ++ [(k, 0)], _, .ok false, ha.append (by simp [Alone]), hr.append (.single hs), ?_, ?_⟩
        · rw [set_phase_self]
          rfl
        · simp [saveFile, hn, hc, ho, bind, Except.bind, pure, Except.pure, Except.map]
      · have ho' : Step parts _ (k, 0) _ := .openFile hm ho
        rw [set_set] at ho'
        have hp : (s.set k (s.folder.insertFile name []) (.writing name 0)).phase k = .writing name 0 := set_phase_self
        have hw : Step parts _ _ _ := .write hp
        rw [set_set, set_folder, write_insertFile] at hw
        refine ⟨tr ++ [(k, 0), (k, (parts k).data.length)], _, .ok true, ha.append (by simp [Alone]), hr.append (.cons ho' (.single hw)), ?_, ?_⟩
        · rw [set_phase_self]
          rfl
        · simp [saveFile, hn, hc, ho, bind, Except.bind, pure, Except.pure, Except.map, write_insertFile]

end Alone

end YNet.Uploads
