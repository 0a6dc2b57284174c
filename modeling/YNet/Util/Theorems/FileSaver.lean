import YNet.Util.FileSaver

namespace YNet

variable {folder folder' : Folder} {filename name : Bytes} {count j k : Nat}

-- The names that are tried, one after the other.
def candidate (filename : Bytes) : Nat → Option Bytes
  | 0         => some filename
  | count + 1 => (renamed filename (count + 1)).toOption

theorem rfindDot_eq_none_iff : rfindDot filename = none ↔ Ascii.dot ∉ filename := by
  simp only [rfindDot, Option.map_eq_none_iff, List.findIdx?_eq_none_iff, List.mem_reverse, decide_eq_false_iff_not]
  exact ⟨fun h hm => h _ hm rfl, fun h b hb he => h (he ▸ hb)⟩

theorem rfindDot_lt (h : rfindDot filename = some dot) : dot < filename.length := by
  have ⟨i, hi, he⟩ := Option.map_eq_some_iff.mp h
  have hl := (List.findIdx?_eq_some_iff_getElem.mp hi).1
  rw [List.length_reverse] at hl
  omega

theorem renamed_of_not_mem (h : Ascii.dot ∉ filename) (count : Nat) : renamed filename count = .error .outOfRange := by
  rw [renamed, rfindDot_eq_none_iff.mpr h]

def suffix (count : Nat) : Bytes :=
  Bytes.ofString "_" ++ Cpp.natToString count

-- The number stands in front of the last dot.
theorem exists_renamed (h : Ascii.dot ∈ filename) :
    ∃ stem ext, filename = stem ++ ext ∧ ∀ count, renamed filename count = .ok (stem ++ (suffix count ++ ext)) := by
  cases hd : rfindDot filename with
  | none     => exact absurd h (rfindDot_eq_none_iff.mp hd)
  | some dot =>
    have hl := rfindDot_lt hd
    refine ⟨filename.take dot, filename.drop dot, (List.take_append_drop ..).symm, fun count => ?_⟩
    simp only [renamed, hd, Bytes.substr_of_le (Nat.zero_le _), Bytes.substrFrom_of_le hl.le, bind, Except.bind,
      List.drop_zero, Cpp.toString_natCast, suffix, List.append_assoc]
    rfl

theorem not_mem_suffix (h : c ∉ Bytes.ofString "_") (hd : ¬Cpp.isdigit c) : c ∉ suffix count := by
  rw [suffix, List.mem_append, not_or]
  exact ⟨h, fun hm => hd (Cpp.natToString_digits c hm)⟩

theorem suffix_injective : Function.Injective suffix :=
  fun _ _ h => Cpp.natToString_injective (List.append_cancel_left h)

theorem length_suffix_le (h : j ≤ k) : (suffix j).length ≤ (suffix k).length := by
  simpa [suffix] using Cpp.length_natToString_le h

theorem candidate_of_not_mem (h : Ascii.dot ∉ filename) (hc : candidate filename k = some name) : k = 0 := by
  cases k with
  | zero   => rfl
  | succ k => rw [candidate, renamed_of_not_mem h] at hc; cases hc

namespace Folder

def Free (folder : Folder) (name : Bytes) : Prop :=
  ¬folder.TooLong name ∧ ¬folder.Has name

def Taken (folder : Folder) (name : Bytes) : Prop :=
  ¬folder.TooLong name ∧ folder.Has name

theorem fileExists_of_free (h : folder.Free name) : folder.fileExists name = .ok false := by
  rw [fileExists, if_neg h.1]
  simp [h.2]

theorem fileExists_of_taken (h : folder.Taken name) : folder.fileExists name = .ok true := by
  rw [fileExists, if_neg h.1]
  simp [h.2]

theorem fileExists_cases (folder : Folder) (name : Bytes) :
    folder.TooLong name ∧ folder.fileExists name = .error .filesystemError ∨ folder.Free name ∨ folder.Taken name := by
  by_cases ht : folder.TooLong name
  case pos => exact .inl ⟨ht, if_pos ht⟩
  case neg =>
    by_cases hh : folder.Has name
    case pos => exact .inr (.inr ⟨ht, hh⟩)
    case neg => exact .inr (.inl ⟨ht, hh⟩)

-- Whether one of the names from a number on is free, and those in front of it are taken.
def Finds (folder : Folder) (filename : Bytes) (count : Nat) (name : Bytes) : Prop :=
  ∃ k, count ≤ k ∧ k < 2 ^ 31 ∧ candidate filename k = some name ∧ folder.Free name ∧
    ∀ j, count ≤ j → j < k → ∃ c, candidate filename j = some c ∧ folder.Taken c

theorem Free.not_taken (h : folder.Free name) : ¬folder.Taken name :=
  fun ht => h.2 ht.2

theorem finds_of_free (hk : count < 2 ^ 31) (hc : candidate filename count = some c) (h : folder.Free c) :
    folder.Finds filename count name ↔ c = name := by
  constructor
  · rintro ⟨k, hle, _, hn, _, ht⟩
    rcases Nat.eq_or_lt_of_le hle with rfl | hlt
    · exact Option.some.inj (hc.symm.trans hn)
    · have ⟨c', hc', ht⟩ := ht count le_rfl hlt
      cases hc.symm.trans hc'
      exact absurd ht h.not_taken
  · rintro rfl
    exact ⟨count, le_rfl, hk, hc, h, fun j h₁ h₂ => absurd h₂ (Nat.not_lt.mpr h₁)⟩

theorem finds_of_taken (hc : candidate filename count = some c) (h : folder.Taken c) :
    folder.Finds filename count name ↔ folder.Finds filename (count + 1) name := by
  constructor
  · rintro ⟨k, hle, hlt, hn, hf, ht⟩
    rcases Nat.eq_or_lt_of_le hle with rfl | hk
    · cases hc.symm.trans hn
      exact absurd h hf.not_taken
    · exact ⟨k, hk, hlt, hn, hf, fun j hj => ht j (Nat.le_of_succ_le hj)⟩
  · rintro ⟨k, hle, hlt, hn, hf, ht⟩
    refine ⟨k, Nat.le_of_succ_le hle, hlt, hn, hf, fun j hj hjk => ?_⟩
    rcases Nat.eq_or_lt_of_le hj with rfl | hj
    · exact ⟨c, hc, h⟩
    · exact ht j hj hjk

theorem not_finds_of_tooLong (hc : candidate filename count = some c) (h : folder.TooLong c) :
    ¬folder.Finds filename count name := by
  rintro ⟨k, hle, _, hn, hf, ht⟩
  rcases Nat.eq_or_lt_of_le hle with rfl | hlt
  · cases hc.symm.trans hn
    exact hf.1 h
  · have ⟨c', hc', ht⟩ := ht count le_rfl hlt
    cases hc.symm.trans hc'
    exact ht.1 h

theorem not_finds_of_none (hc : candidate filename count = none) : ¬folder.Finds filename count name := by
  rintro ⟨k, hle, _, hn, _, ht⟩
  rcases Nat.eq_or_lt_of_le hle with rfl | hlt
  · simp [hc] at hn
  · have ⟨c', hc', _⟩ := ht count le_rfl hlt
    simp [hc] at hc'

-- The loop comes to the first free name.
theorem choose_ok_iff (count : Nat) (c : Bytes) (hk : count < 2 ^ 31) (hc : candidate filename count = some c) :
    folder.choose filename count c = .ok name ↔ folder.Finds filename count name := by
  rw [choose]
  rcases folder.fileExists_cases c with ⟨hl, he⟩ | hf | ht
  · rw [he]
    exact iff_of_false (by simp) (not_finds_of_tooLong hc hl)
  · rw [fileExists_of_free hf, finds_of_free hk hc hf]
    dsimp only
    rw [Except.ok.injEq]
  · rw [fileExists_of_taken ht, finds_of_taken hc ht]
    dsimp only
    split
    case isFalse hlt =>
      refine iff_of_false (by simp) ?_
      rintro ⟨k, hle, hk', _⟩
      omega
    case isTrue hlt  =>
      have hcand : candidate filename (count + 1) = (renamed filename (count + 1)).toOption := rfl
      cases hr : renamed filename (count + 1) with
      | error e => exact iff_of_false (by simp) (not_finds_of_none (by rw [hcand, hr]; rfl))
      | ok c'   => exact choose_ok_iff (count + 1) c' hlt (by rw [hcand, hr]; rfl)
termination_by 2 ^ 31 - count

theorem length_cName_append_le (a b : Bytes) : (cName (a ++ b)).length ≤ a.length + (cName b).length := by
  rw [cName, List.takeWhile_append]
  split
  · rw [List.length_append, cName]
  · exact (List.takeWhile_prefix _).length_le.trans (Nat.le_add_right ..)

-- What stands in the middle can be replaced by something longer.
theorem length_cName_le {a b m m' : Bytes} (h : m.length ≤ m'.length) (hn : Ascii.nul ∉ m') :
    (cName (a ++ (m ++ b))).length ≤ (cName (a ++ (m' ++ b))).length := by
  have hm : cName (m' ++ b) = m' ++ cName b :=
    List.takeWhile_append_of_pos fun c hc => decide_eq_true fun he => hn (he ▸ hc)
  have hl : (cName (m ++ b)).length ≤ (cName (m' ++ b)).length := by
    have := length_cName_append_le m b
    rw [hm, List.length_append]
    omega
  simp only [cName, List.takeWhile_append] at hl ⊢
  split
  · simp only [List.length_append]
    exact Nat.add_le_add_left hl _
  · exact le_rfl

-- The names get longer and longer.
theorem candidate_of_le (hc : candidate filename k = some name) (h : j ≤ k) :
    ∃ c, candidate filename j = some c ∧ (cName c).length ≤ (cName name).length := by
  by_cases hd : Ascii.dot ∈ filename
  case neg =>
    cases candidate_of_not_mem hd hc
    cases Nat.le_zero.mp h
    exact ⟨name, hc, le_rfl⟩
  case pos =>
    obtain ⟨stem, ext, he, hr⟩ := exists_renamed hd
    have hn : Ascii.nul ∉ suffix k := not_mem_suffix (by decide) (by decide)
    cases k with
    | zero   =>
      cases Nat.le_zero.mp h
      exact ⟨name, hc, le_rfl⟩
    | succ k =>
      rw [candidate, hr] at hc
      cases hc
      cases j with
      | zero   => exact ⟨filename, rfl, he ▸ length_cName_le (m := []) (Nat.zero_le _) hn⟩
      | succ j => exact ⟨_, by rw [candidate, hr]; rfl, length_cName_le (length_suffix_le h) hn⟩

-- A name is found if any of the names is free.
theorem finds_iff : (∃ name, folder.Finds filename 0 name) ↔
    ∃ k < 2 ^ 31, ∃ name, candidate filename k = some name ∧ folder.Free name := by
  constructor
  · rintro ⟨name, k, _, hk, hc, hf, _⟩
    exact ⟨k, hk, name, hc, hf⟩
  · intro h
    classical
    obtain ⟨hk, name, hc, hf⟩ := Nat.find_spec h
    refine ⟨name, Nat.find h, Nat.zero_le _, hk, hc, hf, fun j _ hj => ?_⟩
    obtain ⟨c, hcj, hl⟩ := candidate_of_le hc hj.le
    have ht : ¬folder.TooLong c := fun ht => hf.1 (by unfold TooLong at ht ⊢; omega)
    refine ⟨c, hcj, ht, not_not.mp fun hh => Nat.find_min h hj ⟨by omega, c, hcj, ht, hh⟩⟩

theorem length_suffix (hk : k ≠ 0) (h : k < 2 ^ 31) : (suffix k).length ≤ 11 := by
  have hd : (Nat.digits 10 k).length ≤ 10 := (Nat.digits_length_le_iff (by decide) k).mpr (by omega)
  have hs : (Bytes.ofString "_").length = 1 := by decide
  rw [suffix, Cpp.natToString, if_neg hk, List.length_append, List.length_reverse, List.length_map]
  omega

-- One more name is tried than there are files, and the names are different.
theorem exists_free (hd : Ascii.dot ∈ filename) (hn : Ascii.nul ∉ filename) (hl : filename.length ≤ 244)
    (hp : folder.path.length + filename.length ≤ 4083) (hc : folder.entries.keys.card + 1 < 2 ^ 31) :
    ∃ k < 2 ^ 31, ∃ name, candidate filename k = some name ∧ folder.Free name := by
  obtain ⟨stem, ext, he, hr⟩ := exists_renamed hd
  obtain ⟨k, hk, hf⟩ : ∃ k ∈ Finset.Icc 1 (folder.entries.keys.card + 1),
      stem ++ (suffix k ++ ext) ∉ folder.entries.keys := by
    by_contra! h
    have hi : Set.InjOn (fun k => stem ++ (suffix k ++ ext)) (Finset.Icc 1 (folder.entries.keys.card + 1)) :=
      fun _ _ _ _ h => suffix_injective (List.append_cancel_right (List.append_cancel_left h))
    have := Finset.card_le_card_of_injOn _ h hi
    simp at this
  rw [Finset.mem_Icc] at hk
  have hk' : k < 2 ^ 31 := by omega
  have hlen : (stem ++ (suffix k ++ ext)).length ≤ filename.length + 11 := by
    have := length_suffix (by omega) hk'
    simp only [he, List.length_append]
    omega
  have hcn : cName (stem ++ (suffix k ++ ext)) = stem ++ (suffix k ++ ext) := by
    have hs : Ascii.nul ∉ suffix k := not_mem_suffix (by decide) (by decide)
    refine List.takeWhile_eq_self_iff.mpr fun c hc => decide_eq_true fun hnul => ?_
    simp_all
  have hu : 0x5F ∈ stem ++ (suffix k ++ ext) := by
    have : (0x5F : UInt8) ∈ suffix k := List.mem_append_left _ (by decide)
    simp [this]
  refine ⟨k, hk', stem ++ (suffix k ++ ext), ?_, ?_, ?_⟩
  · obtain ⟨k, rfl⟩ := Nat.exists_eq_succ_of_ne_zero (Nat.one_le_iff_ne_zero.mp hk.1)
    rw [candidate, hr]
    rfl
  · unfold TooLong
    rw [hcn]
    omega
  · simp only [Has, hcn]
    rintro (h | h | h | h)
    · simp [h] at hu
    · exact absurd (h ▸ hu) (by decide)
    · exact absurd (h ▸ hu) (by decide)
    · exact hf (Finmap.mem_keys.mpr h)

-- A name of a file that is right inside of a directory.
def IsChild (name : Bytes) : Prop :=
  name ≠ [] ∧ name ≠ [Ascii.dot] ∧ name ≠ [Ascii.dot, Ascii.dot] ∧ Ascii.slash ∉ name ∧ Ascii.nul ∉ name

-- One new file is in the directory.
def Saved (folder folder' : Folder) (data : Bytes) : Prop :=
  folder'.path = folder.path ∧ ∃ name, IsChild name ∧ name ∉ folder.entries ∧
    folder'.entries.lookup name = some (.file data) ∧ ∀ n ≠ name, folder'.entries.lookup n = folder.entries.lookup n

theorem slash_not_mem_lastComponent (path : Bytes) : Ascii.slash ∉ lastComponent path := by
  rw [lastComponent, List.mem_reverse]
  intro h
  simpa using List.mem_takeWhile_imp h

theorem slash_not_mem_candidate (h : Ascii.slash ∉ filename) (hc : candidate filename k = some name) :
    Ascii.slash ∉ name := by
  cases k with
  | zero   => exact Option.some.inj hc ▸ h
  | succ k =>
    have hd : Ascii.dot ∈ filename := not_not.mp fun hd => by cases candidate_of_not_mem hd hc
    obtain ⟨stem, ext, he, hr⟩ := exists_renamed hd
    rw [candidate, hr] at hc
    cases hc
    have hs : Ascii.slash ∉ suffix (k + 1) := not_mem_suffix (by decide) (by decide)
    simp_all

theorem Free.isChild (h : folder.Free name) (hs : Ascii.slash ∉ name) : IsChild (cName name) := by
  obtain ⟨hn, hd, hdd, _⟩ := by simpa only [Has, not_or] using h.2
  refine ⟨hn, hd, hdd, fun hm => hs ((List.takeWhile_sublist _).subset hm), fun hm => ?_⟩
  simpa using List.mem_takeWhile_imp hm

theorem Free.not_mem (h : folder.Free name) : cName name ∉ folder.entries :=
  fun hm => h.2 (.inr (.inr (.inr hm)))

def insertFile (folder : Folder) (name data : Bytes) : Folder :=
  { folder with entries := folder.entries.insert (cName name) (.file data) }

-- A free name is opened.
theorem Free.openFile (h : folder.Free name) (hw : folder.writable) :
    folder.openFile name = some (folder.insertFile name []) := by
  have hl := Finmap.lookup_eq_none.mpr h.not_mem
  exact if_pos ⟨hw, by simp [hl]⟩

theorem lookup_insertFile : (folder.insertFile name data).entries.lookup (cName name) = some (.file data) :=
  Finmap.lookup_insert _

theorem lookup_insertFile_of_ne (h : n ≠ cName name) :
    (folder.insertFile name data).entries.lookup n = folder.entries.lookup n :=
  Finmap.lookup_insert_of_ne _ h

theorem insertFile_of_lookup (h : folder.entries.lookup (cName name) = some (.file data)) :
    folder.insertFile name data = folder := by
  have : folder.entries.insert (cName name) (.file data) = folder.entries := by
    refine Finmap.ext_lookup fun n => ?_
    by_cases hn : n = cName name
    case pos => rw [hn, h, Finmap.lookup_insert]
    case neg => rw [Finmap.lookup_insert_of_ne _ hn]
  rw [insertFile, this]

theorem mem_insertFile : n ∈ (folder.insertFile name data).entries ↔ n = cName name ∨ n ∈ folder.entries :=
  Finmap.mem_insert

theorem mem_writeAt (h : n ∈ (folder.writeAt name pos chunk).entries) : n ∈ folder.entries := by
  unfold writeAt at h
  split at h
  case h_1 hl =>
    split at h
    · exact h
    · rcases Finmap.mem_insert.mp h with rfl | h
      · exact Finmap.mem_of_lookup_eq_some hl
      · exact h
  case h_2 => exact h

-- A file is written chunk by chunk.
theorem writeAt_of_lookup (h : folder.entries.lookup (cName name) = some (.file old)) (chunk : Bytes) :
    folder.writeAt name old.length chunk = folder.insertFile name (old ++ chunk) := by
  simp only [writeAt, h, Nat.sub_self, List.replicate_zero, List.append_nil, List.take_length]
  split
  case isTrue hc => rw [hc, List.append_nil, insertFile_of_lookup h]
  case isFalse   => rw [List.drop_eq_nil_of_le (Nat.le_add_right ..), List.append_nil, insertFile]

theorem write_insertFile (data : Bytes) : (folder.insertFile name []).write name data = folder.insertFile name data := by
  have hl : (folder.insertFile name []).entries.lookup (cName name) = some (.file []) := lookup_insertFile
  have hw := writeAt_of_lookup hl data
  rw [write, ← List.length_nil, hw, insertFile, insertFile, insertFile, Finmap.insert_insert, List.nil_append]

theorem Free.saved (h : folder.Free name) (hs : Ascii.slash ∉ name) (data : Bytes) :
    folder.Saved (folder.insertFile name data) data :=
  ⟨rfl, cName name, h.isChild hs, h.not_mem, Finmap.lookup_insert _, fun _ hn => Finmap.lookup_insert_of_ne _ hn⟩

end Folder

theorem saveFile_of_free (hw : folder.writable) (hn : lastComponent part.filename ≠ [])
    (hc : folder.choose (lastComponent part.filename) 0 (lastComponent part.filename) = .ok name)
    (hf : folder.Free name) : saveFile part (some folder) = .ok (true, some (folder.insertFile name part.data)) := by
  simp [saveFile, hn, hc, hf.openFile hw, bind, Except.bind, pure, Except.pure, Folder.write_insertFile]

-- A second file with the same name is not saved if there is no dot in the name.
theorem saveFile_of_not_mem (hn : lastComponent part.filename ≠ []) (hd : Ascii.dot ∉ lastComponent part.filename)
    (ht : folder.Taken (lastComponent part.filename)) :
    saveFile part (some folder) = .error (.thrown .outOfRange) := by
  have hc : folder.choose (lastComponent part.filename) 0 (lastComponent part.filename) = .error (.thrown .outOfRange) := by
    rw [Folder.choose, Folder.fileExists_of_taken ht]
    simp [renamed_of_not_mem hd]
  simp [saveFile, hn, hc, bind, Except.bind]

-- A part is saved beside the files of a directory if and only if one of the names for it is free.
theorem saveFile_iff (hw : folder.writable) (hn : lastComponent part.filename ≠ []) :
    (∃ folder', saveFile part (some folder) = .ok (true, some folder') ∧ folder.Saved folder' part.data) ↔
    ∃ k < 2 ^ 31, ∃ name, candidate (lastComponent part.filename) k = some name ∧ folder.Free name := by
  rw [← Folder.finds_iff]
  constructor
  · rintro ⟨folder', h, _⟩
    cases hc : folder.choose (lastComponent part.filename) 0 (lastComponent part.filename) with
    | error e => simp [saveFile, hn, hc, bind, Except.bind] at h
    | ok name => exact ⟨name, (Folder.choose_ok_iff 0 _ (by omega) rfl).mp hc⟩
  · rintro ⟨name, hf⟩
    have hc := (Folder.choose_ok_iff 0 _ (by omega) rfl).mpr hf
    obtain ⟨k, _, _, hk, hf, _⟩ := hf
    exact ⟨_, saveFile_of_free hw hn hc hf, hf.saved (Folder.slash_not_mem_candidate (Folder.slash_not_mem_lastComponent _) hk) _⟩

def upload (filename data : String) : Part where
  name        := Bytes.ofString "file"
  filename    := Bytes.ofString filename
  contentType := Bytes.ofString "text/plain"
  dataPos     := 0
  data        := Bytes.ofString data

theorem saveFile_iff_collision :
    let part := upload "../a.txt" "2"
    let folder : Folder := { path := Bytes.ofString "/srv", entries := .singleton (Bytes.ofString "a.txt") (.file []) }
    ∃ folder', saveFile part (some folder) = .ok (true, some folder') ∧ folder.Saved folder' part.data := by
  intro part folder
  have hc : candidate (lastComponent part.filename) 1 = some (Bytes.ofString "a_1.txt") := by decide
  refine (saveFile_iff rfl (by decide)).mpr ⟨1, by omega, Bytes.ofString "a_1.txt", hc, by decide, ?_⟩
  simp only [Folder.Has, folder, Finmap.mem_singleton]
  decide

theorem not_saveFile_saved : ¬∀ (part : Part) (folder : Folder), folder.writable → lastComponent part.filename ≠ [] →
    ∃ folder', saveFile part (some folder) = .ok (true, some folder') ∧ folder.Saved folder' part.data := by
  intro h
  let part := upload "README" "2"
  let folder : Folder := { path := Bytes.ofString "/srv", entries := .singleton (Bytes.ofString "README") (.file []) }
  have ht : folder.Taken (Bytes.ofString "README") := ⟨by decide, .inr (.inr (.inr ((Finmap.mem_singleton ..).mpr (by decide))))⟩
  obtain ⟨_, hs, _⟩ := h part folder rfl (by decide)
  cases hs.symm.trans (saveFile_of_not_mem (by decide) (by decide) ht)

end YNet
