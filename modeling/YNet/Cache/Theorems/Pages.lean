import YNet.Cache.Pages
import YNet.Cache.Theorems.Loads
import YNet.Cache.Theorems.Rendering

namespace YNet.Cache

variable {files : Bytes → Option File} {policy : CachePolicy} {maxEntries : Nat} {tr tr' : List Act}

section Calls

theorem phase_of_call (h : Step policy maxEntries s (.call k f) s') : s.phase k = .idle ∧ s'.phase k ≠ .idle := by
  cases h with
  | call hk => exact ⟨hk, by simp⟩

theorem update_ne_idle {phase : Nat → Phase} {p : Phase} (h : phase k ≠ .idle) (hp : p ≠ .idle) :
    Function.update phase j p k ≠ .idle := by
  by_cases hk : k = j
  case pos => simpa [hk] using hp
  case neg => rwa [Function.update_of_ne hk]

theorem not_idle_of_step (h : Step policy maxEntries s e s') (hk : s.phase k ≠ .idle) : s'.phase k ≠ .idle := by
  cases h with
  | tick | write | clear => exact hk
  | _                    => exact update_ne_idle hk nofun

theorem not_idle_of_call (h : Run (Step policy maxEntries) (.start files) tr s) (hc : .call k f ∈ tr) :
    s.phase k ≠ .idle := by
  refine h.history (I := fun tr s => .call k f ∈ tr → s.phase k ≠ .idle) (by simp) ?_ hc
  intro tr s e s' _ hs hi hc
  rcases List.mem_append.mp hc with hc | hc
  · exact not_idle_of_step hs (hi hc)
  · exact (phase_of_call (List.mem_singleton.mp hc ▸ hs)).2

-- Each call is made once.
theorem call_unique (h : Run (Step policy maxEntries) (.start files) tr s) (hf : .call k f ∈ tr) (hg : .call k g ∈ tr) :
    f = g := by
  refine h.history (I := fun tr _ => .call k f ∈ tr → .call k g ∈ tr → f = g) (by simp) ?_ hf hg
  intro tr s e s' hr hs hi hf hg
  rcases List.mem_append.mp hf with hf | hf <;> rcases List.mem_append.mp hg with hg | hg
  · exact hi hf hg
  · rw [← List.mem_singleton.mp hg] at hs
    exact absurd (phase_of_call hs).1 (not_idle_of_call hr hf)
  · rw [← List.mem_singleton.mp hf] at hs
    exact absurd (phase_of_call hs).1 (not_idle_of_call hr hg)
  · cases (List.mem_singleton.mp hf).trans (List.mem_singleton.mp hg).symm
    rfl

theorem mem_of_saw (h : Saw files tr k f content) : .call k f ∈ tr := by
  obtain ⟨tr₁, tr₂, tr₃, _, ht, _⟩ := h
  rw [ht]
  simp

end Calls

namespace Pages

variable {α : Type} {moves : List (Move α)} {s s' : Pages α} {page : Loading α}

theorem setPage_pages_self {p : Progress α} : (s.setPage r p).pages r = p :=
  Function.update_self ..

theorem setPage_pages_of_ne {p : Progress α} (h : q ≠ r) : (s.setPage r p).pages q = s.pages q :=
  Function.update_of_ne h ..

-- For the cache, the pages are nothing but their calls.
theorem Step.cache_run (h : Step policy maxEntries s m s') :
    Run (Cache.Step policy maxEntries) s.cache (acts m) s'.cache := by
  cases h with
  | cache h _ _ => exact .single h
  | call _ h    => exact .single h
  | ret _ h     => exact .single h
  | _           => exact .nil

theorem cache_run (h : Run (Step policy maxEntries) s moves s') :
    Run (Cache.Step policy maxEntries) s.cache (moves.flatMap acts) s'.cache := by
  induction h with
  | nil          => exact .nil
  | cons hs _ hi => exact hs.cache_run.append hi

-- What a path has named at some moment after the actions in `tr`.
def SawSince (files : Bytes → Option File) (tr tr' : List Act) (f : Bytes) (x : Except Failure Bytes) : Prop :=
  ∃ tr₁ tr₂, tr' = tr₁ ++ tr₂ ∧ x = readFile (fileAt files (tr ++ tr₁)) f

theorem SawSince.append (h : SawSince files tr tr' f x) : SawSince files tr (tr' ++ tr'') f x := by
  obtain ⟨tr₁, tr₂, ht, hx⟩ := h
  exact ⟨tr₁, tr₂ ++ tr'', by simp [ht], hx⟩

theorem sawSince_of_saw (h : Saw files (tr ++ tr') k f content) (hk : ∀ g, .call k g ∉ tr) :
    SawSince files tr tr' f (.ok content) := by
  obtain ⟨tr₁, tr₂, tr₃, mtime, ht, hfile⟩ := h
  rcases List.append_eq_append_iff.mp ht with ⟨tr₄, ht, htr⟩ | ⟨tr₄, ht, _⟩
  · refine ⟨tr₄, tr₃, htr, ?_⟩
    rw [← ht, readFile, hfile]
    rfl
  · exact absurd (by simp [ht]) (hk f)

-- How far a page has come that has been started after the actions in `tr`.
def Progress.Since (files : Bytes → Option File) (tr tr' : List Act) (page : Loading α) : Progress α → Prop
  | .idle           => False
  | .running t      => page.Leads (SawSince files tr tr') t
  | .loading k rest =>
    ∃ f, page.Leads (SawSince files tr tr') (.ask f rest) ∧ .call k f ∈ tr ++ tr' ∧ ∀ g, .call k g ∉ tr
  | .finished       => True

theorem Progress.Since.append {p : Progress α} (h : Progress.Since files tr tr' page p) :
    Progress.Since files tr (tr' ++ tr'') page p := by
  cases p with
  | idle           => exact h
  | running t      => exact Inquiry.Leads.mono h fun _ _ => SawSince.append
  | loading k rest =>
    obtain ⟨f, hl, hc, hk⟩ := h
    exact ⟨f, hl.mono fun _ _ => SawSince.append, List.append_assoc tr tr' tr'' ▸ List.mem_append_left _ hc, hk⟩
  | finished       => trivial

theorem Progress.Since.setPage {p : Progress α} (h : Progress.Since files tr tr' page (s.pages q))
    (hp : q = r → Progress.Since files tr (tr' ++ tr'') page p) :
    Progress.Since files tr (tr' ++ tr'') page ((s.setPage r p).pages q) := by
  by_cases hq : q = r
  case pos =>
    subst hq
    rw [setPage_pages_self]
    exact hp rfl
  case neg =>
    rw [setPage_pages_of_ne hq]
    exact h.append

-- A page goes on with what its call returns, which is what the path has named since the page was started.
theorem Step.since (hs : Step policy maxEntries s m s')
    (hr : Run (Cache.Step policy maxEntries) (.start files) (tr ++ tr') s.cache) (hf : FreshStamps files (tr ++ tr'))
    (h : Progress.Since files tr tr' page (s.pages q)) :
    Progress.Since files tr (tr' ++ acts m) page (s'.pages q) := by
  have hi := Inv.of_run hr hf
  cases hs with
  | cache => exact h.append
  | start hp =>
    refine h.setPage fun hq => ?_
    rw [hq, hp] at h
    exact h.elim
  | call hp hs =>
    refine h.setPage fun hq => ?_
    rw [hq, hp] at h
    exact ⟨_, Inquiry.Leads.mono h fun _ _ => SawSince.append, by simp [acts],
      fun g hg => not_idle_of_call hr (List.mem_append_left _ hg) (phase_of_call hs).1⟩
  | ret hp hs =>
    refine h.setPage fun hq => ?_
    rw [hq, hp] at h
    obtain ⟨g, hl, hc, hk⟩ := h
    have hsaw := hi.saw hs
    cases call_unique hr hc (mem_of_saw hsaw)
    exact (hl.answer (sawSince_of_saw hsaw hk)).mono fun _ _ => SawSince.append
  | fail hp hn _ =>
    refine h.setPage fun hq => ?_
    rw [hq, hp] at h
    refine Inquiry.Leads.mono (Inquiry.Leads.fail h ⟨tr', [], by simp, ?_⟩) fun _ _ => SawSince.append
    rw [readFile, ← hi.file, hn]
    rfl
  | finish | raise => exact h.setPage fun _ => trivial

theorem since_of_run (h : Run (Step policy maxEntries) m moves s)
    (hr : Run (Cache.Step policy maxEntries) (.start files) tr m.cache)
    (hf : FreshStamps files (tr ++ moves.flatMap acts)) (hp : m.pages r = .running page) :
    Progress.Since files tr (moves.flatMap acts) page (s.pages r) := by
  refine h.history (I := fun moves s => FreshStamps files (tr ++ moves.flatMap acts) →
    Progress.Since files tr (moves.flatMap acts) page (s.pages r)) (fun _ => ?_) ?_ hf
  · rw [hp]
    exact .refl
  · intro moves s e s' h hs hi hf
    rw [List.flatMap_append, List.flatMap_singleton] at hf ⊢
    have hf : FreshStamps files (tr ++ moves.flatMap acts) := by
      rw [← List.append_assoc] at hf
      exact hf.of_append
    exact hs.since (hr.append (cache_run h)) hf (hi hf)

-- Without writes, the files stay as they are.
theorem fileAt_append (hw : ∀ f content mtime, .write f content mtime ∉ tr') :
    fileAt files (tr ++ tr') f = fileAt files tr f := by
  induction tr' using List.reverseRecOn with
  | nil                      => rw [List.append_nil]
  | append_singleton tr' e hi =>
    rw [← List.append_assoc, fileAt_concat]
    cases hw' : writeOf f e with
    | none      => exact hi fun g content mtime hg => hw g content mtime (List.mem_append_left _ hg)
    | some file => exact absurd (by simp [writeOf_eq_some hw']) (hw f file.content file.mtime)

theorem cache_mem_of_write (h : .write f content mtime ∈ moves.flatMap acts) :
    .cache (.write f content mtime) ∈ moves := by
  obtain ⟨m, hm, ha⟩ := List.mem_flatMap.mp h
  cases m with
  | cache a => exact List.mem_singleton.mp ha ▸ hm
  | _       => simp [acts] at ha

theorem result_eq (h : Run (Step policy maxEntries) (.start files) (pre ++ .start r page :: moves ++ [.finish r x]) s)
    (hf : FreshStamps files (List.flatMap acts (pre ++ .start r page :: moves ++ [.finish r x])))
    (hw : ∀ f content mtime, .cache (.write f content mtime) ∉ moves) : x = page.run (readFile s.cache.files) := by
  obtain ⟨m, h, hfin⟩ := Run.concat_iff.mp h
  obtain ⟨m₁, m₂, h₁, hs, h₂⟩ := Run.mid_iff.mp h
  have hr := cache_run h₁
  have hc : m₂.cache = m₁.cache ∧ m₂.pages r = .running page := by
    cases hs with
    | start => exact ⟨rfl, setPage_pages_self⟩
  have hacts : List.flatMap acts (pre ++ .start r page :: moves ++ [.finish r x]) =
      pre.flatMap acts ++ moves.flatMap acts := by
    simp [acts]
  rw [hacts] at hf
  have hsince := since_of_run h₂ (hc.1 ▸ hr) hf hc.2
  have hfiles : ∀ f, s.cache.files f = fileAt files (pre.flatMap acts ++ moves.flatMap acts) f := by
    have hi := Inv.of_run (hr.append (hc.1 ▸ cache_run h₂)) hf
    cases hfin with
    | finish | raise => exact hi.file
  -- What has been seen since the start, is what the files contain now.
  have hseen : ∀ f y, SawSince files (pre.flatMap acts) (moves.flatMap acts) f y → readFile s.cache.files f = y := by
    rintro f y ⟨tr₁, tr₂, ht, rfl⟩
    have hw : ∀ g content mtime, .write g content mtime ∉ tr₂ :=
      fun g content mtime hg => hw g content mtime (cache_mem_of_write (ht ▸ List.mem_append_right _ hg))
    rw [readFile, readFile, hfiles, ht, ← List.append_assoc, fileAt_append hw]
  cases hfin with
  | finish hp =>
    rw [hp] at hsince
    exact (Inquiry.Leads.run_eq hsince hseen).symm
  | raise hp =>
    rw [hp] at hsince
    exact (Inquiry.Leads.run_eq hsince hseen).symm

end Pages

-- A page that is made while no file is written, is made from the files as they are, whatever has been written
-- before, whatever the cache holds and whatever other pages are made at the same time.
theorem rendered_fresh {res : Response} {s : Pages Response}
    (h : Run (Pages.Step policy maxEntries) (.start files)
      (pre ++ .start r (res.render true fuel file vars) :: moves ++ [.finish r x]) s)
    (hf : FreshStamps files
      (List.flatMap Pages.acts (pre ++ .start r (res.render true fuel file vars) :: moves ++ [.finish r x])))
    (hw : ∀ f content mtime, .cache (.write f content mtime) ∉ moves) :
    x = res.html <$> TemplateEngine.render (readFile s.cache.files) fuel file vars :=
  (Pages.result_eq h hf hw).trans Response.run_render

-- A page with a partial.
def pageFiles : Bytes → Option File :=
  fun f => some { content := if f = "page" then "{{> b}}" else "x", mtime := 0 }

def page : Loading Response :=
  Response.render {} true 3 "page" (.object [])

-- A worker makes the page, and the partial is written.
def earlier : List (Pages.Move Response) :=
  [.start 1 page, .call 1 0 "page", .cache (.enter 0), .cache (.stamp 0), .cache (.miss 0), .cache (.read 0),
    .ret 1 0 "page" "{{> b}}", .call 1 1 "b", .cache (.enter 1), .cache (.stamp 1), .cache (.miss 1), .cache (.read 1),
    .ret 1 1 "b" "x", .finish 1 (.ok (Response.html {} "x"))]

-- Another one finds the page in the cache, and reads the partial again.
def later : List (Pages.Move Response) :=
  [.call 0 2 "page", .cache (.enter 2), .cache (.stamp 2), .ret 0 2 "page" "{{> b}}", .call 0 3 "b", .cache (.enter 3),
    .cache (.stamp 3), .cache (.miss 3), .cache (.read 3), .ret 0 3 "b" "y"]

theorem freshStamps_page : FreshStamps pageFiles (List.flatMap Pages.acts
    (earlier ++ [.cache (.write "b" "y" 1)] ++ .start 0 page :: later ++ [.finish 0 (.ok (Response.html {} "y"))])) := by
  simp [freshStamps_iff_each, HadStamp, pageFiles, earlier, page, later, Pages.acts]

theorem run_page : ∃ s, Run (Pages.Step LRUPolicy 2) (.start pageFiles)
    (earlier ++ [.cache (.write "b" "y" 1)] ++ .start 0 page :: later ++ [.finish 0 (.ok (Response.html {} "y"))]) s ∧
    s.cache.files = Function.update pageFiles "b" (some { content := "y", mtime := 1 }) := by
  refine ⟨_, .cons (.start rfl) <| .cons (.call rfl (.call rfl rfl)) <| .cons (.cache (.enter rfl rfl) nofun nofun) <|
    .cons (.cache (.stamp rfl rfl) nofun nofun) <| .cons (.cache (.miss rfl rfl rfl) nofun nofun) <|
    .cons (.cache (.read rfl rfl) nofun nofun) <| .cons (.ret rfl (.store rfl (.refl _))) <|
    .cons (.call rfl (.call rfl rfl)) <| .cons (.cache (.enter rfl rfl) nofun nofun) <|
    .cons (.cache (.stamp rfl rfl) nofun nofun) <| .cons (.cache (.miss rfl rfl rfl) nofun nofun) <|
    .cons (.cache (.read rfl rfl) nofun nofun) <| .cons (.ret rfl (.store rfl (.refl _))) <| .cons (.finish rfl) <|
    .cons (.cache .write nofun nofun) <| .cons (.start rfl) <|
    .cons (.call rfl (.call rfl rfl)) <| .cons (.cache (.enter rfl rfl) nofun nofun) <|
    .cons (.cache (.stamp rfl rfl) nofun nofun) <|
    .cons (.ret rfl (@Cache.Step.hit _ _ _ _ ⟨"{{> b}}", 0, 0⟩ _ _ _ rfl rfl (.refl _))) <|
    .cons (.call rfl (.call rfl rfl)) <| .cons (.cache (.enter rfl rfl) nofun nofun) <|
    .cons (.cache (.stamp rfl rfl) nofun nofun) <| .cons (.cache (.miss rfl rfl rfl) nofun nofun) <|
    .cons (.cache (.read rfl rfl) nofun nofun) <| .cons (.ret rfl (.store rfl (.refl _))) <| .single (.finish rfl), rfl⟩

theorem rendered_fresh_first : .ok (Response.html {} "y") = Response.html {} <$> TemplateEngine.render
    (readFile (Function.update pageFiles "b" (some { content := "y", mtime := 1 }))) 3 "page" (.object []) := by
  have ⟨s, h, hs⟩ := run_page
  exact hs ▸ rendered_fresh h freshStamps_page (by simp [later])

end YNet.Cache
