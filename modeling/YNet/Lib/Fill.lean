import Mathlib

-- Maps that are filled from lists of entries, where a later entry replaces an earlier one.

theorem List.lookup_of_nodup {α β : Type*} [BEq α] [LawfulBEq α] {l : List (α × β)} {e : α × β}
    (hn : (l.map Prod.fst).Nodup) (h : e ∈ l) : l.lookup e.1 = some e.2 := by
  have ⟨l₁, l₂, he⟩ := List.append_of_mem h
  rw [he, List.map_append, List.map_cons] at hn
  refine List.lookup_eq_some_iff.mpr ⟨l₁, l₂, he, fun e' he' => ?_⟩
  have hne : e.1 ≠ e'.1 := fun hk =>
    (List.nodup_append.mp hn).2.2 _ (List.mem_map_of_mem he') _ List.mem_cons_self hk.symm
  simpa using hne

namespace Finmap

variable {α : Type*} [DecidableEq α] [BEq α] [LawfulBEq α] {β : Type*}

def fill (m : Finmap fun _ : α => β) (entries : List (α × β)) : Finmap fun _ : α => β :=
  entries.foldl (fun m e => m.insert e.1 e.2) m

variable {m : Finmap fun _ : α => β} {entries : List (α × β)} {k : α} {v : β}

theorem lookup_fill : (m.fill entries).lookup k = (entries.reverse.lookup k).or (m.lookup k) := by
  induction entries generalizing m with
  | nil               => simp [fill]
  | cons e entries hi =>
    have ⟨a, b⟩ := e
    have he : m.fill ((a, b) :: entries) = (m.insert a b).fill entries := rfl
    rw [he, hi, List.reverse_cons, List.lookup_append]
    by_cases hk : k = a
    case pos =>
      subst hk
      simp
    case neg =>
      have hb : (k == a) = false := by simpa using hk
      simp [List.lookup_cons, hb, lookup_insert_of_ne _ hk]

-- With distinct keys no entry is replaced.
theorem lookup_fill_iff (h : (entries.map Prod.fst).Nodup) :
    (Finmap.fill ∅ entries).lookup k = some v ↔ (k, v) ∈ entries := by
  rw [lookup_fill, lookup_empty, Option.or_none]
  constructor
  · intro hl
    have ⟨l₁, l₂, he, _⟩ := List.lookup_eq_some_iff.mp hl
    exact List.mem_reverse.mp (he ▸ List.mem_append_right _ List.mem_cons_self)
  · intro hm
    have hn : (entries.reverse.map Prod.fst).Nodup := by
      rw [List.map_reverse]
      exact List.nodup_reverse.mpr h
    exact List.lookup_of_nodup hn (List.mem_reverse.mpr hm)

end Finmap
