import Mathlib

-- Resources that are handed in, used and released, and the objects that own them.
namespace Ownership

inductive Event (ρ : Type)
  | acquire (r : ρ)
  | use (r : ρ)
  | release (r : ρ)
  deriving DecidableEq

variable {ρ ι : Type} [DecidableEq ρ] [DecidableEq ι] {r : ρ} {e : Event ρ} {es es' : List (Event ρ)}
  {H O F : Finset ρ} {own : ι → Finset ρ} {i j : ι}

-- The resources that are held after an event, and after a list of events.
def Event.after (H : Finset ρ) : Event ρ → Finset ρ
  | acquire r => insert r H
  | use _     => H
  | release r => H.erase r

def after (H : Finset ρ) (es : List (Event ρ)) : Finset ρ :=
  es.foldl Event.after H

-- Only what is held is used and released, and what is handed in is not held yet.
def Event.Proper (H : Finset ρ) : Event ρ → Prop
  | acquire r           => r ∉ H
  | use r | release r   => r ∈ H

def Proper (H : Finset ρ) : List (Event ρ) → Prop
  | []      => True
  | e :: es => e.Proper H ∧ Proper (e.after H) es

@[simp]
theorem after_nil : after H [] = H :=
  rfl

@[simp]
theorem after_cons : after H (e :: es) = after (e.after H) es :=
  rfl

theorem after_append : after H (es ++ es') = after (after H es) es' :=
  List.foldl_append

@[simp]
theorem proper_nil : Proper H [] :=
  trivial

@[simp]
theorem proper_cons : Proper H (e :: es) ↔ e.Proper H ∧ Proper (e.after H) es :=
  Iff.rfl

theorem proper_append : Proper H (es ++ es') ↔ Proper H es ∧ Proper (after H es) es' := by
  induction es generalizing H with
  | nil          => simp
  | cons e es hi => rw [List.cons_append, proper_cons, proper_cons, hi, after_cons, and_assoc]

-- How often a resource is held, which is once at most.
def times (H : Finset ρ) (r : ρ) : Nat :=
  if r ∈ H then 1 else 0

theorem times_of_not_mem (h : r ∉ H) : times H r = 0 :=
  if_neg h

theorem Event.Proper.count (h : e.Proper H) (r : ρ) :
    [e].count (.acquire r) + times H r = [e].count (.release r) + times (e.after H) r := by
  cases e with
  | use         => simp [after]
  | acquire r'  =>
    have hr : r' ∉ H := h
    by_cases hrr : r' = r
    case pos => simp [times, after, ← hrr, hr]
    case neg => simp [times, after, hrr, Ne.symm hrr]
  | release r' =>
    have hr : r' ∈ H := h
    by_cases hrr : r' = r
    case pos => simp [times, after, ← hrr, hr]
    case neg => simp [times, after, hrr, Ne.symm hrr]

-- Each resource has been released as often as it has been handed in, or once less if it is held.
theorem Proper.count (h : Proper H es) (r : ρ) :
    es.count (.acquire r) + times H r = es.count (.release r) + times (after H es) r := by
  induction es generalizing H with
  | nil          => rfl
  | cons e es hi =>
    have he := h.1.count r
    have hi := hi h.2
    rw [← List.singleton_append, List.count_append, List.count_append, after_append]
    simp only [after_cons, after_nil]
    omega

theorem Proper.count_release_le (h : Proper ∅ es) (r : ρ) : es.count (.release r) ≤ es.count (.acquire r) := by
  have := h.count r
  have ht : times ∅ r = 0 := times_of_not_mem (Finset.notMem_empty r)
  omega

theorem Event.Proper.frame (h : e.Proper O) (hd : Disjoint O F) (hf : ∀ r, e = .acquire r → r ∉ F) :
    e.Proper (O ∪ F) ∧ e.after (O ∪ F) = e.after O ∪ F ∧ Disjoint (e.after O) F := by
  cases e with
  | use r     => exact ⟨Finset.mem_union_left _ h, rfl, hd⟩
  | acquire r =>
    have hr : r ∉ F := hf r rfl
    have hn : r ∉ O ∪ F := fun hm => (Finset.mem_union.mp hm).elim h hr
    exact ⟨hn, (Finset.insert_union r O F).symm, Finset.disjoint_insert_left.mpr ⟨hr, hd⟩⟩
  | release r =>
    have hr : r ∉ F := Finset.disjoint_left.mp hd h
    refine ⟨Finset.mem_union_left _ h, ?_, hd.mono_left (Finset.erase_subset ..)⟩
    rw [after, after, Finset.erase_union_distrib, Finset.erase_eq_of_notMem hr]

-- What proper events do with some resources, they do beside all others.
theorem Proper.frame (h : Proper O es) (hd : Disjoint O F) (hf : ∀ r, .acquire r ∈ es → r ∉ F) :
    Proper (O ∪ F) es ∧ after (O ∪ F) es = after O es ∪ F ∧ Disjoint (after O es) F := by
  induction es generalizing O with
  | nil          => exact ⟨trivial, rfl, hd⟩
  | cons e es hi =>
    have ⟨he, hu, hd⟩ := h.1.frame hd fun r hr => hf r (hr ▸ List.mem_cons_self)
    have ⟨h₁, h₂, h₃⟩ := hi h.2 hd fun r hr => hf r (List.mem_cons_of_mem _ hr)
    rw [proper_cons, after_cons, after_cons, hu]
    exact ⟨⟨he, h₁⟩, h₂, h₃⟩

-- Each resource that is held is owned by exactly one object.
structure Owned (H : Finset ρ) (own : ι → Finset ρ) : Prop where
  mem_iff : ∀ r, r ∈ H ↔ ∃ i, r ∈ own i
  unique  : ∀ {i j r}, r ∈ own i → r ∈ own j → i = j

namespace Owned

omit [DecidableEq ρ] [DecidableEq ι] in
theorem empty : Owned (∅ : Finset ρ) fun _ : ι => ∅ where
  mem_iff _  := by simp
  unique hr  := absurd hr (Finset.notMem_empty _)

omit [DecidableEq ρ] [DecidableEq ι] in
theorem subset (h : Owned H own) (i : ι) : own i ⊆ H :=
  fun r hr => (h.mem_iff r).mpr ⟨i, hr⟩

-- An object handles its own resources, and takes new ones.
theorem handle (h : Owned H own) (hp : Proper (own i) es) (hf : ∀ r, .acquire r ∈ es → r ∉ H) :
    Proper H es ∧ Owned (after H es) (Function.update own i (after (own i) es)) := by
  have hu : own i ∪ (H \ own i) = H := Finset.union_sdiff_of_subset (h.subset i)
  have ⟨h₁, h₂, h₃⟩ := hp.frame Finset.disjoint_sdiff fun r hr hm => hf r hr (Finset.mem_sdiff.mp hm).1
  rw [hu] at h₁ h₂
  have hother (j : ι) (hj : j ≠ i) (r : ρ) (hr : r ∈ own j) : r ∈ H \ own i :=
    Finset.mem_sdiff.mpr ⟨h.subset j hr, fun hri => hj (h.unique hr hri)⟩
  refine ⟨h₁, fun r => ?_, fun {j k r} hj hk => ?_⟩
  · rw [h₂, Finset.mem_union, Finset.mem_sdiff, h.mem_iff]
    constructor
    · rintro (hr | ⟨⟨j, hr⟩, hn⟩)
      · exact ⟨i, by rwa [Function.update_self]⟩
      · have hj : j ≠ i := fun hj => hn (hj ▸ hr)
        exact ⟨j, by rwa [Function.update_of_ne hj]⟩
    · rintro ⟨j, hr⟩
      by_cases hj : j = i
      case pos =>
        subst hj
        rw [Function.update_self] at hr
        exact .inl hr
      case neg =>
        rw [Function.update_of_ne hj] at hr
        exact .inr ⟨⟨j, hr⟩, (Finset.mem_sdiff.mp (hother j hj r hr)).2⟩
  · by_cases hji : j = i <;> by_cases hki : k = i
    case pos => rw [hji, hki]
    case neg =>
      rw [hji, Function.update_self] at hj
      rw [Function.update_of_ne hki] at hk
      exact absurd (hother k hki r hk) (Finset.disjoint_left.mp h₃ hj)
    case pos =>
      rw [hki, Function.update_self] at hk
      rw [Function.update_of_ne hji] at hj
      exact absurd (hother j hji r hj) (Finset.disjoint_left.mp h₃ hk)
    case neg =>
      rw [Function.update_of_ne hji] at hj
      rw [Function.update_of_ne hki] at hk
      exact h.unique hj hk

omit [DecidableEq ρ] in
-- An object hands everything over to one that owns nothing.
theorem transfer (h : Owned H own) (hij : i ≠ j) (hi : own i = ∅) :
    Owned H (Function.update (Function.update own i (own j)) j ∅) := by
  -- Whoever owns something afterwards has owned it before, except that it is `i` in place of `j`.
  have hmem (k : ι) (r : ρ) : r ∈ Function.update (Function.update own i (own j)) j ∅ k ↔
      r ∈ own (Equiv.swap i j k) := by
    by_cases hk : k = j
    case pos => simp [hk, hi]
    case neg =>
      by_cases hki : k = i
      case pos => simp [hki, hij]
      case neg => simp [hk, hki, Equiv.swap_apply_of_ne_of_ne hki hk]
  refine ⟨fun r => ?_, fun {k l r} hk hl => ?_⟩
  · rw [h.mem_iff]
    refine ⟨fun ⟨k, hr⟩ => ⟨Equiv.swap i j k, ?_⟩, fun ⟨k, hr⟩ => ⟨_, (hmem k r).mp hr⟩⟩
    rwa [hmem, Equiv.swap_apply_self]
  · exact (Equiv.swap i j).injective (h.unique ((hmem k r).mp hk) ((hmem l r).mp hl))

end Owned
end Ownership
