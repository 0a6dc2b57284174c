import Mathlib

-- The elements of a list of uses without repetitions, the most recently used one first.
namespace Recency

variable {α : Type*} [DecidableEq α] {l uses : List α} {a b : α}

def touch (a : α) (l : List α) : List α :=
  a :: l.filter (· ≠ a)

def recent (uses : List α) : List α :=
  uses.dedup.reverse

theorem filter_ne_of_notMem (h : a ∉ l) : l.filter (· ≠ a) = l :=
  List.filter_eq_self.mpr fun b hb => by simpa using ne_of_mem_of_not_mem hb h

theorem mem_touch : b ∈ touch a l ↔ b = a ∨ b ∈ l := by
  by_cases hb : b = a <;> simp [touch, hb]

theorem touch_of_notMem (h : a ∉ l) : touch a l = a :: l := by
  rw [touch, filter_ne_of_notMem h]

theorem nodup_touch (h : l.Nodup) : (touch a l).Nodup :=
  List.nodup_cons.mpr ⟨by simp, h.filter _⟩

theorem nodup_recent (uses : List α) : (recent uses).Nodup :=
  List.nodup_reverse.mpr (List.nodup_dedup uses)

theorem dedup_concat (uses : List α) (a : α) : (uses ++ [a]).dedup = uses.dedup.filter (· ≠ a) ++ [a] := by
  induction uses with
  | nil            => simp
  | cons b uses hi =>
    rw [List.cons_append, List.dedup_cons, List.dedup_cons, hi]
    by_cases hb : b ∈ uses
    case pos => simp [hb]
    case neg =>
      by_cases hba : b = a
      case pos =>
        subst hba
        simp [hb]
      case neg => simp [hb, hba]

theorem recent_concat (uses : List α) (a : α) : recent (uses ++ [a]) = touch a (recent uses) := by
  simp [recent, touch, dedup_concat, List.filter_reverse]

theorem length_filter_ne (h : l.Nodup) (hm : a ∈ l) : (l.filter (· ≠ a)).length + 1 = l.length := by
  have ⟨l₁, l₂, he⟩ := List.append_of_mem hm
  subst he
  have hnot := (List.nodup_cons.mp (List.nodup_middle.mp h)).1
  rw [List.mem_append, not_or] at hnot
  have ⟨h₁, h₂⟩ := hnot
  have hf : (l₁ ++ a :: l₂).filter (· ≠ a) = l₁ ++ l₂ := by
    rw [List.filter_append, List.filter_cons_of_neg (by simp), filter_ne_of_notMem h₁, filter_ne_of_notMem h₂]
  rw [hf]
  simp only [List.length_append, List.length_cons]
  omega

-- To use one of the first elements does not change which ones they are.
theorem take_touch_of_mem (hl : l.Nodup) (h : a ∈ l.take n) : (touch a l).take n = touch a (l.take n) := by
  cases n with
  | zero   => simp at h
  | succ n =>
    have hn : (l.take (n + 1)).Nodup := hl.sublist (List.take_sublist ..)
    have hrest : a ∉ l.drop (n + 1) := by
      rw [← List.take_append_drop (n + 1) l] at hl
      exact fun hd => (List.nodup_append.mp hl).2.2 a h a hd rfl
    have hfilter : l.filter (· ≠ a) = (l.take (n + 1)).filter (· ≠ a) ++ l.drop (n + 1) := by
      conv_lhs => rw [← List.take_append_drop (n + 1) l, List.filter_append, filter_ne_of_notMem hrest]
    have hlen := length_filter_ne hn h
    rw [List.length_take] at hlen
    rw [touch, List.take_succ_cons, touch, hfilter]
    by_cases hle : n + 1 ≤ l.length
    case pos => rw [List.take_left' (by omega)]
    case neg => rw [List.drop_eq_nil_of_le (by omega), List.append_nil, List.take_of_length_le (by omega)]

-- To use another element drops the last one.
theorem take_touch_of_notMem (h : a ∉ l.take (n + 1)) : (touch a l).take (n + 1) = touch a (l.take n) := by
  have hn : a ∉ l.take n := fun hm => h (List.take_subset_take_left _ (Nat.le_succ n) hm)
  have hfilter : l.filter (· ≠ a) = l.take n ++ (l.drop n).filter (· ≠ a) := by
    conv_lhs => rw [← List.take_append_drop n l, List.filter_append, filter_ne_of_notMem hn]
  rw [touch_of_notMem hn, touch, List.take_succ_cons, hfilter, List.take_append, List.take_take, min_self]
  cases hd : l.drop n with
  | nil      => simp
  | cons b s =>
    have hlt : n < l.length := by
      by_contra hle
      simp [List.drop_eq_nil_of_le (not_lt.mp hle)] at hd
    simp [List.length_take_of_le hlt.le]

end Recency
