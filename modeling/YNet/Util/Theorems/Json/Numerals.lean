import YNet.Util.Theorems.Json.Reads

open Cpp

namespace YNet.Json

def signText (neg : Bool) : Bytes :=
  if neg then [Ascii.minus] else []

-- The texts that are converted to a number: no digit is needed in front of a decimal point or behind
-- it, but at least one in the whole text.
inductive Numeral : Bytes → Prop
  | int : (∀ b ∈ ds, isdigit b) → ds ≠ [] →
    -2 ^ 63 ≤ signed neg (ofDigits 10 ds) → signed neg (ofDigits 10 ds) < 2 ^ 63 → Numeral (signText neg ++ ds)
  | decimal : (∀ b ∈ ds, isdigit b) → (∀ b ∈ fs, isdigit b) → ds ++ fs ≠ [] →
    ¬Double.overflows (ofDigits 10 (ds ++ fs)) (10 ^ fs.length) →
    ¬Double.underflows (ofDigits 10 (ds ++ fs)) (10 ^ fs.length) → Numeral (signText neg ++ ds ++ Ascii.dot :: fs)

theorem Numeral.ne_nil (h : Numeral t) : t ≠ [] := by
  cases h with
  | int _ hn => simp [hn]
  | decimal  => simp

theorem not_isspace_of_isNumberByte (h : isNumberByte c) : isspace c = false := by
  simp only [isNumberByte, Bool.or_eq_true, decide_eq_true_eq] at h
  rcases h with (h | rfl) | rfl
  · exact isspace_of_isdigit h
  · decide
  · decide

theorem digits_of_not_mem {t : Bytes} (h : ∀ b ∈ t, isNumberByte b) (hm : Ascii.minus ∉ t) (hd : Ascii.dot ∉ t) :
    ∀ b ∈ t, isdigit b := by
  intro b hb
  have hn := h b hb
  simp only [isNumberByte, Bool.or_eq_true, decide_eq_true_eq] at hn
  rcases hn with (hn | rfl) | rfl
  · exact hn
  · contradiction
  · contradiction

theorem dropWhile_isspace {t : Bytes} (h : ∀ c ∈ t.head?, isNumberByte c) : t.dropWhile isspace = t := by
  cases t with
  | nil      => rfl
  | cons c t => rw [List.dropWhile_cons_of_neg (by simp [not_isspace_of_isNumberByte (h c rfl)])]

theorem sign_signText {t : Bytes} (h : ∀ c ∈ t.head?, isdigit c ∨ c = Ascii.dot) : sign (signText neg ++ t) = (neg, t) := by
  cases neg with
  | true  => rfl
  | false =>
    cases t with
    | nil      => rfl
    | cons c t =>
      rcases h c rfl with hc | rfl
      · exact sign_of_isdigit hc
      · rfl

theorem head_signText {t : Bytes} (h : ∀ c ∈ t.head?, isdigit c ∨ c = Ascii.dot) :
    ∀ c ∈ (signText neg ++ t).head?, isNumberByte c := by
  cases neg with
  | true  => simp [signText, isNumberByte]
  | false =>
    intro c hc
    rcases h c hc with hc | rfl
    · simp [isNumberByte, hc]
    · decide

theorem digitPrefix_digits {ds : Bytes} (h : ∀ b ∈ ds, isdigit b) (ht : ∀ c ∈ t.head?, ¬isdigit c) :
    digitPrefix 10 (ds ++ t) = ds :=
  digitPrefix_append (fun c hc => digitValue_lt_ten_iff.mpr (h c hc))
    fun c hc => not_lt.mp fun hl => ht c hc (digitValue_lt_ten_iff.mp hl)

theorem head_digits {ds : Bytes} (h : ∀ b ∈ ds, isdigit b) (ht : ∀ c ∈ t.head?, c = Ascii.dot) :
    ∀ c ∈ (ds ++ t).head?, isdigit c ∨ c = Ascii.dot := by
  cases ds with
  | nil       => exact fun c hc => .inr (ht c hc)
  | cons d ds => exact fun c hc => .inl (h c (by simp_all))

theorem stoll_digits {ds : Bytes} (h : ∀ b ∈ ds, isdigit b) : (∃ n, stoll (signText neg ++ ds) = .ok n) ↔
    ds ≠ [] ∧ -2 ^ 63 ≤ signed neg (ofDigits 10 ds) ∧ signed neg (ofDigits 10 ds) < 2 ^ 63 := by
  have hh : ∀ c ∈ ds.head?, isdigit c ∨ c = Ascii.dot := fun c hc => .inl (h c (List.mem_of_mem_head? hc))
  have hp : digitPrefix 10 ds = ds := by simpa using digitPrefix_digits (t := []) h (by simp)
  simp only [stoll, strto, dropWhile_isspace (head_signText hh), sign_signText hh, if_neg (by decide : ¬10 = 16), hp]
  by_cases hd : ds = []
  case pos => simp [hd]
  case neg =>
    simp only [if_neg hd]
    split_ifs with hr
    · exact iff_of_true ⟨_, rfl⟩ ⟨hd, hr⟩
    · exact iff_of_false (by simp) fun h => hr h.2

theorem stod_digits {ds fs : Bytes} (h : ∀ b ∈ ds, isdigit b) (hf : ∀ b ∈ fs, isdigit b) :
    (∃ x, stod (signText neg ++ ds ++ Ascii.dot :: fs) = .ok x) ↔
      ds ++ fs ≠ [] ∧ ¬Double.overflows (ofDigits 10 (ds ++ fs)) (10 ^ fs.length) ∧
      ¬Double.underflows (ofDigits 10 (ds ++ fs)) (10 ^ fs.length) := by
  have hh : ∀ c ∈ (ds ++ Ascii.dot :: fs).head?, isdigit c ∨ c = Ascii.dot := head_digits h (by simp)
  have hp : digitPrefix 10 (ds ++ Ascii.dot :: fs) = ds := digitPrefix_digits h (by simp; decide)
  have hq : digitPrefix 10 fs = fs := by simpa using digitPrefix_digits (t := []) hf (by simp)
  have hr : fractionDigits (Ascii.dot :: fs) = fs := by simp [fractionDigits, hq]
  rw [List.append_assoc]
  simp only [stod, dropWhile_isspace (head_signText hh), sign_signText hh, hp, List.drop_left, hr]
  simp only [← List.append_eq_nil_iff]
  by_cases hd : ds ++ fs = []
  case pos => simp [hd]
  case neg =>
    simp only [if_neg hd]
    split_ifs with hr
    · exact iff_of_false (by simp) fun h => by simp_all
    · rw [not_or] at hr
      exact iff_of_true ⟨_, rfl⟩ ⟨hd, hr⟩

theorem exists_sign {t : Bytes} (h : Ascii.minus ∉ t.tail) : ∃ neg u, t = signText neg ++ u ∧ Ascii.minus ∉ u := by
  cases t with
  | nil      => exact ⟨false, [], rfl, by simp⟩
  | cons c t =>
    by_cases hc : c = Ascii.minus
    case pos => exact ⟨true, t, by rw [hc]; rfl, h⟩
    case neg => exact ⟨false, c :: t, rfl, by simp_all [eq_comm]⟩

theorem dot_not_mem {ds : Bytes} (h : ∀ b ∈ ds, isdigit b) : Ascii.dot ∉ ds :=
  fun hm => isdigit_ne (h _ hm) (by decide) rfl

theorem minus_not_mem {ds : Bytes} (h : ∀ b ∈ ds, isdigit b) : Ascii.minus ∉ ds :=
  fun hm => isdigit_ne (h _ hm) (by decide) rfl

-- The checks that `parseNumber` makes of the text of a number.
def Checked (data : Bytes) : Prop :=
  data ≠ [] ∧ Ascii.minus ∉ data.tail ∧ data.count Ascii.dot ≤ 1 ∧ data.count Ascii.minus ≤ 1 ∧
    if Ascii.dot ∈ data then ∃ x, stod data = .ok x else ∃ n, stoll data = .ok n

theorem numeral_isNumberByte (h : Numeral t) : ∀ b ∈ t, isNumberByte b := by
  have hs (neg) : ∀ b ∈ signText neg, isNumberByte b := by
    cases neg <;> simp [signText, isNumberByte]
  have hd {ds : Bytes} (h : ∀ b ∈ ds, isdigit b) : ∀ b ∈ ds, isNumberByte b :=
    fun b hb => isNumberByte_of (.inl (h b hb))
  cases h with
  | int h             => exact List.forall_mem_append.mpr ⟨hs _, hd h⟩
  | decimal h hf      =>
    have hdot : isNumberByte Ascii.dot := by decide
    exact List.forall_mem_append.mpr ⟨List.forall_mem_append.mpr ⟨hs _, hd h⟩, List.forall_mem_cons.mpr ⟨hdot, hd hf⟩⟩

theorem dot_not_mem_signText (neg : Bool) : Ascii.dot ∉ signText neg := by
  cases neg <;> decide

-- A sign in front of a text without one passes the checks.
theorem minus_signText {u : Bytes} (h : Ascii.minus ∉ u) (neg : Bool) :
    Ascii.minus ∉ (signText neg ++ u).tail ∧ (signText neg ++ u).count Ascii.minus ≤ 1 := by
  have hc := List.count_eq_zero.mpr h
  cases neg with
  | true  => exact ⟨h, by simp [signText, hc]⟩
  | false => exact ⟨fun hm => h (List.mem_of_mem_tail hm), by simp [signText, hc]⟩

theorem numeral_of_checked {t : Bytes} (h : ∀ b ∈ t, isNumberByte b) (hc : Checked t) : Numeral t := by
  have ⟨_, hm, hd, _, hx⟩ := hc
  have ⟨neg, u, hu, hmu⟩ := exists_sign hm
  subst hu
  have h : ∀ b ∈ u, isNumberByte b := fun b hb => h b (List.mem_append_right _ hb)
  have hs := dot_not_mem_signText neg
  by_cases hdot : Ascii.dot ∈ u
  case neg =>
    have h := digits_of_not_mem h hmu hdot
    rw [if_neg (by simp [hs, hdot]), stoll_digits h] at hx
    exact .int h hx.1 hx.2.1 hx.2.2
  case pos =>
    have ⟨ds, fs, he, hds⟩ := List.eq_append_cons_of_mem hdot
    subst he
    have hfs : Ascii.dot ∉ fs := by
      simp only [List.count_append, List.count_cons_self] at hd
      exact List.count_eq_zero.mp (by omega)
    simp only [List.mem_append, List.mem_cons, not_or] at hmu
    have h₁ := digits_of_not_mem (fun b hb => h b (List.mem_append_left _ hb)) hmu.1 hds
    have h₂ := digits_of_not_mem (fun b hb => h b (by simp [hb])) hmu.2.2 hfs
    rw [if_pos (by simp), ← List.append_assoc, stod_digits h₁ h₂] at hx
    rw [← List.append_assoc]
    exact .decimal h₁ h₂ hx.1 hx.2.1 hx.2.2

theorem checked_of_numeral (h : Numeral t) : Checked t := by
  cases h with
  | @int ds neg h hne hl hu =>
    have ⟨hm, hc⟩ := minus_signText (minus_not_mem h) neg
    have hdot : Ascii.dot ∉ signText neg ++ ds := by simp [dot_not_mem_signText, dot_not_mem h]
    refine ⟨by simp [hne], hm, by simp [List.count_eq_zero.mpr hdot], hc, ?_⟩
    rw [if_neg hdot]
    exact (stoll_digits h).mpr ⟨hne, hl, hu⟩
  | @decimal ds fs neg h hf hne ho hu =>
    have hminus : Ascii.minus ∉ ds ++ Ascii.dot :: fs := by
      rw [List.mem_append, List.mem_cons]
      exact not_or.mpr ⟨minus_not_mem h, not_or.mpr ⟨by decide, minus_not_mem hf⟩⟩
    have ⟨hm, hc⟩ := minus_signText hminus neg
    rw [← List.append_assoc] at hm hc
    have hds := List.count_eq_zero.mpr (dot_not_mem h)
    have hfs := List.count_eq_zero.mpr (dot_not_mem hf)
    have hsg := List.count_eq_zero.mpr (dot_not_mem_signText neg)
    have hd : (signText neg ++ ds ++ Ascii.dot :: fs).count Ascii.dot ≤ 1 := by
      simp [hds, hfs, hsg]
    refine ⟨by simp, hm, hd, hc, ?_⟩
    rw [if_pos (by simp)]
    exact (stod_digits h hf).mpr ⟨hne, ho, hu⟩

-- What `parseNumber` does with the bytes of a number.
theorem parseNumber_span {t p : Bytes} (h : ∀ b ∈ t, isNumberByte b) (hp : ∀ c ∈ p.head?, ¬isNumberByte c) :
    Reads (parseNumber (t ++ p)) (fun pos => Checked t ∧ pos = some p) False := by
  have ⟨ht, hd⟩ := span_number h hp
  have hno (hc : ¬Checked t) (pos : Option Bytes) : False ↔ Checked t ∧ pos = some p :=
    iff_of_false id fun h => hc h.1
  simp only [parseNumber, ht, hd]
  split_ifs with hn hm hc hdot
  · exact (Reads.thrown _).congr (hno fun h => h.1 hn) .rfl
  · exact (Reads.thrown _).congr (hno fun h => h.2.1 hm) .rfl
  · refine (Reads.thrown _).congr (hno fun h => ?_) .rfl
    exact hc.elim (fun hc => absurd h.2.2.1 (by omega)) fun hc => absurd h.2.2.2.1 (by omega)
  · rw [not_or, not_lt, not_lt] at hc
    cases hx : stod t with
    | error e => exact (Reads.thrown e).congr (hno fun h => by simp [Checked, hdot, hx] at h) .rfl
    | ok x    =>
      have : Checked t := ⟨hn, hm, hc.1, hc.2, by simp [hdot, hx]⟩
      exact (Reads.ok (JsonValue.double x) (some p)).congr (by simp [this]) .rfl
  · rw [not_or, not_lt, not_lt] at hc
    cases hx : stoll t with
    | error e => exact (Reads.thrown e).congr (hno fun h => by simp [Checked, hdot, hx] at h) .rfl
    | ok n    =>
      have : Checked t := ⟨hn, hm, hc.1, hc.2, by simp [hdot, hx]⟩
      exact (Reads.ok (JsonValue.int n) (some p)).congr (by simp [this]) .rfl

theorem parseNumber_reads (s : Bytes) : Reads (parseNumber s)
    (fun pos => ∃ t p, Numeral t ∧ s = t ++ p ∧ pos = some p ∧ ∀ c ∈ p.head?, ¬isNumberByte c) False := by
  have h : ∀ b ∈ s.takeWhile isNumberByte, isNumberByte b := fun b hb => List.mem_takeWhile_imp hb
  have hp : ∀ c ∈ (s.dropWhile isNumberByte).head?, ¬isNumberByte c := by
    intro c hc
    have := List.head?_dropWhile_not isNumberByte s
    simp_all
  have hr := parseNumber_span h hp
  rw [List.takeWhile_append_dropWhile] at hr
  refine hr.congr (fun pos => ⟨?_, ?_⟩) .rfl
  · rintro ⟨hc, rfl⟩
    exact ⟨_, _, numeral_of_checked h hc, List.takeWhile_append_dropWhile.symm, rfl, hp⟩
  · rintro ⟨t, p, ht, rfl, rfl, hp⟩
    have ⟨h₁, h₂⟩ := span_number (numeral_isNumberByte ht) hp
    rw [h₁, h₂]
    exact ⟨checked_of_numeral ht, rfl⟩

end YNet.Json
