import YNet.Cpp.Theorems.Double
import YNet.Util.Theorems.Json.Numerals

open Cpp

namespace YNet

namespace JsonValue

-- The values whose floating point numbers have a property, and whose objects are sorted as a `std::map` is.
inductive Regular (P : Double → Prop) : JsonValue → Prop
  | null   : Regular P null
  | bool   : Regular P (bool b)
  | int    : Regular P (int n)
  | double : (P x) → Regular P (double x)
  | string : Regular P (string s)
  | array  : (∀ v ∈ vs, Regular P v) → Regular P (array vs)
  | object : (ms.map Prod.fst).Pairwise (· < ·) → (∀ m ∈ ms, Regular P m.2) → Regular P (object ms)

mutual

-- The value with the numbers that are read from their texts.
def reread : JsonValue → JsonValue
  | .double x  => .double x.reread
  | .array vs  => .array (rereadItems vs)
  | .object ms => .object (rereadMembers ms)
  | v          => v

def rereadItems : List JsonValue → List JsonValue
  | []      => []
  | v :: vs => reread v :: rereadItems vs

def rereadMembers : List (Bytes × JsonValue) → List (Bytes × JsonValue)
  | []           => []
  | (k, v) :: ms => (k, reread v) :: rereadMembers ms

end

theorem rereadItems_eq (vs : List JsonValue) : rereadItems vs = vs.map reread := by
  induction vs with
  | nil          => rfl
  | cons v vs hi => rw [rereadItems, hi, List.map_cons]

variable {v : JsonValue} {P Q : Double → Prop}

theorem Regular.imp (h : v.Regular P) (hi : ∀ x, P x → Q x) : v.Regular Q := by
  induction h with
  | null          => exact .null
  | bool          => exact .bool
  | int           => exact .int
  | double hx     => exact .double (hi _ hx)
  | string        => exact .string
  | array _ h     => exact .array h
  | object hk _ h => exact .object hk h

theorem map_eq_self_iff {f : α → α} {l : List α} : l.map f = l ↔ ∀ a ∈ l, f a = a := by
  conv => lhs; rhs; rw [← List.map_id l]
  exact List.map_inj_left

theorem Regular.item (h : JsonValue.Regular P (.array vs)) (hv : v ∈ vs) : v.Regular P := by
  cases h with
  | array h => exact h v hv

theorem Regular.member (h : JsonValue.Regular P (.object ms)) (hm : m ∈ ms) : m.2.Regular P := by
  cases h with
  | object _ h => exact h m hm

theorem rereadMembers_eq (ms : List (Bytes × JsonValue)) : rereadMembers ms = ms.map fun m => (m.1, m.2.reread) := by
  induction ms with
  | nil          => rfl
  | cons m ms hi => rw [rereadMembers, hi, List.map_cons]

theorem keys_rereadMembers (ms : List (Bytes × JsonValue)) : (rereadMembers ms).map Prod.fst = ms.map Prod.fst := by
  rw [rereadMembers_eq, List.map_map]
  rfl

-- Rereading keeps the shape of a value, and a second time changes nothing.
theorem Regular.reread (h : v.Regular Double.IsFinite) :
    v.reread.Regular fun x => x.IsFinite ∧ x.reread = x := by
  induction h with
  | null      => exact .null
  | bool      => exact .bool
  | int       => exact .int
  | string    => exact .string
  | double hx =>
    rw [JsonValue.reread]
    exact .double ⟨Double.isFinite_reread hx, Double.reread_reread hx⟩
  | array _ h =>
    rw [JsonValue.reread, rereadItems_eq]
    exact .array (List.forall_mem_map.mpr h)
  | @object ms hk _ h =>
    rw [JsonValue.reread]
    refine .object (keys_rereadMembers ms ▸ hk) ?_
    rw [rereadMembers_eq]
    exact List.forall_mem_map.mpr h

theorem Regular.reread_eq_iff (h : v.Regular Double.IsFinite) : v.reread = v ↔ v.Regular Double.OfMicros := by
  induction h with
  | null      => exact iff_of_true rfl .null
  | bool      => exact iff_of_true rfl .bool
  | int       => exact iff_of_true rfl .int
  | string    => exact iff_of_true rfl .string
  | double hx =>
    rw [JsonValue.reread, double.injEq, Double.reread_eq_iff hx]
    exact ⟨.double, fun h => by cases h; assumption⟩
  | @array vs _ h =>
    rw [JsonValue.reread, rereadItems_eq, array.injEq, map_eq_self_iff]
    exact ⟨fun he => .array fun v hv => (h v hv).mp (he v hv), fun hr v hv => (h v hv).mpr (hr.item hv)⟩
  | @object ms hk _ h =>
    rw [JsonValue.reread, rereadMembers_eq, object.injEq, map_eq_self_iff]
    refine ⟨fun he => .object hk fun m hm => (h m hm).mp (congrArg Prod.snd (he m hm)), fun hr m hm => ?_⟩
    exact Prod.ext rfl ((h m hm).mpr (hr.member hm))

theorem Regular.height_reread (h : v.Regular P) : v.reread.height = v.height := by
  induction h with
  | null      => rfl
  | bool      => rfl
  | int       => rfl
  | string    => rfl
  | double    => rw [JsonValue.reread, height, height]
  | @array vs _ h =>
    simp only [JsonValue.reread, height]
    induction vs with
    | nil          => rfl
    | cons v vs hi => simp_all [rereadItems, heightItems]
  | @object ms hk _ h =>
    simp only [JsonValue.reread, height]
    clear hk
    induction ms with
    | nil          => rfl
    | cons m ms hi => simp_all [rereadMembers, heightMembers]

end JsonValue

namespace Json

variable {x : Double} {v : JsonValue} {vs : List JsonValue} {ms : List (Bytes × JsonValue)} {rest : Bytes}

section Numbers

theorem mem_absText (hc : c ∈ absText x) : isdigit c ∨ c = Ascii.dot := by
  rcases List.mem_append.mp hc with hc | hc
  · exact .inl (natToString_digits c hc)
  · rcases List.mem_cons.mp hc with rfl | hc
    · exact .inr rfl
    · exact .inl (isdigit_of_mem_sixDigits c hc)

theorem minus_not_mem_absText : Ascii.minus ∉ absText x :=
  fun h => absurd (mem_absText h) (by decide)

theorem count_dot_absText : (absText x).count Ascii.dot = 1 := by
  have hw : Ascii.dot ∉ natToString (x.micros / 10 ^ 6) := fun h => isdigit_ne (natToString_digits _ h) (by decide) rfl
  have hs : Ascii.dot ∉ sixDigits (x.micros % 10 ^ 6) := fun h => isdigit_ne (isdigit_of_mem_sixDigits _ h) (by decide) rfl
  rw [absText, List.count_append, List.count_eq_zero.mpr hw, List.count_cons, List.count_eq_zero.mpr hs]
  rfl

theorem exists_absText (x : Double) : ∃ c s, absText x = c :: s ∧ isdigit c := by
  cases hn : natToString (x.micros / 10 ^ 6) with
  | nil       => exact absurd hn natToString_ne_nil
  | cons c ds => exact ⟨c, _, by rw [absText, hn, List.cons_append], natToString_digits c (hn ▸ List.mem_cons_self)⟩

theorem doubleToString_eq (h : x.IsFinite) : doubleToString x = signText x.negative ++ absText x := by
  rw [doubleToString_of_finite h, signText]
  cases x.negative with
  | true  => rw [if_pos rfl, if_pos rfl, List.singleton_append]
  | false => rw [if_neg Bool.false_ne_true, if_neg Bool.false_ne_true, List.nil_append]

theorem doubleToString_starts (h : x.IsFinite) :
    ∃ c s, doubleToString x = c :: s ∧ (isdigit c ∨ c = Ascii.minus) := by
  have ⟨c, s, he, hc⟩ := exists_absText x
  rw [doubleToString_eq h, he]
  cases x.negative with
  | true  => exact ⟨_, _, rfl, .inr rfl⟩
  | false => exact ⟨_, _, rfl, .inl hc⟩

theorem isNumberByte_doubleToString (h : x.IsFinite) : ∀ c ∈ doubleToString x, isNumberByte c := by
  have hs : ∀ c ∈ signText x.negative, isNumberByte c := by
    cases x.negative <;> simp [signText, isNumberByte]
  have ha : ∀ c ∈ absText x, isNumberByte c := by
    intro c hc
    rcases mem_absText hc with hc | rfl
    · exact isNumberByte_of (.inl hc)
    · decide
  rw [doubleToString_eq h]
  exact List.forall_mem_append.mpr ⟨hs, ha⟩

theorem parseNumber_doubleToString (h : x.IsFinite) (hr : ∀ c ∈ rest.head?, ¬isNumberByte c) :
    parseNumber (doubleToString x ++ rest) = .ok (.double x.reread, some rest) := by
  have ⟨ht, hd⟩ := span_number (isNumberByte_doubleToString h) hr
  have ⟨hm, hc⟩ := minus_signText (minus_not_mem_absText (x := x)) x.negative
  have hdot : (signText x.negative ++ absText x).count Ascii.dot = 1 := by
    rw [List.count_append, List.count_eq_zero.mpr (dot_not_mem_signText _), count_dot_absText]
  rw [← doubleToString_eq h] at hm hc hdot
  have hmem : Ascii.dot ∈ doubleToString x := List.count_pos_iff.mp (by omega)
  simp only [parseNumber, ht, hd, if_neg hm, if_pos hmem, stod_of_finite h]
  rw [if_neg (List.ne_nil_of_mem hmem), if_neg (by omega)]
  rfl

theorem parseValue_double (h : x.IsFinite) (hr : ∀ c ∈ rest.head?, ¬isNumberByte c) :
    parseValue (levels + 1) (doubleToString x ++ rest) = .ok (.double x.reread, some rest) := by
  have ⟨c, s, he, hd⟩ := doubleToString_starts h
  have hq : c ≠ Ascii.quote := by
    rintro rfl
    exact absurd hd (by decide)
  have hp := parseNumber_doubleToString h hr
  rw [he, List.cons_append] at hp
  rw [he, List.cons_append, parseValue, if_neg hq, if_pos hd, hp]

end Numbers

section Values

-- A number and the one that is read from its text have the same text.
theorem stringify_reread (h : v.Regular Double.IsFinite) : stringify v.reread = stringify v := by
  induction h with
  | null      => rfl
  | bool      => rfl
  | int       => rfl
  | string    => rfl
  | double hx => rw [JsonValue.reread, stringify, stringify, Double.doubleToString_reread hx]
  | array _ h =>
    rw [JsonValue.reread, stringify, stringify, stringifyItems_eq, stringifyItems_eq, JsonValue.rereadItems_eq,
      List.map_map]
    have h : ∀ v ∈ _, (stringify ∘ JsonValue.reread) v = stringify v := h
    rw [List.map_congr_left h]
  | object _ _ h =>
    rw [JsonValue.reread, stringify, stringify, stringifyMembers_eq, stringifyMembers_eq, JsonValue.rereadMembers_eq,
      List.map_map]
    have h : ∀ m ∈ _, (memberText ∘ fun m => (m.1, m.2.reread)) m = memberText m :=
      fun m hm => congrArg (escapeString m.1 ++ Ascii.colon :: ·) (h m hm)
    rw [List.map_congr_left h]

theorem starts_of_regular (h : v.Regular Double.IsFinite) (hc : close ∈ [Ascii.closeBracket, Ascii.closeBrace]) :
    Starts close (stringify v) := by
  have hopen : ∀ c ∈ [Ascii.openBracket, Ascii.openBrace], ∀ close ∈ [Ascii.closeBracket, Ascii.closeBrace],
      c ≠ close ∧ ¬isWhitespace c := by
    decide +kernel
  cases h
  case double hx =>
    have ⟨c, s, he, hd⟩ := doubleToString_starts hx
    have hdigit : ∀ c, isdigit c ∨ c = Ascii.minus → ∀ close ∈ [Ascii.closeBracket, Ascii.closeBrace],
        c ≠ close ∧ ¬isWhitespace c := by
      decide +kernel
    exact ⟨c, s, he, hdigit c hd close hc⟩
  case null   => exact stringify_starts .null hc
  case bool   => exact stringify_starts .bool hc
  case int    => exact stringify_starts .int hc
  case string => exact stringify_starts .string hc
  case array  => exact ⟨Ascii.openBracket, _, by rw [stringify]; rfl, hopen _ (by simp) close hc⟩
  case object => exact ⟨Ascii.openBrace, _, by rw [stringify]; rfl, hopen _ (by simp) close hc⟩

-- A value whose numbers are the ones of their texts is read back if it has not more levels than are left.
theorem parseValue_of_fixed (h : v.Regular fun x => x.IsFinite ∧ x.reread = x) (hr : ∀ c ∈ rest.head?, ¬isNumberByte c) :
    parseValue levels (stringify v ++ rest) =
      if v.height < levels then .ok (v, some rest) else .error tooDeep := by
  induction levels generalizing v rest with
  | zero           => rw [parseValue, if_neg (Nat.not_lt_zero _)]; rfl
  | succ levels hi =>
    cases h
    case null       => rw [stringify, parseValue_null, if_pos (by simp [JsonValue.height])]
    case bool b     => rw [stringify, parseValue_bool, if_pos (by simp [JsonValue.height])]
    case string s   => rw [stringify, parseValue_string, if_pos (by simp [JsonValue.height])]
    case int n      => rw [stringify, parseValue_int n hr, if_pos (by simp [JsonValue.height])]
    case double hx  => rw [stringify, parseValue_double hx.1 hr, hx.2, if_pos (by simp [JsonValue.height])]
    case array vs h =>
      have hs : ∀ v ∈ vs, Starts Ascii.closeBracket (stringify v) :=
        fun v hv => starts_of_regular ((h v hv).imp fun _ h => h.1) (by simp)
      have hv : ∀ v ∈ vs, ∀ vs' rest, parseValue levels
          (stringify v ++ following Ascii.closeBracket stringify vs' rest) =
            if v.height < levels then .ok (v, some (following Ascii.closeBracket stringify vs' rest))
            else .error tooDeep :=
        fun v hv vs' rest => hi (h v hv) (head_following (by decide))
      rw [stringify_array, parseValue_array, parseItems_itemsText (by decide) (by decide) hs hv, JsonValue.height]
      simp only [JsonValue.heightItems_lt_iff]
      split <;> rfl
    case object ms hk h =>
      have hs : ∀ m ∈ ms, Starts Ascii.closeBrace (memberText m) :=
        fun m _ => ⟨Ascii.quote, _, rfl, by decide, by decide⟩
      have hv : ∀ m ∈ ms, ∀ ms' rest, parseMember (parseValue levels)
          (memberText m ++ following Ascii.closeBrace memberText ms' rest) =
            if m.2.height < levels then .ok (m, some (following Ascii.closeBrace memberText ms' rest))
            else .error tooDeep := by
        intro m hm ms' rest
        have hst : Starts Ascii.closeBrace (stringify m.2) :=
          starts_of_regular ((h m hm).imp fun _ h => h.1) (by simp)
        obtain ⟨c, s, he, _, hw⟩ := hst
        rw [parseMember_memberText ⟨c, s, he, hw⟩, hi (h m hm) (head_following (by decide))]
        split <;> rfl
      rw [stringify_object, parseValue_object, parseItems_itemsText (by decide) (by decide) hs hv, JsonValue.height]
      simp only [JsonValue.heightMembers_lt_iff]
      split
      case isTrue  => rw [Except.map, collect_eq hk]
      case isFalse => rfl

-- A value with finite numbers is read back with the numbers of their texts if it has at most 64 levels
-- below its root.
theorem parse_of_regular (h : v.Regular Double.IsFinite) :
    parse (stringify v) = if v.height ≤ 64 then .ok v.reread else .error tooDeep := by
  have hst : Starts Ascii.closeBrace (stringify v) := starts_of_regular h (by simp)
  have ⟨c, s, he, _, hw⟩ := hst
  have hs : skipWhitespace (stringify v) = stringify v := by
    rw [skipWhitespace, he, List.dropWhile_cons_of_neg hw]
  have hp : parseValue 65 (stringify v.reread ++ []) =
      if v.reread.height < 65 then .ok (v.reread, some []) else .error tooDeep :=
    parseValue_of_fixed h.reread (by simp)
  rw [List.append_nil, stringify_reread h, h.height_reread] at hp
  simp only [parse, hs, hp, Nat.lt_succ_iff]
  split <;> rfl

-- The values that are read back unchanged.
theorem parse_stringify_eq_iff (h : v.Regular Double.IsFinite) :
    parse (stringify v) = .ok v ↔ v.height ≤ 64 ∧ v.Regular Double.OfMicros := by
  rw [parse_of_regular h, ← h.reread_eq_iff]
  split
  case isTrue hh  => simp [hh]
  case isFalse hh => simp [hh]

theorem parse_stringify_eq_iff_half : parse (stringify (.array [.double ⟨0x3FE0000000000000⟩])) =
    .ok (.array [.double ⟨0x3FE0000000000000⟩]) ↔ JsonValue.height (.array [.double ⟨0x3FE0000000000000⟩]) ≤ 64 ∧
      JsonValue.Regular Double.OfMicros (.array [.double ⟨0x3FE0000000000000⟩]) :=
  parse_stringify_eq_iff (.array (List.forall_mem_singleton.mpr (.double (by unfold Double.IsFinite; decide))))

end Values

section Parsed

theorem regular_of_parseNumber (h : parseNumber s = .ok (v, pos)) : v.Regular Double.IsFinite ∧ v.height = 0 := by
  unfold parseNumber at h
  dsimp only at h
  split_ifs at h
  case pos =>
    cases hx : stod (s.takeWhile isNumberByte) with
    | error e => simp [hx, Except.mapError, bind, Except.bind] at h
    | ok x    =>
      rw [hx] at h
      cases h
      exact ⟨.double (isFinite_of_stod hx), rfl⟩
  case neg =>
    cases hx : stoll (s.takeWhile isNumberByte) with
    | error e => simp [hx, Except.mapError, bind, Except.bind] at h
    | ok n    =>
      rw [hx] at h
      cases h
      exact ⟨.int, rfl⟩

-- What holds of each item that is read holds of the whole list.
theorem forall_of_parseItems {item : Reader α} {P : α → Prop} {vs : List α} (hi : ∀ s v pos, item s = .ok (v, pos) → P v)
    (h : parseItems close item s = .ok (vs, pos)) : ∀ v ∈ vs, P v := by
  fun_induction parseItems close item s generalizing vs pos with
  | case1           => cases h
  | case2           =>
    cases h
    simp
  | case3           => cases h
  | case4           => cases h
  | case6           => cases h
  | case5 c s _ v pos' hv _ ih =>
    cases hr : parseItems close item (skipSeparator Ascii.comma pos') with
    | error e => simp [hr, bind, Except.bind] at h
    | ok r    =>
      rw [hr] at h
      cases h
      exact List.forall_mem_cons.mpr ⟨hi _ _ _ hv, ih hr⟩

theorem of_parseMember {value : Reader JsonValue} (h : parseMember value s = .ok (m, pos)) :
    ∃ s' pos', value s' = .ok (m.2, pos') := by
  unfold parseMember at h
  split at h
  · cases h
  · split_ifs at h
    rename_i t _ _
    cases hk : parseChars t with
    | error e => simp [hk, bind, Except.bind] at h
    | ok r    =>
      obtain ⟨key, _ | pos'⟩ := r
      · simp [hk, bind, Except.bind] at h
      · cases hv : value (skipSeparator Ascii.colon pos') with
        | error e => simp [hk, hv, bind, Except.bind] at h
        | ok r    =>
          simp only [hk, hv, bind, Except.bind] at h
          cases h
          exact ⟨_, _, hv⟩

theorem mem_insertMember (h : m ∈ insertMember key v ms) : m = (key, v) ∨ m ∈ ms := by
  induction ms with
  | nil          => exact .inl (List.mem_singleton.mp h)
  | cons n ms hi =>
    rw [insertMember] at h
    split_ifs at h
    · exact List.mem_cons.mp h
    · exact (List.mem_cons.mp h).imp_right (List.mem_cons_of_mem _)
    · rcases List.mem_cons.mp h with rfl | h
      · exact .inr List.mem_cons_self
      · exact (hi h).imp_right (List.mem_cons_of_mem _)

theorem sorted_insertMember (h : (ms.map Prod.fst).Pairwise (· < ·)) :
    ((insertMember key v ms).map Prod.fst).Pairwise (· < ·) := by
  induction ms with
  | nil          => exact List.pairwise_singleton ..
  | cons n ms hi =>
    have ⟨hn, hms⟩ := List.pairwise_cons.mp h
    rw [insertMember]
    split_ifs with hlt he
    · refine List.pairwise_cons.mpr ⟨?_, h⟩
      exact List.forall_mem_cons.mpr ⟨hlt, fun k hk => List.lt_trans hlt (hn k hk)⟩
    · subst he
      exact h
    · refine List.pairwise_cons.mpr ⟨fun k hk => ?_, hi hms⟩
      obtain ⟨m, hm, rfl⟩ := List.mem_map.mp hk
      rcases mem_insertMember hm with rfl | hm
      · by_contra hle
        exact he (List.le_antisymm (List.not_lt.mp hle) (List.not_lt.mp hlt))
      · exact hn _ (List.mem_map_of_mem hm)

theorem sorted_collect (ms : List (Bytes × JsonValue)) : ((collect ms).map Prod.fst).Pairwise (· < ·) := by
  induction ms using List.reverseRecOn with
  | nil                    => exact .nil
  | append_singleton ms m hi =>
    rw [collect, List.foldl_append]
    exact sorted_insertMember hi

theorem mem_collect (h : m ∈ collect ms) : m ∈ ms := by
  induction ms using List.reverseRecOn with
  | nil                      => exact h
  | append_singleton ms n hi =>
    rw [collect, List.foldl_append] at h
    rcases mem_insertMember h with rfl | h
    · exact List.mem_append_right _ List.mem_cons_self
    · exact List.mem_append_left _ (hi h)

theorem regular_of_parseValue (h : parseValue levels s = .ok (v, pos)) :
    v.Regular Double.IsFinite ∧ v.height < levels := by
  induction levels generalizing s v pos with
  | zero           => cases h
  | succ levels hi =>
    cases s with
    | nil      => cases h
    | cons c s =>
      rw [parseValue] at h
      split_ifs at h with hq hn ha ho
      · cases hc : parseChars s with
        | error e => simp [hc, bind, Except.bind] at h
        | ok r    =>
          rw [hc] at h
          cases h
          exact ⟨.string, Nat.succ_pos _⟩
      · obtain ⟨hv, hh⟩ := regular_of_parseNumber h
        exact ⟨hv, hh ▸ Nat.succ_pos _⟩
      · cases hr : parseItems Ascii.closeBracket (parseValue levels) s with
        | error e => simp [hr, bind, Except.bind] at h
        | ok r    =>
          have hall : ∀ v ∈ r.1, v.Regular Double.IsFinite ∧ v.height < levels :=
            forall_of_parseItems (fun s v pos h => hi h) hr
          rw [hr] at h
          cases h
          exact ⟨.array fun v hv => (hall v hv).1, JsonValue.heightItems_lt_iff.mpr fun v hv => (hall v hv).2⟩
      · cases hr : parseItems Ascii.closeBrace (parseMember (parseValue levels)) s with
        | error e => simp [hr, bind, Except.bind] at h
        | ok r    =>
          have hall : ∀ m ∈ r.1, m.2.Regular Double.IsFinite ∧ m.2.height < levels := by
            refine forall_of_parseItems (fun s m pos h => ?_) hr
            obtain ⟨s', pos', hv⟩ := of_parseMember h
            exact hi hv
          rw [hr] at h
          cases h
          exact ⟨.object (sorted_collect _) fun m hm => (hall m (mem_collect hm)).1,
            JsonValue.heightMembers_lt_iff.mpr fun m hm => (hall m (mem_collect hm)).2⟩
      all_goals
        cases h
        exact ⟨by constructor, Nat.succ_pos _⟩

-- The values that are read have finite numbers, sorted and distinct keys, and at most 64 levels below
-- their root.
theorem regular_of_parse (h : parse s = .ok v) : v.Regular Double.IsFinite ∧ v.height ≤ 64 := by
  unfold parse at h
  cases hp : parseValue 65 (skipWhitespace s) with
  | error e => simp [hp, bind, Except.bind] at h
  | ok r    =>
    obtain ⟨w, _ | pos⟩ := r
    · simp [hp, bind, Except.bind] at h
    · have ⟨hw, hh⟩ := regular_of_parseValue hp
      simp only [hp, bind, Except.bind] at h
      split_ifs at h
      cases h
      exact ⟨hw, Nat.lt_succ_iff.mp hh⟩

-- A text that is read and written is read again. Only its numbers may be others, with the same texts.
theorem parse_stringify_of_parse (h : parse s = .ok v) : parse (stringify v) = .ok v.reread ∧
    stringify v.reread = stringify v ∧ v.Regular Double.IsFinite ∧ v.reread.Regular Double.OfMicros := by
  have ⟨hv, hh⟩ := regular_of_parse h
  refine ⟨(parse_of_regular hv).trans (if_pos hh), stringify_reread hv, hv, ?_⟩
  exact hv.reread.imp fun x hx => (Double.reread_eq_iff hx.1).mp hx.2

theorem parse_stringify_of_parse_tenth :
    stringify (JsonValue.reread (JsonValue.reread (.array [.double ⟨0x3FB999999999999A⟩]))) =
      stringify (JsonValue.reread (.array [.double ⟨0x3FB999999999999A⟩])) := by
  have hv : JsonValue.Regular Double.IsFinite (.array [.double ⟨0x3FB999999999999A⟩]) :=
    .array (List.forall_mem_singleton.mpr (.double (by unfold Double.IsFinite; decide)))
  have hh : JsonValue.height (.array [.double ⟨0x3FB999999999999A⟩]) ≤ 64 := by
    simp [JsonValue.height, JsonValue.heightItems]
  exact (parse_stringify_of_parse ((parse_of_regular hv).trans (if_pos hh))).2.1

end Parsed

end Json
end YNet
