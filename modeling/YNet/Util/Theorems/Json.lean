import YNet.Util.Json

open Cpp

namespace YNet

namespace JsonValue

mutual

-- The number of levels below the root.
def height : JsonValue → Nat
  | .null      => 0
  | .bool _    => 0
  | .int _     => 0
  | .double _  => 0
  | .string _  => 0
  | .array vs  => heightItems vs
  | .object ms => heightMembers ms

def heightItems : List JsonValue → Nat
  | []      => 0
  | v :: vs => max (height v + 1) (heightItems vs)

def heightMembers : List (Bytes × JsonValue) → Nat
  | []           => 0
  | (_, v) :: ms => max (height v + 1) (heightMembers ms)

end

-- The values without floating point numbers, whose objects are sorted as a `std::map` is.
inductive Exact : JsonValue → Prop
  | null   : Exact null
  | bool   : Exact (bool b)
  | int    : Exact (int n)
  | string : Exact (string s)
  | array  : (∀ v ∈ vs, Exact v) → Exact (array vs)
  | object : (ms.map Prod.fst).Pairwise (· < ·) → (∀ m ∈ ms, Exact m.2) → Exact (object ms)

theorem heightItems_lt_iff : heightItems vs < n + 1 ↔ ∀ v ∈ vs, height v < n := by
  induction vs with
  | nil          => simp [heightItems]
  | cons v vs hi => rw [heightItems, max_lt_iff, hi, List.forall_mem_cons, Nat.add_lt_add_iff_right]

theorem heightMembers_lt_iff : heightMembers ms < n + 1 ↔ ∀ m ∈ ms, height m.2 < n := by
  induction ms with
  | nil          => simp [heightMembers]
  | cons m ms hi => rw [heightMembers, max_lt_iff, hi, List.forall_mem_cons, Nat.add_lt_add_iff_right]

end JsonValue

namespace Json

theorem stringifyItems_eq (vs : List JsonValue) : stringifyItems vs = vs.map stringify := by
  induction vs with
  | nil         => rfl
  | cons v vs hi => simp [stringifyItems, hi]

def memberText (m : Bytes × JsonValue) : Bytes :=
  escapeString m.1 ++ Ascii.colon :: stringify m.2

theorem stringifyMembers_eq (ms : List (Bytes × JsonValue)) :
    stringifyMembers ms = ms.map memberText := by
  induction ms with
  | nil         => rfl
  | cons m ms hi => simp [stringifyMembers, hi, memberText]

theorem parseChars_quote : parseChars (Ascii.quote :: s) = .ok ([], some s) := by
  rw [parseChars.eq_def]
  rfl

theorem parseChars_plain (h₁ : c ≠ Ascii.quote) (h₂ : c ≠ Ascii.backslash) :
    parseChars (c :: s) = (parseChars s).map fun r => (c :: r.1, r.2) := by
  rw [parseChars.eq_def]
  simp only [if_neg h₁, if_neg h₂]
  cases parseChars s <;> rfl

theorem parseChars_escaped (h : unescape e = some b) :
    parseChars (Ascii.backslash :: e :: s) = (parseChars s).map fun r => (b :: r.1, r.2) := by
  have hq : Ascii.backslash ≠ Ascii.quote := by decide
  have hn : unescape 'u'.toUInt8 = none := by decide
  have hu : e ≠ 'u'.toUInt8 := by
    rintro rfl
    exact absurd (hn.symm.trans h) (by simp)
  rw [parseChars.eq_def]
  simp only [if_neg hq, if_true, if_neg hu, h]
  cases parseChars s <;> rfl

theorem parseChars_escapeChar (c : UInt8) (s : Bytes) :
    parseChars (escapeChar c ++ s) = (parseChars s).map fun r => (c :: r.1, r.2) := by
  unfold escapeChar
  split_ifs with h₁ h₂ h₃ h₄ h₅ h₆ h₇
  case pos => exact h₁ ▸ @parseChars_escaped Ascii.quote Ascii.quote s rfl
  case pos => exact h₂ ▸ @parseChars_escaped Ascii.backslash Ascii.backslash s rfl
  case pos => exact h₃ ▸ parseChars_escaped rfl
  case pos => exact h₄ ▸ parseChars_escaped rfl
  case pos => exact h₅ ▸ parseChars_escaped rfl
  case pos => exact h₆ ▸ parseChars_escaped rfl
  case pos => exact h₇ ▸ parseChars_escaped rfl
  case neg => exact parseChars_plain h₁ h₂

-- The characters of a string are read back up to the closing quote.
theorem parseChars_flatMap (s rest : Bytes) :
    parseChars (s.flatMap escapeChar ++ Ascii.quote :: rest) = .ok (s, some rest) := by
  induction s with
  | nil         => exact parseChars_quote
  | cons c s hi => rw [List.flatMap_cons, List.append_assoc, parseChars_escapeChar, hi]; rfl

section Items

variable {α : Type} {item : Reader α} {text : α → Bytes} {good : α → Prop} [DecidablePred good]

-- The texts of the items, with a comma between each two.
def itemsText (text : α → Bytes) (vs : List α) : Bytes :=
  [Ascii.comma].intercalate (vs.map text)

@[simp]
theorem itemsText_nil : itemsText text [] = [] :=
  rfl

theorem parseItems_close : parseItems close item (close :: s) = .ok ([], some s) := by
  rw [parseItems, if_pos rfl]
  rfl

theorem parseItems_of_error (h : c ≠ close) (hv : item (c :: s) = .error e) :
    parseItems close item (c :: s) = .error e := by
  rw [parseItems, if_neg h, hv]
  rfl

theorem parseItems_of_ok (h : c ≠ close) (hv : item (c :: s) = .ok (v, some pos))
    (hl : (skipSeparator Ascii.comma pos).length < s.length + 1) : parseItems close item (c :: s) =
      (parseItems close item (skipSeparator Ascii.comma pos)).map fun r => (v :: r.1, r.2) := by
  rw [parseItems, if_neg h, hv]
  simp only [if_pos hl]
  cases parseItems close item (skipSeparator Ascii.comma pos) <;> rfl

-- What follows the text of an item.
def following (close : UInt8) (text : α → Bytes) (vs : List α) (rest : Bytes) : Bytes :=
  if vs = [] then close :: rest else Ascii.comma :: (itemsText text vs ++ close :: rest)

-- A text that starts with another byte than a blank and than the end of the list.
def Starts (close : UInt8) (t : Bytes) : Prop :=
  ∃ c s, t = c :: s ∧ c ≠ close ∧ ¬isWhitespace c

theorem itemsText_cons (v : α) (vs : List α) :
    itemsText text (v :: vs) ++ close :: rest = text v ++ following close text vs rest := by
  cases vs with
  | nil       => simp [following, itemsText]
  | cons w vs => simp [following, itemsText, List.intercalate_cons_cons]

theorem length_following (vs : List α) :
    (itemsText text vs ++ close :: rest).length ≤ (following close text vs rest).length := by
  unfold following
  split
  case isTrue h => simp [h]
  case isFalse  => simp

theorem skipSeparator_following (hc : close ≠ Ascii.comma) (hw : ¬isWhitespace close)
    (h : ∀ v ∈ vs, Starts close (text v)) :
    skipSeparator Ascii.comma (following close text vs rest) = itemsText text vs ++ close :: rest := by
  cases vs with
  | nil       => simp [following, skipSeparator, skipWhitespace, hw, hc]
  | cons v vs =>
    have ⟨c, s, ht, _, hb⟩ := h v List.mem_cons_self
    have hcomma : isWhitespace Ascii.comma = false := by decide
    rw [itemsText_cons, ht, following, if_neg (by simp), itemsText_cons, ht]
    simp [skipSeparator, skipWhitespace, hcomma, hb]

-- The first item that is not good decides on the exception.
theorem parseItems_itemsText (hc : close ≠ Ascii.comma) (hw : ¬isWhitespace close)
    (h : ∀ v ∈ vs, Starts close (text v))
    (hi : ∀ v ∈ vs, ∀ vs' rest, item (text v ++ following close text vs' rest) =
      if good v then .ok (v, some (following close text vs' rest)) else .error e) :
    parseItems close item (itemsText text vs ++ close :: rest) =
      if ∀ v ∈ vs, good v then .ok (vs, some rest) else .error e := by
  induction vs with
  | nil =>
    rw [itemsText_nil, List.nil_append, parseItems_close, if_pos (by simp)]
  | cons v vs ih =>
    have ⟨c, s, ht, hne, _⟩ := h v List.mem_cons_self
    have hv := hi v List.mem_cons_self vs rest
    have h := fun w hw => h w (List.mem_cons_of_mem _ hw)
    have hs : skipSeparator Ascii.comma (following close text vs rest) = itemsText text vs ++ close :: rest :=
      skipSeparator_following hc hw h
    have ih := ih h fun w hw => hi w (List.mem_cons_of_mem _ hw)
    rw [ht, List.cons_append] at hv
    rw [itemsText_cons, ht, List.cons_append]
    by_cases hg : good v
    case neg =>
      rw [if_neg hg] at hv
      rw [parseItems_of_error hne hv, if_neg (by simp [hg])]
    case pos =>
      rw [if_pos hg] at hv
      have hl : (skipSeparator Ascii.comma (following close text vs rest)).length <
          (s ++ following close text vs rest).length + 1 := by
        have : (itemsText text vs ++ close :: rest).length ≤ (following close text vs rest).length :=
          length_following vs
        rw [hs]
        simp only [List.length_append] at this ⊢
        omega
      rw [parseItems_of_ok hne hv hl, hs, ih]
      simp only [List.forall_mem_cons, hg, true_and]
      split <;> rfl

end Items

section Numbers

theorem toString_digits (n : Int) : ∃ neg : Bool, ∃ m, signed neg m = n ∧
    Cpp.toString n = (if neg then [Ascii.minus] else []) ++ natToString m := by
  unfold Cpp.toString
  split
  case isTrue h  => exact ⟨true, n.natAbs, by simp [abs_of_neg h], rfl⟩
  case isFalse h => exact ⟨false, n.natAbs, by simpa using not_lt.mp h, rfl⟩

theorem toString_starts (n : Int) :
    ∃ c s, Cpp.toString n = c :: s ∧ (isdigit c ∨ c = Ascii.minus) ∧ ∀ b ∈ s, isdigit b := by
  have ⟨neg, m, _, he⟩ := toString_digits n
  cases neg with
  | true  => exact ⟨_, _, he, .inr rfl, fun b hb => natToString_digits b hb⟩
  | false =>
    have he : Cpp.toString n = natToString m := he
    cases hm : natToString m with
    | nil       => exact absurd hm natToString_ne_nil
    | cons c ds =>
      have hd := fun b hb => natToString_digits (n := m) b hb
      rw [hm, List.forall_mem_cons] at hd
      exact ⟨c, ds, he.trans hm, .inl hd.1, hd.2⟩

theorem stoll_toString (n : Int64) : stoll (Cpp.toString n.toInt) = .ok n := by
  have h := strto_toString (n := n.toInt) (s := []) (by simp)
  rw [List.append_nil] at h
  have ⟨r, hr, hs⟩ := Option.map_eq_some_iff.mp h
  have hl := n.le_toInt
  have hu := n.toInt_lt
  simp only [stoll, hr]
  rw [hs, if_pos ⟨hl, hu⟩, Int64.ofInt_toInt]

theorem isNumberByte_of (h : isdigit c ∨ c = Ascii.minus) : isNumberByte c := by
  cases h
  case inl h => simp [isNumberByte, h]
  case inr h => simp [isNumberByte, h]

theorem isdigit_ne {b : UInt8} (h : isdigit c) (hb : ¬isdigit b) : c ≠ b :=
  fun he => hb (he ▸ h)

theorem span_number {ds : Bytes} (h : ∀ b ∈ ds, isNumberByte b) (hr : ∀ c ∈ rest.head?, ¬isNumberByte c) :
    (ds ++ rest).takeWhile isNumberByte = ds ∧ (ds ++ rest).dropWhile isNumberByte = rest := by
  rw [List.takeWhile_append_of_pos h, List.dropWhile_append_of_pos h]
  cases rest with
  | nil      => simp
  | cons c s => simp_all

theorem parseNumber_toString (n : Int64) (hr : ∀ c ∈ rest.head?, ¬isNumberByte c) :
    parseNumber (Cpp.toString n.toInt ++ rest) = .ok (.int n, some rest) := by
  have ⟨c, s, he, hc, hs⟩ := toString_starts n.toInt
  have hb : ∀ b ∈ c :: s, isNumberByte b :=
    List.forall_mem_cons.mpr ⟨isNumberByte_of hc, fun b hb => isNumberByte_of (.inl (hs b hb))⟩
  have ⟨ht, hd⟩ := span_number hb hr
  have hminus : Ascii.minus ∉ s := fun h => isdigit_ne (hs _ h) (by decide) rfl
  have hdot : Ascii.dot ∉ c :: s := by
    rw [List.mem_cons, not_or]
    refine ⟨fun h => ?_, fun h => isdigit_ne (hs _ h) (by decide) rfl⟩
    subst h
    exact absurd hc (by decide)
  have hcount : (c :: s).count Ascii.minus ≤ 1 := by
    rw [List.count_cons, List.count_eq_zero.mpr hminus]
    split <;> omega
  have hll : stoll (c :: s) = .ok n := he ▸ stoll_toString n
  have hc0 := List.count_eq_zero.mpr hdot
  rw [he]
  simp only [parseNumber, ht, hd, List.tail_cons, if_neg hminus, if_neg hdot, hll, hc0]
  rw [if_neg (by simp), if_neg (by omega)]
  rfl

end Numbers

section Members

theorem insertMember_append (h : ∀ m ∈ ms, m.1 < key) :
    insertMember key v ms = ms ++ [(key, v)] := by
  induction ms with
  | nil          => rfl
  | cons m ms hi =>
    have ⟨hm, h⟩ := List.forall_mem_cons.mp h
    have hne : key ≠ m.1 := fun he => List.lt_irrefl _ (he ▸ hm)
    rw [insertMember, if_neg (List.lt_asymm hm), if_neg hne, hi h, List.cons_append]

-- The members of a sorted object are inserted one behind the other.
theorem collect_eq (h : (ms.map Prod.fst).Pairwise (· < ·)) : collect ms = ms := by
  have hfold (acc : List (Bytes × JsonValue)) (h : ((acc ++ ms).map Prod.fst).Pairwise (· < ·)) :
      ms.foldl (fun datas m => insertMember m.1 m.2 datas) acc = acc ++ ms := by
    induction ms generalizing acc with
    | nil          => simp
    | cons m ms hi =>
      have hlt : ∀ m' ∈ acc, m'.1 < m.1 := by
        intro m' hm'
        rw [List.map_append] at h
        exact (List.pairwise_append.mp h).2.2 _ (List.mem_map_of_mem hm') _ List.mem_cons_self
      have h : ((acc ++ [m] ++ ms).map Prod.fst).Pairwise (· < ·) := by simpa using h
      have hms : (ms.map Prod.fst).Pairwise (· < ·) := (List.pairwise_append.mp (List.map_append ▸ h)).2.1
      rw [List.foldl_cons, insertMember_append hlt, hi hms _ h, List.append_assoc]
      rfl
  exact hfold [] h

theorem parseMember_memberText {value : Reader JsonValue} {m : Bytes × JsonValue}
    (h : ∃ c s, stringify m.2 = c :: s ∧ ¬isWhitespace c) :
    parseMember value (memberText m ++ rest) =
      (value (stringify m.2 ++ rest)).map fun r => ((m.1, r.1), r.2) := by
  have ⟨c, s, hs, hw⟩ := h
  have hq : isWhitespace Ascii.quote = false := by decide
  have hcolon : isWhitespace Ascii.colon = false := by decide
  have hm : memberText m ++ rest = Ascii.quote :: (m.1.flatMap escapeChar ++
      Ascii.quote :: (Ascii.colon :: (stringify m.2 ++ rest))) := by
    simp [memberText, escapeString]
  have hsep : skipSeparator Ascii.colon (Ascii.colon :: (stringify m.2 ++ rest)) = stringify m.2 ++ rest := by
    simp [skipSeparator, skipWhitespace, hcolon, hs, hw]
  rw [hm, parseMember, skipWhitespace, List.dropWhile_cons_of_neg (by simp [hq])]
  simp only [ne_eq, not_true_eq_false, if_false, parseChars_flatMap, bind, Except.bind, hsep]
  cases value (stringify m.2 ++ rest) <;> rfl

end Members

-- The exception for a value below the last level.
abbrev tooDeep : Failure :=
  runtimeError "max nesting depth exceeded"

theorem stringify_starts (h : v.Exact) (hc : close ∈ [Ascii.closeBracket, Ascii.closeBrace]) :
    Starts close (stringify v) := by
  have hlit : ∀ c ∈ ([0x6E, 0x74, 0x66, Ascii.quote, Ascii.minus, Ascii.openBracket, Ascii.openBrace] : Bytes),
      ∀ close ∈ [Ascii.closeBracket, Ascii.closeBrace], c ≠ close ∧ ¬isWhitespace c := by
    decide +kernel
  cases h
  case null       => exact ⟨0x6E, _, rfl, hlit _ (by simp) _ hc⟩
  case bool b     =>
    cases b
    case false    => exact ⟨0x66, _, rfl, hlit _ (by simp) _ hc⟩
    case true     => exact ⟨0x74, _, rfl, hlit _ (by simp) _ hc⟩
  case string     => exact ⟨Ascii.quote, _, rfl, hlit _ (by simp) _ hc⟩
  case array      => exact ⟨Ascii.openBracket, _, by rw [stringify]; rfl, hlit _ (by simp) _ hc⟩
  case object     => exact ⟨Ascii.openBrace, _, by rw [stringify]; rfl, hlit _ (by simp) _ hc⟩
  case int n      =>
    have ⟨c, s, he, hd, _⟩ := toString_starts n.toInt
    refine ⟨c, s, he, ?_⟩
    cases hd
    case inr hm => exact hm ▸ hlit _ (by simp) _ hc
    case inl hd =>
      have hdigit : ∀ c, isdigit c → ∀ close ∈ [Ascii.closeBracket, Ascii.closeBrace],
          c ≠ close ∧ ¬isWhitespace c := by
        decide +kernel
      exact hdigit c hd close hc

theorem parseValue_int (n : Int64) (hr : ∀ c ∈ rest.head?, ¬isNumberByte c) :
    parseValue (levels + 1) (Cpp.toString n.toInt ++ rest) = .ok (.int n, some rest) := by
  have ⟨c, s, he, hd, _⟩ := toString_starts n.toInt
  have hq : c ≠ Ascii.quote := by
    rintro rfl
    exact absurd hd (by decide)
  have hp := parseNumber_toString n hr
  rw [he, List.cons_append] at hp
  rw [he, List.cons_append, parseValue, if_neg hq, if_pos hd, hp]

theorem skip_append {a : Bytes} (h : a.length = n) : skip n (a ++ rest) = some rest := by
  subst h
  simp [skip]

theorem parseValue_null : parseValue (levels + 1) (Bytes.ofString "null" ++ rest) = .ok (.null, some rest) := by
  have hs : skip 4 (Bytes.ofString "null" ++ rest) = some rest := skip_append rfl
  have he : Bytes.ofString "null" ++ rest = 0x6E :: (Bytes.ofString "ull" ++ rest) := rfl
  rw [he] at hs ⊢
  rw [parseValue, if_neg (by decide), if_neg (by decide), if_neg (by decide), if_neg (by decide),
    if_neg (by decide), if_neg (by decide), if_pos (by decide), hs]
  rfl

theorem parseValue_bool (b : Bool) : parseValue (levels + 1) ((if b then Bytes.ofString "true"
    else Bytes.ofString "false") ++ rest) = .ok (.bool b, some rest) := by
  cases b
  case true =>
    have hs : skip 4 (Bytes.ofString "true" ++ rest) = some rest := skip_append rfl
    have he : Bytes.ofString "true" ++ rest = 0x74 :: (Bytes.ofString "rue" ++ rest) := rfl
    rw [if_pos rfl]
    rw [he] at hs ⊢
    rw [parseValue, if_neg (by decide), if_neg (by decide), if_neg (by decide), if_neg (by decide),
      if_pos (by decide), hs]
    rfl
  case false =>
    have hs : skip 5 (Bytes.ofString "false" ++ rest) = some rest := skip_append rfl
    have he : Bytes.ofString "false" ++ rest = 0x66 :: (Bytes.ofString "alse" ++ rest) := rfl
    rw [if_neg (by decide)]
    rw [he] at hs ⊢
    rw [parseValue, if_neg (by decide), if_neg (by decide), if_neg (by decide), if_neg (by decide),
      if_neg (by decide), if_pos (by decide), hs]
    rfl

theorem parseValue_string (s : Bytes) :
    parseValue (levels + 1) (escapeString s ++ rest) = .ok (.string s, some rest) := by
  have he : escapeString s ++ rest = Ascii.quote :: (s.flatMap escapeChar ++ Ascii.quote :: rest) := by
    simp [escapeString]
  rw [he, parseValue, if_pos rfl, parseChars_flatMap]
  rfl

theorem parseValue_array (s : Bytes) : parseValue (levels + 1) (Ascii.openBracket :: s) =
    (parseItems Ascii.closeBracket (parseValue levels) s).map fun r => (.array r.1, r.2) := by
  rw [parseValue, if_neg (by decide), if_neg (by decide), if_pos rfl]
  cases parseItems Ascii.closeBracket (parseValue levels) s <;> rfl

theorem parseValue_object (s : Bytes) : parseValue (levels + 1) (Ascii.openBrace :: s) =
    (parseItems Ascii.closeBrace (parseMember (parseValue levels)) s).map fun r =>
      (.object (collect r.1), r.2) := by
  rw [parseValue, if_neg (by decide), if_neg (by decide), if_neg (by decide), if_pos rfl]
  cases parseItems Ascii.closeBrace (parseMember (parseValue levels)) s <;> rfl

theorem head_following (hc : ¬isNumberByte close) :
    ∀ c ∈ (following close text vs rest).head?, ¬isNumberByte c := by
  have hcomma : ¬isNumberByte Ascii.comma := by decide
  unfold following
  split <;> simp_all

theorem stringify_array (vs : List JsonValue) (rest : Bytes) : stringify (.array vs) ++ rest =
    Ascii.openBracket :: (itemsText stringify vs ++ Ascii.closeBracket :: rest) := by
  simp [stringify, stringifyItems_eq, itemsText]

theorem stringify_object (ms : List (Bytes × JsonValue)) (rest : Bytes) : stringify (.object ms) ++ rest =
    Ascii.openBrace :: (itemsText memberText ms ++ Ascii.closeBrace :: rest) := by
  simp [stringify, stringifyMembers_eq, itemsText]

section Values

variable {v : JsonValue} {vs : List JsonValue} {ms : List (Bytes × JsonValue)} {rest : Bytes}

-- The text of a value is read back if the value has not more levels than are left.
theorem parseValue_stringify (h : v.Exact) (hr : ∀ c ∈ rest.head?, ¬isNumberByte c) :
    parseValue levels (stringify v ++ rest) =
      if v.height < levels then .ok (v, some rest) else .error tooDeep := by
  induction levels generalizing v rest with
  | zero           => rw [parseValue, if_neg (Nat.not_lt_zero _)]; rfl
  | succ levels hi =>
    cases h
    case null       => rw [stringify, parseValue_null, if_pos (by simp [JsonValue.height])]
    case bool b     => rw [stringify, parseValue_bool, if_pos (by simp [JsonValue.height])]
    case string s   => rw [stringify, parseValue_string, if_pos (by simp [JsonValue.height])]
    case int n      => rw [stringify, parseValue_int n hr, if_pos (by simp [JsonValue.height])]
    case array vs h =>
      have hs : ∀ v ∈ vs, Starts Ascii.closeBracket (stringify v) :=
        fun v hv => stringify_starts (h v hv) (by simp)
      have hv : ∀ v ∈ vs, ∀ vs' rest, parseValue levels
          (stringify v ++ following Ascii.closeBracket stringify vs' rest) =
            if v.height < levels then .ok (v, some (following Ascii.closeBracket stringify vs' rest))
            else .error tooDeep :=
        fun v hv vs' rest => hi (h v hv) (head_following (by decide))
      rw [stringify_array, parseValue_array, parseItems_itemsText (by decide) (by decide) hs hv, JsonValue.height]
      simp only [JsonValue.heightItems_lt_iff]
      split <;> rfl
    case object ms hk h =>
      have hs : ∀ m ∈ ms, Starts Ascii.closeBrace (memberText m) :=
        fun m _ => ⟨Ascii.quote, _, rfl, by decide, by decide⟩
      have hv : ∀ m ∈ ms, ∀ ms' rest, parseMember (parseValue levels)
          (memberText m ++ following Ascii.closeBrace memberText ms' rest) =
            if m.2.height < levels then .ok (m, some (following Ascii.closeBrace memberText ms' rest))
            else .error tooDeep := by
        intro m hm ms' rest
        have hst : Starts Ascii.closeBrace (stringify m.2) := stringify_starts (h m hm) (by simp)
        have ⟨c, s, he, _, hw⟩ := hst
        rw [parseMember_memberText ⟨c, s, he, hw⟩, hi (h m hm) (head_following (by decide))]
        split <;> rfl
      rw [stringify_object, parseValue_object, parseItems_itemsText (by decide) (by decide) hs hv, JsonValue.height]
      simp only [JsonValue.heightMembers_lt_iff]
      split
      case isTrue  => rw [Except.map, collect_eq hk]
      case isFalse => rfl

end Values

-- A value without floating point numbers survives the conversion to a text exactly when it has at
-- most 64 levels below its root.
theorem parse_stringify (h : v.Exact) :
    parse (stringify v) = if v.height ≤ 64 then .ok v else .error tooDeep := by
  have hst : Starts Ascii.closeBrace (stringify v) := stringify_starts h (by simp)
  have ⟨c, s, he, _, hw⟩ := hst
  have hs : skipWhitespace (stringify v) = stringify v := by
    rw [skipWhitespace, he, List.dropWhile_cons_of_neg hw]
  have hp : parseValue 65 (stringify v ++ []) = if v.height < 65 then .ok (v, some []) else .error tooDeep :=
    parseValue_stringify h (by simp)
  rw [List.append_nil] at hp
  simp only [parse, hs, hp, Nat.lt_succ_iff]
  split <;> rfl

theorem parse_stringify_sample :
    parse (stringify (.array [.int (-5), .object [("k", .string "\"\n"), ("l", .null)]])) =
      .ok (.array [.int (-5), .object [("k", .string "\"\n"), ("l", .null)]]) := by
  have hk : (("k" : Bytes), JsonValue.string "\"\n").1 < (("l" : Bytes), JsonValue.null).1 := by decide
  have h : JsonValue.Exact (.array [.int (-5), .object [("k", .string "\"\n"), ("l", .null)]]) := by
    refine .array (List.forall_mem_cons.mpr ⟨.int, List.forall_mem_singleton.mpr ?_⟩)
    refine .object (List.pairwise_pair.mpr hk) ?_
    exact List.forall_mem_cons.mpr ⟨.string, List.forall_mem_singleton.mpr .null⟩
  have hh : JsonValue.height (.array [.int (-5), .object [("k", .string "\"\n"), ("l", .null)]]) ≤ 64 := by
    simp [JsonValue.height, JsonValue.heightItems, JsonValue.heightMembers]
  exact (parse_stringify h).trans (if_pos hh)

end Json
end YNet
