import YNet.Util.ConfigParser

open Cpp

namespace YNet

def IsDigits (ds : Bytes) : Prop :=
  ds ≠ [] ∧ ∀ c ∈ ds, isdigit c

theorem IsDigits.digitPrefix {rest : Bytes} (h : IsDigits ds) (hr : ∀ c ∈ rest.head?, ¬isdigit c) :
    digitPrefix 10 (ds ++ rest) = ds :=
  digitPrefix_append (fun c hc => digitValue_lt_ten_iff.mpr (h.2 c hc))
    fun c hc => Nat.not_lt.mp (digitValue_lt_ten_iff.not.mpr (hr c hc))

theorem IsDigits.exists_cons (h : IsDigits ds) : ∃ c cs, ds = c :: cs ∧ isdigit c := by
  cases ds with
  | nil       => exact absurd rfl h.1
  | cons c cs => exact ⟨c, cs, rfl, h.2 c List.mem_cons_self⟩

theorem dropWhile_isspace {blanks s : Bytes} (hb : ∀ c ∈ blanks, isspace c) (hs : ∀ c ∈ s.head?, isspace c = false) :
    (blanks ++ s).dropWhile isspace = s := by
  rw [List.dropWhile_append_of_pos hb]
  cases s with
  | nil      => rfl
  | cons c s => exact List.dropWhile_cons_of_neg (by simpa using hs c rfl)

-- A number with a sign of its own, behind some blanks.
theorem strto_digits {blanks : Bytes} (hb : ∀ c ∈ blanks, isspace c) (hd : IsDigits ds)
    (hs : sg = [] ∧ neg = false ∨ sg = [Ascii.plus] ∧ neg = false ∨ sg = [Ascii.minus] ∧ neg = true) :
    strto 10 (blanks ++ (sg ++ ds)) = some (neg, ofDigits 10 ds) := by
  have ⟨c, cs, hc, hdig⟩ := hd.exists_cons
  have hp : digitPrefix 10 ds = ds := by
    have := hd.digitPrefix (fun c (hc : c ∈ ([] : Bytes).head?) => by simp at hc)
    rwa [List.append_nil] at this
  have hblank : ∀ b ∈ (sg ++ ds).head?, isspace b = false := by
    rcases hs with ⟨rfl, _⟩ | ⟨rfl, _⟩ | ⟨rfl, _⟩
    · rw [hc]
      simpa using isspace_of_isdigit hdig
    · simp only [List.singleton_append, List.head?_cons, Option.mem_def, Option.some.injEq, forall_eq']
      decide
    · simp only [List.singleton_append, List.head?_cons, Option.mem_def, Option.some.injEq, forall_eq']
      decide
  have hsign : sign (sg ++ ds) = (neg, ds) := by
    rcases hs with ⟨rfl, rfl⟩ | ⟨rfl, rfl⟩ | ⟨rfl, rfl⟩
    · rw [hc]
      exact sign_of_isdigit hdig
    · rfl
    · rfl
  simp only [strto, dropWhile_isspace hb hblank, hsign, show (10 : Nat) ≠ 16 by decide, if_false, hp, hd.1]

theorem eq_of_stoi (h : strto 10 s = some (neg, m)) (hn : stoi s = .ok n) : n = signed neg m := by
  rw [stoi, h] at hn
  dsimp only at hn
  split at hn
  case isTrue  => exact (Except.ok.inj hn).symm
  case isFalse => contradiction

section ParseSize

-- What a unit makes of a number.
def scale (unit : Bytes) (num : UInt64) : UInt64 :=
  if unit = ("KB" : Bytes) then num * 1024
  else if unit = ("MB" : Bytes) then num * 1024 * 1024
  else if unit = ("GB" : Bytes) then num * 1024 * 1024 * 1024
  else num

theorem mem_decimal_iff : c ∈ ("0123456789" : Bytes) ↔ isdigit c := by
  have : ∀ n : Fin 256, UInt8.ofNat n ∈ ("0123456789" : Bytes) ↔ isdigit (UInt8.ofNat n) := by decide +kernel
  simpa using this ⟨c.toNat, c.toNat_lt⟩

theorem findFirstNotOf_digits {ds rest : Bytes} (hd : ∀ c ∈ ds, isdigit c) (hr : ∀ c ∈ rest.head?, ¬isdigit c) :
    (ds ++ rest).findFirstNotOf "0123456789" = if rest = [] then none else some ds.length := by
  cases rest with
  | nil         => simpa [Bytes.findFirstNotOf_eq_none_iff, mem_decimal_iff] using hd
  | cons c rest =>
    have hc : c ∉ ("0123456789" : Bytes) := mem_decimal_iff.not.mpr (hr c rfl)
    have hn : ds.findIdx? (· ∉ ("0123456789" : Bytes)) = none := by
      simpa [mem_decimal_iff] using hd
    rw [Bytes.findFirstNotOf, List.drop_zero, List.findIdx?_append, hn, Option.none_or, List.findIdx?_cons]
    simp [hc]

theorem parseSize_append {ds unit : Bytes} (hd : ∀ c ∈ ds, isdigit c) (hu : ∀ c ∈ unit.head?, ¬isdigit c) :
    parseSize (ds ++ unit) = (stoul ds).map fun n => scale unit (.ofNat n) := by
  rw [parseSize, findFirstNotOf_digits hd hu]
  by_cases hn : unit = []
  case pos =>
    subst hn
    rw [if_pos rfl, List.append_nil]
    cases stoul ds <;> rfl
  case neg =>
    rw [if_neg hn]
    dsimp only
    rw [Bytes.substr_of_le (Nat.zero_le _), Bytes.substrFrom_of_le (by simp), List.drop_zero, List.take_left,
      List.drop_left]
    simp only [bind, Except.bind]
    cases stoul ds with
    | error => rfl
    | ok n  =>
      simp only [Except.map, scale]
      split_ifs <;> rfl

theorem stoul_digits (h : ∀ c ∈ ds, isdigit c) :
    stoul ds = if ds = [] then .error .invalidArgument
      else if ofDigits 10 ds < 2 ^ 64 then .ok (ofDigits 10 ds) else .error .outOfRange := by
  by_cases hn : ds = []
  case pos => rw [hn]; rfl
  case neg =>
    have hs : strto 10 ([] ++ ([] ++ ds)) = some (false, ofDigits 10 ds) :=
      strto_digits (by simp) ⟨hn, h⟩ (.inl ⟨rfl, rfl⟩)
    rw [List.nil_append, List.nil_append] at hs
    rw [stoul, hs, if_neg hn]
    rfl

theorem parseSize_returns_iff (value : Bytes) :
    (∃ n, parseSize value = .ok n) ↔ digitPrefix 10 value ≠ [] ∧ ofDigits 10 (digitPrefix 10 value) < 2 ^ 64 := by
  have hd : ∀ c ∈ digitPrefix 10 value, isdigit c := fun c hc =>
    digitValue_lt_ten_iff.mp (by simpa using List.mem_takeWhile_imp hc)
  have hu : ∀ c ∈ (value.dropWhile (digitValue · < 10)).head?, ¬isdigit c := fun c hc hdig => by
    have := List.head?_dropWhile_not (digitValue · < 10) value
    rw [Option.mem_def.mp hc] at this
    simp [digitValue_lt_ten_iff.mpr hdig] at this
  have he : value = digitPrefix 10 value ++ value.dropWhile (digitValue · < 10) :=
    List.takeWhile_append_dropWhile.symm
  conv_lhs => rw [he, parseSize_append hd hu, stoul_digits hd]
  split_ifs with h₁ h₂
  · simp [h₁, Except.map]
  · exact iff_of_true ⟨_, rfl⟩ ⟨h₁, h₂⟩
  · exact iff_of_false (by simp [Except.map]) fun h => h₂ h.2

-- The units with their powers of 1024.
def units : List (Bytes × Nat) :=
  [([], 0), ("KB", 1), ("MB", 2), ("GB", 3)]

theorem scale_ofNat (h : (unit, k) ∈ units) : scale unit (.ofNat n) = .ofNat (n * 1024 ^ k) := by
  simp only [units, List.mem_cons, Prod.mk.injEq, List.not_mem_nil, or_false] at h
  have hk (n : Nat) : UInt64.ofNat (n * 1024) = .ofNat n * 1024 := UInt64.ofNat_mul n 1024
  rcases h with ⟨rfl, rfl⟩ | ⟨rfl, rfl⟩ | ⟨rfl, rfl⟩ | ⟨rfl, rfl⟩
  · rw [pow_zero, mul_one]
    rfl
  · rw [pow_one, hk]
    rfl
  · rw [pow_two, ← mul_assoc, hk, hk]
    rfl
  · rw [pow_succ, pow_two, ← mul_assoc, ← mul_assoc, hk, hk, hk]
    rfl

theorem not_isdigit_of_unit (h : (unit, k) ∈ units) : ∀ c ∈ unit.head?, ¬isdigit c := by
  have : ∀ u ∈ units, ∀ c ∈ u.1.head?.toList, ¬isdigit c := by decide +kernel
  exact fun c hc => this _ h c (by simpa using hc)

end ParseSize

namespace Config

-- The numeric settings that are limits, and the port.
inductive Setting
  | port
  | maxBody
  | maxUpload
  | maxHeader
  | maxHeaders
  | maxConnections
  | maxCache

namespace Setting

def key : Setting → Bytes
  | port           => "port"
  | maxBody        => "max_body"
  | maxUpload      => "max_upload"
  | maxHeader      => "max_header"
  | maxHeaders     => "max_headers"
  | maxConnections => "max_connections"
  | maxCache       => "max_cache"

def field (config : Config) : Setting → Int
  | port           => config.port.toNat
  | maxBody        => config.maxBodySize.toNat
  | maxUpload      => config.maxUploadSize.toNat
  | maxHeader      => config.maxHeaderSize.toNat
  | maxHeaders     => config.maxHeaders.toInt
  | maxConnections => config.maxConnections.toInt
  | maxCache       => config.maxCacheEntries.toNat

def IsSize : Setting → Prop
  | maxBody | maxUpload | maxHeader => True
  | _                               => False

-- Whether the field can hold a number.
def Fits (n : Int) : Setting → Prop
  | port                        => 0 ≤ n ∧ n < 2 ^ 16
  | maxHeaders | maxConnections => -2 ^ 31 ≤ n ∧ n < 2 ^ 31
  | _                           => 0 ≤ n ∧ n < 2 ^ 64

-- The number that a value denotes, which may have a unit if it is a size, and a sign if it is none.
inductive Denotes (s : Setting) : Bytes → Int → Prop
  | unsigned : (¬s.IsSize) → (∀ c ∈ blanks, isspace c) → (IsDigits ds) →
    Denotes s (blanks ++ ([] ++ ds)) (ofDigits 10 ds)
  | positive : (¬s.IsSize) → (∀ c ∈ blanks, isspace c) → (IsDigits ds) →
    Denotes s (blanks ++ ([Ascii.plus] ++ ds)) (ofDigits 10 ds)
  | negative : (¬s.IsSize) → (∀ c ∈ blanks, isspace c) → (IsDigits ds) →
    Denotes s (blanks ++ ([Ascii.minus] ++ ds)) (-ofDigits 10 ds)
  | size : (s.IsSize) → (IsDigits ds) → ((unit, k) ∈ units) →
    Denotes s (ds ++ unit) (ofDigits 10 ds * 1024 ^ k)

variable {s : Setting} {config config' : Config} {value : Bytes} {n : Int}

theorem Denotes.stoi (h : s.Denotes value n) (hs : ¬s.IsSize) (hr : Cpp.stoi value = .ok m) : m = n := by
  cases h with
  | unsigned _ hb hd => exact eq_of_stoi (strto_digits hb hd (.inl ⟨rfl, rfl⟩)) hr
  | positive _ hb hd => exact eq_of_stoi (strto_digits hb hd (.inr (.inl ⟨rfl, rfl⟩))) hr
  | negative _ hb hd => exact eq_of_stoi (strto_digits hb hd (.inr (.inr ⟨rfl, rfl⟩))) hr
  | size hs' _ _     => exact absurd hs' hs

theorem Denotes.parseSize {m : UInt64} (h : s.Denotes value n) (hs : s.IsSize) (hr : YNet.parseSize value = .ok m)
    (hn : n < 2 ^ 64) : (m.toNat : Int) = n := by
  cases h with
  | unsigned hs' | positive hs' | negative hs' => exact absurd hs hs'
  | @size ds unit k _ hd hu                    =>
    rw [parseSize_append hd.2 (not_isdigit_of_unit hu), stoul_digits hd.2, if_neg hd.1] at hr
    split at hr
    case isFalse => simp [Except.map] at hr
    case isTrue  =>
      have hm : scale unit (.ofNat (ofDigits 10 ds)) = m := Except.ok.inj hr
      have hlt : ofDigits 10 ds * 1024 ^ k < 2 ^ 64 := by exact_mod_cast hn
      rw [← hm, scale_ofNat hu, UInt64.toNat_ofNat_of_lt' hlt]
      push_cast
      rfl

theorem ofInt_toNat16 (h : 0 ≤ n) (hn : n < 2 ^ 16) : ((UInt16.ofInt n).toNat : Int) = n := by
  rw [UInt16.ofInt, UInt16.toNat_ofNat']
  omega

theorem ofInt_toNat64 (h : 0 ≤ n) (hn : n < 2 ^ 64) : ((UInt64.ofInt n).toNat : Int) = n := by
  rw [UInt64.ofInt, UInt64.toNat_ofNat']
  omega

-- A number that fits is what the field holds afterwards.
theorem field_assign (h : config.assign s.key value = .ok config') (hd : s.Denotes value n) (hf : s.Fits n) :
    s.field config' = n := by
  cases s with
  | port =>
    have ⟨m, hm, he⟩ := Exn.bind_eq_ok h
    cases he
    rw [← hd.stoi id hm] at hf ⊢
    exact ofInt_toNat16 hf.1 hf.2
  | maxHeaders | maxConnections =>
    have ⟨m, hm, he⟩ := Exn.bind_eq_ok h
    cases he
    rw [← hd.stoi id hm] at hf ⊢
    exact Int32.toInt_ofInt_of_le hf.1 hf.2
  | maxCache =>
    have ⟨m, hm, he⟩ := Exn.bind_eq_ok h
    cases he
    rw [← hd.stoi id hm] at hf ⊢
    exact ofInt_toNat64 hf.1 hf.2
  | maxBody | maxUpload | maxHeader =>
    have ⟨m, hm, he⟩ := Exn.bind_eq_ok h
    cases he
    exact hd.parseSize trivial hm hf.2

end Setting

variable {s : Setting} {config config' : Config} {key value line : Bytes} {lines : List Bytes} {n : Int}

def intKeys : List Bytes :=
  ["port", "max_headers", "header_timeout", "body_timeout", "max_connections", "max_cache"]

def sizeKeys : List Bytes :=
  ["max_body", "max_upload", "max_header"]

-- Whether the conversion of a value comes to a result, no matter what is left behind the digits.
def Readable (key value : Bytes) : Prop :=
  (key ∈ intKeys → ∃ n, stoi value = .ok n) ∧
  (key ∈ sizeKeys → digitPrefix 10 value ≠ [] ∧ ofDigits 10 (digitPrefix 10 value) < 2 ^ 64)

-- What an assignment does: it converts the value or not, and leaves the other settings as they are.
structure Assigns (config : Config) (key : Bytes) (x : Except Exn α) (r : Except Exn Config) (f : α → Config) : Prop where
  eq    : r = x.map f
  frame : ∀ (a : α) (s : Setting), s.key ≠ key → s.field (f a) = s.field config

theorem assign_int (config : Config) (value : Bytes) (h : key ∈ intKeys) :
    ∃ f, Assigns config key (stoi value) (config.assign key value) f := by
  simp only [intKeys, List.mem_cons, List.not_mem_nil, or_false] at h
  rcases h with rfl | rfl | rfl | rfl | rfl | rfl
  all_goals
    refine ⟨_, rfl, fun n s hs => ?_⟩
    cases s <;> first | rfl | exact absurd rfl hs

theorem assign_size (config : Config) (value : Bytes) (h : key ∈ sizeKeys) :
    ∃ f, Assigns config key (parseSize value) (config.assign key value) f := by
  simp only [sizeKeys, List.mem_cons, List.not_mem_nil, or_false] at h
  rcases h with rfl | rfl | rfl
  all_goals
    refine ⟨_, rfl, fun n s hs => ?_⟩
    cases s <;> first | rfl | exact absurd rfl hs

theorem assign_other (config : Config) (value : Bytes) (hi : key ∉ intKeys) (hs : key ∉ sizeKeys) :
    ∃ config', config.assign key value = .ok config' ∧ ∀ s : Setting, s.field config' = s.field config := by
  by_cases h : key ∈ (["bind", "tls", "cert", "key"] : List Bytes)
  case pos =>
    simp only [List.mem_cons, List.not_mem_nil, or_false] at h
    rcases h with rfl | rfl | rfl | rfl
    all_goals
      refine ⟨_, rfl, fun s => ?_⟩
      cases s <;> rfl
  case neg =>
    simp only [intKeys, sizeKeys, List.mem_cons, List.not_mem_nil, or_false, not_or] at h hi hs
    refine ⟨config, ?_, fun _ => rfl⟩
    simp only [assign, h, hi, hs, if_false]
    rfl

theorem Assigns.frame_of_ok {f : α → Config} {x : Except Exn α} (h : Assigns config key x r f) (hr : r = .ok config') (hs : s.key ≠ key) :
    s.field config' = s.field config := by
  rw [h.eq] at hr
  cases x with
  | error => contradiction
  | ok a  => exact Except.ok.inj hr ▸ h.frame a s hs

theorem Assigns.returns_iff {f : α → Config} {x : Except Exn α} (h : Assigns config key x r f) :
    (∃ config', r = .ok config') ↔ ∃ a, x = .ok a := by
  rw [h.eq]
  cases x <;> simp [Except.map]

theorem disjoint_keys (h : key ∈ sizeKeys) : key ∉ intKeys := by
  have : ∀ key ∈ sizeKeys, key ∉ intKeys := by decide +kernel
  exact this key h

theorem assign_returns_iff : (∃ config', config.assign key value = .ok config') ↔ Readable key value := by
  by_cases hs : key ∈ sizeKeys
  case pos =>
    have ⟨_, h⟩ := assign_size config value hs
    simp only [h.returns_iff, Readable, hs, disjoint_keys hs, false_imp_iff, true_imp_iff, true_and, parseSize_returns_iff]
  case neg =>
    by_cases hi : key ∈ intKeys
    case pos =>
      have ⟨_, h⟩ := assign_int config value hi
      simp only [h.returns_iff, Readable, hs, hi, false_imp_iff, true_imp_iff, and_true]
    case neg =>
      have ⟨config', h, _⟩ := assign_other config value hi hs
      exact iff_of_true ⟨config', h⟩ ⟨fun h => absurd h hi, fun h => absurd h hs⟩

theorem assign_frame (h : config.assign key value = .ok config') (hs : s.key ≠ key) : s.field config' = s.field config := by
  by_cases hk : key ∈ sizeKeys
  case pos =>
    have ⟨_, ha⟩ := assign_size config value hk
    exact ha.frame_of_ok h hs
  case neg =>
    by_cases hi : key ∈ intKeys
    case pos =>
      have ⟨_, ha⟩ := assign_int config value hi
      exact ha.frame_of_ok h hs
    case neg =>
      have ⟨_, ha, hf⟩ := assign_other config value hi hk
      cases ha.symm.trans h
      exact hf s

section Lines

-- The key and the value of a line that is not skipped.
def entry (line : Bytes) : Option (Bytes × Bytes) :=
  if line = [] ∨ line.head? = some 0x23 then none
  else some (line.takeWhile (· ≠ Ascii.equals), if Ascii.equals ∈ line then (line.dropWhile (· ≠ Ascii.equals)).tail else line)

theorem parseLine_eq (config : Config) (line : Bytes) :
    config.parseLine line = match entry line with
      | none              => .ok config
      | some (key, value) => config.assign key value := by
  unfold parseLine entry
  by_cases h : line = [] ∨ line.head? = some 0x23
  case pos =>
    rw [if_pos h, if_pos h]
    rfl
  case neg =>
    have hset : ("=" : Bytes) = [Ascii.equals] := rfl
    rw [if_neg h, if_neg h, hset]
    cases hf : line.find [Ascii.equals] with
    | none     =>
      rw [(Bytes.span_of_find_byte_none hf).1, if_neg (Bytes.find_byte_eq_none_iff.mp hf)]
      simp only [Option.getD_none, Option.elim_none, Bytes.substr_of_le (Nat.zero_le _),
        Bytes.substrFrom_of_le (Nat.zero_le _), bind, Except.bind, List.drop_zero, List.take_length]
    | some pos =>
      have ⟨ht, hd⟩ := Bytes.span_of_find_byte hf
      have hl : pos + 1 ≤ line.length := Bytes.find_add_length_le hf
      have hm : Ascii.equals ∈ line := by
        by_contra hm
        exact absurd (hf.symm.trans (Bytes.find_byte_eq_none_iff.mpr hm)) (by simp)
      rw [ht, hd, if_pos hm]
      simp only [Option.getD_some, Option.elim_some, Bytes.substr_of_le (Nat.zero_le _),
        Bytes.substrFrom_of_le hl, bind, Except.bind, List.drop_zero, List.tail_cons]

-- A line is accepted if its value can be converted.
def ReadableLine (line : Bytes) : Prop :=
  ∀ e ∈ entry line, Readable e.1 e.2

theorem parseLine_returns_iff : (∃ config', config.parseLine line = .ok config') ↔ ReadableLine line := by
  rw [parseLine_eq, ReadableLine]
  cases entry line with
  | none   => simp
  | some e => simpa using assign_returns_iff

theorem parseLines_returns_iff : (∃ config', lines.foldlM parseLine config = .ok config') ↔ ∀ line ∈ lines, ReadableLine line := by
  induction lines generalizing config with
  | nil             => simp [pure, Except.pure]
  | cons line lines hi =>
    rw [List.foldlM_cons, List.forall_mem_cons]
    exact (Exn.bind_ok_iff fun _ => hi).trans (and_congr_left' parseLine_returns_iff)

theorem Setting.equals_not_mem_key (s : Setting) : Ascii.equals ∉ s.key ∧ s.key ≠ [] ∧ s.key.head? ≠ some 0x23 := by
  cases s <;> decide +kernel

theorem entry_setting (s : Setting) (value : Bytes) : entry (s.key ++ Ascii.equals :: value) = some (s.key, value) := by
  have ⟨hm, hn, hh⟩ := s.equals_not_mem_key
  have hf := Bytes.find_byte_append (s := value) hm
  have ⟨ht, hd⟩ := Bytes.span_of_find_byte hf
  have hskip : ¬(s.key ++ Ascii.equals :: value = [] ∨ (s.key ++ Ascii.equals :: value).head? = some 0x23) := by
    rw [List.head?_append_of_ne_nil _ hn]
    simp [hh]
  rw [entry, if_neg hskip, if_pos (by simp), ht, hd]
  simp

theorem not_readable_key (s : Setting) : ¬Readable s.key s.key := by
  have hint (h : s.key ∈ intKeys) (he : stoi s.key = .error .invalidArgument) : ¬Readable s.key s.key := fun hr => by
    have ⟨n, hn⟩ := hr.1 h
    cases he.symm.trans hn
  have hsize (h : s.key ∈ sizeKeys) (he : digitPrefix 10 s.key = []) : ¬Readable s.key s.key := fun hr =>
    (hr.2 h).1 he
  cases s with
  | port | maxHeaders | maxConnections | maxCache => exact hint (by decide +kernel) (by decide +kernel)
  | maxBody | maxUpload | maxHeader               => exact hsize (by decide +kernel) (by decide +kernel)

-- Only lines of the usual form set something.
theorem isPrefix_of_entry (h : entry line = some (s.key, value)) (hr : ReadableLine line) :
    s.key ++ [Ascii.equals] <+: line := by
  have hread := hr _ h
  unfold entry at h
  split at h
  case isTrue => contradiction
  case isFalse =>
    have ⟨hk, hv⟩ := Prod.mk.inj (Option.some.inj h)
    by_cases hm : Ascii.equals ∈ line
    case pos =>
      cases hf : line.find [Ascii.equals] with
      | none     => exact absurd hm (Bytes.find_byte_eq_none_iff.mp hf)
      | some pos =>
        have hd := (Bytes.span_of_find_byte hf).2
        have he := List.takeWhile_append_dropWhile (p := (· ≠ Ascii.equals)) (l := line)
        rw [hk, hd] at he
        exact ⟨line.drop (pos + 1), by rw [List.append_assoc]; exact he⟩
    case neg =>
      rw [if_neg hm] at hv
      rw [(Bytes.span_of_find_byte_none (Bytes.find_byte_eq_none_iff.mpr hm)).1] at hk
      rw [← hv, hk] at hread
      exact absurd hread (not_readable_key s)

theorem parseLine_frame (h : config.parseLine line = .ok config') (hn : ¬s.key ++ [Ascii.equals] <+: line) :
    s.field config' = s.field config := by
  have hr := parseLine_returns_iff.mp ⟨config', h⟩
  rw [parseLine_eq] at h
  cases he : entry line with
  | none   => rw [he] at h; exact Except.ok.inj h ▸ rfl
  | some e =>
    rw [he] at h
    refine assign_frame h fun hk => hn (isPrefix_of_entry (?_ : entry line = some (s.key, e.2)) hr)
    rw [he, hk]

theorem parseLines_frame (h : lines.foldlM parseLine config = .ok config')
    (hn : ∀ line ∈ lines, ¬s.key ++ [Ascii.equals] <+: line) : s.field config' = s.field config := by
  induction lines generalizing config with
  | nil             => exact Except.ok.inj h ▸ rfl
  | cons line lines hi =>
    have ⟨hl, hn⟩ := List.forall_mem_cons.mp hn
    rw [List.foldlM_cons] at h
    have ⟨config₁, h₁, h₂⟩ := Exn.bind_eq_ok h
    rw [hi h₂ hn, parseLine_frame h₁ hl]

-- If the configuration is read, then each number in it fits the field that it is for, and the last
-- number for a field is what the field holds.
structure Faithful (dirName text : Bytes) (config : Config) : Prop where
  fits  : ∀ (s : Setting) value n, s.Denotes value n → s.key ++ Ascii.equals :: value ∈ getLines text → s.Fits n
  field : ∀ (s : Setting) value n pre post, s.Denotes value n →
    getLines text = pre ++ (s.key ++ Ascii.equals :: value) :: post →
    (∀ line ∈ post, ¬s.key ++ [Ascii.equals] <+: line) → s.field config = n

theorem loadConfig_eq : loadConfig dirName (some text) true = (getLines text).foldlM parseLine {} := by
  simp [loadConfig]

-- Numbers are read as they are or refused if and only if each of them fits its field, or some value
-- cannot be converted at all.
theorem loadConfig_faithful_iff (dirName text : Bytes) :
    (∀ config, loadConfig dirName (some text) true = .ok config → Faithful dirName text config) ↔
      (∃ line ∈ getLines text, ¬ReadableLine line) ∨
      ∀ (s : Setting) value n, s.Denotes value n → s.key ++ Ascii.equals :: value ∈ getLines text → s.Fits n := by
  simp only [loadConfig_eq]
  constructor
  · intro h
    by_cases hr : ∀ line ∈ getLines text, ReadableLine line
    case neg =>
      rw [not_forall₂] at hr
      exact .inl (by simpa using hr)
    case pos =>
      have ⟨config, hc⟩ : ∃ config, (getLines text).foldlM parseLine {} = .ok config := parseLines_returns_iff.mpr hr
      exact .inr (h config hc).fits
  · rintro (⟨line, hm, hr⟩ | hf) config hc
    · exact absurd (parseLines_returns_iff.mp ⟨config, hc⟩ line hm) hr
    · refine ⟨hf, fun s value n pre post hd he hpost => ?_⟩
      have hn := hf s value n hd (he ▸ List.mem_append_right _ List.mem_cons_self)
      rw [he, List.foldlM_append] at hc
      have ⟨config₁, _, hc⟩ := Exn.bind_eq_ok hc
      rw [List.foldlM_cons] at hc
      have ⟨config₂, h₂, h₃⟩ := Exn.bind_eq_ok hc
      rw [parseLine_eq, entry_setting] at h₂
      rw [parseLines_frame h₃ hpost, Setting.field_assign h₂ hd hn]

-- The port 65616 is read as 80.
theorem not_loadConfig_faithful : ¬∀ (dirName text : Bytes) (config : Config),
    loadConfig dirName (some text) true = .ok config → Faithful dirName text config := by
  intro h
  have hl : getLines "port=65616" = [("port=65616" : Bytes)] := by decide +kernel
  have he : (loadConfig "app" (some "port=65616") true).toOption.map Config.port = some 80 := by decide +kernel
  have ⟨config, hc, _⟩ := Exn.exists_of_map_toOption he
  have hd : Setting.port.Denotes ([] ++ ([] ++ Bytes.ofString "65616")) 65616 :=
    .unsigned id (by simp) ⟨by decide, by decide +kernel⟩
  have hf := (h _ _ config hc).fits .port "65616" 65616 hd (by rw [hl]; exact List.mem_singleton_self _)
  exact absurd hf.2 (by decide)

end Lines

end Config
end YNet
