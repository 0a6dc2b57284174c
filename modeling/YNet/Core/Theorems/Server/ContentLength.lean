import YNet.Core.Theorems.Request.Path
import YNet.Core.Theorems.Server.Receive

open Lines Cpp

namespace YNet

abbrev contentLengthKey : Bytes :=
  "Content-Length"

section Numbers

variable {v : Bytes}

theorem fromChars_of_not_digit (h : ∀ c ∈ v.head?, ¬isdigit c) : fromChars v = none := by
  have : digitPrefix 10 v = [] := by
    cases v with
    | nil      => rfl
    | cons c v => simpa [digitPrefix, digitValue_lt_ten_iff] using h c rfl
  simp [fromChars, this]

theorem stoul_eq_fromChars_iff :
    (stoul v).toOption = fromChars v ↔ (∃ c ∈ v.head?, isdigit c) ∨ (stoul v).toOption = none := by
  by_cases h : ∃ c ∈ v.head?, isdigit c
  case pos =>
    have ⟨c, hc, hd⟩ := h
    have ⟨s, hv⟩ := List.head?_eq_some_iff.mp hc
    subst hv
    exact iff_of_true (stoul_of_digit hd) (.inl h)
  case neg =>
    rw [fromChars_of_not_digit fun c hc hd => h ⟨c, hc, hd⟩]
    exact (or_iff_right h).symm

theorem dropWhile_isspace_blanks :
    (v.dropWhile (· ∈ [Ascii.space, Ascii.tab])).dropWhile isspace = v.dropWhile isspace := by
  induction v with
  | nil         => rfl
  | cons c v hi =>
    by_cases hc : c ∈ [Ascii.space, Ascii.tab]
    case pos =>
      have hs : isspace c := by
        simp only [List.mem_cons, List.not_mem_nil, or_false] at hc
        cases hc <;> (subst c; decide)
      rw [List.dropWhile_cons_of_pos (by simpa using hc), List.dropWhile_cons_of_pos hs, hi]
    case neg => rw [List.dropWhile_cons_of_neg (by simpa using hc)]

theorem stoul_blanks : stoul (v.dropWhile (· ∈ [Ascii.space, Ascii.tab])) = stoul v := by
  simp only [stoul, strto, dropWhile_isspace_blanks]

end Numbers

namespace Message

variable {m : Message}

-- What `parse` compares the length of the body with. There is no result for a header that is no number.
def expectedLength (m : Message) : Option Nat :=
  match m.headers.lookup contentLengthKey with
  | none    => some 0
  | some cl => fromChars cl

-- The header line that decides is the last one with exactly this name. It starts at the position `p`.
def Decides (m : Message) (p : Nat) (v : Bytes) : Prop :=
  ∃ pre l post, m.lines = pre ++ l :: post ∧ p = m.start.length + 2 + (wire pre).length ∧
    field l = some (contentLengthKey, v) ∧ ∀ l' ∈ post, ∀ f ∈ field l', f.1 ≠ contentLengthKey

theorem lookup_foldl_of_ne {fields : List (Bytes × Bytes)} {headers : StringMap} (h : ∀ f ∈ fields, f.1 ≠ key) :
    (fields.foldl insertField headers).lookup key = headers.lookup key := by
  induction fields generalizing headers with
  | nil            => rfl
  | cons f fields hi =>
    have ⟨hf, h⟩ := List.forall_mem_cons.mp h
    rw [List.foldl_cons, hi h, insertField, Finmap.lookup_insert_of_ne _ hf.symm]

theorem Decides.lookup (h : m.Decides p v) : m.headers.lookup contentLengthKey = some v := by
  have ⟨pre, l, post, hm, _, hf, hpost⟩ := h
  have hne : ∀ f ∈ post.filterMap field, f.1 ≠ contentLengthKey := fun f hf =>
    have ⟨l', hl, hf⟩ := List.mem_filterMap.mp hf
    hpost l' hl f hf
  rw [headers, fields, hm, List.filterMap_append, List.filterMap_cons_some hf, List.foldl_append,
    List.foldl_cons, lookup_foldl_of_ne hne]
  exact Finmap.lookup_insert _

theorem expectedLength_of_accepted {m : Message} (h : Request.parse m.bytes config = .ok req)
    (ha : req.parseError = false) (hc : m.headers.lookup contentLengthKey = some cl) :
    m.expectedLength = some m.body.length := by
  rcases Request.parse_cases m config with ⟨_, _, ⟨_, hv⟩, _⟩ | ⟨_, _, _, hr⟩
  · rw [expectedLength, hc]
    exact hv.contentLength cl hc
  · cases h.symm.trans hr
    contradiction

end Message

namespace Server

-- The text behind an announcement, up to the end of its line.
def scanned (raw : Bytes) (pos : Nat) : Bytes :=
  match raw.find crlf pos with
  | some stop => (raw.drop (pos + 16)).take (stop - pos - 16)
  | none      => raw.drop (pos + 16)

theorem contentLength_of_find_none {raw : Bytes} (h : raw.find "Content-Length: " = none) :
    contentLength raw = .ok 0 := by
  simp only [contentLength, h]
  rfl

theorem contentLength_of_find {raw : Bytes} (h : raw.find "Content-Length: " = some pos) :
    contentLength raw = stoul (scanned raw pos) := by
  have hle : pos + 16 ≤ raw.length := Bytes.find_add_length_le h
  cases hs : raw.find crlf pos with
  | none =>
    have hs' : raw.find "\r\n" pos = none := hs
    simp only [contentLength, h, scanned, hs, hs', Bytes.substrFrom_of_le hle]
    rfl
  | some stop =>
    have hs' : raw.find "\r\n" pos = some stop := hs
    simp only [contentLength, h, scanned, hs, hs', Bytes.substr_of_le hle]
    rfl

theorem announcement_eq : Bytes.ofString "Content-Length: " = contentLengthKey ++ [Ascii.colon, Ascii.space] := by
  decide

theorem line_of_field (hf : Message.field l = some (contentLengthKey, v))
    (hp : Bytes.ofString "Content-Length: " <+: l ++ (crlf ++ s)) :
    ∃ r, l = Bytes.ofString "Content-Length: " ++ r ∧ v = r.dropWhile (· ∈ [Ascii.space, Ascii.tab]) := by
  rw [Message.field] at hf
  split at hf
  case isFalse => contradiction
  case isTrue hm =>
    obtain ⟨hk, hv⟩ := Prod.mk.inj (Option.some.inj hf)
    obtain ⟨a, b, he, ha⟩ := List.eq_append_cons_of_mem hm
    have hpos : ∀ c ∈ a, decide (c ≠ Ascii.colon) = true := by
      intro c hc
      simpa using fun h : c = Ascii.colon => ha (h ▸ hc)
    subst he
    rw [List.takeWhile_append_of_pos hpos] at hk
    rw [List.dropWhile_append_of_pos hpos] at hv
    simp only [List.takeWhile_cons, List.dropWhile_cons, ne_eq, not_true_eq_false, decide_false,
      Bool.false_eq_true, if_false, List.append_nil, List.tail_cons] at hk hv
    subst hk
    -- The colon is followed by a blank, which is not a part of the terminator.
    have hb : [Ascii.space] <+: b ++ (crlf ++ s) := by
      rw [announcement_eq, List.append_assoc, List.prefix_append_right_inj] at hp
      exact (List.cons_prefix_cons.mp hp).2
    cases b with
    | nil => exact absurd (List.cons_prefix_cons.mp hb).1 (by decide)
    | cons c r =>
      have hc : Ascii.space = c := (List.cons_prefix_cons.mp hb).1
      subst hc
      exact ⟨r, by simp [announcement_eq], by rw [← hv]; simp⟩

-- A header line that is announced, as both readers see it.
theorem scanned_line {raw : Bytes} (hl : IsLine l) (hle : pos ≤ raw.length)
    (hd : raw.drop pos = l ++ (crlf ++ s)) (hp : Bytes.ofString "Content-Length: " <+: raw.drop pos)
    (hf : Message.field l = some (contentLengthKey, v)) :
    v = (scanned raw pos).dropWhile (· ∈ [Ascii.space, Ascii.tab]) := by
  have ⟨r, hr, hv⟩ := line_of_field hf (hd ▸ hp)
  have hk : (Bytes.ofString "Content-Length: ").length = 16 := rfl
  have hdrop : raw.drop (pos + 16) = r ++ (crlf ++ s) := by
    rw [← List.drop_drop, hd, hr, List.append_assoc, List.drop_left' hk]
  have hlen : pos + l.length - pos - 16 = r.length := by
    rw [hr, List.length_append, hk]
    omega
  rw [hv, scanned, find_crlf_eq hl hle hd]
  dsimp only
  rw [hdrop, hlen, List.take_left]

end Server

-- Two texts that both readers take for the same number, or for none.
def SameNumber (t v : Bytes) : Prop :=
  (stoul t).toOption = fromChars v

-- The cases in which both readers find the same length. In the last one they read different texts.
inductive OneLength (m : Message) : Prop
  | absent :
    (m.bytes.find "Content-Length: " = none) →
    (∀ cl, m.headers.lookup contentLengthKey = some cl → fromChars cl = some 0) → OneLength m
  | header :
    (m.bytes.find "Content-Length: " = some p) → (m.Decides p v) →
    ((∃ c ∈ v.head?, isdigit c) ∨ (stoul v).toOption = none) → OneLength m
  | elsewhere :
    (m.bytes.find "Content-Length: " = some p) → (∀ v, ¬m.Decides p v) →
    (∀ cl, m.headers.lookup contentLengthKey = some cl → SameNumber (Server.scanned m.bytes p) cl) →
    (m.headers.lookup contentLengthKey = none → stoul (Server.scanned m.bytes p) = .ok 0) → OneLength m

theorem Message.Decides.drop_eq {m : Message} (h : m.Decides p v) :
    ∃ l t, IsLine l ∧ p ≤ m.bytes.length ∧ m.bytes.drop p = l ++ (crlf ++ t) ∧
      field l = some (contentLengthKey, v) := by
  have ⟨pre, l, post, hm, hp, hf, _⟩ := h
  have hb : m.bytes = (m.start ++ (crlf ++ wire pre)) ++ (l ++ (crlf ++ (wire post ++ (crlf ++ m.body)))) := by
    simp [Message.bytes, hm, wire_append]
  have hlen : (m.start ++ (crlf ++ wire pre)).length = p := by
    simp only [hp, List.length_append, List.length_cons, List.length_nil]
    omega
  refine ⟨l, wire post ++ (crlf ++ m.body), (m.isLine_lines l ?_).2, ?_, ?_, hf⟩
  · simp [hm]
  · rw [hb, List.length_append, hlen]
    omega
  · rw [hb, List.drop_left' hlen]

theorem Message.expectedLength_of_lookup {m : Message} (h : m.headers.lookup contentLengthKey = some v) :
    m.expectedLength = fromChars v := by
  rw [expectedLength, h]

theorem contentLength_header_iff {m : Message} (hf : m.bytes.find "Content-Length: " = some p)
    (hd : m.Decides p v) : (Server.contentLength m.bytes).toOption = m.expectedLength ↔
      (∃ c ∈ v.head?, isdigit c) ∨ (stoul v).toOption = none := by
  have ⟨l, t, hl, hle, hdrop, hfield⟩ := hd.drop_eq
  have hv := Server.scanned_line hl hle hdrop (Bytes.prefix_drop_of_find hf) hfield
  rw [Server.contentLength_of_find hf, Message.expectedLength_of_lookup hd.lookup, ← stoul_blanks, ← hv]
  exact stoul_eq_fromChars_iff

theorem contentLength_absent_iff {m : Message} (hf : m.bytes.find "Content-Length: " = none) :
    (Server.contentLength m.bytes).toOption = m.expectedLength ↔
      ∀ cl, m.headers.lookup contentLengthKey = some cl → fromChars cl = some 0 := by
  rw [Server.contentLength_of_find_none hf, Message.expectedLength]
  cases m.headers.lookup contentLengthKey with
  | none    => simp [Except.toOption]
  | some cl => simp [Except.toOption, eq_comm]

theorem toOption_eq_some_iff {x : Except Exn α} : x.toOption = some a ↔ x = .ok a := by
  cases x <;> simp [Except.toOption]

theorem contentLength_elsewhere_iff {m : Message} (hf : m.bytes.find "Content-Length: " = some p) :
    (Server.contentLength m.bytes).toOption = m.expectedLength ↔
      (∀ cl, m.headers.lookup contentLengthKey = some cl → SameNumber (Server.scanned m.bytes p) cl) ∧
        (m.headers.lookup contentLengthKey = none → stoul (Server.scanned m.bytes p) = .ok 0) := by
  rw [Server.contentLength_of_find hf, Message.expectedLength]
  cases m.headers.lookup contentLengthKey with
  | none    => simp [toOption_eq_some_iff]
  | some cl => simp [SameNumber]

theorem contentLength_agrees_iff (m : Message) :
    (Server.contentLength m.bytes).toOption = m.expectedLength ↔ OneLength m := by
  constructor
  · intro h
    cases hf : m.bytes.find "Content-Length: " with
    | none   => exact .absent hf ((contentLength_absent_iff hf).mp h)
    | some p =>
      by_cases hd : ∃ v, m.Decides p v
      case pos =>
        have ⟨v, hd⟩ := hd
        exact .header hf hd ((contentLength_header_iff hf hd).mp h)
      case neg =>
        have ⟨hsome, hnone⟩ := (contentLength_elsewhere_iff hf).mp h
        exact .elsewhere hf (fun v hv => hd ⟨v, hv⟩) hsome hnone
  · intro h
    cases h with
    | absent hf h          => exact (contentLength_absent_iff hf).mpr h
    | header hf hd h       => exact (contentLength_header_iff hf hd).mpr h
    | elsewhere hf _ h₁ h₂ => exact (contentLength_elsewhere_iff hf).mpr ⟨h₁, h₂⟩

-- Both readers agree on a text with an empty line exactly in these cases. The last part tells that the
-- expected length is the one that `parse` compares the body with.
theorem lengths_agree_iff (h : raw.find "\r\n\r\n" = some e) : ∃ m : Message, m.bytes = raw ∧
    (∀ m' : Message, m'.bytes = raw → m' = m) ∧ ((Server.contentLength raw).toOption = m.expectedLength ↔ OneLength m) ∧
    ∀ config req, Request.parse raw config = .ok req → req.parseError = false →
      ∀ cl, m.headers.lookup contentLengthKey = some cl → m.expectedLength = some m.body.length := by
  have ⟨m, hm⟩ := Message.exists_of_find_blank h
  subst hm
  exact ⟨m, rfl, fun _ he => Message.bytes_injective he, contentLength_agrees_iff m,
    fun _ _ hp ha _ hc => Message.expectedLength_of_accepted hp ha hc⟩

-- A header whose name ends like that of the length comes first.
def ordered : Message where
  start := "POST / HTTP/1.1"
  lines := ["X-Content-Length:9", "Content-Length: 5", "Host:h"]
  body  := "hello"
  isLine_start := .of_not_mem (by decide +kernel)
  isLine_lines := by
    simpa using ⟨⟨by decide, .of_not_mem (by decide +kernel)⟩, ⟨by decide, .of_not_mem (by decide +kernel)⟩,
      by decide, .of_not_mem (by decide +kernel)⟩

theorem ordered_decides : ordered.Decides 37 "5" :=
  ⟨["X-Content-Length:9"], "Content-Length: 5", ["Host:h"], rfl, by decide +kernel, by decide +kernel, by decide +kernel⟩

theorem lengths_agree_iff_ordered : OneLength ordered ∧ ordered.expectedLength = some 5 ∧
    (Server.contentLength ordered.bytes).toOption = ordered.expectedLength := by
  have ho : OneLength ordered := .header (by decide +kernel) ordered_decides (.inl (by decide +kernel))
  obtain ⟨m, _, hu, hi, _⟩ := lengths_agree_iff ordered.find_blank
  have hm := hu ordered rfl
  subst hm
  exact ⟨ho, by decide +kernel, hi.mpr ho⟩

def unspaced : Message where
  start := "GET / HTTP/1.1"
  lines := ["Content-Length:5"]
  body  := "hello"
  isLine_start := .of_not_mem (by decide +kernel)
  isLine_lines := by simpa using ⟨by decide, .of_not_mem (by decide +kernel)⟩

-- The blank behind the colon is optional for the parser only.
theorem lengths_disagree : unspaced.bytes = "GET / HTTP/1.1\r\nContent-Length:5\r\n\r\nhello" ∧
    Server.contentLength unspaced.bytes = .ok 0 ∧ unspaced.expectedLength = some 5 := by
  refine ⟨by decide +kernel, ?_, by decide +kernel⟩
  exact Server.contentLength_of_find_none (by decide +kernel)

end YNet
