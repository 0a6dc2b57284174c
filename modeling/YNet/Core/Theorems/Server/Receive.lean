import YNet.Core.Server
import YNet.Core.Theorems.Request.Roundtrip

open Lines Cpp

namespace YNet.Server

section Chunks

def payload (cs : List Chunk) : Bytes :=
  cs.flatMap Chunk.bytes

@[simp]
theorem payload_nil : payload [] = [] :=
  rfl

@[simp]
theorem payload_cons : payload (c :: cs) = c.bytes ++ payload cs :=
  rfl

theorem payload_eq_nil_iff {cs : List Chunk} : payload cs = [] ↔ cs = [] := by
  cases cs <;> simp [Chunk.ne_nil]

-- The number of chunks that are needed for the first `n` bytes.
def covering : Nat → List Chunk → Nat
  | _, []      => 0
  | n, c :: cs => if n ≤ c.bytes.length then 1 else covering (n - c.bytes.length) cs + 1

end Chunks

section ReadHead

variable {cs : List Chunk}

theorem readHead_chunks (raw : Bytes) (rest : List (Option Chunk)) (he : (raw ++ payload cs).find blank = some e) (hl : raw.length < e + 4) :
    readHead raw (cs.map some ++ rest) =
      (raw ++ payload (cs.take (covering (e + 4 - raw.length) cs)),
        (cs.drop (covering (e + 4 - raw.length) cs)).map some ++ rest) := by
  induction cs generalizing raw
  case nil =>
    have : e + 4 ≤ _ := Bytes.find_add_length_le he
    simp at this
    omega
  case cons c cs hi =>
    rw [payload_cons, ← List.append_assoc] at he
    by_cases hc : e + 4 ≤ (raw ++ c.bytes).length
    case pos =>
      have hf : (raw ++ c.bytes).find "\r\n\r\n" = some e := Bytes.find_prefix he hc
      have hcov : covering (e + 4 - raw.length) (c :: cs) = 1 := by
        rw [List.length_append] at hc
        exact if_pos (by omega)
      simp [readHead, hf, hcov]
    case neg =>
      have hf : (raw ++ c.bytes).find "\r\n\r\n" = none :=
        Bytes.find_prefix_none he (not_le.mp hc)
      have hcov : covering (e + 4 - raw.length) (c :: cs)
          = covering (e + 4 - (raw ++ c.bytes).length) cs + 1 := by
        rw [List.length_append] at hc ⊢
        rw [covering, if_neg (by omega), Nat.sub_sub]
      have := hi (raw ++ c.bytes) he (by omega)
      simp only [List.map_cons, List.cons_append, readHead, hf, Option.isSome_none, Bool.false_eq_true,
        if_false, this, hcov, List.take_succ_cons, List.drop_succ_cons, payload_cons, List.append_assoc]

end ReadHead

section ReadBody

variable {cs : List Chunk} {rest : List (Option Chunk)} {raw : Bytes} {reads : Nat}

-- The second loop reads all chunks: the last one is needed, and the limit is not reached before.
def ReadsAll (bodyStart length : Nat) (raw : Bytes) (reads : Nat) (cs : List Chunk) : Prop :=
  cs = [] ∨ ((raw ++ payload cs.dropLast).length - bodyStart < length ∧
    (cs.length : Int) ≤ max (maxReads length - reads) 0 + 1)

theorem readsAll_single (h : raw.length - bodyStart < length) :
    ReadsAll bodyStart length raw reads [c] := by
  refine .inr ⟨by simpa using h, ?_⟩
  simp

theorem readsAll_cons (hn : cs ≠ []) :
    ReadsAll bodyStart length raw reads (c :: cs) ↔
      ((reads + 1 : Int) ≤ maxReads length ∧
        ReadsAll bodyStart length (raw ++ c.bytes) (reads + 1) cs) := by
  have hp : payload (c :: cs).dropLast = c.bytes ++ payload cs.dropLast := by
    rw [List.dropLast_cons_of_ne_nil hn, payload_cons]
  have : 0 < cs.length := List.length_pos_iff.mpr hn
  simp only [ReadsAll, hp, hn, reduceCtorEq, false_or, ← List.append_assoc, List.length_cons]
  push_cast
  constructor
  · rintro ⟨h₁, h₂⟩
    exact ⟨by omega, h₁, by omega⟩
  · rintro ⟨h₁, h₂, h₃⟩
    exact ⟨h₂, by omega⟩

theorem not_readsAll (hl : ¬raw.length - bodyStart < length) :
    ¬ReadsAll bodyStart length raw reads (c :: cs) := by
  rintro (h | ⟨h, _⟩)
  · contradiction
  · simp only [List.length_append] at h
    omega

theorem readBody_iff (reads : Nat) :
    (readBody bodyStart length raw reads (cs.map some)).1 = raw ++ payload cs ↔
      ReadsAll bodyStart length raw reads cs := by
  induction cs generalizing raw reads
  case nil => simp [readBody, ReadsAll]
  case cons c cs hi =>
    rw [List.map_cons, readBody]
    by_cases hl : raw.length - bodyStart < length
    case neg =>
      rw [if_neg hl]
      simp only [not_readsAll hl, iff_false]
      simp [c.ne_nil]
    case pos =>
      rw [if_pos hl]
      dsimp only
      by_cases hn : cs = []
      case pos =>
        subst hn
        refine iff_of_true ?_ (readsAll_single hl)
        split <;> simp [readBody]
      case neg =>
        rw [readsAll_cons hn, payload_cons, ← List.append_assoc]
        by_cases hr : (reads + 1 : Int) > maxReads length
        case pos =>
          rw [if_pos hr]
          simp [payload_eq_nil_iff, hn]
          omega
        case neg =>
          rw [if_neg hr]
          have := @hi (raw ++ c.bytes) (reads + 1)
          push_cast at this
          rw [this]
          simp only [not_lt.mp hr, true_and]

theorem readBody_stop {reads : Int} (hl : length ≤ raw.length - bodyStart) :
    readBody bodyStart length raw reads rest = (raw, rest) := by
  cases rest
  case nil                => rfl
  case cons result rest =>
    cases result <;> simp [readBody, not_lt.mpr hl]

-- The loop stops behind the chunks when it has all announced bytes, or has reached the limit.
theorem readBody_rest (rest : List (Option Chunk)) (h : ReadsAll bodyStart length raw reads cs)
    (hl : length ≤ (raw ++ payload cs).length - bodyStart ∨
      (cs.length : Int) = max (maxReads length - reads) 0 + 1 ∨ rest = []) :
    readBody bodyStart length raw reads (cs.map some ++ rest) = (raw ++ payload cs, rest) := by
  induction cs generalizing raw reads
  case nil =>
    simp only [payload_nil, List.append_nil, List.length_nil, List.map_nil, List.nil_append] at hl ⊢
    rcases hl with hl | hl | rfl
    · exact readBody_stop hl
    · omega
    · rfl
  case cons c cs hi =>
    have hlt : raw.length - bodyStart < length := by_contra fun hn => not_readsAll hn h
    rw [payload_cons, ← List.append_assoc, List.length_cons] at hl
    rw [payload_cons, ← List.append_assoc]
    simp only [List.map_cons, List.cons_append, readBody, hlt, if_true]
    by_cases hn : cs = []
    case pos =>
      subst hn
      rw [payload_nil, List.append_nil] at hl ⊢
      split
      case isTrue => rfl
      case isFalse hr =>
        rcases hl with hl | hl | rfl
        · exact readBody_stop hl
        · rw [List.length_nil] at hl
          omega
        · rfl
    case neg =>
      have ⟨hr, h⟩ := (readsAll_cons hn).mp h
      have := List.length_pos_iff.mpr hn
      rw [if_neg (by omega)]
      exact hi h (hl.imp_right (.imp_left fun hl => by push_cast at hl ⊢; omega))

end ReadBody

section Announces

-- The first length that occurs in the text. It need not be that of the header.
def Announces (r : Bytes) (n : Nat) : Prop :=
  ∃ pos stop, r.find "Content-Length: " = some pos ∧ r.find "\r\n" pos = some stop ∧
    stoul ((r.drop (pos + 16)).take (stop - pos - 16)) = .ok n

-- The head of the message is enough to find the length.
theorem contentLength_iff {raw t : Bytes} (hb : blank <+: (raw ++ t).drop e) (he : e + 4 ≤ raw.length)
    (hp : Bytes.ofString "Content-Length: " <+: (raw ++ t).drop p) (hpe : p ≤ e)
    (hpr : p + 16 ≤ raw.length) : contentLength raw = .ok n ↔ Announces (raw ++ t) n := by
  have hle : e ≤ (raw ++ t).length := by
    rw [List.length_append]
    omega
  have ⟨pos, hf, hpos⟩ := Bytes.find_isSome_of_prefix hp (by omega) p.zero_le
  have ⟨stop, hs, hstop⟩ := Bytes.find_isSome_of_prefix (isPrefix_of_blank hb) hle (by omega : pos ≤ e)
  have hf' : raw.find "Content-Length: " = some pos :=
    Bytes.find_prefix hf (show pos + 16 ≤ raw.length by omega)
  have hs' : raw.find "\r\n" pos = some stop :=
    Bytes.find_prefix hs (show stop + 2 ≤ raw.length by omega)
  have hsub : raw.substr (pos + 16) (stop - pos - 16)
      = .ok (((raw ++ t).drop (pos + 16)).take (stop - pos - 16)) := by
    rw [Bytes.substr_of_le (by omega), List.drop_append_of_le_length (by omega),
      List.take_append_of_le_length (by simp; omega)]
  have hc : contentLength raw = stoul (((raw ++ t).drop (pos + 16)).take (stop - pos - 16)) := by
    simp only [contentLength, hf', hs', hsub]
    rfl
  rw [hc]
  refine ⟨fun h => ⟨pos, stop, hf, hs, h⟩, fun ⟨pos', stop', h₁, h₂, h⟩ => ?_⟩
  cases h₁.symm.trans hf
  cases h₂.symm.trans hs
  exact h

end Announces

section Receive

variable {config : Config} {cs : List Chunk}

-- The chunks are read as a whole: all bytes behind the head arrive together with it, or the last
-- chunk is needed for the announced length and the number of reads is not exceeded before.
def ReadsWhole (config : Config) (headEnd : Nat) (cs : List Chunk) : Prop :=
  ∃ n, Announces (payload cs) n ∧ n ≤ config.maxUploadSize.toNat ∧
    (cs.length ≤ covering (headEnd + 4) cs ∨
      ((payload cs.dropLast).length - (headEnd + 4) < n ∧
        (cs.length : Int) ≤ covering (headEnd + 4) cs + (max (maxReads n) 0 + 1)))

theorem covering_spec (h : n ≤ (payload cs).length) :
    covering n cs ≤ cs.length ∧ n ≤ (payload (cs.take (covering n cs))).length := by
  induction cs generalizing n
  case nil => simpa [covering] using h
  case cons c cs hi =>
    rw [covering]
    split
    case isTrue hc  => simpa using hc
    case isFalse hc =>
      rw [payload_cons, List.length_append] at h
      have ⟨h₁, h₂⟩ := hi (n := n - c.bytes.length) (by omega)
      simp only [List.length_cons, List.take_succ_cons, payload_cons, List.length_append]
      omega

theorem payload_take_append_drop : payload (cs.take k) ++ payload (cs.drop k) = payload cs := by
  simp [payload, ← List.flatMap_append]

theorem readsAll_drop_iff (hk : k ≤ cs.length) :
    ReadsAll bodyStart n (payload (cs.take k)) 0 (cs.drop k) ↔
      (cs.length ≤ k ∨ ((payload cs.dropLast).length - bodyStart < n ∧
        (cs.length : Int) ≤ k + (max (maxReads n) 0 + 1))) := by
  by_cases hn : cs.drop k = []
  case pos => exact iff_of_true (.inl hn) (.inl (List.drop_eq_nil_iff.mp hn))
  case neg =>
    have hd : payload (cs.take k) ++ payload (cs.drop k).dropLast = payload cs.dropLast := by
      conv_rhs => rw [← List.take_append_drop k cs, List.dropLast_append_of_ne_nil hn]
      simp [payload]
    have hl := mt List.drop_eq_nil_iff.mpr hn
    simp only [ReadsAll, hn, hl, hd, false_or, List.length_drop, Nat.cast_zero, sub_zero]
    refine and_congr_right fun _ => ?_
    push_cast [hk]
    omega

-- The chunks that the first loop reads contain the head, in which the length is found.
theorem readHead_announces (hb : (payload cs).find blank = some e)
    (hp : Bytes.ofString "Content-Length: " <+: (payload cs).drop p) (hpe : p + 16 ≤ e) :
    let k := covering (e + 4) cs
    k ≤ cs.length ∧ readHead [] (cs.map some) = (payload (cs.take k), (cs.drop k).map some) ∧
      (payload (cs.take k)).find "\r\n\r\n" = some e ∧
      ∀ n, contentLength (payload (cs.take k)) = .ok n ↔ Announces (payload cs) n := by
  have hle : e + 4 ≤ (payload cs).length := Bytes.find_add_length_le hb
  have ⟨hk, hc⟩ := covering_spec hle
  have hr := readHead_chunks [] [] hb (by simp)
  simp only [List.nil_append, List.append_nil, List.length_nil, Nat.sub_zero] at hr
  generalize covering (e + 4) cs = k at hk hc hr
  have hd : payload (cs.take k) ++ payload (cs.drop k) = payload cs := payload_take_append_drop
  refine ⟨hk, hr, Bytes.find_prefix (hd ▸ hb) hc, fun n => ?_⟩
  rw [← hd] at hb hp ⊢
  exact contentLength_iff (Bytes.prefix_drop_of_find hb) hc hp (by omega) (by omega)

theorem receive_chunks_iff (hb : (payload cs).find blank = some e)
    (hp : Bytes.ofString "Content-Length: " <+: (payload cs).drop p) (hpe : p + 16 ≤ e) :
    (receive config (cs.map some)).1 = .raw (payload cs) ↔ ReadsWhole config e cs := by
  have ⟨hk, hr, hf, hcl⟩ := readHead_announces hb hp hpe
  simp only [ReadsWhole, ← readsAll_drop_iff hk]
  simp only [receive, hr, hf, ← hcl]
  cases contentLength (payload (cs.take (covering (e + 4) cs)))
  case error => simp
  case ok n =>
    simp only [Except.ok.injEq, exists_eq_left']
    by_cases hn : n > config.maxUploadSize.toNat
    case pos =>
      rw [if_pos hn]
      simp [not_le.mpr hn]
    case neg =>
      rw [if_neg hn]
      simp only [Received.raw.injEq, not_lt.mp hn, true_and]
      have hd : payload (cs.take (covering (e + 4) cs)) ++ payload (cs.drop (covering (e + 4) cs)) = payload cs :=
        payload_take_append_drop
      conv_lhs => rw [← hd]
      exact readBody_iff 0

-- The head decides whether the request is answered as too large.
theorem receive_tooLarge_iff (hb : (payload cs).find blank = some e)
    (hp : Bytes.ofString "Content-Length: " <+: (payload cs).drop p) (hpe : p + 16 ≤ e) :
    (receive config (cs.map some)).1 = .tooLarge ↔
      ∃ n, Announces (payload cs) n ∧ config.maxUploadSize.toNat < n := by
  have ⟨_, hr, hf, hcl⟩ := readHead_announces hb hp hpe
  simp only [receive, hr, hf, ← hcl]
  cases contentLength (payload (cs.take (covering (e + 4) cs)))
  case error => simp
  case ok n =>
    simp only [Except.ok.injEq, exists_eq_left']
    by_cases hn : n > config.maxUploadSize.toNat
    case pos => simp [hn]
    case neg => simp [hn]

section Prefix

variable {raw : Bytes} {rest : List (Option Chunk)} {reads : Int}

theorem readHead_prefix (raw : Bytes) (cs : List Chunk) :
    ∃ raw' cs', readHead raw (cs.map some) = (raw', cs'.map some) ∧
      raw' ++ payload cs' = raw ++ payload cs := by
  induction cs generalizing raw
  case nil => exact ⟨raw, [], rfl, rfl⟩
  case cons c cs hi =>
    simp only [List.map_cons, readHead]
    split
    · exact ⟨_, cs, rfl, by simp⟩
    · simpa using hi (raw ++ c.bytes)

theorem readBody_prefix : (readBody bodyStart n raw reads (cs.map some)).1 <+: raw ++ payload cs := by
  induction cs generalizing raw reads
  case nil => simp [readBody]
  case cons c cs hi =>
    simp only [List.map_cons, readBody, payload_cons, ← List.append_assoc]
    split
    · split
      · exact List.prefix_append ..
      · exact hi
    · rw [List.append_assoc]
      exact List.prefix_append ..

theorem receive_isPrefix (h : (receive config (cs.map some)).1 = .raw raw) : raw <+: payload cs := by
  have ⟨raw', cs', hr, hp⟩ := readHead_prefix [] cs
  rw [List.nil_append] at hp
  simp only [receive, hr] at h
  rw [← hp]
  split at h
  case h_1 => exact Received.raw.inj h ▸ List.prefix_append ..
  case h_2 =>
    split at h
    case h_1 => contradiction
    case h_2 =>
      split at h
      · contradiction
      · exact Received.raw.inj h ▸ readBody_prefix

-- A read without a result has the same effect as the end of all reads.
theorem readHead_none (h : raw.find "\r\n\r\n" = none) :
    (∃ raw' cs', readHead raw (cs.map some) = (raw', List.map some cs') ∧
      readHead raw (cs.map some ++ none :: rest) = (raw', List.map some cs' ++ none :: rest)) ∨
    (∃ raw', readHead raw (cs.map some) = (raw', []) ∧
      readHead raw (cs.map some ++ none :: rest) = (raw', rest) ∧ raw'.find "\r\n\r\n" = none) := by
  induction cs generalizing raw
  case nil => exact .inr ⟨raw, rfl, rfl, h⟩
  case cons c cs hi =>
    simp only [List.map_cons, List.cons_append, readHead]
    split
    case isTrue     => exact .inl ⟨_, cs, rfl, rfl⟩
    case isFalse hf => exact hi (by simpa using hf)

theorem readBody_none :
    (readBody bodyStart n raw reads (cs.map some ++ none :: rest)).1
      = (readBody bodyStart n raw reads (cs.map some)).1 := by
  induction cs generalizing raw reads
  case nil =>
    simp only [List.map_nil, List.nil_append, readBody]
    split <;> rfl
  case cons c cs hi =>
    simp only [List.map_cons, List.cons_append, readBody]
    split
    · split
      · rfl
      · exact hi
    · rfl

theorem receive_none :
    (receive config (cs.map some ++ none :: rest)).1 = (receive config (cs.map some)).1 := by
  have hn : Bytes.find [] "\r\n\r\n" = none := by decide
  rcases @readHead_none cs [] rest hn with ⟨raw, cs', h₁, h₂⟩ | ⟨raw, h₁, h₂, hf⟩
  case inr => simp only [receive, h₁, h₂, hf]
  case inl =>
    simp only [receive, h₁, h₂]
    split
    · rfl
    · split
      · rfl
      · split
        · rfl
        · simp only [readBody_none]

end Prefix

-- The results of the reads are chunks up to the first one without a result.
theorem exists_chunks (results : List (Option Chunk)) :
    (∃ cs, results = List.map some cs) ∨ ∃ cs rest, results = List.map some cs ++ none :: rest := by
  induction results
  case nil => exact .inl ⟨[], rfl⟩
  case cons result results hi =>
    cases result
    case none   => exact .inr ⟨[], results, rfl⟩
    case some c =>
      rcases hi with ⟨cs, rfl⟩ | ⟨cs, rest, rfl⟩
      · exact .inl ⟨c :: cs, rfl⟩
      · exact .inr ⟨c :: cs, rest, rfl⟩

-- No read without a result comes in front of the last chunk.
def Uninterrupted (results : List (Option Chunk)) : Prop :=
  ∃ k, results = results.reduceOption.map some ++ List.replicate k none

theorem reduceOption_map_some (cs : List Chunk) : (cs.map some).reduceOption = cs := by
  simp [List.reduceOption]

theorem uninterrupted_append (h : rest.reduceOption = []) : Uninterrupted (cs.map some ++ none :: rest) := by
  have ⟨k, hk⟩ := (List.reduceOption_eq_nil_iff rest).mp h
  refine ⟨k + 1, ?_⟩
  rw [List.reduceOption_append, reduceOption_map_some, List.reduceOption_cons_of_none, h,
    List.append_nil, List.replicate_succ, hk]

theorem not_uninterrupted (h : rest.reduceOption ≠ []) : ¬Uninterrupted (cs.map some ++ none :: rest) := by
  rintro ⟨k, hk⟩
  have ⟨c, cs', hc⟩ := List.exists_cons_of_ne_nil h
  rw [List.reduceOption_append, reduceOption_map_some, List.reduceOption_cons_of_none, hc,
    List.map_append, List.append_assoc, List.append_cancel_left_eq, List.map_cons,
    List.cons_append] at hk
  exact absurd (List.cons.inj hk).1 (by simp)

theorem receive_iff {results : List (Option Chunk)} (hb : (payload results.reduceOption).find blank = some e)
    (hp : Bytes.ofString "Content-Length: " <+: (payload results.reduceOption).drop p) (hpe : p + 16 ≤ e) :
    (receive config results).1 = .raw (payload results.reduceOption) ↔
      Uninterrupted results ∧ ReadsWhole config e results.reduceOption := by
  rcases exists_chunks results with ⟨cs, rfl⟩ | ⟨cs, rest, rfl⟩
  case inl =>
    rw [reduceOption_map_some] at hb hp ⊢
    have hu : Uninterrupted (cs.map some) := ⟨0, by simp [reduceOption_map_some]⟩
    rw [receive_chunks_iff hb hp hpe]
    simp only [hu, true_and]
  case inr =>
    have he : (cs.map some ++ none :: rest).reduceOption = cs ++ rest.reduceOption := by
      rw [List.reduceOption_append, reduceOption_map_some, List.reduceOption_cons_of_none]
    rw [he] at hb hp ⊢
    rw [receive_none]
    by_cases hr : rest.reduceOption = []
    case pos =>
      simp only [hr, List.append_nil] at hb hp ⊢
      rw [receive_chunks_iff hb hp hpe]
      simp only [uninterrupted_append hr, true_and]
    case neg =>
      refine iff_of_false (fun h => ?_) fun h => not_uninterrupted hr h.1
      -- What is received in front of the interruption is too short.
      have := (receive_isPrefix h).length_le
      have := List.length_pos_iff.mpr (mt payload_eq_nil_iff.mp hr)
      simp only [payload, List.flatMap_append, List.length_append] at *
      omega

end Receive

section Parses

variable {σ : Type} {server : Server σ} {conn : Connection}

theorem handleRequest_parse_iff (hh : conn.handshake ≠ some false) (hn : r ≠ []) :
    (∃ t, server.handleRequest conn = .emit (.parse r) t) ↔
      (receive server.config conn.arrivals).1 = .raw r := by
  rw [handleRequest, if_neg hh]
  cases (receive server.config conn.arrivals).1
  case badLength => simp
  case tooLarge  => simp
  case raw raw   =>
    by_cases hr : raw = []
    case pos => simp [hr, Ne.symm hn]
    case neg => simp [hr]

theorem exists_length_header {s : Serialization}
    (hc : (("Content-Length" : Bytes), natToString s.body.length) ∈ s.headers) :
    ∃ p, Bytes.ofString "Content-Length: " <+: s.bytes.drop p ∧ p + 16 ≤ s.message.headEnd := by
  have ⟨p, hp, hl⟩ := s.exists_line hc
  refine ⟨p, .trans ⟨natToString s.body.length, rfl⟩ hp, ?_⟩
  simp only [Serialization.line, List.length_append, List.length_cons] at hl
  change p + (14 + _) ≤ _ at hl
  omega

-- The request is handed to the parser as it was sent exactly when no read fails in front of its last
-- chunk, and the chunks are read as a whole.
theorem handleRequest_parses_iff (s : Serialization) (hh : conn.handshake ≠ some false)
    (hc : (("Content-Length" : Bytes), natToString s.body.length) ∈ s.headers)
    (hd : payload conn.arrivals.reduceOption = s.bytes) :
    (∃ t, server.handleRequest conn = .emit (.parse s.bytes) t) ↔
      Uninterrupted conn.arrivals ∧
        ReadsWhole server.config s.message.headEnd conn.arrivals.reduceOption := by
  have hb : s.bytes.find blank = some s.message.headEnd := s.message.find_blank
  have ⟨p, hf, hl⟩ := exists_length_header hc
  rw [handleRequest_parse_iff hh s.bytes_ne_nil]
  rw [← hd] at hb hf ⊢
  exact receive_iff hb hf hl

end Parses

section Sample

def plainServer : Server Unit where
  fileSystem := fun _ => ⟨fun _ => none, fun _ => none⟩
  digest     := fun _ => []

def wholeChunk : Chunk :=
  ⟨Serialization.sample.bytes, by decide +kernel, by decide +kernel⟩

def firstChunk : Chunk :=
  ⟨Serialization.sample.bytes.take 20, by decide +kernel, by decide +kernel⟩

def secondChunk : Chunk :=
  ⟨Serialization.sample.bytes.drop 20, by decide +kernel, by decide +kernel⟩

-- The head ends in the second of these chunks, and the body in the third.
def middleChunk : Chunk :=
  ⟨(Serialization.sample.bytes.drop 20).take 55, by decide +kernel, by decide +kernel⟩

def lastChunk : Chunk :=
  ⟨Serialization.sample.bytes.drop 75, by decide +kernel, by decide +kernel⟩

theorem sample_readsWhole : ReadsWhole {} Serialization.sample.message.headEnd [firstChunk, middleChunk, lastChunk] := by
  have ha : Announces (payload [firstChunk, middleChunk, lastChunk]) 4 :=
    ⟨43, 60, by decide +kernel, by decide +kernel, by decide +kernel⟩
  exact ⟨4, ha, by decide, .inr (by decide +kernel)⟩

theorem handleRequest_parses_whole : ∃ t,
    plainServer.handleRequest { clientIp := [], arrivals := [some firstChunk, some middleChunk, some lastChunk, none] }
      = .emit (.parse Serialization.sample.bytes) t :=
  (handleRequest_parses_iff .sample (by simp) (by decide +kernel) (by decide +kernel)).mpr ⟨⟨1, rfl⟩, sample_readsWhole⟩

-- The second chunk is not there yet when the first one has been read.
theorem handleRequest_parses_interrupted :
    Serialization.sample.Fits {} ∧ Serialization.sample.LengthMatches ∧
      payload [firstChunk, secondChunk] = Serialization.sample.bytes ∧
      ¬∃ t, plainServer.handleRequest
          { clientIp := [], arrivals := [some firstChunk, none, some secondChunk] }
        = .emit (.parse Serialization.sample.bytes) t := by
  refine ⟨⟨?_, ?_, ?_, .inr ?_⟩, ?_, ?_, fun h => ?_⟩
  case refine_7 =>
    rw [handleRequest_parse_iff (by simp) (by decide +kernel)] at h
    exact absurd h (by decide +kernel)
  all_goals decide +kernel

end Sample

end YNet.Server
