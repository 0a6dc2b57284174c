import YNet.Core.Theorems.Request.Form

namespace YNet.Request

variable {config : Config} {req : Request} {m : Message}

-- The error codes of the checks behind the ones of the sizes.
def IsOtherCode (code : Nat) : Prop :=
  code = 0 ∨ code = 400 ∨ code = 431

-- If there is a result, it is not the verdict on the size.
def HasOtherCode (result : Except Exn Request) : Prop :=
  ∀ req, result = .ok req → IsOtherCode req.errorCode

namespace HasOtherCode

theorem ok (h : IsOtherCode req.errorCode) : HasOtherCode (.ok req) :=
  fun _ he => Except.ok.inj he ▸ h

theorem fail (h : IsOtherCode code) : HasOtherCode (.ok (Request.fail req code)) :=
  ok h

theorem bind_of_ok {x : Except Exn α} {k : α → Except Exn Request} (h : ∀ a, x = .ok a → HasOtherCode (k a)) :
    HasOtherCode (x >>= k) := by
  intro req he
  have ⟨a, hx, hk⟩ := Exn.bind_eq_ok he
  exact h a hx req hk

theorem bind {x : Except Exn α} {k : α → Except Exn Request} (h : ∀ a, HasOtherCode (k a)) :
    HasOtherCode (x >>= k) :=
  bind_of_ok fun a _ => h a

theorem ite {p : Prop} [Decidable p] {x y : Except Exn Request} (hx : HasOtherCode x) (hy : HasOtherCode y) :
    HasOtherCode (if p then x else y) := by
  split
  case isTrue  => exact hx
  case isFalse => exact hy

end HasOtherCode

theorem badRequest_code : IsOtherCode 400 :=
  .inr (.inl rfl)

theorem parseForm_code (h : IsOtherCode req.errorCode) : HasOtherCode (parseForm req) := by
  intro req' he
  cases parseForm_cases he
  case inl he =>
    have ⟨_, _, he⟩ := he
    exact he ▸ h
  case inr he => exact he.2 ▸ badRequest_code

theorem parseBody_code (h : IsOtherCode req.errorCode) : HasOtherCode (parseBody data req pos) := by
  refine .bind fun body => ?_
  dsimp only
  split
  case h_1 => exact parseForm_code h
  case h_2 =>
    split
    case h_1 => exact .fail badRequest_code
    case h_2 => exact .ite (.fail badRequest_code) (parseForm_code h)

theorem parseHeaders_code (h : parseHeaders m.bytes config req (m.start.length + 2) 0 = .ok result) :
    (∃ req' pos, result = .ok (req', pos) ∧ req'.errorCode = req.errorCode) ∨
      ∃ req', result = .error (Request.fail req' 431) := by
  cases parseHeaders_cases config req m
  case inl hp => exact .inl ⟨_, _, Except.ok.inj (h.symm.trans hp.2), rfl⟩
  case inr hp =>
    have ⟨req', hp⟩ := hp.2
    exact .inr ⟨req', Except.ok.inj (h.symm.trans hp)⟩

theorem parseMessage_code : HasOtherCode (parseMessage m.bytes config sp1 sp2 m.start.length) := by
  refine .bind fun method => .bind fun text => .bind fun target => ?_
  dsimp only
  refine .ite (.fail badRequest_code) (.bind fun path => .bind fun version => ?_)
  refine .ite (.fail badRequest_code) (.ite (.fail badRequest_code) (.bind_of_ok fun result hr => ?_))
  cases parseHeaders_code hr
  case inl he =>
    have ⟨req', pos, he, hc⟩ := he
    rw [he]
    exact parseBody_code (.inl hc)
  case inr he =>
    have ⟨req', he⟩ := he
    rw [he]
    exact .fail (.inr (.inr rfl))

-- The request is rejected because of its size.
def IsTooLarge (result : Except Exn Request) : Prop :=
  ∃ req, result = .ok req ∧ req.parseError ∧ req.errorCode = 413

theorem HasOtherCode.not_isTooLarge (h : HasOtherCode result) : ¬IsTooLarge result := by
  rintro ⟨req, he, _, hc⟩
  have := h req he
  rw [hc] at this
  exact absurd this (by simp [IsOtherCode])

-- What the limits of the configuration say about the two parts of a message.
def Exceeds (config : Config) (headEnd bodyLength : Nat) : Prop :=
  headEnd > config.maxHeaderSize.toNat ∨ bodyLength > config.maxBodySize.toNat

theorem isTooLarge_iff (m : Message) (config : Config) :
    IsTooLarge (parse m.bytes config) ↔
      m.bytes.length > (config.maxHeaderSize + config.maxBodySize).toNat ∨
        Exceeds config m.headEnd m.body.length := by
  have hb : m.bytes.length - (m.headEnd + 4) = m.body.length := by
    rw [m.length_bytes]
    omega
  have hh : m.bytes.find "\r\n\r\n" = some m.headEnd := m.find_blank
  have hc : m.bytes.find "\r\n" = some m.start.length := m.find_crlf
  simp only [parse, hh, hc, hb, Exceeds]
  by_cases hl : m.bytes.length > (config.maxHeaderSize + config.maxBodySize).toNat
  case pos => exact iff_of_true ⟨_, if_pos hl, rfl, rfl⟩ (.inl hl)
  rw [if_neg hl]
  by_cases hh : m.headEnd > config.maxHeaderSize.toNat
  case pos => exact iff_of_true ⟨_, if_pos hh, rfl, rfl⟩ (.inr (.inl hh))
  rw [if_neg hh]
  by_cases hd : m.body.length > config.maxBodySize.toNat
  case pos => exact iff_of_true ⟨_, if_pos hd, rfl, rfl⟩ (.inr (.inr hd))
  rw [if_neg hd]
  refine iff_of_false (HasOtherCode.not_isTooLarge ?_) fun hc => hc.elim hl fun hc => hc.elim hh hd
  split
  case h_1 he =>
    cases he
    exact parseMessage_code
  case h_2 => exact .fail badRequest_code

-- The verdict is right unless only the check of the whole message fails, which does not count the empty
-- line, and whose limit wraps around.
theorem isTooLarge_iff_exceeds_iff (h : raw.find "\r\n\r\n" = some headEnd) :
    (IsTooLarge (parse raw config) ↔ Exceeds config headEnd (raw.length - (headEnd + 4))) ↔
      Exceeds config headEnd (raw.length - (headEnd + 4)) ∨
        raw.length ≤ (config.maxHeaderSize + config.maxBodySize).toNat := by
  have ⟨m, hb⟩ := Message.exists_of_find_blank h
  subst hb
  cases m.find_blank.symm.trans h
  have hb : m.bytes.length - (m.headEnd + 4) = m.body.length := by
    rw [m.length_bytes]
    omega
  rw [hb, isTooLarge_iff, ← not_lt, gt_iff_lt]
  by_cases he : Exceeds config m.headEnd m.body.length
  case pos => simp only [he, or_true, true_or]
  case neg => simp only [he, or_false, false_or, iff_false]

theorem isTooLarge_iff_exceeds_iff_default :
    (IsTooLarge (parse "GET / HTTP/1.1\r\n\r\nab" {}) ↔ Exceeds {} 14 2) ↔
      Exceeds {} 14 2 ∨ 20 ≤ (({} : Config).maxHeaderSize + ({} : Config).maxBodySize).toNat := by
  have h : Bytes.find "GET / HTTP/1.1\r\n\r\nab" "\r\n\r\n" = some 14 := by decide +kernel
  exact isTooLarge_iff_exceeds_iff h

-- Both parts have exactly the size that is allowed.
theorem isTooLarge_at_limits :
    IsTooLarge (parse "GET / HTTP/1.1\r\n\r\nab" { maxHeaderSize := 14, maxBodySize := 2 }) ∧
      Bytes.find "GET / HTTP/1.1\r\n\r\nab" "\r\n\r\n" = some 14 ∧
      ¬Exceeds { maxHeaderSize := 14, maxBodySize := 2 } 14
        ((Bytes.ofString "GET / HTTP/1.1\r\n\r\nab").length - (14 + 4)) := by
  refine ⟨⟨_, rfl, rfl, rfl⟩, by decide +kernel, ?_⟩
  rintro (h | h)
  · exact absurd h (by decide)
  · exact absurd h (by decide +kernel)

end YNet.Request
