import YNet.Net.Theorems.Calls

namespace YNet.WebSocket

variable {ch ch' : Channel} {f : Frame} {frames : List Frame} {rest sent : Bytes}

-- The frames that are sent in return for pings and for the first close frame.
def answers : List Frame → Bytes
  | []          => []
  | f :: frames =>
    if f.opcode = 8 then frameBytes [] 0x8
    else if f.opcode = 9 then frameBytes f.payload 0xA ++ answers frames
    else answers frames

-- The pings before a close frame, and this one, are answered by one frame each, nothing else is sent,
-- and the connection is closed behind the close frame.
structure Answered (frames : List Frame) (ch : Channel) : Prop where
  sent   : ch.sent = answers frames
  closed : (∃ f ∈ frames, f.opcode = 8) → ch.isOpen = false

-- A frame with a payload that `readFrame` reads.
def Frame.HasPayload (f : Frame) : Prop :=
  f.payload ≠ [] ∧ f.payload.length ≤ maxPayload

-- The frames that the loop reads. It ends at the first one for which `readFrame` returns no payload.
def received : List Frame → List Frame
  | []          => []
  | f :: frames =>
    if maxPayload < f.payload.length then [f]
    else if f.payload = [] then [f]
    else if f.opcode = 8 then [f]
    else f :: received frames

-- No ping, and no first close frame, is empty or stands behind a frame that is empty or too long.
def Reachable (frames : List Frame) : Prop :=
  ∀ a f b, frames = a ++ f :: b → (∀ g ∈ a, g.opcode ≠ 8) → f.opcode = 8 ∨ f.opcode = 9 →
    ∀ g ∈ a ++ [f], g.HasPayload

-- What the loop sends, and whether it leaves the connection open.
def replied : List Frame → Bytes × Bool
  | []          => ([], true)
  | f :: frames =>
    if maxPayload < f.payload.length then ([], false)
    else if f.payload = [] then ([], true)
    else if f.opcode = 8 then (frameBytes [] 0x8, false)
    else if f.opcode = 9 then (frameBytes f.payload 0xA ++ (replied frames).1, (replied frames).2)
    else replied frames

theorem runLoop_replied (h : ch.Ready (frames.flatMap Frame.encode) sent) :
    (runLoop ch).2.sent = sent ++ (replied frames).1 ∧ (runLoop ch).2.isOpen = (replied frames).2 := by
  induction frames generalizing ch sent with
  | nil =>
    have hnil : ch.incoming = [] := h.incoming
    rw [runLoop, if_pos hnil, replied, List.append_nil]
    exact ⟨h.sent, h.isOpen⟩
  | cons f frames hi =>
    rw [List.flatMap_cons] at h
    have hne := incoming_ne_nil h
    rw [replied]
    split
    case isTrue hlong =>
      obtain ⟨ch₁, hready, hr⟩ := Frame.readFrame_encode h
      have hr : readFrame ch = ([], ch₁.close) := hr.trans (if_pos hlong)
      rw [runLoop_of_nil hne hr, List.append_nil]
      exact ⟨hready.sent, rfl⟩
    case isFalse hshort =>
      obtain ⟨ch₁, hready, hr⟩ := Frame.readFrame_answer h (not_lt.mp hshort)
      rw [Frame.answer] at hr
      split
      case isTrue hp =>
        rw [if_pos hp] at hr
        rw [runLoop_of_nil hne hr, List.append_nil]
        exact ⟨hready.sent, hready.isOpen⟩
      case isFalse hp =>
        rw [if_neg hp, dispatch] at hr
        split
        case isTrue h₈ =>
          rw [if_pos h₈] at hr
          rw [runLoop_of_nil hne hr]
          exact ⟨(hready.sendFrame ..).sent, rfl⟩
        case isFalse h₈ =>
          rw [if_neg h₈] at hr
          split
          case isTrue h₉ =>
            rw [if_pos h₉] at hr
            rw [runLoop_of_ne_nil hne hr hp]
            obtain ⟨hs, ho⟩ := hi (hready.sendFrame f.payload 0xA)
            exact ⟨by rw [hs, List.append_assoc], ho⟩
          case isFalse h₉ =>
            rw [if_neg h₉] at hr
            rw [runLoop_of_ne_nil hne hr hp]
            exact hi hready

section Answers

theorem frameBytes_ne_nil (data : Bytes) (opcode : UInt8) : frameBytes data opcode ≠ [] :=
  List.cons_ne_nil _ _

theorem answers_eq_nil_iff : answers frames = [] ↔ ∀ f ∈ frames, f.opcode ≠ 8 ∧ f.opcode ≠ 9 := by
  induction frames with
  | nil            => simp [answers]
  | cons f frames hi =>
    rw [answers, List.forall_mem_cons, ← hi]
    split
    case isTrue h₈  => simp [h₈, frameBytes_ne_nil]
    case isFalse h₈ =>
      split
      case isTrue h₉  => simp [h₉, frameBytes_ne_nil]
      case isFalse h₉ => simp [h₈, h₉]

-- Nothing is sent exactly if nothing has to be sent.
theorem nil_answers_iff (isOpen : Bool) : ([] = answers frames ∧ ((∃ f ∈ frames, f.opcode = 8) → isOpen = false)) ↔
    ∀ f ∈ frames, f.opcode ≠ 8 ∧ f.opcode ≠ 9 := by
  rw [eq_comm, answers_eq_nil_iff]
  exact and_iff_left_of_imp fun h ⟨f, hf, h₈⟩ => absurd h₈ (h f hf).1

theorem reachable_cons (hf : f.HasPayload) (h₈ : f.opcode ≠ 8) : Reachable (f :: frames) ↔ Reachable frames := by
  constructor
  · intro h a g b he ha hg x hx
    exact h (f :: a) g b (by rw [he, List.cons_append]) (List.forall_mem_cons.mpr ⟨h₈, ha⟩) hg x (List.mem_cons_of_mem _ hx)
  · intro h a g b he ha hg
    cases a with
    | nil =>
      cases he
      exact List.forall_mem_singleton.mpr hf
    | cons f' a =>
      have ⟨hf', he'⟩ := List.cons.inj he
      subst hf'
      exact List.forall_mem_cons.mpr ⟨hf, h a g b he' (List.forall_mem_cons.mp ha).2 hg⟩

theorem reachable_close (hf : f.HasPayload) (h₈ : f.opcode = 8) : Reachable (f :: frames) := by
  intro a g b he ha hg
  cases a with
  | nil =>
    cases he
    exact List.forall_mem_singleton.mpr hf
  | cons f' a =>
    have ⟨hf', _⟩ := List.cons.inj he
    exact absurd h₈ (hf' ▸ ha f' List.mem_cons_self)

-- Behind a frame without a payload, no ping and no close frame is reached.
theorem reachable_iff_of_not (hf : ¬f.HasPayload) :
    Reachable (f :: frames) ↔ ∀ g ∈ f :: frames, g.opcode ≠ 8 ∧ g.opcode ≠ 9 := by
  constructor
  · intro h
    have hnone : (f :: frames).find? (fun g => g.opcode = 8 ∨ g.opcode = 9) = none := by
      by_contra hsome
      have ⟨g, hg⟩ := Option.ne_none_iff_exists'.mp hsome
      have ⟨hop, a, b, he, ha⟩ := List.find?_eq_some_iff_append.mp hg
      have ha : ∀ x ∈ a, x.opcode ≠ 8 := fun x hx h₈ => by simpa [h₈] using ha x hx
      have hmem : f ∈ a ++ [g] := by
        cases a with
        | nil       => simp [(List.cons.inj he).1]
        | cons f' a => simp [(List.cons.inj he).1]
      exact hf (h a g b he ha (by simpa using hop) f hmem)
    simpa using hnone
  · intro h a g b he _ hg
    have ⟨h₈, h₉⟩ := h g (by simp [he])
    exact (hg.elim h₈ h₉).elim

theorem replied_iff : ((replied frames).1 = answers frames ∧ ((∃ f ∈ frames, f.opcode = 8) → (replied frames).2 = false)) ↔
    Reachable frames := by
  induction frames with
  | nil =>
    refine iff_of_true ⟨rfl, by simp⟩ fun a f b he => absurd he (by simp)
  | cons f frames hi =>
    rw [replied]
    split
    case isTrue hlong => exact (nil_answers_iff _).trans (reachable_iff_of_not fun h => absurd h.2 (not_le.mpr hlong)).symm
    case isFalse hshort =>
      split
      case isTrue hp => exact (nil_answers_iff _).trans (reachable_iff_of_not fun h => h.1 hp).symm
      case isFalse hp =>
        have hf : f.HasPayload := ⟨hp, not_lt.mp hshort⟩
        rw [answers]
        split
        case isTrue h₈ => exact iff_of_true ⟨rfl, fun _ => rfl⟩ (reachable_close hf h₈)
        case isFalse h₈ =>
          rw [reachable_cons hf h₈, ← hi]
          split
          case isTrue h₉ => simp [h₈]
          case isFalse h₉ => simp [h₈]

theorem replied_received_iff :
    ((replied frames).1 = answers (received frames) ∧ ((∃ f ∈ received frames, f.opcode = 8) → (replied frames).2 = false)) ↔
      ∀ f ∈ received frames, f.opcode = 8 ∨ f.opcode = 9 → f.HasPayload := by
  induction frames with
  | nil => simp [replied, received, answers]
  | cons f frames hi =>
    rw [replied, received]
    split
    case isTrue hlong =>
      have hf : ¬f.HasPayload := fun h => absurd h.2 (not_le.mpr hlong)
      refine (nil_answers_iff _).trans ?_
      simp [hf]
    case isFalse hshort =>
      split
      case isTrue hp =>
        have hf : ¬f.HasPayload := fun h => h.1 hp
        refine (nil_answers_iff _).trans ?_
        simp [hf]
      case isFalse hp =>
        have hf : f.HasPayload := ⟨hp, not_lt.mp hshort⟩
        split
        case isTrue h₈ => simp [answers, h₈, hf]
        case isFalse h₈ =>
          rw [List.forall_mem_cons, and_iff_right fun _ => hf, ← hi, answers, if_neg h₈]
          split
          case isTrue h₉ => simp [h₈]
          case isFalse h₉ => simp [h₈]

end Answers

-- The loop answers to the control frames that it reads if none of them is empty or too long, and to all
-- control frames if no frame up to the last one to be answered is.
theorem run_answered_iff (h : ch.Ready (frames.flatMap Frame.encode) []) :
    (Answered (received frames) (run ch).2 ↔ ∀ f ∈ received frames, f.opcode = 8 ∨ f.opcode = 9 → f.HasPayload) ∧
    (Answered frames (run ch).2 ↔ Reachable frames) := by
  obtain ⟨hs, ho⟩ := runLoop_replied h
  have hrun (fs : List Frame) : Answered fs (run ch).2 ↔
      (replied frames).1 = answers fs ∧ ((∃ f ∈ fs, f.opcode = 8) → (replied frames).2 = false) := by
    rw [run, if_pos h.isOpen]
    constructor
    · rintro ⟨h₁, h₂⟩
      exact ⟨(hs.trans (List.nil_append _)).symm.trans h₁, fun he => ho.symm.trans (h₂ he)⟩
    · rintro ⟨h₁, h₂⟩
      exact ⟨(hs.trans (List.nil_append _)).trans h₁, fun he => ho.trans (h₂ he)⟩
  exact ⟨(hrun _).trans replied_received_iff, (hrun _).trans replied_iff⟩

section Samples

def emptyPing : Frame :=
  ⟨true, 9, some [5, 6, 7, 8], [], by decide, by simp, by decide⟩

def pingFrame : Frame :=
  ⟨true, 9, some [5, 6, 7, 8], [1], by decide, by simp, by decide⟩

def closeFrame : Frame :=
  ⟨true, 8, some [5, 6, 7, 8], [3, 232], by decide, by simp, by decide⟩

theorem run_answered_ping : Answered [pingFrame, closeFrame] (run { incoming := [pingFrame, closeFrame].flatMap Frame.encode }).2 ↔
    Reachable [pingFrame, closeFrame] :=
  (run_answered_iff ⟨rfl, rfl, rfl, by simp⟩).2

theorem not_run_answered : ¬∀ frames ch, (∀ f ∈ frames, f.key.isSome ∧ f.payload.length ≤ 125) →
    ch.Ready (frames.flatMap Frame.encode) [] → Answered (received frames) (run ch).2 := by
  intro h
  have hs := (h [emptyPing] { incoming := [emptyPing].flatMap Frame.encode } (by decide) ⟨rfl, rfl, rfl, by simp⟩).sent
  revert hs
  decide +kernel

end Samples

end YNet.WebSocket
