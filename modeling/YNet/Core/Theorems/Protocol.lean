import YNet.Core.Protocol

open Cpp Code Process

namespace YNet.Server

variable {σ : Type} {server : Server σ} {F : Phase → Prop} {k : Option Fault → Exchange → Process σ Event} {x : Exchange}

theorem finish_obeys (hF : ∀ q, q.IsLast → F q) : (finish x : Process σ Event).Obeys Phase.next F .serving := by
  refine ⟨.answered, rfl, ?_⟩
  split
  · exact ⟨.erased, rfl, hF _ trivial⟩
  · exact ⟨.rearmed, rfl, hF _ trivial⟩

section Handlers

variable (hh : server.Halts ∨ F .serving)

include hh

theorem errorHandler_halts {handler : Request → Code σ Fault Response} (h : server.errorHandlers code = some handler)
    (req : Request) : (handler req).Halts ∨ F .serving :=
  hh.imp_left fun hh => hh.errorHandlers code handler h req

theorem notFound_obeys (hk : ∀ e x, (k e x).Obeys Phase.next F .serving) :
    (server.notFound x k).Obeys Phase.next F .serving := by
  unfold notFound
  split
  case h_1 handler h =>
    refine ⟨.serving, rfl, exec_obeys (errorHandler_halts hh h x.req) fun e res => ?_⟩
    cases e with
    | none   => exact hk none _
    | some e => exact hk (some e) x
  case h_2 => exact hk none _

theorem serveStatic_obeys {files : List StaticFileServer} (hk : ∀ e x, (k e x).Obeys Phase.next F .serving) :
    (server.serveStatic files x k).Obeys Phase.next F .serving := by
  induction files with
  | nil             => exact notFound_obeys hh hk
  | cons f files hi =>
    refine ⟨.serving, rfl, fun s => ?_⟩
    dsimp only
    split
    · exact hk none _
    · exact hi

theorem dispatch_obeys {router : Router σ} {req : Request} (hr : server.router = some router)
    (hk : ∀ e x, (k e x).Obeys Phase.next F .serving) :
    (server.dispatch (router.resolve method path req).1 x k).Obeys Phase.next F .serving := by
  cases hres : (router.resolve method path req).1 with
  | none         => exact serveStatic_obeys hh hk
  | some handler =>
    obtain ⟨r, hm, rfl, _⟩ := Router.matches_of_resolve hres
    exact ⟨.serving, rfl, exec_obeys (hh.imp_left fun hh => hh.routes router hr r hm x) hk⟩

theorem complete_obeys (hF : ∀ q, q.IsLast → F q) (e : Option Fault) (x : Exchange) :
    (server.complete e x).Obeys Phase.next F .serving := by
  cases e with
  | none   => exact finish_obeys hF
  | some e =>
    cases e with
    | other     => exact ⟨.terminated, rfl, hF _ trivial⟩
    | exception =>
      rw [complete]
      split
      case h_1 handler h =>
        refine ⟨.serving, rfl, exec_obeys (errorHandler_halts hh h x.req) fun e res => ?_⟩
        cases e with
        | none   => exact finish_obeys hF
        | some e => exact ⟨.terminated, rfl, hF _ trivial⟩
      case h_2 => exact finish_obeys hF

end Handlers

theorem handleWebSocket_obeys (hh : server.Halts ∨ F .upgraded) (hF : ∀ q, q.IsLast → F q) (req : Request) :
    (server.handleWebSocket req).Obeys Phase.next F .serving := by
  unfold handleWebSocket
  split
  case h_1 handler h =>
    refine ⟨.handshake, rfl, .upgraded, rfl, ?_⟩
    refine exec_obeys (hh.imp_left fun hh => hh.wsRoutes req.path handler h) fun e _ => ?_
    cases e with
    | none   => exact ⟨.erased, rfl, hF _ trivial⟩
    | some e => exact ⟨.terminated, rfl, hF _ trivial⟩
  case h_2 => exact ⟨.handshake, rfl, .erased, rfl, hF _ trivial⟩

theorem handleParsed_obeys (hh : server.Halts ∨ ∀ q, F q) (hF : ∀ q, q.IsLast → F q) (req : Request) :
    (server.handleParsed req).Obeys Phase.next F .serving := by
  have erase (q : Phase) (h : q.next .erase = some .erased) : (.emit .erase .stop : Process σ Event).Obeys Phase.next F q :=
    ⟨.erased, h, hF _ trivial⟩
  unfold handleParsed
  split_ifs
  · exact ⟨.answered, rfl, erase _ rfl⟩
  · exact handleWebSocket_obeys (hh.imp_right (· _)) hF req
  · split
    case h_1           => exact ⟨.answered, rfl, erase _ rfl⟩
    case h_2 router hr =>
      refine chain_obeys (hh.imp (·.middlewares) (· _)) (fun _ => rfl) (fun _ => rfl) (fun x k hk => ?_)
        (complete_obeys (hh.imp_right (· _)) hF)
      exact dispatch_obeys (hh.imp_right (· _)) hr hk

theorem handleRequest_obeys (hh : server.Halts ∨ ∀ q, F q) (hF : ∀ q, q.IsLast → F q) (conn : Connection) :
    (server.handleRequest conn).Obeys Phase.next F .reading := by
  have erase (q : Phase) (h : q.next .erase = some .erased) : (.emit .erase .stop : Process σ Event).Obeys Phase.next F q :=
    ⟨.erased, h, hF _ trivial⟩
  unfold handleRequest
  split
  case isTrue => exact erase _ rfl
  case isFalse =>
    split
    case h_1     => exact ⟨.refused, rfl, erase _ rfl⟩
    case h_2     =>
      refine ⟨.refused, rfl, ?_⟩
      split
      · exact ⟨.refused, rfl, erase _ rfl⟩
      · exact erase _ rfl
    case h_3 raw =>
      split
      · exact erase _ rfl
      · refine ⟨.serving, rfl, ?_⟩
        split
        · exact ⟨.terminated, rfl, hF _ trivial⟩
        · exact handleParsed_obeys hh hF _

-- The handling of a request keeps to the protocol whatever other threads do to the shared state, and if
-- it comes to its end then in one of the last phases.
theorem handleRequest_protocol (server : Server σ) (conn : Connection) :
    (∀ tr, (server.handleRequest conn).Trace tr → ∃ q, after Phase.next .reading tr = some q) ∧
    (server.Halts → ∀ tr, (server.handleRequest conn).Finishes tr →
      ∃ q, after Phase.next .reading tr = some q ∧ q.IsLast) :=
  ⟨fun _ ht => (handleRequest_obeys (.inr fun _ => trivial) (fun _ _ => trivial) conn).trace (F := fun _ => True) ht,
    fun hh _ hf => (handleRequest_obeys (.inl hh) (fun _ => id) conn).finishes hf⟩

end YNet.Server
