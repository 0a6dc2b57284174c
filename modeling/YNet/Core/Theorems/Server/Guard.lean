import YNet.Core.Theorems.Server.Middlewares

namespace YNet

namespace PathGuard

variable {τ ε : Type} {ip : Bytes}

-- The client is in the blacklist, and not in the whitelist.
def Blocks (ip : Bytes) (s : PathGuard × τ) : Prop :=
  ip ∈ s.1.blacklist ∧ ip ∉ s.1.whitelist

theorem inspect_of_blocks {s : PathGuard × τ} (h : Blocks ip s) (hr : req.clientIp = ip) :
    s.1.inspect req = .blocked := by
  subst hr
  rw [inspect, if_neg h.2, if_pos (by simpa [isBlocked] using h.1)]

theorem toMiddleware_keeps : (toMiddleware (τ := τ) x).Keeps (Blocks ip) := by
  refine ⟨fun _ => id, fun s => ?_⟩
  dsimp only
  split
  case h_1 =>
    intro e a
    cases e <;> trivial
  case h_2 => trivial
  case h_3 => exact ⟨fun s h => ⟨Finset.mem_insert_of_mem h.1, h.2⟩, fun _ => trivial⟩

-- A blocked client never gets past the guard.
theorem toMiddleware_avoids {P : ε → Prop} {next : Layer (PathGuard × τ) ε Fault Exchange}
    (ha : a.req.clientIp = ip) (hk : ∀ e a, a.req.clientIp = ip → (k e a).Avoids (Blocks ip) P) :
    ((toMiddleware a).run next k).Avoids (Blocks ip) P := by
  intro s hs
  dsimp only
  rw [inspect_of_blocks hs ha]
  exact hk _ _ ha

end PathGuard

namespace Server

variable {τ : Type} {server : Server (PathGuard × τ)} {ip : Bytes}

-- The guard is registered, and no middleware in front of it changes the client.
def GuardedFor (server : Server (PathGuard × τ)) (ip : Bytes) : Prop :=
  ∃ pre post, server.middlewares = pre ++ PathGuard.toMiddleware :: post ∧
    ∀ m ∈ pre, ∀ x : Exchange, x.req.clientIp = ip → (m x).Preserves fun x => x.req.clientIp = ip

theorem handleRequest_avoids (h : server.GuardedFor ip) (hc : conn.clientIp = ip)
    (hu : ¬server.Upgrades conn) :
    (server.handleRequest conn).Avoids (PathGuard.Blocks ip) Event.IsApp := by
  rcases handleRequest_cases server conn with hq | ⟨raw, req, ha, he⟩
  case inl => exact hq.avoids _
  case inr =>
    rw [he]
    refine ⟨id, ?_⟩
    rcases handleParsed_cases server { req with clientIp := conn.clientIp }
      with hq | ⟨_, hw, handler, hr⟩ | ⟨handler, req', _, hi, he⟩
    case inl => exact hq.avoids _
    case inr.inl => exact absurd ⟨raw, req, ha, hw, by simp [hr]⟩ hu
    case inr.inr =>
      have ⟨pre, post, hm, hp⟩ := h
      rw [he, hm]
      exact Code.chain_avoids (fun _ => id) (fun _ => id) hp
        (fun _ _ _ ha hk => PathGuard.toMiddleware_avoids ha hk) (hi.trans hc)
        fun _ _ _ => complete_avoids

-- The event loop starts a worker for a connection, which the label of the process names.
def spawns {σ : Type} (server : Server σ) (label : Option Connection) (t : Process σ Event) : Prop :=
  ∃ conn, label = some conn ∧ t = server.handleRequest conn

-- In every run that starts when a client is blocked.
theorem blocked_of_steps {p p' : Pool (PathGuard × τ) Event (Option Connection)}
    (hg : server.GuardedFor ip) (hk : server.AppKeeps (PathGuard.Blocks ip))
    (hb : PathGuard.Blocks ip p.state)
    (hp : ∀ q ∈ p.processes, q.1 = none ∧ q.2.2.Keeps (PathGuard.Blocks ip))
    (hs : Pool.Steps server.spawns p p') (hm : (some conn, tr, t) ∈ p'.processes)
    (hc : conn.clientIp = ip) (hu : ¬server.Upgrades conn) : ∀ e ∈ tr, ¬e.IsApp := by
  let K : Option Connection → Prop := fun k => ∃ conn, k = some conn ∧ conn.clientIp = ip ∧ ¬server.Upgrades conn
  have h₀ : Pool.Guarded (PathGuard.Blocks ip) Event.IsApp K p := by
    refine ⟨hb, fun q hq => (hp q hq).2, fun q hq hk => ?_, fun q hq hk => ?_⟩ <;>
    · have ⟨_, he, _⟩ := hk
      exact absurd (he.symm.trans (hp q hq).1) (by simp)
  have h := h₀.steps ?_ ?_ hs
  · exact h.silent _ hm ⟨conn, rfl, hc, hu⟩
  · rintro k t ⟨conn, rfl, rfl⟩
    exact handleRequest_keeps hk
  · rintro k t ⟨conn, rfl, rfl⟩ ⟨conn', he, hc, hu⟩
    cases he
    exact handleRequest_avoids hg hc hu

-- The code of the application runs behind all middlewares, unless the connection is upgraded.
theorem app_behind_middlewares (σ τ : Type) :
    (∀ (server : Server σ) (conn : Connection),
      (server.handleRequest conn).Gated Event.IsApp server.passes ↔
        ¬(server.Upgrades conn ∧ server.middlewares ≠ [])) ∧
    ∀ (server : Server (PathGuard × τ)) (ip : Bytes),
      server.GuardedFor ip → server.AppKeeps (PathGuard.Blocks ip) →
      ∀ p p' : Pool (PathGuard × τ) Event (Option Connection), PathGuard.Blocks ip p.state →
        (∀ q ∈ p.processes, q.1 = none ∧ q.2.2.Keeps (PathGuard.Blocks ip)) →
        Pool.Steps server.spawns p p' →
        ∀ conn tr t, (some conn, tr, t) ∈ p'.processes → conn.clientIp = ip →
          ¬server.Upgrades conn → ∀ e ∈ tr, ¬e.IsApp :=
  ⟨fun _ _ => handleRequest_gated_iff,
    fun _ _ hg hk _ _ hb hp hs _ _ _ hm hc hu => blocked_of_steps hg hk hb hp hs hm hc hu⟩

-- A server with nothing but the guard and one route for upgraded connections.
def chatServer : Server (PathGuard × Unit) where
  middlewares := [PathGuard.toMiddleware]
  wsRoutes    := fun path => if path = ("/chat" : Bytes) then some (.ret ()) else none
  fileSystem  := fun _ => ⟨fun _ => none, fun _ => none⟩
  digest      := fun _ => []

theorem chatServer_guardedFor : chatServer.GuardedFor ip :=
  ⟨[], [], rfl, by simp⟩

theorem chatServer_appKeeps : chatServer.AppKeeps (PathGuard.Blocks ip) where
  middlewares m hm x := by
    cases List.mem_singleton.mp hm
    exact PathGuard.toMiddleware_keeps
  router        := by simp [chatServer]
  errorHandlers := by simp [chatServer]
  wsRoutes path handler h := by
    simp only [chatServer, Option.mem_def] at h
    split at h
    · cases h
      trivial
    · contradiction

def chatConnection (raw : Bytes) (hn : raw ≠ []) (hl : raw.length ≤ 4096) : Connection where
  clientIp := "9.9.9.9"
  arrivals := [some ⟨raw, hn, hl⟩]

def upgradeBytes : Bytes :=
  "GET /chat HTTP/1.1\r\nUpgrade: websocket\r\nConnection: Upgrade\r\n\r\n"

def chatUpgrade : Connection :=
  chatConnection upgradeBytes (by decide) (by decide)

def requestBytes : Bytes :=
  "GET / HTTP/1.1\r\n\r\n"

def chatRequest : Connection :=
  chatConnection requestBytes (by decide) (by decide)

-- The guard has blocked the client.
def blockedState : PathGuard × Unit :=
  ({ blacklist := {("9.9.9.9" : Bytes)} }, ())

theorem blockedState_blocks : PathGuard.Blocks "9.9.9.9" blockedState :=
  ⟨by simp [blockedState], by decide⟩

theorem chatServer_accepts (raw : Bytes) (u w : Bool) (hn : raw ≠ []) (hl : raw.length ≤ 4096)
    (hr : (receive {} [some ⟨raw, hn, hl⟩]).1 = .raw raw)
    (he : (Request.parse raw {}).toOption.map (fun req => (req.parseError, WebSocket.isUpgrade req,
      (chatServer.wsRoutes req.path).isSome)) = some (false, u, w)) :
    ∃ req, chatServer.Accepts (chatConnection raw hn hl) raw req ∧ WebSocket.isUpgrade req = u ∧
      (chatServer.wsRoutes req.path).isSome = w := by
  have ⟨req, h, he⟩ := Exn.exists_of_map_toOption he
  simp only [Prod.mk.injEq] at he
  exact ⟨req, ⟨by simp [chatConnection], hr, hn, h, he.1⟩, he.2.1, he.2.2⟩

theorem chatServer_upgrades : chatServer.Upgrades chatUpgrade := by
  have ⟨req, ha, hu, hw⟩ := chatServer_accepts upgradeBytes true true (by decide) (by decide)
    (by decide +kernel) (by decide +kernel)
  exact ⟨_, req, ha, hu, hw⟩

theorem Accepts.unique {σ : Type} {server : Server σ} (h : server.Accepts conn raw req)
    (h' : server.Accepts conn raw' req') : req = req' := by
  cases Received.raw.inj (h.2.1.symm.trans h'.2.1)
  exact Except.ok.inj (h.2.2.2.1.symm.trans h'.2.2.2.1)

theorem chatServer_accepts_request :
    ∃ raw req, chatServer.Accepts chatRequest raw req ∧ ¬chatServer.Upgrades chatRequest := by
  have ⟨req, ha, hu, _⟩ := chatServer_accepts requestBytes false false (by decide) (by decide)
    (by decide +kernel) (by decide +kernel)
  refine ⟨_, req, ha, fun ⟨_, req', ha', hu', _⟩ => ?_⟩
  rw [← ha.unique ha', hu] at hu'
  contradiction

-- A client that is blocked asks for an ordinary path.
theorem app_behind_middlewares_chatServer :
    ∃ raw t, Pool.Steps chatServer.spawns ⟨blockedState, []⟩
      ⟨blockedState, [(some chatRequest, [.parse raw], t)]⟩ ∧ ∀ e ∈ [Event.parse raw], ¬e.IsApp := by
  have ⟨raw, req, ha, hu⟩ := chatServer_accepts_request
  have h₀ : Pool.Steps chatServer.spawns ⟨blockedState, []⟩ ⟨blockedState, [(some chatRequest, [], _)]⟩ :=
    .single (.spawn ⟨chatRequest, rfl, rfl⟩)
  rw [handleRequest_of_accepts ha] at h₀
  have h := h₀.tail .emit_single
  exact ⟨raw, _, h, (app_behind_middlewares Unit Unit).2 _ _ chatServer_guardedFor chatServer_appKeeps _ _
    blockedState_blocks (by simp) h _ _ _ List.mem_cons_self rfl hu⟩

-- The handler runs for a client that the guard has blocked.
theorem app_in_front_of_middlewares :
    ¬(chatServer.handleRequest chatUpgrade).Gated Event.IsApp chatServer.passes ∧
    ∃ p' tr t, PathGuard.Blocks "9.9.9.9" blockedState ∧
      Pool.Steps chatServer.spawns ⟨blockedState, []⟩ p' ∧
      (some chatUpgrade, tr, t) ∈ p'.processes ∧ Event.webSocket ∈ tr := by
  refine ⟨fun h => handleRequest_gated_iff.mp h ⟨chatServer_upgrades, by simp [chatServer]⟩, ?_⟩
  have ⟨raw, data, t, ht⟩ := handleRequest_of_upgrades chatServer_upgrades
  refine ⟨⟨blockedState, [(some chatUpgrade, [.parse raw, .write data, .webSocket], t)]⟩,
    [.parse raw, .write data, .webSocket], t, blockedState_blocks, ?_, List.mem_cons_self, by simp⟩
  have h₀ : Pool.Steps chatServer.spawns ⟨blockedState, []⟩ ⟨blockedState, [(some chatUpgrade, [], _)]⟩ :=
    .single (.spawn ⟨chatUpgrade, rfl, rfl⟩)
  rw [ht] at h₀
  exact h₀.trans <| .tail (.tail (.single .emit_single) .emit_single) .emit_single

end Server
end YNet
