import YNet.Core.Theorems.Replies
import YNet.Core.Theorems.Server.Guard
import YNet.Util.Theorems.Crypto

open Lines Cpp

namespace YNet

namespace WebSocket

-- What the client expects behind its key, and what the server appends.
def protocolGuid : Bytes :=
  "258EAFA5-E914-47DA-95CA-C5AB0DC85B11"

def serverGuid : Bytes :=
  "258EAFA5-E914-47DA-95CA-5AB9DC176B71"

-- A response that switches the protocol, with one accept value.
def Switches (accept data : Bytes) : Prop :=
  ∃ line lines, readLines data = some (line :: lines, []) ∧ Reply.readStatus line = some 101 ∧
    ∀ value, (Bytes.ofString "Sec-WebSocket-Accept", value) ∈ lines.map Reply.readField ↔ value = accept

def Refuses (data : Bytes) : Prop :=
  ∃ line lines rest code, readLines data = some (line :: lines, rest) ∧
    Reply.readStatus line = some code ∧ 400 ≤ code

def handshakeFields (accept : Bytes) : List (Bytes × Bytes) :=
  [("Upgrade", "websocket"), ("Connection", "Upgrade"), ("Sec-WebSocket-Accept", accept),
    ("Sec-WebSocket-Version", "13")]

def statusLine : Bytes :=
  "HTTP/1.1 101 Switching Protocols"

theorem handshake_of_key (h : req.getHeader "Sec-WebSocket-Key" = some key) : handshake digest req
    = wire (statusLine :: (handshakeFields (digest (key ++ serverGuid))).map Response.headerLine) ++ (crlf ++ []) := by
  have hs : Bytes.ofString ("HTTP/1.1 101 Switching Protocols\r\nUpgrade: websocket\r\n" ++
      "Connection: Upgrade\r\nSec-WebSocket-Accept: ")
      = statusLine ++ (crlf ++ (Response.headerLine ("Upgrade", "websocket") ++
          (crlf ++ (Response.headerLine ("Connection", "Upgrade") ++ (crlf ++ Bytes.ofString "Sec-WebSocket-Accept: "))))) := by
    decide +kernel
  have hv : Bytes.ofString "\r\nSec-WebSocket-Version: 13\r\n\r\n"
      = crlf ++ (Response.headerLine ("Sec-WebSocket-Version", "13") ++ (crlf ++ (crlf ++ []))) := by
    decide +kernel
  have ha : Response.headerLine ("Sec-WebSocket-Accept", digest (key ++ serverGuid))
      = Bytes.ofString "Sec-WebSocket-Accept: " ++ digest (key ++ serverGuid) := rfl
  simp only [handshake, h, hs, hv, handshakeFields, List.map_cons, List.map_nil, wire_cons, wire_nil, ha,
    List.append_assoc, List.nil_append]
  rfl

theorem isFieldName_of_mem (h : f ∈ handshakeFields accept) : IsFieldName f.1 := by
  have h : f.1 ∈ (handshakeFields accept).map Prod.fst := List.mem_map_of_mem h
  have hall : ∀ key ∈ (handshakeFields accept).map Prod.fst,
      key ≠ [] ∧ (∀ b ∈ [Ascii.colon, Ascii.cr, Ascii.lf], b ∉ key) ∧ lowercase key ≠ "content-length" := by
    show ∀ key ∈ [Bytes.ofString "Upgrade", Bytes.ofString "Connection", Bytes.ofString "Sec-WebSocket-Accept",
      Bytes.ofString "Sec-WebSocket-Version"], _
    decide +kernel
  have ⟨hn, hb, hl⟩ := hall _ h
  exact ⟨hn, hb, fun he => absurd he hl⟩

theorem cr_not_mem_of_mem (hc : Ascii.cr ∉ accept) (h : f ∈ handshakeFields accept) : Ascii.cr ∉ f.2 := by
  simp only [handshakeFields, List.mem_cons, List.not_mem_nil, or_false] at h
  rcases h with rfl | rfl | rfl | rfl
  · decide +kernel
  · decide +kernel
  · exact hc
  · decide +kernel

theorem readLines_handshake (h : req.getHeader "Sec-WebSocket-Key" = some key)
    (hc : Ascii.cr ∉ digest (key ++ serverGuid)) : readLines (handshake digest req)
      = some (statusLine :: (handshakeFields (digest (key ++ serverGuid))).map Response.headerLine, []) := by
  rw [handshake_of_key h]
  refine readLines_wire (List.forall_mem_cons.mpr ⟨⟨by decide +kernel, .of_not_mem (by decide +kernel)⟩, ?_⟩)
  rw [List.forall_mem_map]
  intro f hf
  have hk := (isFieldName_of_mem hf).bytes Ascii.cr (by simp)
  exact ⟨Response.headerLine_ne_nil, Response.headerLine_isLine_iff.mpr
    ⟨Script.no_terminator_of_not_mem hk, Script.no_terminator_of_not_mem (cr_not_mem_of_mem hc hf)⟩⟩

theorem map_readField : ((handshakeFields accept).map Response.headerLine).map Reply.readField
    = handshakeFields accept := by
  rw [List.map_map]
  exact (List.map_congr_left fun f hf => Script.readField_headerLine (isFieldName_of_mem hf)).trans (List.map_id _)

theorem mem_handshakeFields_iff : (Bytes.ofString "Sec-WebSocket-Accept", value) ∈ handshakeFields accept ↔
    value = accept := by
  have h₁ : Bytes.ofString "Sec-WebSocket-Accept" ≠ "Upgrade" := by decide +kernel
  have h₂ : Bytes.ofString "Sec-WebSocket-Accept" ≠ "Connection" := by decide +kernel
  have h₃ : Bytes.ofString "Sec-WebSocket-Accept" ≠ "Sec-WebSocket-Version" := by decide +kernel
  simp [handshakeFields, h₁, h₂, h₃]

theorem switches_handshake_iff (h : req.getHeader "Sec-WebSocket-Key" = some key)
    (hc : Ascii.cr ∉ digest (key ++ serverGuid)) :
    Switches accept (handshake digest req) ↔ digest (key ++ serverGuid) = accept := by
  have hr := readLines_handshake h hc
  constructor
  · rintro ⟨line, lines, he, _, hv⟩
    cases hr.symm.trans he
    rw [map_readField] at hv
    exact (hv _).mp (mem_handshakeFields_iff.mpr rfl)
  · rintro rfl
    refine ⟨_, _, hr, by decide +kernel, fun value => ?_⟩
    rw [map_readField]
    exact mem_handshakeFields_iff

end WebSocket

namespace Event

-- Bytes for the client.
def IsOutput : Event → Bool
  | write _ | send _ => true
  | _                => false

def IsError : Event → Prop
  | write data => WebSocket.Refuses data
  | send res   => 400 ≤ res.statusCode
  | _          => False

end Event

namespace Server

variable {σ : Type} {server : Server σ} {sha1 : Bytes → Bytes}

-- The handler runs only behind a response that accepts the key of the request.
structure UpgradeGuarded (server : Server σ) (sha1 : Bytes → Bytes) (conn : Connection) (req : Request) : Prop where
  switches : ∀ tr post, (server.handleRequest conn).Trace (tr ++ .webSocket :: post) →
    ∃ key data, req.getHeader "Sec-WebSocket-Key" = some key ∧ tr.filter Event.IsOutput = [.write data] ∧
      WebSocket.Switches (Base64.encode (sha1 (key ++ WebSocket.protocolGuid))) data
  refuses  : req.getHeader "Sec-WebSocket-Key" = none →
    (∀ tr, (server.handleRequest conn).Trace tr → .webSocket ∉ tr) ∧
      ∀ tr, (server.handleRequest conn).Finishes tr → ∃ e ∈ tr, e.IsError

theorem handleRequest_of_route (ha : server.Accepts conn raw req) (hu : WebSocket.isUpgrade req)
    (hr : (server.wsRoutes req.path).isSome) :
    ∃ t, t.Avoids (fun _ => True) (· = .webSocket) ∧ server.handleRequest conn
      = .emit (.parse raw) (.emit (.write (WebSocket.handshake server.digest req)) (.emit .webSocket t)) := by
  have ⟨handler, hw⟩ := Option.isSome_iff_exists.mp hr
  have hp := handleParsed_of_upgrade server { req with clientIp := conn.clientIp } ha.2.2.2.2 hu
  rw [handleRequest_of_accepts ha, hp]
  simp only [handleWebSocket, hw]
  refine ⟨_, Code.exec_avoids fun e _ => ?_, rfl⟩
  cases e with
  | none   => exact ⟨by simp, trivial⟩
  | some e => exact ⟨by simp, trivial⟩

-- The handler is called once.
theorem eq_of_trace {t : Process σ Event} (ht : t.Avoids (fun _ => True) (· = .webSocket))
    (h : (Process.emit (.parse raw) (.emit (.write data) (.emit .webSocket t))).Trace (tr ++ .webSocket :: post)) :
    tr = [.parse raw, .write data] := by
  rcases tr with _ | ⟨e₁, tr⟩
  · exact absurd h.of_emit.1 (by simp)
  have ⟨h₁, h⟩ := h.of_emit
  rcases tr with _ | ⟨e₂, tr⟩
  · exact absurd h.of_emit.1 (by simp)
  have ⟨h₂, h⟩ := h.of_emit
  rcases tr with _ | ⟨e₃, tr⟩
  · rw [h₁, h₂]
  have ⟨_, h⟩ := h.of_emit
  exact absurd rfl (Process.avoids_iff.mp ht _ h .webSocket (by simp))

theorem cr_not_mem_base64Encode : Ascii.cr ∉ base64Encode s := by
  intro h
  rw [base64Encode_eq] at h
  rcases Base64.mem_encode h with h | h
  · exact absurd h (by decide +kernel)
  · contradiction

theorem upgradeGuarded_iff (hs : ∀ s, (sha1 s).length = 20) (hd : server.digest = fun s => base64Encode (sha1 s))
    (ha : server.Accepts conn raw req) (hu : WebSocket.isUpgrade req) (hr : (server.wsRoutes req.path).isSome) :
    server.UpgradeGuarded sha1 conn req ↔ ∃ key, req.getHeader "Sec-WebSocket-Key" = some key ∧
      sha1 (key ++ WebSocket.serverGuid) = sha1 (key ++ WebSocket.protocolGuid) := by
  have ⟨t, ht, hq⟩ := handleRequest_of_route ha hu hr
  have hc (key : Bytes) : Ascii.cr ∉ server.digest (key ++ WebSocket.serverGuid) := by
    rw [hd]
    exact cr_not_mem_base64Encode
  constructor
  · intro h
    have htr : (server.handleRequest conn).Trace
        ([.parse raw, .write (WebSocket.handshake server.digest req)] ++ .webSocket :: []) := by
      rw [hq]
      exact .emit (.emit (.emit .nil))
    have ⟨key, data, hk, ho, hsw⟩ := h.switches _ _ htr
    have hdata : WebSocket.handshake server.digest req = data := Event.write.inj (List.cons.inj ho).1
    rw [← hdata, WebSocket.switches_handshake_iff hk (hc key), hd] at hsw
    dsimp only at hsw
    rw [base64Encode_eq] at hsw
    exact ⟨key, hk, Base64.encode_inj ((hs _).trans (hs _).symm) hsw⟩
  · rintro ⟨key, hk, he⟩
    refine ⟨fun tr post h => ?_, fun hn => absurd (hn.symm.trans hk) (by simp)⟩
    rw [hq] at h
    refine ⟨key, _, hk, by rw [eq_of_trace ht h]; rfl, ?_⟩
    rw [WebSocket.switches_handshake_iff hk (hc key), hd]
    dsimp only
    rw [base64Encode_eq, he]

-- The hashes of one key with both constants.
def keyText : Bytes :=
  "dGhlIHNhbXBsZSBub25jZQ=="

def keySha1 (s : Bytes) : Bytes :=
  if s = keyText ++ WebSocket.serverGuid then
    [0x0B, 0x3F, 0x94, 0x2A, 0xE9, 0x3C, 0xDD, 0xD1, 0xB2, 0x93,
        0xAB, 0xAF, 0x13, 0xA2, 0x91, 0xC7, 0xC8, 0x50, 0x2A, 0xB1]
  else if s = keyText ++ WebSocket.protocolGuid then
    [0xB3, 0x7A, 0x4F, 0x2C, 0xC0, 0x62, 0x4F, 0x16, 0x90, 0xF6,
        0x46, 0x06, 0xCF, 0x38, 0x59, 0x45, 0xB2, 0xBE, 0xC4, 0xEA]
  else List.replicate 20 0

theorem length_keySha1 : (keySha1 s).length = 20 := by
  unfold keySha1
  split_ifs <;> rfl

def keyServer : Server (PathGuard × Unit) :=
  { chatServer with digest := fun s => base64Encode (keySha1 s) }

def keyBytes : Bytes :=
  Bytes.ofString "GET /chat HTTP/1.1\r\nUpgrade: websocket\r\nConnection: Upgrade\r\nSec-WebSocket-Key: " ++
    keyText ++ Bytes.ofString "\r\n\r\n"

def keyUpgrade : Connection :=
  chatConnection keyBytes (by decide) (by decide)

theorem keyServer_accepts (raw : Bytes) (key : Option Bytes) (hn : raw ≠ []) (hl : raw.length ≤ 4096)
    (hr : (receive {} [some ⟨raw, hn, hl⟩]).1 = .raw raw)
    (he : (Request.parse raw {}).toOption.map (fun req => (req.parseError, WebSocket.isUpgrade req,
      (keyServer.wsRoutes req.path).isSome, req.getHeader "Sec-WebSocket-Key")) = some (false, true, true, key)) :
    ∃ req, keyServer.Accepts (chatConnection raw hn hl) raw req ∧ WebSocket.isUpgrade req ∧
      (keyServer.wsRoutes req.path).isSome ∧ req.getHeader "Sec-WebSocket-Key" = key := by
  have ⟨req, h, he⟩ := Exn.exists_of_map_toOption he
  simp only [Prod.mk.injEq] at he
  exact ⟨req, ⟨by simp [chatConnection], hr, hn, h, he.1⟩, he.2⟩

-- The accept value is not the one that the client computes.
theorem upgradeGuarded_iff_key : ∃ req, keyServer.Accepts keyUpgrade keyBytes req ∧
    WebSocket.isUpgrade req ∧ ¬keyServer.UpgradeGuarded keySha1 keyUpgrade req := by
  have ⟨req, ha, hu, hw, hk⟩ := keyServer_accepts keyBytes (some keyText) (by decide) (by decide)
    (by decide +kernel) (by decide +kernel)
  refine ⟨req, ha, hu, fun h => ?_⟩
  have ⟨key, hk', he⟩ := (upgradeGuarded_iff (fun _ => length_keySha1) rfl ha hu hw).mp h
  cases hk.symm.trans hk'
  exact absurd he (by decide +kernel)

-- Without a key the handler runs although nothing has been written.
theorem not_upgradeGuarded : ∃ req, keyServer.Accepts chatUpgrade upgradeBytes req ∧
    WebSocket.isUpgrade req ∧ (keyServer.wsRoutes req.path).isSome ∧
    req.getHeader "Sec-WebSocket-Key" = none ∧
    (∃ post, (keyServer.handleRequest chatUpgrade).Trace ([.parse upgradeBytes, .write []] ++ .webSocket :: post)) ∧
    ¬keyServer.UpgradeGuarded keySha1 chatUpgrade req := by
  have ⟨req, ha, hu, hw, hk⟩ := keyServer_accepts upgradeBytes none (by decide) (by decide)
    (by decide +kernel) (by decide +kernel)
  have ⟨t, ht, hq⟩ := handleRequest_of_route ha hu hw
  have hd : WebSocket.handshake keyServer.digest req = [] := by
    simp only [WebSocket.handshake, hk]
    rfl
  have htr : (keyServer.handleRequest chatUpgrade).Trace ([.parse upgradeBytes, .write []] ++ .webSocket :: []) := by
    rw [chatUpgrade, hq, hd]
    exact .emit (.emit (.emit .nil))
  exact ⟨req, ha, hu, hw, hk, ⟨[], htr⟩, fun h => (h.refuses hk).1 _ htr (by simp)⟩

end Server
end YNet
