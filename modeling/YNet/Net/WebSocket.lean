import YNet.Core.Request

namespace YNet.WebSocket

def isUpgrade (req : Request) : Bool :=
  match req.getHeader "Upgrade", req.getHeader "Connection" with
  | some upgrade, some conn => upgrade = "websocket" && (conn.find "Upgrade").isSome
  | _, _                    => false

-- The function `digest` stands for the base64 encoding of the SHA-1 hash.
def handshake (digest : Bytes → Bytes) (req : Request) : Bytes :=
  match req.getHeader "Sec-WebSocket-Key" with
  | none     => ""
  | some key =>
    let accept := digest (key ++ Bytes.ofString "258EAFA5-E914-47DA-95CA-5AB9DC176B71")
    Bytes.ofString ("HTTP/1.1 101 Switching Protocols\r\nUpgrade: websocket\r\n" ++
      "Connection: Upgrade\r\nSec-WebSocket-Accept: ") ++ accept ++
      Bytes.ofString "\r\nSec-WebSocket-Version: 13\r\n\r\n"

end YNet.WebSocket
