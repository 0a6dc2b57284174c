import YNet.Cpp.Bytes

namespace YNet

-- The bytes of one successful read, which asks for at most 4096 bytes.
structure Chunk where
  bytes  : Bytes
  ne_nil : bytes ≠ []
  le     : bytes.length ≤ 4096

-- A connection as the server sees it. The results of the reads that are still to come are chunks, or
-- `none` when `read` returns no positive number. When they are used up, all reads are of that kind.
structure Connection where
  clientIp : Bytes
  -- The results of the TLS handshake, if the connection has a TLS session.
  handshake : Option Bool := none
  arrivals  : List (Option Chunk)

namespace Connection

def read : List (Option Chunk) → Option Chunk × List (Option Chunk)
  | []             => (none, [])
  | result :: rest => (result, rest)

end Connection
end YNet
