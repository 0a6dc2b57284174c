import YNet.Cpp.Ascii
import YNet.Cpp.Number

namespace YNet

-- Each byte is printed in the format `%02x`.
def toHex (data : Bytes) : Bytes :=
  data.flatMap fun b => [Cpp.lowerHexDigit (b.toNat / 16), Cpp.lowerHexDigit (b.toNat % 16)]

-- `buf` is what `RAND_bytes` leaves in the buffer, which has as many bytes as are asked for.
def randomHex (buf : Bytes) : Bytes :=
  toHex buf

def table : Bytes :=
  "ABCDEFGHIJKLMNOPQRSTUVWXYZabcdefghijklmnopqrstuvwxyz0123456789+/"

-- What the loop appends for three bytes.
def base64Group (b0 b1 b2 : UInt8) : Bytes :=
  let triple : UInt32 := b0.toUInt32 <<< 16 ||| b1.toUInt32 <<< 8 ||| b2.toUInt32
  [table.getD ((triple >>> 18) &&& 0x3F).toNat 0, table.getD ((triple >>> 12) &&& 0x3F).toNat 0,
    table.getD ((triple >>> 6) &&& 0x3F).toNat 0, table.getD (triple &&& 0x3F).toNat 0]

-- The bytes behind the end are taken as zero.
def base64Groups : Bytes → Bytes
  | []                   => []
  | [b0]                 => base64Group b0 0 0
  | [b0, b1]             => base64Group b0 b1 0
  | b0 :: b1 :: b2 :: bs => base64Group b0 b1 b2 ++ base64Groups bs

def base64Encode (data : Bytes) : Bytes :=
  let result := base64Groups data
  if data.length % 3 = 1 then
    (result.set (result.length - 2) Ascii.equals).set (result.length - 1) Ascii.equals
  else if data.length % 3 = 2 then result.set (result.length - 1) Ascii.equals
  else result

end YNet
