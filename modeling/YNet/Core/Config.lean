import YNet.Cpp.Bytes

namespace YNet

structure Config where
  port            : UInt16 := 8080
  bindAddr        : Bytes  := "0.0.0.0"
  maxBodySize     : UInt64 := 1 * 1024 * 1024
  maxHeaderSize   : UInt64 := 8192
  maxHeaders      : Int32  := 64
  headerTimeoutMs : Int32  := 5000
  bodyTimeoutMs   : Int32  := 10000
  maxConnections  : Int32  := 1024
  useTls          : Bool   := false
  certPath        : Bytes  := []
  keyPath         : Bytes  := []
  maxUploadSize   : UInt64 := 10 * 1024 * 1024
  maxCacheEntries : UInt64 := 1024

end YNet
