import YNet.Core.Config
import YNet.Cpp.Ascii
import YNet.Cpp.Number

open Cpp

namespace YNet

-- The multiplications are those of `size_t` values. An unknown unit is only warned about.
def parseSize (val : Bytes) : Except Exn UInt64 :=
  match val.findFirstNotOf "0123456789" with
  | none     => return .ofNat (← stoul val)
  | some pos => do
    let num : UInt64 := .ofNat (← stoul (← val.substr 0 pos))
    let unit ← val.substrFrom pos
    if unit = "KB" then return num * 1024
    else if unit = "MB" then return num * 1024 * 1024
    else if unit = "GB" then return num * 1024 * 1024 * 1024
    else return num

namespace Config

def confDir : Bytes :=
  "config"

-- The configuration that is written if there is none.
def defaultText (dirName : Bytes) : Bytes :=
  Bytes.ofString "# " ++ dirName ++ Bytes.ofString " configuration\n" ++ Bytes.ofString "port=8080\n" ++
    Bytes.ofString "bind=0.0.0.0\n" ++ Bytes.ofString "tls=off\n" ++ Bytes.ofString "cert=cert.pem\n" ++
    Bytes.ofString "key=key.pem\n" ++ Bytes.ofString "max_body=1MB\n" ++ Bytes.ofString "max_upload=10MB\n" ++
    Bytes.ofString "max_header=8KB\n" ++ Bytes.ofString "max_headers=64\n" ++ Bytes.ofString "header_timeout=5000\n" ++
    Bytes.ofString "body_timeout=10000\n" ++ Bytes.ofString "max_connections=1024\n" ++ Bytes.ofString "max_cache=1024\n"

-- The lines that `getline` reads. Behind the last line feed there is a line only if it is not empty.
def getLines (text : Bytes) : List Bytes :=
  let lines := text.splitOn Ascii.lf
  if lines.getLast? = some [] then lines.dropLast else lines

-- The value that is assigned to a setting.
def assign (config : Config) (key value : Bytes) : Except Exn Config :=
  if key = "port" then return { config with port := .ofInt (← stoi value) }
  else if key = "bind" then return { config with bindAddr := value }
  else if key = "tls" then return { config with useTls := value = "on" }
  else if key = "cert" then return { config with certPath := confDir ++ Bytes.ofString "/" ++ value }
  else if key = "key" then return { config with keyPath := confDir ++ Bytes.ofString "/" ++ value }
  else if key = "max_body" then return { config with maxBodySize := ← parseSize value }
  else if key = "max_upload" then return { config with maxUploadSize := ← parseSize value }
  else if key = "max_header" then return { config with maxHeaderSize := ← parseSize value }
  else if key = "max_headers" then return { config with maxHeaders := .ofInt (← stoi value) }
  else if key = "header_timeout" then return { config with headerTimeoutMs := .ofInt (← stoi value) }
  else if key = "body_timeout" then return { config with bodyTimeoutMs := .ofInt (← stoi value) }
  else if key = "max_connections" then return { config with maxConnections := .ofInt (← stoi value) }
  else if key = "max_cache" then return { config with maxCacheEntries := .ofInt (← stoi value) }
  else return config

-- Without an equals sign, `pos + 1` wraps around to zero.
def parseLine (config : Config) (line : Bytes) : Except Exn Config :=
  if line = [] ∨ line.head? = some 0x23 then return config
  else do
    let pos := line.find "="
    let key ← line.substr 0 (pos.getD line.length)
    let value ← line.substrFrom (pos.elim 0 (· + 1))
    config.assign key value

end Config

-- `conf` is the text of the configuration file, if it exists, and `isOpen` tells whether it can be opened.
def loadConfig (dirName : Bytes) (conf : Option Bytes) (isOpen : Bool) : Except Exn Config :=
  if conf = none ∧ dirName = "build" then return {}
  else if ¬isOpen then return {}
  else (Config.getLines (conf.getD (Config.defaultText dirName))).foldlM Config.parseLine {}

end YNet
