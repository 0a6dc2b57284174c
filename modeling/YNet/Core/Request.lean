import YNet.Core.Config
import YNet.Cpp.View
import YNet.Util.MultipartParser
import YNet.Util.Url

open Cpp

namespace YNet

-- A part of a request that `parse` has returned. The parser and its copy of the body are gone by then, so
-- that only the range is left of the data.
structure DanglingPart where
  name        : Bytes
  filename    : Bytes
  contentType : Bytes
  data        : View
  deriving DecidableEq

def Part.dangling (part : Part) : DanglingPart where
  name        := part.name
  filename    := part.filename
  contentType := part.contentType
  data        := { pos := part.dataPos, length := part.data.length }

structure Request where
  method      : Bytes             := []
  path        : Bytes             := []
  version     : Bytes             := []
  headers     : StringMap         := ∅
  body        : Bytes             := []
  clientIp    : Bytes             := []
  queryParams : StringMap         := ∅
  parts       : List DanglingPart := []
  csrfToken   : Bytes             := []
  formData    : StringMap         := ∅
  parseError  : Bool              := false
  errorCode   : Nat               := 0
  params      : StringMap         := ∅

namespace Request

def getHeader (req : Request) (key : Bytes) : Option Bytes :=
  req.headers.lookup key

def getParam (req : Request) (key : Bytes) : Option Bytes :=
  req.params.lookup key

def fail (req : Request) (code : Nat) : Request :=
  { req with parseError := true, errorCode := code }

def methods : List Bytes :=
  ["GET", "POST", "PUT", "DELETE", "PATCH", "HEAD", "OPTIONS"]

def versions : List Bytes :=
  ["HTTP/1.0", "HTTP/1.1"]

-- The value of a header starts behind the blanks that follow the colon.
def headerValue (header : Bytes) (colon : Nat) : Except Exn Bytes :=
  match header.findFirstNotOf " \t" (colon + 1) with
  | some valueStart => header.substrFrom valueStart
  | none            => return ""

-- The loop over the header lines. The inner result is the rejected request, or else the request
-- with its headers and the position at which the loop has stopped.
def parseHeaders (data : Bytes) (config : Config) (req : Request) (pos count : Nat) :
    Except Exn (Except Request (Request × Nat)) :=
  match _h : data.find "\r\n" pos with
  | none => return .ok (req, pos)
  | some next =>
    if next = pos then return .ok (req, pos)
    else do
      let header ← data.substr pos (next - pos)
      match header.find ":" with
      | none => parseHeaders data config req (next + 2) count
      | some colon =>
        let key ← header.substr 0 colon
        let value ← headerValue header colon
        let req := { req with headers := req.headers.insert key value }
        if (count + 1 : Int) > config.maxHeaders.toInt then return .error (req.fail 431)
        parseHeaders data config req (next + 2) (count + 1)
termination_by data.length - pos
decreasing_by
  all_goals
    have := Bytes.le_of_find _h
    have : _ + 2 ≤ _ := Bytes.find_add_length_le _h
    omega

-- The parts without a filename are form fields. Their data are copied while the body lives.
def insertField (formData : StringMap) (part : Part) : StringMap :=
  if part.filename = [] then formData.insert part.name part.data else formData

def parseForm (req : Request) : Except Exn Request :=
  match req.getHeader "Content-Type" with
  | none    => return req
  | some ct =>
    if (ct.find "multipart/form-data").isSome then
      if (ct.find "boundary=").isNone then return req.fail 400
      else do
        let parts ← MultipartParser.parse req.body ct
        return { req with parts := parts.map Part.dangling, formData := parts.foldl insertField req.formData }
    else if (ct.find "application/x-www-form-urlencoded").isSome then
      return { req with formData := ← parseQuery req.body }
    else return req

def parseBody (data : Bytes) (req : Request) (pos : Nat) : Except Exn Request := do
  let req := { req with body := ← data.substrFrom (pos + 2) }
  match req.getHeader "Content-Length" with
  | none    => parseForm req
  | some cl =>
    match fromChars cl with
    | none               => return req.fail 400
    | some contentLength =>
      if contentLength ≠ req.body.length then return req.fail 400
      parseForm req

def parseTarget (target : Bytes) : Except Exn (Bytes × StringMap) :=
  match target.find "?" with
  | none      => return (target, ∅)
  | some qpos => return (← target.substr 0 qpos, ← parseQuery (← target.substrFrom (qpos + 1)))

-- The part of `parse` behind the checks of the sizes and positions.
def parseMessage (data : Bytes) (config : Config) (sp1 sp2 lineEnd : Nat) : Except Exn Request := do
  let method ← data.substr 0 sp1
  let (path, queryParams) ← parseTarget (← data.substr (sp1 + 1) (Bytes.sizeSub sp2 (sp1 + 1)))
  let path := urlDecode path
  let req : Request := { method, path, queryParams }
  if isDoubleEncoded path then return req.fail 400
  let path ← normalizePath path
  -- If the line ends in front of the second space, the count wraps around to the rest of `data`.
  let version ← data.substr (sp2 + 1) (Bytes.sizeSub lineEnd (sp2 + 1))
  let req := { req with path, version }
  if method ∉ methods then return req.fail 400
  if version ∉ versions then return req.fail 400
  match ← parseHeaders data config req (lineEnd + 2) 0 with
  | .error req     => return req
  | .ok (req, pos) => parseBody data req pos

def parse (raw : Bytes) (config : Config) : Except Exn Request :=
  let req : Request := {}
  if raw.length > (config.maxHeaderSize + config.maxBodySize).toNat then return req.fail 413
  else
    let sp1 := raw.find " "
    -- If there is no first space, `sp1 + 1` wraps around to zero.
    let sp2 := raw.find " " (sp1.elim 0 (· + 1))
    let lineEnd := raw.find "\r\n"
    match raw.find "\r\n\r\n" with
    | none => return req.fail 400
    | some headerEnd =>
      if headerEnd > config.maxHeaderSize.toNat then return req.fail 413
      else if raw.length - (headerEnd + 4) > config.maxBodySize.toNat then return req.fail 413
      else
        match sp1, sp2, lineEnd with
        | some sp1, some sp2, some lineEnd => parseMessage raw config sp1 sp2 lineEnd
        | _, _, _                          => return req.fail 400

end Request
end YNet
