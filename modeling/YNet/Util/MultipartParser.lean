import YNet.Cpp.Ascii
import YNet.Cpp.Bytes

namespace YNet

-- The `string_view` of a part's data lies at offset `dataPos` of the body. It shows `data` as long as the
-- body lives, which the parser owns.
structure Part where
  name        : Bytes
  filename    : Bytes
  contentType : Bytes
  dataPos     : Nat
  data        : Bytes
  deriving DecidableEq

namespace MultipartParser

def extractBoundary (contentType : Bytes) : Except Exn Bytes :=
  match contentType.find "boundary" with
  | none => return ""
  | some boundaryStart =>
    match contentType.find "=" boundaryStart with
    | none => return ""
    | some eq =>
      if eq + 1 ≥ contentType.length then return ""
      else if contentType.getD (eq + 1) 0 = Ascii.quote then
        -- Without a closing quote `end` is `npos`, so that the count reaches the end of the string.
        match contentType.find "\"" (eq + 2) with
        | some stop => contentType.substr (eq + 2) (stop - (eq + 2))
        | none      => contentType.substrFrom (eq + 2)
      else contentType.substrFrom (eq + 1)

-- The position of `name="` in a part's header, which must not be the one inside of `filename="`.
def nameStart (header : Bytes) (filenameStart : Option Nat) : Option Nat :=
  match header.find "name=\"", filenameStart with
  | some start, some filename =>
    if start = filename + 4 then header.find "name=\"" (filename + 10) else some start
  | start, _ => start

-- The text between `start` and the next quote. The result is `none` if there is no such quote.
def quotedValue (header : Bytes) (start : Nat) : Except Exn (Option Bytes) :=
  match header.find "\"" start with
  | some stop => return some (← header.substr start (stop - start))
  | none      => return none

-- The fourteen skipped bytes are `Content-Type:` and the blank that usually follows it.
def partContentType (header : Bytes) : Except Exn Bytes :=
  match header.find "Content-Type:" with
  | none => return ""
  | some contentTypeStart =>
    let start := contentTypeStart + 14
    match header.find "\r\n" start with
    | some semi => header.substr start (semi - start)
    | none      => header.substrFrom start

-- Without a filename attribute, the filename is empty.
def filenameValue (header : Bytes) (filenameStart : Option Nat) : Except Exn (Option Bytes) :=
  match filenameStart with
  | some filenameStart => quotedValue header (filenameStart + 10)
  | none               => return some ""

-- The name, the filename and the content type in a part's header. The result is `none` when the
-- part is ignored, because there is no name or because a quote is not closed.
def partHeader (header : Bytes) : Except Exn (Option (Bytes × Bytes × Bytes)) := do
  let filenameStart := header.find "filename=\""
  let some start := nameStart header filenameStart | return none
  let some name ← quotedValue header (start + 6) | return none
  let some filename ← filenameValue header filenameStart | return none
  return some (name, filename, ← partContentType header)

-- The range of `len` bytes at `raw` is given by its offset in the body and its bytes.
def parsePart (offset : Nat) (raw : Bytes) (parts : List Part) : Except Exn (List Part) := do
  let some stop := raw.find "\r\n\r\n" | return parts
  let some (name, filename, contentType) ← partHeader (raw.take stop) | return parts
  let data := raw.drop (stop + 4)
  if filename ≠ [] ∧ data = [] then return parts
  return parts ++ [{ name, filename, contentType, dataPos := offset + stop + 4, data }]

def parse (body contentType : Bytes) : Except Exn (List Part) := do
  let boundary ← extractBoundary contentType
  if boundary = [] then return []
  go (Bytes.ofString "--" ++ boundary) 0 none []
where
  go (sep : Bytes) (cur : Nat) (prev : Option Nat) (parts : List Part) : Except Exn (List Part) :=
    match h : body.find sep cur with
    | none => return parts
    | some it => do
      let parts ← match prev with
        | some prev =>
          if it - prev > 2 then parsePart prev ((body.drop prev).take (it - prev - 2)) parts
          else pure parts
        | none => pure parts
      let prev := it + sep.length + 2
      if prev > body.length then return parts
      go sep prev (some prev) parts
  termination_by body.length - cur
  decreasing_by
    have := Bytes.le_of_find h
    omega

end MultipartParser
end YNet
