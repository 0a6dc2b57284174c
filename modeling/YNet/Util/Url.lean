import YNet.Cpp.Ascii
import YNet.Cpp.Number

open Cpp

namespace YNet

-- An `unordered_map` from strings to strings.
abbrev StringMap := Finmap fun _ : Bytes => Bytes

def isUnreserved (c : UInt8) : Bool :=
  isalnum c || c = Ascii.minus || c = 0x5F || c = Ascii.dot || c = 0x7E

-- The escape with two digits in upper case.
def urlEncode (s : Bytes) : Bytes :=
  s.flatMap fun c =>
    if isUnreserved c then [c] else [Ascii.percent, upperHexDigit (c.toNat / 16), upperHexDigit (c.toNat % 16)]

-- The `%` is copied when `stoi` throws and when fewer than two bytes follow it.
def urlDecode : Bytes → Bytes
  | []     => []
  | c :: s =>
    if c = Ascii.percent then
      match s with
      | a :: b :: t =>
        match stoi [a, b] 16 with
        | .ok v    => UInt8.ofInt v :: urlDecode t
        | .error _ => c :: urlDecode (a :: b :: t)
      | s => c :: urlDecode s
    else if c = Ascii.plus then Ascii.space :: urlDecode s
    else c :: urlDecode s

def isDoubleEncoded (decoded : Bytes) : Bool :=
  (decoded.find [Ascii.nul]).isSome || go 0
where
  go (pos : Nat) : Bool :=
    match h : decoded.find "%" pos with
    | none     => false
    | some pos =>
      if pos + 2 < decoded.length && isxdigit (decoded.getD (pos + 1) 0)
        && isxdigit (decoded.getD (pos + 2) 0)
      then true
      else go (pos + 1)
  termination_by decoded.length - pos
  decreasing_by
    have := Bytes.le_of_find h
    have : _ + 1 ≤ _ := Bytes.find_add_length_le h
    omega

-- The treatment of one path segment by `normalizePath`.
def pushSegment (seg : List Bytes) (token : Bytes) : List Bytes :=
  if token = [] ∨ token = ("." : Bytes) then seg
  else if token = (".." : Bytes) then seg.dropLast
  else seg ++ [token]

def joinSegments (seg : List Bytes) : Bytes :=
  let result := seg.flatMap (Ascii.slash :: ·)
  if result = [] then "/" else result

def normalizePath (path : Bytes) : Except Exn Bytes :=
  return joinSegments (← go [] 0)
where
  go (seg : List Bytes) (start : Nat) : Except Exn (List Bytes) :=
    match h : path.find "/" start with
    | some pos => do
      let token ← path.substr start (pos - start)
      go (pushSegment seg token) (pos + 1)
    | none => do
      let token ← path.substrFrom start
      return pushSegment seg token
  termination_by path.length - start
  decreasing_by
    have := Bytes.le_of_find h
    have : _ + 1 ≤ _ := Bytes.find_add_length_le h
    omega

def insertPair (q : StringMap) (token : Bytes) : Except Exn StringMap :=
  match token.find "=" with
  | none    => return q.insert (urlDecode token) ""
  | some eq => return q.insert (urlDecode (← token.substr 0 eq)) (urlDecode (← token.substrFrom (eq + 1)))

def parseQuery (query : Bytes) : Except Exn StringMap :=
  go ∅ 0
where
  go (q : StringMap) (pos : Nat) : Except Exn StringMap :=
    if pos < query.length then
      match h : query.find "&" pos with
      | none       => do insertPair q (← query.substrFrom pos)
      | some found => do go (← insertPair q (← query.substr pos (found - pos))) (found + 1)
    else return q
  termination_by query.length - pos
  decreasing_by
    have := Bytes.le_of_find h
    have : _ + 1 ≤ _ := Bytes.find_add_length_le h
    omega

end YNet
