import YNet.Cpp.Ascii
import YNet.Cpp.Double

open Cpp

namespace YNet

-- The members of an object are the entries of a `std::map` in the order of their keys.
inductive JsonValue
  | null
  | bool (b : Bool)
  | int (n : Int64)
  | double (x : Double)
  | string (s : Bytes)
  | array (vs : List JsonValue)
  | object (ms : List (Bytes × JsonValue))

namespace Json

def toText : JsonValue → Bytes
  | .null     => []
  | .bool b   => if b then "true" else "false"
  | .int n    => Cpp.toString n.toInt
  | .double x => doubleToString x
  | .string s => s
  | .array _  => []
  | .object _ => []

def escapeChar (c : UInt8) : Bytes :=
  if c = Ascii.quote then [Ascii.backslash, Ascii.quote]
  else if c = Ascii.backslash then [Ascii.backslash, Ascii.backslash]
  else if c = 0x0A then "\\n"
  else if c = 0x0D then "\\r"
  else if c = 0x09 then "\\t"
  else if c = 0x08 then "\\b"
  else if c = 0x0C then "\\f"
  else [c]

def escapeString (s : Bytes) : Bytes :=
  Ascii.quote :: s.flatMap escapeChar ++ [Ascii.quote]

mutual

def stringify : JsonValue → Bytes
  | .null      => "null"
  | .bool b    => if b then "true" else "false"
  | .int n     => Cpp.toString n.toInt
  | .double x  => doubleToString x
  | .string s  => escapeString s
  | .array vs  => Ascii.openBracket :: [Ascii.comma].intercalate (stringifyItems vs) ++ [Ascii.closeBracket]
  | .object ms => Ascii.openBrace :: [Ascii.comma].intercalate (stringifyMembers ms) ++ [Ascii.closeBrace]

def stringifyItems : List JsonValue → List Bytes
  | []      => []
  | v :: vs => stringify v :: stringifyItems vs

def stringifyMembers : List (Bytes × JsonValue) → List Bytes
  | []           => []
  | (k, v) :: ms => (escapeString k ++ Ascii.colon :: stringify v) :: stringifyMembers ms

end

-- The functions below read the bytes from an index on. They return an index as the bytes from there
-- on, and as `none` if it lies behind the end.
abbrev Reader (α : Type) := Bytes → Except Failure (α × Option Bytes)

def runtimeError (what : String) : Failure :=
  .thrown (.runtimeError what)

def isWhitespace (c : UInt8) : Bool :=
  c = 0x20 || c = 0x0A || c = 0x0D || c = 0x09

def skipWhitespace (s : Bytes) : Bytes :=
  s.dropWhile isWhitespace

-- The byte behind the end of a `std::string` is no separator.
def skipSeparator (c : UInt8) (s : Bytes) : Bytes :=
  match skipWhitespace s with
  | []     => []
  | b :: t => if b = c then skipWhitespace t else b :: t

def skip (n : Nat) (s : Bytes) : Option Bytes :=
  if n ≤ s.length then some (s.drop n) else none

-- The encoding of a code unit of 16 bits, which may be one half of a surrogate pair.
def encodeUnit (cp : Nat) : Bytes :=
  if cp < 0x80 then [.ofNat cp]
  else if cp < 0x800 then [.ofNat (0xC0 ||| cp >>> 6), .ofNat (0x80 ||| cp &&& 0x3F)]
  else [.ofNat (0xE0 ||| cp >>> 12), .ofNat (0x80 ||| cp >>> 6 &&& 0x3F), .ofNat (0x80 ||| cp &&& 0x3F)]

def unescape (c : UInt8) : Option UInt8 :=
  if c = Ascii.quote then some Ascii.quote
  else if c = Ascii.backslash then some Ascii.backslash
  else if c = Ascii.slash then some Ascii.slash
  else if c = 'n'.toUInt8 then some 0x0A
  else if c = 'r'.toUInt8 then some 0x0D
  else if c = 't'.toUInt8 then some 0x09
  else if c = 'b'.toUInt8 then some 0x08
  else if c = 'f'.toUInt8 then some 0x0C
  else none

-- The part of `parseString` behind the opening quote.
def parseChars : Bytes → Except Failure (Bytes × Option Bytes)
  | []     => return ([], none)
  | c :: s =>
    if c = Ascii.quote then return ([], some s)
    else if c = Ascii.backslash then
      match s with
      | []     => throw (runtimeError "unexpected end of string")
      | e :: s =>
        if e = 'u'.toUInt8 then
          match s with
          | h₁ :: h₂ :: h₃ :: h₄ :: s => do
            let cp ← (stoul [h₁, h₂, h₃, h₄] 16).mapError .thrown
            let (data, pos) ← parseChars s
            return (encodeUnit (cp % 2 ^ 16) ++ data, pos)
          | _ => throw (runtimeError "invalid unicode escape")
        else
          match unescape e with
          | none   => throw (runtimeError "invalid escape character")
          | some b => do
            let (data, pos) ← parseChars s
            return (b :: data, pos)
    else do
      let (data, pos) ← parseChars s
      return (c :: data, pos)

def isNumberByte (c : UInt8) : Bool :=
  isdigit c || c = Ascii.minus || c = Ascii.dot

def parseNumber (s : Bytes) : Except Failure (JsonValue × Option Bytes) :=
  let data := s.takeWhile isNumberByte
  let pos := some (s.dropWhile isNumberByte)
  if data = [] then throw (runtimeError "invalid number")
  else if Ascii.minus ∈ data.tail then throw (runtimeError "invalid number")
  else if 1 < data.count Ascii.dot ∨ 1 < data.count Ascii.minus then throw (runtimeError "invalid number")
  else if Ascii.dot ∈ data then return (.double (← (stod data).mapError .thrown), pos)
  else return (.int (← (stoll data).mapError .thrown), pos)

-- The loop of `parseArray` and `parseObject`. To look for a comma behind the end has no defined
-- behavior, and the loop does not end on an item that takes no bytes.
def parseItems (close : UInt8) (item : Reader α) : Bytes → Except Failure (List α × Option Bytes)
  | []     => throw (runtimeError "unexpected end of input")
  | c :: s =>
    if c = close then return ([], some s)
    else
      match item (c :: s) with
      | .error e          => throw e
      | .ok (_, none)     => throw .undefined
      | .ok (v, some pos) =>
        if (skipSeparator Ascii.comma pos).length < s.length + 1 then do
          let (vs, pos) ← parseItems close item (skipSeparator Ascii.comma pos)
          return (v :: vs, pos)
        else throw .endless
termination_by s => s.length

def parseMember (value : Reader JsonValue) (s : Bytes) : Except Failure ((Bytes × JsonValue) × Option Bytes) :=
  match skipWhitespace s with
  | []     => throw (runtimeError "expected string key")
  | c :: t =>
    if c ≠ Ascii.quote then throw (runtimeError "expected string key")
    else do
      match ← parseChars t with
      | (_, none)       => throw .undefined
      | (key, some pos) =>
        let (v, pos) ← value (skipSeparator Ascii.colon pos)
        return ((key, v), pos)

-- The assignment `datas[key] = value`.
def insertMember (key : Bytes) (v : JsonValue) : List (Bytes × JsonValue) → List (Bytes × JsonValue)
  | []      => [(key, v)]
  | m :: ms =>
    if key < m.1 then (key, v) :: m :: ms
    else if key = m.1 then (key, v) :: ms
    else m :: insertMember key v ms

def collect (ms : List (Bytes × JsonValue)) : List (Bytes × JsonValue) :=
  ms.foldl (fun datas m => insertMember m.1 m.2 datas) []

-- At the depth `d` there are `65 - d` levels left, the one of the value included.
def parseValue : Nat → Bytes → Except Failure (JsonValue × Option Bytes)
  | 0, _              => throw (runtimeError "max nesting depth exceeded")
  | _ + 1, []         => throw (runtimeError "unexpected end of input")
  | levels + 1, c :: s =>
    if c = Ascii.quote then do
      let (data, pos) ← parseChars s
      return (.string data, pos)
    else if isdigit c ∨ c = Ascii.minus then parseNumber (c :: s)
    else if c = Ascii.openBracket then do
      let (datas, pos) ← parseItems Ascii.closeBracket (parseValue levels) s
      return (.array datas, pos)
    else if c = Ascii.openBrace then do
      let (datas, pos) ← parseItems Ascii.closeBrace (parseMember (parseValue levels)) s
      return (.object (collect datas), pos)
    else if c = 't'.toUInt8 then return (.bool true, skip 4 (c :: s))
    else if c = 'f'.toUInt8 then return (.bool false, skip 5 (c :: s))
    else if c = 'n'.toUInt8 then return (.null, skip 4 (c :: s))
    else throw (runtimeError "unexpected character")

def parse (json : Bytes) : Except Failure JsonValue := do
  match ← parseValue 65 (skipWhitespace json) with
  | (_, none)          => throw (runtimeError "trailing characters")
  | (result, some pos) => if skipWhitespace pos ≠ [] then throw (runtimeError "trailing characters") else return result

end Json
end YNet
