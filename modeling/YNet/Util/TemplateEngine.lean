import YNet.Util.Json
import YNet.Util.Url

namespace YNet.TemplateEngine

-- For a text without other characters than blanks, `first` is `npos`, so that `substr` throws.
def trim (str : Bytes) : Except Failure Bytes :=
  match str.findFirstNotOf " \t", str.findLastNotOf " \t" with
  | some first, some last => return (str.drop first).take (last - first + 1)
  | _, _                  => throw (.thrown .outOfRange)

def escapeChar (c : UInt8) : Bytes :=
  if c = Ascii.less then "&lt;"
  else if c = Ascii.greater then "&gt;"
  else if c = Ascii.ampersand then "&amp;"
  else if c = Ascii.quote then "&quot;"
  else if c = Ascii.apos then "&#39;"
  else [c]

def htmlEscape (str : Bytes) : Bytes :=
  str.flatMap escapeChar

def isTruthy : JsonValue → Bool
  | .null      => false
  | .bool b    => b
  | .int n     => n ≠ 0
  | .double x  => !x.isZero
  | .string s  => s ≠ []
  | .array vs  => !vs.isEmpty
  | .object ms => !ms.isEmpty

def getObject : JsonValue → Except Failure (List (Bytes × JsonValue))
  | .object ms => return ms
  | _          => throw (.thrown .badVariantAccess)

def getArray : JsonValue → Except Failure (List JsonValue)
  | .array vs => return vs
  | _         => throw (.thrown .badVariantAccess)

abbrev openTag   : Bytes := [Ascii.openBrace, Ascii.openBrace]
abbrev closeTag  : Bytes := [Ascii.closeBrace, Ascii.closeBrace]
abbrev closeRaw  : Bytes := [Ascii.closeBrace, Ascii.closeBrace, Ascii.closeBrace]
abbrev closeIf   : Bytes := "\x7b\x7b/if\x7d\x7d"
abbrev closeEach : Bytes := "\x7b\x7b/each\x7d\x7d"

section Render

-- The contents of the files, and the recursive calls.
variable (loadFile : Bytes → Except Failure Bytes) (self : Bytes → JsonValue → Except Failure Bytes)

def renderIf (insideBlock : Bytes) (vars : JsonValue) : Option JsonValue → Except Failure Bytes
  | none     => return []
  | some var => if isTruthy var then self insideBlock vars else return []

def renderEach (insideBlock : Bytes) : Option JsonValue → Except Failure Bytes
  | none     => return []
  | some var => do
    let arr ← getArray var
    return (← arr.mapM (self insideBlock)).flatten

-- What the tag at the position `start` adds to the result, and the position behind it. The result is
-- `none` when the end of the tag or of its block is missing.
def renderTag (tmpl : Bytes) (vars : JsonValue) (start : Nat) : Except Failure (Option (Bytes × Nat)) :=
  if tmpl[start + 2]? = some Ascii.openBrace then
    match tmpl.find closeRaw start with
    | none     => return none
    | some stop => do
      let obj ← getObject vars
      let name ← trim ((tmpl.drop (start + 3)).take (stop - start - 3))
      return some ((obj.lookup name).elim [] Json.toText, stop + 3)
  else
    match tmpl.find closeTag start with
    | none      => return none
    | some stop => do
      let keyName := (tmpl.drop (start + 2)).take (stop - start - 2)
      let obj ← getObject vars
      if (Bytes.ofString "#if ").isPrefixOf keyName then
        let varName ← trim (keyName.drop 4)
        match tmpl.find closeIf (stop + 2) with
        | none       => return none
        | some ifEnd =>
          let insideBlock := (tmpl.drop (stop + 2)).take (ifEnd - stop - 2)
          let block ← renderIf self insideBlock vars (obj.lookup varName)
          return some (block, ifEnd + 7)
      else if (Bytes.ofString "#each ").isPrefixOf keyName then
        let varName ← trim (keyName.drop 6)
        match tmpl.find closeEach (stop + 2) with
        | none         => return none
        | some eachEnd =>
          let insideBlock := (tmpl.drop (stop + 2)).take (eachEnd - stop - 2)
          let block ← renderEach self insideBlock (obj.lookup varName)
          return some (block, eachEnd + 9)
      else if (Bytes.ofString "> ").isPrefixOf keyName then
        let fileName ← trim (keyName.drop 2)
        let file ← loadFile fileName
        return some (← self file vars, stop + 2)
      else
        let name ← trim keyName
        return some ((obj.lookup name).elim [] fun var => htmlEscape (Json.toText var), stop + 2)

-- What the loop does from a position on depends only on the rest of the template from there. Each round,
-- and each recursive call, takes one unit of the fuel.
def renderString : Nat → Bytes → JsonValue → Except Failure Bytes
  | 0, _, _              => throw .endless
  | fuel + 1, tmpl, vars =>
    match tmpl.find openTag with
    | none       => return tmpl
    | some start => do
      match ← renderTag loadFile (renderString fuel) tmpl vars start with
      | none               => return tmpl.take start ++ tmpl
      | some (output, pos) =>
        let rest ← renderString fuel (tmpl.drop pos) vars
        return tmpl.take start ++ (output ++ rest)

def render (fuel : Nat) (filePath : Bytes) (vars : JsonValue) : Except Failure Bytes := do
  let file ← loadFile filePath
  renderString loadFile fuel file vars

end Render

-- What `loadFile` of the cache returns as long as the files are not changed.
def loadFile (files : StringMap) (filepath : Bytes) : Except Failure Bytes :=
  match files.lookup filepath with
  | some content => return content
  | none         => throw (.thrown .filesystemError)

end YNet.TemplateEngine
