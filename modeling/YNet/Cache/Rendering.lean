import YNet.Cache.Loads
import YNet.Core.Response
import YNet.Lib.Inquiry
import YNet.Util.TemplateEngine

-- Pages that are made from files, which are loaded one after the other through the cache.
namespace YNet

abbrev Loading :=
  Inquiry Bytes Bytes Failure

namespace Cache

def load (filepath : Bytes) : Loading Bytes :=
  .ask filepath .ret

-- What `loadFile` returns for a file that has not been loaded before.
def readFile (files : Bytes → Option File) (filepath : Bytes) : Except Failure Bytes :=
  match files filepath with
  | some file => return file.content
  | none      => throw (.thrown .filesystemError)

end Cache

-- The engine again, with the cache in the place of a fixed set of files.
namespace TemplateEngine.Cached

section Render

variable (self : Bytes → JsonValue → Loading Bytes)

def renderIf (insideBlock : Bytes) (vars : JsonValue) : Option JsonValue → Loading Bytes
  | none     => return []
  | some var => if isTruthy var then self insideBlock vars else return []

def renderEach (insideBlock : Bytes) : Option JsonValue → Loading Bytes
  | none     => return []
  | some var => do
    let arr ← getArray var
    return (← arr.mapM (self insideBlock)).flatten

def renderTag (tmpl : Bytes) (vars : JsonValue) (start : Nat) : Loading (Option (Bytes × Nat)) :=
  if tmpl[start + 2]? = some Ascii.openBrace then
    match tmpl.find closeRaw start with
    | none     => return none
    | some stop => do
      let obj ← getObject vars
      let name ← trim ((tmpl.drop (start + 3)).take (stop - start - 3))
      return some ((obj.lookup name).elim [] Json.toText, stop + 3)
  else
    match tmpl.find closeTag start with
    | none      => return none
    | some stop => do
      let keyName := (tmpl.drop (start + 2)).take (stop - start - 2)
      let obj ← getObject vars
      if (Bytes.ofString "#if ").isPrefixOf keyName then
        let varName ← trim (keyName.drop 4)
        match tmpl.find closeIf (stop + 2) with
        | none       => return none
        | some ifEnd =>
          let insideBlock := (tmpl.drop (stop + 2)).take (ifEnd - stop - 2)
          let block ← renderIf self insideBlock vars (obj.lookup varName)
          return some (block, ifEnd + 7)
      else if (Bytes.ofString "#each ").isPrefixOf keyName then
        let varName ← trim (keyName.drop 6)
        match tmpl.find closeEach (stop + 2) with
        | none         => return none
        | some eachEnd =>
          let insideBlock := (tmpl.drop (stop + 2)).take (eachEnd - stop - 2)
          let block ← renderEach self insideBlock (obj.lookup varName)
          return some (block, eachEnd + 9)
      else if (Bytes.ofString "> ").isPrefixOf keyName then
        let fileName ← trim (keyName.drop 2)
        let file ← Cache.load fileName
        return some (← self file vars, stop + 2)
      else
        let name ← trim keyName
        return some ((obj.lookup name).elim [] fun var => htmlEscape (Json.toText var), stop + 2)

def renderString : Nat → Bytes → JsonValue → Loading Bytes
  | 0, _, _              => .throw .endless
  | fuel + 1, tmpl, vars =>
    match tmpl.find openTag with
    | none       => return tmpl
    | some start => do
      match ← renderTag (renderString fuel) tmpl vars start with
      | none               => return tmpl.take start ++ tmpl
      | some (output, pos) =>
        let rest ← renderString fuel (tmpl.drop pos) vars
        return tmpl.take start ++ (output ++ rest)

def render (fuel : Nat) (filePath : Bytes) (vars : JsonValue) : Loading Bytes := do
  let file ← Cache.load filePath
  renderString fuel file vars

end Render

end TemplateEngine.Cached

-- A response has a cache when the server has set one.
def Response.render (res : Response) (cache : Bool) (fuel : Nat) (file : Bytes) (vars : JsonValue) : Loading Response :=
  if cache then return res.html (← TemplateEngine.Cached.render fuel file vars)
  else return res.html "<h1>500 - Template engine not availble</h1>"

-- The handler of a route that is answered with a file.
def Route.file (filepath : Bytes) (res : Response) : Loading Response := do
  let content ← Cache.load filepath
  if content = [] then return (res.status 500).setBody "Internal Server Error"
  return res.html content

end YNet
