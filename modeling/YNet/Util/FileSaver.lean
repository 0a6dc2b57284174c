import YNet.Cpp.Number
import YNet.Util.MultipartParser

namespace YNet

inductive Entry
  | file (data : Bytes)
  | directory
  deriving DecidableEq

-- A directory with its resolved path and its entries, none of which is a symbolic link.
structure Folder where
  path     : Bytes
  entries  : Finmap fun _ : Bytes => Entry
  writable : Bool := true

-- The last component of a path, which is empty if the path ends with a slash.
def lastComponent (path : Bytes) : Bytes :=
  (path.reverse.takeWhile (· ≠ Ascii.slash)).reverse

-- `filename.rfind('.')`.
def rfindDot (filename : Bytes) : Option Nat :=
  (filename.reverse.findIdx? (· = Ascii.dot)).map (filename.length - 1 - ·)

-- The name with which a collision is avoided. Without a dot, `substr` is called with `npos`.
def renamed (filename : Bytes) (count : Nat) : Except Exn Bytes :=
  match rfindDot filename with
  | none     => .error .outOfRange
  | some dot => do
    let name ← filename.substr 0 dot
    let ext ← filename.substrFrom dot
    return name ++ Bytes.ofString "_" ++ Cpp.toString count ++ ext

namespace Folder

-- A path ends at its first zero byte where it is handed to the system.
def cName (name : Bytes) : Bytes :=
  name.takeWhile (· ≠ Ascii.nul)

-- The names and paths that are too long for the system (`NAME_MAX` and `PATH_MAX`).
def TooLong (folder : Folder) (name : Bytes) : Prop :=
  255 < (cName name).length ∨ 4096 ≤ folder.path.length + 1 + (cName name).length

instance : Decidable (TooLong folder name) :=
  inferInstanceAs (Decidable (_ ∨ _))

-- Whether something is found under the name, the directory itself and the one above it included.
def Has (folder : Folder) (name : Bytes) : Prop :=
  cName name = [] ∨ cName name = [Ascii.dot] ∨ cName name = [Ascii.dot, Ascii.dot] ∨ cName name ∈ folder.entries

instance : Decidable (Has folder name) :=
  inferInstanceAs (Decidable (_ ∨ _ ∨ _ ∨ _))

-- `std::filesystem::exists`, for a name in the directory.
def fileExists (folder : Folder) (name : Bytes) : Except Exn Bool :=
  if folder.TooLong name then .error .filesystemError else .ok (folder.Has name)

-- The loop, with the name that is tried next. There is no definition of what comes after the greatest `int`.
def choose (folder : Folder) (filename : Bytes) (count : Nat) (name : Bytes) : Except Failure Bytes :=
  match folder.fileExists name with
  | .error e   => .error e
  | .ok false  => .ok name
  | .ok true   =>
    if count + 1 < 2 ^ 31 then
      match renamed filename (count + 1) with
      | .error e => .error e
      | .ok name => folder.choose filename (count + 1) name
    else .error .undefined
termination_by 2 ^ 31 - count

-- The stream is opened. A file that exists is emptied.
def openFile (folder : Folder) (name : Bytes) : Option Folder :=
  if folder.writable ∧ folder.entries.lookup (cName name) ≠ some .directory then
    some { folder with entries := folder.entries.insert (cName name) (.file []) }
  else none

-- A chunk is written at a position of the file. What lies between the end of the file and the position is filled up.
def writeAt (folder : Folder) (name : Bytes) (pos : Nat) (chunk : Bytes) : Folder :=
  match folder.entries.lookup (cName name) with
  | some (.file old) =>
    if chunk = [] then folder
    else
      let filled := old ++ List.replicate (pos - old.length) Ascii.nul
      let data := filled.take pos ++ chunk ++ filled.drop (pos + chunk.length)
      { folder with entries := folder.entries.insert (cName name) (.file data) }
  | _                => folder

-- The stream writes from the beginning of the file on.
def write (folder : Folder) (name data : Bytes) : Folder :=
  folder.writeAt name 0 data

end Folder

-- The directory is missing if its path cannot be resolved. The second use of `realpath` finds every file
-- of the directory inside of it.
def saveFile (part : Part) (dir : Option Folder) : Except Failure (Bool × Option Folder) :=
  let filename := lastComponent part.filename
  if filename = [] then .ok (false, dir)
  else
    match dir with
    | none        => .ok (false, none)
    | some folder => do
      let fullpath ← folder.choose filename 0 filename
      match folder.openFile fullpath with
      | none        => return (false, some folder)
      | some folder => return (true, some (folder.write fullpath part.data))

end YNet
