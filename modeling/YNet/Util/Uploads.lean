import YNet.Util.FileSaver

-- Calls of `saveFile` that run at the same time, with the same directory.
namespace YNet.Uploads

-- A name is tested, opened or written next, with the number of bytes that are written already.
inductive Phase
  | testing (count : Nat) (name : Bytes)
  | opening (name : Bytes)
  | writing (name : Bytes) (pos : Nat)
  | saved (name : Bytes)
  | refused
  | failed (f : Failure)
  deriving DecidableEq

-- What the call returns or throws in the end.
def Phase.result : Phase → Option (Except Failure Bool)
  | saved _  => some (.ok true)
  | refused  => some (.ok false)
  | failed f => some (.error f)
  | _        => none

structure State (ι : Type) where
  folder : Folder
  phase  : ι → Phase

def State.set [DecidableEq ι] (s : State ι) (k : ι) (folder : Folder) (phase : Phase) : State ι where
  folder := folder
  phase  := Function.update s.phase k phase

def start (part : Part) : Phase :=
  let filename := lastComponent part.filename
  if filename = [] then .refused else .testing 0 filename

-- A test for a name, and what follows from it until the next step on the file system.
def test (filename : Bytes) (folder : Folder) (count : Nat) (name : Bytes) : Phase :=
  match folder.fileExists name with
  | .error e  => .failed (.thrown e)
  | .ok false => .opening name
  | .ok true  =>
    if count + 1 < 2 ^ 31 then
      match renamed filename (count + 1) with
      | .error e => .failed (.thrown e)
      | .ok name => .testing (count + 1) name
    else .failed .undefined

-- The next step of a call on the file system. A step that writes takes a number of bytes at most.
def next (part : Part) (folder : Folder) (phase : Phase) (bytes : Nat) : Option (Folder × Phase) :=
  match phase with
  | .testing count name => some (folder, test (lastComponent part.filename) folder count name)
  | .opening name       =>
    match folder.openFile name with
    | none        => some (folder, .refused)
    | some folder => some (folder, .writing name 0)
  | .writing name pos   =>
    let chunk := (part.data.drop pos).take bytes
    let pos' := pos + chunk.length
    some (folder.writeAt name pos chunk, if pos' < part.data.length then .writing name pos' else .saved name)
  | _                   => none

def init (parts : ι → Part) (folder : Folder) : State ι where
  folder := folder
  phase  := fun k => start (parts k)

-- One of the calls makes its next step.
def Step [DecidableEq ι] (parts : ι → Part) (s : State ι) (e : ι × Nat) (s' : State ι) : Prop :=
  ∃ folder phase, next (parts e.1) s.folder (s.phase e.1) e.2 = some (folder, phase) ∧
    s' = s.set e.1 folder phase

end YNet.Uploads
