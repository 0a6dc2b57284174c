import YNet.Lib.Run
import YNet.Cache.Cache

-- Calls of `loadFile` and `clear` of one cache by any number of threads, and writes of files by other
-- processes.
namespace YNet.Cache

structure File where
  content : Bytes
  mtime   : Int

-- How far a call of `loadFile` has come. It holds the lock from `entered` to `read`.
inductive Phase
  | idle
  | called (filepath : Bytes)
  | entered (filepath : Bytes)
  | stamped (filepath : Bytes) (mtime : Int)
  | missed (filepath : Bytes) (mtime : Int)
  | read (filepath : Bytes) (mtime : Int) (content : Bytes)
  | returned

structure World where
  files   : Bytes → Option File
  entries : Entries
  holder  : Option Nat
  now     : Int
  phase   : Nat → Phase

def World.start (files : Bytes → Option File) : World where
  files   := files
  entries := ∅
  holder  := none
  now     := 0
  phase   := fun _ => .idle

inductive Act
  | tick
  | write (filepath content : Bytes) (mtime : Int)
  | clear
  | call (k : Nat) (filepath : Bytes)
  | enter (k : Nat)
  | stamp (k : Nat)
  | miss (k : Nat)
  | read (k : Nat)
  | ret (k : Nat) (filepath content : Bytes)

-- An entry is stored. Afterwards the map may visit its entries in any order.
def Stored (entries : Entries) (filepath : Bytes) (entry : CacheEntry) (entries' : Entries) : Prop :=
  entries'.entries.Perm (entries.insert filepath entry).entries

inductive Step (policy : CachePolicy) (maxEntries : Nat) : World → Act → World → Prop
  | tick :
    (s.now ≤ now) → Step policy maxEntries s .tick { s with now }
  | write :
    Step policy maxEntries s (.write f content mtime)
      { s with files := Function.update s.files f (some { content, mtime }) }
  | clear :
    (s.holder = none) → Step policy maxEntries s .clear { s with entries := ∅ }
  | call :
    (s.phase k = .idle) → (s.files f).isSome →
    Step policy maxEntries s (.call k f) { s with phase := Function.update s.phase k (.called f) }
  | enter :
    (s.phase k = .called f) → (s.holder = none) →
    Step policy maxEntries s (.enter k)
      { s with holder := some k, phase := Function.update s.phase k (.entered f) }
  | stamp :
    (s.phase k = .entered f) → (s.files f = some file) →
    Step policy maxEntries s (.stamp k) { s with phase := Function.update s.phase k (.stamped f file.mtime) }
  | hit :
    (s.phase k = .stamped f mtime) → (hit s.entries f mtime = some entry) →
    (Stored s.entries f { entry with lastAccess := s.now } entries) →
    Step policy maxEntries s (.ret k f entry.content)
      { s with entries, holder := none, phase := Function.update s.phase k .returned }
  | miss :
    (s.phase k = .stamped f mtime) → (hit s.entries f mtime = none) →
    (makeRoom policy maxEntries s.entries = some entries) →
    Step policy maxEntries s (.miss k)
      { s with entries, phase := Function.update s.phase k (.missed f mtime) }
  | read :
    (s.phase k = .missed f mtime) → (s.files f = some file) →
    Step policy maxEntries s (.read k)
      { s with phase := Function.update s.phase k (.read f mtime file.content) }
  | store :
    (s.phase k = .read f mtime content) →
    (Stored s.entries f { content, mtime, lastAccess := s.now } entries) →
    Step policy maxEntries s (.ret k f content)
      { s with entries, holder := none, phase := Function.update s.phase k .returned }

end YNet.Cache
