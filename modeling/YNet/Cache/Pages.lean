import YNet.Cache.Rendering

-- Workers that make pages with one cache, while other processes write the files.
namespace YNet.Cache

-- A page runs on its own, or waits for one of its calls of `loadFile`.
inductive Progress (α : Type)
  | idle
  | running (page : Loading α)
  | loading (k : Nat) (rest : Bytes → Loading α)
  | finished

structure Pages (α : Type) where
  cache : World
  pages : Nat → Progress α

namespace Pages

variable {α : Type}

def start (files : Bytes → Option File) : Pages α where
  cache   := .start files
  pages _ := .idle

def setPage (s : Pages α) (r : Nat) (page : Progress α) : Pages α :=
  { s with pages := Function.update s.pages r page }

inductive Move (α : Type)
  | cache (a : Act)
  | start (r : Nat) (page : Loading α)
  | call (r k : Nat) (filepath : Bytes)
  | ret (r k : Nat) (filepath content : Bytes)
  | fail (r : Nat) (filepath : Bytes)
  | finish (r : Nat) (result : Except Failure α)

-- The calls of the pages are those of the cache. Its other steps are made by the calls that are under way
-- and by other processes.
inductive Step (policy : CachePolicy) (maxEntries : Nat) : Pages α → Move α → Pages α → Prop
  | cache :
    (Cache.Step policy maxEntries s.cache a s') → (∀ k f, a ≠ .call k f) → (∀ k f content, a ≠ .ret k f content) →
    Step policy maxEntries s (.cache a) { s with cache := s' }
  | start :
    (s.pages r = .idle) → Step policy maxEntries s (.start r page) (s.setPage r (.running page))
  | call :
    (s.pages r = .running (.ask f rest)) → (Cache.Step policy maxEntries s.cache (.call k f) s') →
    Step policy maxEntries s (.call r k f) (Pages.setPage { s with cache := s' } r (.loading k rest))
  | ret :
    (s.pages r = .loading k rest) → (Cache.Step policy maxEntries s.cache (.ret k f content) s') →
    Step policy maxEntries s (.ret r k f content) (Pages.setPage { s with cache := s' } r (.running (rest content)))
  -- There is no file, so that the call throws when it has taken the lock.
  | fail :
    (s.pages r = .running (.ask f rest)) → (s.cache.files f = none) → (s.cache.holder = none) →
    Step policy maxEntries s (.fail r f) (s.setPage r (.running (.throw (.thrown .filesystemError))))
  | finish :
    (s.pages r = .running (.ret a)) →
    Step policy maxEntries s (.finish r (.ok a)) (s.setPage r .finished)
  | raise :
    (s.pages r = .running (.throw e)) →
    Step policy maxEntries s (.finish r (.error e)) (s.setPage r .finished)

-- What a move is for the cache.
def acts : Move α → List Act
  | .cache a           => [a]
  | .call _ k f        => [.call k f]
  | .ret _ k f content => [.ret k f content]
  | _                  => []

end Pages
end YNet.Cache
