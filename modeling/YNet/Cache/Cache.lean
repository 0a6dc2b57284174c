import YNet.Cpp.Bytes

namespace YNet

-- Times are the ticks of the clock of the file system and of the steady clock.
structure CacheEntry where
  content    : Bytes
  mtime      : Int
  lastAccess : Int

-- The entries of an `unordered_map` in the order in which it visits them.
abbrev Entries := AList fun _ : Bytes => CacheEntry

-- A policy makes room in a map that is not empty. It may drop any entries, but it does not change them.
structure CachePolicy where
  evict        : Entries → Option Entries
  evict_isSome : ∀ entries, 0 < entries.keys.length → (evict entries).isSome
  evict_lookup : ∀ entries entries' f entry, evict entries = some entries' →
    entries'.lookup f = some entry → entries.lookup f = some entry

namespace LRUPolicy

-- The first one of the entries whose last access is the earliest.
def oldest : List (Sigma fun _ : Bytes => CacheEntry) → Option (Sigma fun _ : Bytes => CacheEntry)
  | []      => none
  | e :: es => some (es.foldl (fun oldest it => if it.2.lastAccess < oldest.2.lastAccess then it else oldest) e)

-- There is nothing to be erased in an empty map, where the behavior is undefined.
def evict (entries : Entries) : Option Entries :=
  (oldest entries.entries).map fun o => entries.erase o.1

theorem evict_isSome (entries : Entries) (h : 0 < entries.keys.length) : (evict entries).isSome := by
  have h : 0 < entries.entries.keys.length := h
  cases he : entries.entries
  case nil  => simp [he] at h
  case cons => simp [evict, oldest, he]

theorem evict_lookup (entries entries' : Entries) (f : Bytes) (entry : CacheEntry)
    (h : evict entries = some entries') (hl : entries'.lookup f = some entry) :
    entries.lookup f = some entry := by
  have ⟨o, _, ho⟩ := Option.map_eq_some_iff.mp h
  subst ho
  by_cases hf : f = o.1
  case pos =>
    subst hf
    exact absurd ((AList.lookup_erase ..).symm.trans hl) (by simp)
  case neg => rwa [AList.lookup_erase_ne hf] at hl

end LRUPolicy

def LRUPolicy : CachePolicy where
  evict        := LRUPolicy.evict
  evict_isSome := LRUPolicy.evict_isSome
  evict_lookup := LRUPolicy.evict_lookup

namespace Cache

def hit (entries : Entries) (filepath : Bytes) (mtime : Int) : Option CacheEntry :=
  (entries.lookup filepath).filter (·.mtime = mtime)

def makeRoom (policy : CachePolicy) (maxEntries : Nat) (entries : Entries) : Option Entries :=
  if entries.keys.length ≥ maxEntries then policy.evict entries else some entries

end Cache
end YNet
