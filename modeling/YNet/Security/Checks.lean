import YNet.Lib.Run
import YNet.Security.PathGuard

-- Checks of one guard that run concurrently, each in the critical sections of its own.
namespace YNet.PathGuard

inductive Setting
  | exactPath (path : Bytes)
  | prefixPath (p : Bytes)
  | ext (ext : Bytes)
  | trusted (ip : Bytes)

def configure (guard : PathGuard) : Setting → PathGuard
  | .exactPath path => guard.addExact path
  | .prefixPath p   => guard.addPrefix p
  | .ext ext        => guard.addExt ext
  | .trusted ip     => guard.addWhitelist ip

-- Whether the guard has a pattern, or trusts a client.
def Has (guard : PathGuard) : Setting → Prop
  | .exactPath path => path ∈ guard.exactPaths
  | .prefixPath p   => p ∈ guard.prefixPaths
  | .ext ext        => ext ∈ guard.blockedExts
  | .trusted ip     => ip ∈ guard.whitelist

def Setting.Matches (path : Bytes) : Setting → Prop
  | .exactPath p  => path = p
  | .prefixPath p => p <+: path
  | .ext e        => e <:+ path
  | .trusted _    => False

-- Whether the path matches one of the registered patterns.
def forbids (guard : PathGuard) (path : Bytes) : Bool :=
  path ∈ guard.exactPaths || guard.prefixPaths.any (·.isPrefixOf path) ||
    guard.blockedExts.any (·.isSuffixOf path)

-- How far a check has come.
inductive Phase
  | idle
  | entered (ip path : Bytes)
  | inserting (ip : Bytes)
  | returning (ip : Bytes) (verdict : Bool)
  | returned (ip : Bytes)

def Phase.Running : Phase → Prop
  | .idle | .returned _ => False
  | _                   => True

structure Checks where
  guard : PathGuard
  phase : Nat → Phase

def Checks.start : Checks where
  guard := {}
  phase := fun _ => .idle

inductive Act
  | configure (setting : Setting)
  | enter (k : Nat) (ip path : Bytes)
  | lookup (k : Nat) (ip : Bytes)
  | insert (k : Nat) (ip : Bytes)
  | ret (k : Nat) (ip : Bytes) (verdict : Bool)

-- The settings change only while no check is running. So it does not matter that the patterns are
-- compared behind the critical section in which the client is looked up.
inductive Checks.Step : Checks → Act → Checks → Prop
  | configure :
    (∀ k, ¬(s.phase k).Running) → Step s (.configure c) { s with guard := s.guard.configure c }
  | trusted :
    (s.phase k = .idle) → (ip ∈ s.guard.whitelist) →
    Step s (.enter k ip path) { s with phase := Function.update s.phase k (.returning ip false) }
  | enter :
    (s.phase k = .idle) → (ip ∉ s.guard.whitelist) →
    Step s (.enter k ip path) { s with phase := Function.update s.phase k (.entered ip path) }
  | blocked :
    (s.phase k = .entered ip path) → (s.guard.isBlocked ip = true) →
    Step s (.lookup k ip) { s with phase := Function.update s.phase k (.returning ip true) }
  | forbidden :
    (s.phase k = .entered ip path) → (s.guard.isBlocked ip = false) → (s.guard.forbids path = true) →
    Step s (.lookup k ip) { s with phase := Function.update s.phase k (.inserting ip) }
  | allowed :
    (s.phase k = .entered ip path) → (s.guard.isBlocked ip = false) → (s.guard.forbids path = false) →
    Step s (.lookup k ip) { s with phase := Function.update s.phase k (.returning ip false) }
  | insert :
    (s.phase k = .inserting ip) →
    Step s (.insert k ip)
      { guard := s.guard.block ip, phase := Function.update s.phase k (.returning ip true) }
  | ret :
    (s.phase k = .returning ip verdict) →
    Step s (.ret k ip verdict) { s with phase := Function.update s.phase k (.returned ip) }

end YNet.PathGuard
