import YNet.Core.Router

namespace YNet

structure PathGuard where
  exactPaths  : Finset Bytes := {
    ("/wp-login.php" : Bytes), ("/phpMyAdmin" : Bytes), ("/pma" : Bytes),
    ("/backup.sql" : Bytes), ("/db.zip" : Bytes), ("/swagger-ui.html" : Bytes),
    ("/v2/api-docs" : Bytes), ("/docker-compose.yml" : Bytes), ("/Dockerfile" : Bytes),
    ("/package.json" : Bytes), ("/.well-known/security.txt" : Bytes)
  }
  prefixPaths : List Bytes := [
    "/.env", "/.git", "/.svn",
    "/.aws", "/.ssh", "/.vscode",
    "/wp-admin", "/cgi-bin", "/actuator",
    "/node_modules"
  ]
  blockedExts : List Bytes := [".php", ".sql", ".bak", ".old", ".zip"]
  blacklist   : Finset Bytes := ∅
  whitelist   : Finset Bytes := ∅

namespace PathGuard

def addExact (guard : PathGuard) (path : Bytes) : PathGuard :=
  { guard with exactPaths := insert path guard.exactPaths }

def addPrefix (guard : PathGuard) (p : Bytes) : PathGuard :=
  { guard with prefixPaths := guard.prefixPaths ++ [p] }

def addExt (guard : PathGuard) (ext : Bytes) : PathGuard :=
  { guard with blockedExts := guard.blockedExts ++ [ext] }

def addWhitelist (guard : PathGuard) (ip : Bytes) : PathGuard :=
  { guard with whitelist := insert ip guard.whitelist }

def isBlocked (guard : PathGuard) (ip : Bytes) : Bool :=
  ip ∈ guard.blacklist

def block (guard : PathGuard) (ip : Bytes) : PathGuard :=
  { guard with blacklist := insert ip guard.blacklist }

-- The verdict on a request, and the guard with the updated blacklist.
def check (guard : PathGuard) (req : Request) : Bool × PathGuard :=
  let ip := req.clientIp
  let path := req.path
  if ip ∈ guard.whitelist then (false, guard)
  else if guard.isBlocked ip then (true, guard)
  else if path ∈ guard.exactPaths then (true, guard.block ip)
  else if guard.prefixPaths.any (·.isPrefixOf path) then (true, guard.block ip)
  else if guard.blockedExts.any (·.isSuffixOf path) then (true, guard.block ip)
  else (false, guard)

-- What `check` finds in the critical section in which it looks the client up.
inductive Verdict
  | pass
  | blocked
  | block

def inspect (guard : PathGuard) (req : Request) : Verdict :=
  if req.clientIp ∈ guard.whitelist then .pass
  else if guard.isBlocked req.clientIp then .blocked
  else if req.path ∈ guard.exactPaths then .block
  else if guard.prefixPaths.any (·.isPrefixOf req.path) then .block
  else if guard.blockedExts.any (·.isSuffixOf req.path) then .block
  else .pass

-- The guard is a part of the shared state. The client is entered in the blacklist in a critical
-- section of its own.
def toMiddleware {τ : Type} : Middleware (PathGuard × τ) := fun x =>
  let deny := .ret { x with res := x.res.status 403 }
  let forward := .next x fun
    | none, x   => .ret x
    | some e, x => .throw e x
  .act id fun (guard, _) =>
    match guard.inspect x.req with
    | .pass    => forward
    | .blocked => deny
    | .block   => .act (fun (guard, s) => (guard.block x.req.clientIp, s)) fun _ => deny

theorem check_eq (guard : PathGuard) (req : Request) :
    guard.check req = match guard.inspect req with
      | .pass    => (false, guard)
      | .blocked => (true, guard)
      | .block   => (true, guard.block req.clientIp) := by
  simp only [check, inspect]
  split_ifs <;> rfl

-- The guard looks at nothing but the path and the client.
theorem check_congr {guard : PathGuard} {req req' : Request} (hp : req.path = req'.path)
    (hi : req.clientIp = req'.clientIp) : guard.check req = guard.check req' := by
  simp only [check, hp, hi]

end PathGuard
end YNet
