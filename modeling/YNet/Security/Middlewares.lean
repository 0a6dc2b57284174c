import YNet.Core.Router

-- The middlewares that need no state of their own.
namespace YNet

variable {σ : Type}

def allowOrigin (allowedOrigins : List Bytes) (req : Request) (res : Response) : Response :=
  if allowedOrigins = [("*" : Bytes)] then res.header "Access-Control-Allow-Origin" "*"
  else
    match req.getHeader "Origin" with
    | some origin =>
      if allowedOrigins.any (· = origin) then res.header "Access-Control-Allow-Origin" origin else res
    | none        => res

def cors (allowedOrigins : List Bytes) : Middleware σ := fun x =>
  let res := allowOrigin allowedOrigins x.req x.res
  if x.req.method = ("OPTIONS" : Bytes) then
    let res := res.header "Access-Control-Allow-Methods" "GET, POST, PUT, DELETE, OPTIONS"
    let res := res.header "Access-Control-Allow-Headers" "Content-Type, X-CSRF-Token"
    .ret { x with res := (res.status 204).setBody "" }
  else .next { x with res } .forward

-- What is logged is not modelled.
def logger : Middleware σ := fun x =>
  .next x .forward

namespace Sanitizer

def blocked : List Bytes :=
  ["..", "%2e%2e", "%00"]

def isBlocked (path : Bytes) : Bool :=
  blocked.any fun pattern => (path.find pattern).isSome

end Sanitizer

def sanitizer : Middleware σ := fun x =>
  if Sanitizer.isBlocked x.req.path then .ret { x with res := (x.res.status 400).setBody "Bad Request" }
  else .next x .forward

def secureHeaders (csp : Bytes) : Middleware σ := fun x =>
  let res := x.res.header "X-Content-Type-Options" "nosniff"
  let res := res.header "X-Frame-Options" "DENY"
  let res := res.header "Referrer-Policy" "strict-origin-when-cross-origin"
  let res := res.header "Cache-Control" "no-store"
  .next { x with res := res.header "Content-Security-Policy" csp } .forward

end YNet
