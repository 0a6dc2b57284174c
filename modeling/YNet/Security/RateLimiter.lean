import YNet.Core.Router

namespace YNet

-- The numbers of the source are `double`s. Times are in seconds.
structure Bucket where
  tokens      : ℚ := 0
  lastRefill  : ℚ
  initialized : Bool := false

abbrev Buckets := Finmap fun _ : Bytes => Bucket

namespace RateLimiter

-- The part of the middleware that works on the bucket of the client.
def visit (maxRequests periodSeconds : Int) (now : ℚ) (bucket : Bucket) : Bool × Bucket :=
  let bucket : Bucket := if bucket.initialized then bucket else ⟨maxRequests, now, true⟩
  let elapsed := now - bucket.lastRefill
  let tokens := bucket.tokens + elapsed * ((maxRequests : ℚ) / periodSeconds)
  let tokens := if tokens > maxRequests then (maxRequests : ℚ) else tokens
  let bucket := { bucket with tokens, lastRefill := now }
  if bucket.tokens ≥ 1 then (true, { bucket with tokens := bucket.tokens - 1 }) else (false, bucket)

-- Whether the request is forwarded, and the buckets behind it. A client without a bucket gets one.
def handle (maxRequests periodSeconds : Int) (now : ℚ) (ip : Bytes) (buckets : Buckets) : Bool × Buckets :=
  let bucket := (buckets.lookup ip).getD { lastRefill := now }
  let (ok, bucket) := visit maxRequests periodSeconds now bucket
  (ok, buckets.insert ip bucket)

-- The buckets are a part of the shared state, and so is the clock.
def rateLimiter {τ : Type} (maxRequests periodSeconds : Int) (clock : τ → ℚ) : Middleware (Buckets × τ) := fun x =>
  .act (fun (buckets, s) => ((handle maxRequests periodSeconds (clock s) x.req.clientIp buckets).2, s))
    fun (buckets, s) =>
      if (handle maxRequests periodSeconds (clock s) x.req.clientIp buckets).1 then
        .next x fun
          | none, x   => .ret x
          | some e, x => .throw e x
      else .ret { x with res := (x.res.status 429).setBody "Too Many Requests" }

structure Visit where
  ip   : Bytes
  time : ℚ

-- The verdicts on requests that are handled one after the other.
def serve (maxRequests periodSeconds : Int) : Buckets → List Visit → List (Visit × Bool)
  | _, []           => []
  | buckets, v :: vs =>
    (v, (handle maxRequests periodSeconds v.time v.ip buckets).1) ::
      serve maxRequests periodSeconds (handle maxRequests periodSeconds v.time v.ip buckets).2 vs

end RateLimiter
end YNet
