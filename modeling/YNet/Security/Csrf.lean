import YNet.Security.Session

namespace YNet

def Request.getFormParam (req : Request) (key : Bytes) : Option Bytes :=
  req.formData.lookup key

namespace Csrf

def key : Bytes :=
  "_csrf"

-- The token of a request. Without a header it is looked for in the parts and in the form. The body that the
-- parts refer to is gone, so that what is read there depends on what its memory contains now, and the
-- result is `none` if the memory is not mapped any more.
def token (memory : Memory) (req : Request) : Option Bytes :=
  match req.getHeader "X-CSRF-Token" with
  | some token => return token
  | none       => do
    let tokenVal ← match req.parts.find? (·.name = key) with
      | some part => part.data.read memory
      | none      => some []
    return if tokenVal = [] then (req.getFormParam key).getD tokenVal else tokenVal

-- The methods of the requests whose token is compared with the one of the session.
def Guards (req : Request) : Prop :=
  req.method = ("POST" : Bytes) ∨ req.method = ("PUT" : Bytes) ∨ req.method = ("DELETE" : Bytes)

instance : DecidablePred Guards :=
  fun _ => inferInstanceAs (Decidable (_ ∨ _ ∨ _))

def accepts (token : Bytes) (stored : Option Bytes) : Bool :=
  token ≠ [] && stored = some token

-- Whether a request that is not a `GET` request is forwarded, given the token of its session.
def verify (memory : Memory) (req : Request) (stored : Option Bytes) : Option Bool :=
  if Guards req then (token memory req).map (accepts · stored) else some false

end Csrf
end YNet
