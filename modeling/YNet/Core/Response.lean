import YNet.Core.Request

namespace YNet

-- The order in which an iteration over a map visits its entries.
structure Order where
  entries : StringMap → List (Bytes × Bytes)
  nodup   : ∀ m, ((entries m).map Prod.fst).Nodup
  mem_iff : ∀ m key value, (key, value) ∈ entries m ↔ m.lookup key = some value

structure Response where
  statusCode : Int       := 200
  headers    : StringMap := ∅
  body       : Bytes     := []

namespace Response

def status (res : Response) (code : Int) : Response :=
  { res with statusCode := code }

def header (res : Response) (key value : Bytes) : Response :=
  { res with headers := res.headers.insert key value }

def setBody (res : Response) (body : Bytes) : Response :=
  { res with body }

def statusMsg (code : Int) : Option Bytes :=
  match code with
  | 200 => some "OK"
  | 201 => some "Created"
  | 204 => some "No Content"
  | 301 => some "Moved Permanently"
  | 302 => some "Found"
  | 400 => some "Bad Request"
  | 401 => some "Unauthorized"
  | 403 => some "Forbidden"
  | 404 => some "Not Found"
  | 405 => some "Method Not Allowed"
  | 413 => some "Payload Too Large"
  | 429 => some "Too Many Requests"
  | 500 => some "Internal Server Error"
  | 503 => some "Service Unavailable"
  | _   => none

def error (code : Int) (msg : Bytes := []) : Response :=
  let body := if msg = [] then (statusMsg code).getD "Unknown Error" else msg
  let res : Response := {}
  ((res.status code).setBody body).header "Content-Type" "text/plain" |>.header "Connection" "close"

def json (res : Response) (text : Bytes) : Response :=
  ((res.status 200).header "Content-Type" "application/json").setBody text

def html (res : Response) (text : Bytes) : Response :=
  ((res.status 200).header "Content-Type" "text/html;charset=utf-8").setBody text

def redirect (res : Response) (url : Bytes) (code : Int := 302) : Response :=
  (res.status code).header "Location" url

def statusLine (code : Int) : Bytes :=
  Bytes.ofString "HTTP/1.1 " ++ Cpp.toString code ++ Bytes.ofString " " ++ (statusMsg code).getD "Unknown"

def headerLine (f : Bytes × Bytes) : Bytes :=
  f.1 ++ Bytes.ofString ": " ++ f.2

-- The header with the length stays in the response.
def build (order : Order) (res : Response) : Bytes × Response :=
  let res := res.header "Content-Length" (Cpp.natToString res.body.length)
  let head := (order.entries res.headers).foldl (fun head f => head ++ headerLine f ++ Bytes.ofString "\r\n")
    (statusLine res.statusCode ++ Bytes.ofString "\r\n")
  (head ++ Bytes.ofString "\r\n" ++ res.body, res)

end Response
end YNet
