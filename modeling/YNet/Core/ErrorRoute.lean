import YNet.Core.Server

namespace YNet

def Server.onError {σ : Type} (server : Server σ) (code : Int) (handler : Request → Code σ Fault Response) :
    Server σ :=
  { server with errorHandlers := Function.update server.errorHandlers code (some handler) }

theorem Server.onError_errorHandlers {σ : Type} {server : Server σ} {handler : Request → Code σ Fault Response} :
    (server.onError code handler).errorHandlers code' = if code' = code then some handler else server.errorHandlers code' :=
  Function.update_apply ..

structure ErrorRoute (σ : Type) where
  server : Server σ
  code   : Int

namespace ErrorRoute

variable {σ : Type}

def html (route : ErrorRoute σ) (content : Bytes) : Server σ :=
  route.server.onError route.code fun _ => .ret (Response.html {} content)

def json (route : ErrorRoute σ) (content : Bytes) : Server σ :=
  route.server.onError route.code fun _ => .ret (Response.json {} content)

-- The result is `none` for a file that cannot be opened.
def fileResponse : Option Bytes → Response
  | none         => (Response.status {} 500).html "Internal Server Error"
  | some content => Response.html {} content

-- The file is opened each time that the page is sent.
def file (route : ErrorRoute σ) (filepath : Bytes) : Server σ :=
  route.server.onError route.code fun _ =>
    .act id fun s => .ret (fileResponse ((route.server.fileSystem s).read filepath))

theorem fileResponse_statusCode : (fileResponse content).statusCode = 200 := by
  cases content <;> rfl

end ErrorRoute
end YNet
