import YNet.Core.Router

namespace YNet

-- A path of a router that is to be answered.
structure Route (σ : Type) where
  router : Router σ
  method : Bytes
  path   : Bytes

variable {σ : Type}

namespace Router

def get (router : Router σ) (path : Bytes) : Route σ :=
  ⟨router, "GET", path⟩

def post (router : Router σ) (path : Bytes) : Route σ :=
  ⟨router, "POST", path⟩

def put (router : Router σ) (path : Bytes) : Route σ :=
  ⟨router, "PUT", path⟩

def del (router : Router σ) (path : Bytes) : Route σ :=
  ⟨router, "DELETE", path⟩

end Router

namespace Route

def handle (route : Route σ) (fn : Handler σ) : Router σ :=
  route.router.addRoute route.method route.path fn

def html (route : Route σ) (content : Bytes) : Router σ :=
  route.router.addRoute route.method route.path fun x => .ret { x with res := x.res.html content }

def json (route : Route σ) (content : Bytes) : Router σ :=
  route.router.addRoute route.method route.path fun x => .ret { x with res := x.res.json content }

end Route

end YNet
