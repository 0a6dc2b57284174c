import YNet.Core.Response

namespace YNet

-- The calls to the operating system that resolve a path and that read a file.
structure FileSystem where
  realpath : Bytes → Option Bytes
  read     : Bytes → Option Bytes

def mimeType (ext : Bytes) : Option Bytes :=
  List.lookup ext [
    (".html", "text/html"),
    (".htm", "text/html"),
    (".css", "text/css"),
    (".js", "application/javascript"),
    (".json", "application/json"),
    (".xml", "application/xml"),
    (".txt", "text/plain"),
    (".csv", "text/csv"),
    (".png", "image/png"),
    (".jpg", "image/jpeg"),
    (".jpeg", "image/jpeg"),
    (".gif", "image/gif"),
    (".svg", "image/svg+xml"),
    (".ico", "image/x-icon"),
    (".webp", "image/webp"),
    (".pdf", "application/pdf"),
    (".zip", "application/zip"),
    (".gz", "application/gzip"),
    (".wasm", "application/wasm"),
    (".mp3", "audio/mpeg"),
    (".mp4", "video/mp4"),
    (".woff", "font/woff"),
    (".woff2", "font/woff2"),
    (".ttf", "font/ttf")
  ]

-- The extension starts at the last dot of the path.
def getMimeType (path : Bytes) : Bytes :=
  let ext := (path.reverse.takeWhile (· ≠ Ascii.dot)).reverse
  if Ascii.dot ∈ path then (mimeType (Ascii.dot :: ext)).getD "application/octet-stream"
  else "application/octet-stream"

structure StaticFileServer where
  urlPrefix : Bytes
  rootDir   : Bytes

-- The response when the file is served, also if the file is refused for its size.
def StaticFileServer.tryServe (files : StaticFileServer) (fs : FileSystem) (req : Request)
    (res : Response) : Option Response := do
  if ¬files.urlPrefix.isPrefixOf req.path then none
  let rel := req.path.drop files.urlPrefix.length
  let resolved ← fs.realpath (files.rootDir ++ rel)
  let rootResolved ← fs.realpath files.rootDir
  if ¬(rootResolved ++ Bytes.ofString "/").isPrefixOf resolved then none
  let content ← fs.read resolved
  if content.length > 50 * 1024 * 1024 then
    return (res.status 413).setBody "File too large"
  return ((res.status 200).header "Content-Type" (getMimeType resolved)).setBody content

end YNet
