import YNet.Lib.Lines
import YNet.Util.MultipartParser

open Lines

namespace YNet

-- A field of a form, or a file when there is a filename. The attributes come in either order.
structure FormPart where
  name          : Bytes
  filename      : Option Bytes
  filenameFirst : Bool
  contentType   : Option Bytes
  data          : Bytes
  name_mem        : ∀ b ∈ [Ascii.quote, Ascii.cr, Ascii.lf, Ascii.equals, Ascii.colon], b ∉ name
  filename_mem    : ∀ f ∈ filename, ∀ b ∈ [Ascii.quote, Ascii.cr, Ascii.lf, Ascii.equals, Ascii.colon],
    b ∉ f
  contentType_mem : ∀ t ∈ contentType, ∀ b ∈ [Ascii.cr, Ascii.lf, Ascii.quote], b ∉ t
  data_ne         : filename.isSome → data ≠ []

namespace FormPart

def attr (key value : Bytes) : Bytes :=
  key ++ (Ascii.equals :: Ascii.quote :: (value ++ [Ascii.quote]))

def attrs (p : FormPart) : Bytes :=
  match p.filename with
  | none          => attr "name" p.name
  | some filename =>
    if p.filenameFirst then
      attr "filename" filename ++ (Bytes.ofString "; " ++ attr "name" p.name)
    else
      attr "name" p.name ++ (Bytes.ofString "; " ++ attr "filename" filename)

def disposition (p : FormPart) : Bytes :=
  Bytes.ofString "Content-Disposition: form-data; " ++ p.attrs

-- The lines behind the first line of the header.
def lines (p : FormPart) : List Bytes :=
  p.contentType.toList.map (Bytes.ofString "Content-Type: " ++ ·)

def header (p : FormPart) : Bytes :=
  p.disposition ++ p.lines.flatMap (crlf ++ ·)

def content (p : FormPart) : Bytes :=
  p.header ++ (blank ++ p.data)

structure IsRead (p : FormPart) (part : Part) : Prop where
  name        : part.name = p.name
  filename    : part.filename = p.filename.getD []
  contentType : part.contentType = p.contentType.getD []
  data        : part.data = p.data

end FormPart

structure Form where
  boundary : Bytes
  parts    : List FormPart
  boundary_ne  : boundary ≠ []
  boundary_mem : ∀ b ∈ [Ascii.cr, Ascii.lf, Ascii.quote], b ∉ boundary
  header_fresh : ∀ p ∈ parts, ¬Bytes.ofString "--" ++ boundary <:+: p.header
  data_fresh   : ∀ p ∈ parts, ¬Bytes.ofString "--" ++ boundary <:+: p.data

namespace Form

def delimiter (f : Form) : Bytes :=
  Bytes.ofString "--" ++ f.boundary

def bytes (f : Form) : Bytes :=
  f.parts.flatMap (fun p => f.delimiter ++ (crlf ++ (p.content ++ crlf)))
    ++ (f.delimiter ++ Bytes.ofString "--")

def contentType (f : Form) (quoted : Bool) : Bytes :=
  Bytes.ofString "multipart/form-data; boundary=" ++
    if quoted then Ascii.quote :: (f.boundary ++ [Ascii.quote]) else f.boundary

end Form
end YNet
