import YNet.Util.Theorems.Template.Trees

open Except

namespace YNet.TemplateEngine

-- A template as a tree that can include other ones.
inductive Source
  | text (s : Bytes)
  | var (s key : Bytes) (rest : Source)
  | raw (s key : Bytes) (rest : Source)
  | block (b : Block) (s key : Bytes) (body rest : Source)
  | file (s name : Bytes) (rest : Source)

-- What a block makes of its body.
def Block.eval (b : Block) (body : JsonValue → Except Failure Bytes) (vars : JsonValue) (var : Option JsonValue) :
    Except Failure Bytes :=
  match b with
  | cond => if var.any isTruthy then body vars else return []
  | each => do
    let items ← var.elim (return []) getArray
    return (← items.mapM body).flatten

namespace Source

def print : Source → Bytes
  | text s                  => s
  | var s key rest          => s ++ (openTag ++ (key ++ (closeTag ++ rest.print)))
  | raw s key rest          => s ++ (openTag ++ (Ascii.openBrace :: key ++ (closeRaw ++ rest.print)))
  | block b s key body rest =>
    s ++ (openTag ++ (b.opening ++ key ++ (closeTag ++ (body.print ++ (b.closing ++ rest.print)))))
  | file s name rest        => s ++ (openTag ++ ("> " ++ name ++ (closeTag ++ rest.print)))

-- The meaning of a template, by recursion on the tree. The texts of the files are not looked at.
def eval (page : Bytes → JsonValue → Except Failure Bytes) : Source → JsonValue → Except Failure Bytes
  | text s, _                  => return s
  | var s key rest, v          => do
    let env ← getObject v
    let rest ← rest.eval page v
    return s ++ ((env.lookup key).elim [] (fun value => htmlEscape (Json.toText value)) ++ rest)
  | raw s key rest, v          => do
    let env ← getObject v
    let rest ← rest.eval page v
    return s ++ ((env.lookup key).elim [] Json.toText ++ rest)
  | block b s key body rest, v => do
    let env ← getObject v
    let block ← b.eval (body.eval page) v (env.lookup key)
    let rest ← rest.eval page v
    return s ++ (block ++ rest)
  | file s name rest, v        => do
    let _ ← getObject v
    let block ← page name v
    let rest ← rest.eval page v
    return s ++ (block ++ rest)

-- The tags can be told from the texts, and the closing tag of a block from its body.
def Wf : Source → Prop
  | text s                  => IsLiteral s
  | var s key rest          => IsLiteral s ∧ s.getLast? ≠ some Ascii.openBrace ∧ IsKey key ∧ rest.Wf
  | raw s key rest          => IsLiteral s ∧ s.getLast? ≠ some Ascii.openBrace ∧ IsKey key ∧ rest.Wf
  | block b s key body rest => IsLiteral s ∧ s.getLast? ≠ some Ascii.openBrace ∧ IsKey key ∧
    ¬b.closing <:+: body.print ∧ body.Wf ∧ rest.Wf
  | file s name rest        => IsLiteral s ∧ s.getLast? ≠ some Ascii.openBrace ∧ IsKey name ∧ rest.Wf

end Source

-- The templates in the files. A template can include any of them, itself as well.
structure Site where
  page : Bytes → Option Source
  wf   : ∀ name src, page name = some src → src.Wf

namespace Site

def loadFile (site : Site) (name : Bytes) : Except Failure Bytes :=
  match site.page name with
  | some src => return src.print
  | none     => throw (.thrown .filesystemError)

-- The meaning of a file, up to a depth of the files that are included.
def eval (site : Site) : Nat → Bytes → JsonValue → Except Failure Bytes
  | 0, _, _            => throw .endless
  | depth + 1, name, v =>
    match site.page name with
    | some src => src.eval (site.eval depth) v
    | none     => throw (.thrown .filesystemError)

end Site

section Steps

variable {loadFile : Bytes → Except Failure Bytes} {s key u : Bytes} {v : JsonValue}

end Steps

section Below

variable {page page' : Bytes → JsonValue → Except Failure Bytes} {site : Site} {src : Source} {v : JsonValue}

theorem Block.eval_below (b : Block) {body body' : JsonValue → Except Failure Bytes} (h : ∀ v, Below .endless (body v) (body' v))
    (v : JsonValue) (var : Option JsonValue) : Below .endless (b.eval body v var) (b.eval body' v var) := by
  cases b with
  | cond =>
    rw [Block.eval, Block.eval]
    split
    · exact h v
    · exact .refl
  | each => exact Below.refl.bind fun items => (Below.mapM h items).bind fun _ => .refl

theorem Source.eval_below (h : ∀ name v, Below .endless (page name v) (page' name v)) (src : Source) (v : JsonValue) :
    Below .endless (src.eval page v) (src.eval page' v) := by
  induction src generalizing v with
  | text s                      => exact .refl
  | var s key rest hi           => exact Below.refl.bind fun _ => (hi v).bind fun _ => .refl
  | raw s key rest hi           => exact Below.refl.bind fun _ => (hi v).bind fun _ => .refl
  | block b s key body rest hb hr =>
    exact Below.refl.bind fun _ => (b.eval_below hb v _).bind fun _ => (hr v).bind fun _ => .refl
  | file s name rest hi         => exact Below.refl.bind fun _ => (h name v).bind fun _ => (hi v).bind fun _ => .refl

-- A greater depth does not change the meaning.
theorem Site.eval_below (site : Site) (depth : Nat) (name : Bytes) (v : JsonValue) :
    Below .endless (site.eval depth name v) (site.eval (depth + 1) name v) := by
  induction depth generalizing name v with
  | zero         => exact fun h => absurd rfl h
  | succ depth hi =>
    rw [Site.eval, Site.eval]
    split
    · exact Source.eval_below hi _ v
    · exact .refl

end Below

section Attains

variable {page : Bytes → JsonValue → Except Failure Bytes} {site : Site} {src : Source} {v : JsonValue}

end Attains

section Sample

end Sample

end YNet.TemplateEngine
