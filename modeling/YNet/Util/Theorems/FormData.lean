import YNet.Lib.Search
import YNet.Util.FormData
import YNet.Util.Theorems.MultipartParser

open Lines Bytes

namespace YNet

-- The literals of the encoding are compared byte by byte.
set_option maxRecDepth 2048

namespace MultipartParser

theorem quotedValue_append {a value rest : Bytes} (ha : a.length = start) (hv : Ascii.quote ∉ value) :
    quotedValue (a ++ (value ++ Ascii.quote :: rest)) start = .ok (some value) := by
  have hf : Bytes.find (a ++ (value ++ Ascii.quote :: rest)) "\"" start = some (start + value.length) := by
    rw [find_append_left ha]
    exact congrArg (Option.map _) (indexOf_append_self (s := rest) hv)
  simp only [quotedValue, hf]
  rw [Nat.add_sub_cancel_left, substr_append ha rfl]
  rfl

variable {header : Bytes}

theorem nameStart_none : nameStart header none = header.find "name=\"" := by
  unfold nameStart
  split
  case h_1 h => cases h
  case h_2   => rfl

theorem nameStart_of_ne (h : header.find "name=\"" = some start) (hn : start ≠ filename + 4) :
    nameStart header (some filename) = some start := by
  simp only [nameStart, h, if_neg hn]

theorem nameStart_of_eq (h : header.find "name=\"" = some (filename + 4)) :
    nameStart header (some filename) = header.find "name=\"" (filename + 10) := by
  simp only [nameStart, h, if_true]

end MultipartParser

namespace FormPart

open MultipartParser

variable (p : FormPart)

theorem not_mem_attr {key value : Bytes} (hk : b ∉ key) (hv : b ∉ value)
    (hb : b ∉ [Ascii.equals, Ascii.quote]) : b ∉ attr key value := by
  simp_all [attr]

theorem not_mem_attrs (hb : b ∈ [Ascii.cr, Ascii.lf, Ascii.colon]) : b ∉ p.attrs := by
  have hb' : b ∈ [Ascii.quote, Ascii.cr, Ascii.lf, Ascii.equals, Ascii.colon] := by
    simp only [List.mem_cons] at hb ⊢
    tauto
  have hd : ∀ b ∈ [Ascii.cr, Ascii.lf, Ascii.colon], b ∉ Bytes.ofString "name" ∧
      b ∉ Bytes.ofString "filename" ∧ b ∉ Bytes.ofString "; " ∧ b ∉ [Ascii.equals, Ascii.quote] := by
    decide
  have ⟨hn, hf, hs, hq⟩ := hd b hb
  have hname := not_mem_attr hn (p.name_mem b hb') hq
  rw [attrs]
  cases h : p.filename
  case none => exact hname
  case some filename =>
    have hfilename := not_mem_attr hf (p.filename_mem filename h b hb') hq
    dsimp only
    split <;> simp [hname, hfilename, hs]

theorem not_mem_disposition (hb : b ∈ [Ascii.cr, Ascii.lf]) : b ∉ p.disposition := by
  have hd : ∀ b ∈ [Ascii.cr, Ascii.lf], b ∉ Bytes.ofString "Content-Disposition: form-data; " := by
    decide
  have ha := p.not_mem_attrs (List.mem_append_left [Ascii.colon] hb)
  simp [disposition, hd b hb, ha]

theorem lines_isLine : ∀ l ∈ p.lines, l ≠ [] ∧ IsLine l := by
  intro l hl
  have ⟨t, ht, he⟩ := List.mem_map.mp hl
  subst he
  have hcr : Ascii.cr ∉ t := p.contentType_mem t (by simpa using ht) _ (by simp)
  have hd : Ascii.cr ∉ Bytes.ofString "Content-Type: " := by decide
  exact ⟨List.append_ne_nil_of_left_ne_nil (by decide) _, .of_not_mem (by simp [hcr, hd])⟩

theorem find_blank : p.content.find "\r\n\r\n" = some p.header.length := by
  have hc : p.content = p.disposition ++ (crlf ++ (wire p.lines ++ (crlf ++ p.data))) := by
    rw [crlf_wire]
    simp [content, header]
  have hd := p.not_mem_disposition (b := Ascii.cr) (by simp)
  have hw : p.header.length = p.disposition.length + (wire p.lines).length := by
    have := congrArg List.length (@crlf_wire p.lines [])
    simp [header] at this ⊢
    omega
  rw [hc, find_zero, hw]
  exact indexOf_blank_wire (.of_not_mem hd) p.lines_isLine

-- The text in front of the attributes.
abbrev formData : Bytes := Bytes.ofString "Content-Disposition: form-data; "

abbrev tail : Bytes := p.lines.flatMap (crlf ++ ·)

theorem nameKey : Bytes.ofString "name=\"" = Bytes.ofString "name" ++ Ascii.equals :: [Ascii.quote] := by
  decide

theorem filenameKey :
    Bytes.ofString "filename=\"" = Bytes.ofString "filename" ++ Ascii.equals :: [Ascii.quote] := by
  decide

section Attr

variable {a k u v t : Bytes}

theorem indexOf_attr (h : Ascii.equals ∉ u ++ k) :
    indexOf (k ++ Ascii.equals :: [Ascii.quote]) (u ++ (attr k v ++ t)) = some u.length := by
  simpa [attr] using indexOf_aligned (r := [Ascii.quote]) (t := v ++ Ascii.quote :: t) h

theorem quotedValue_attr (hv : Ascii.quote ∉ v) :
    quotedValue (u ++ (attr k v ++ t)) (u.length + (k.length + 2)) = .ok (some v) := by
  have : quotedValue ((u ++ (k ++ [Ascii.equals, Ascii.quote])) ++ (v ++ Ascii.quote :: t))
      (u ++ (k ++ [Ascii.equals, Ascii.quote])).length = .ok (some v) := quotedValue_append rfl hv
  simpa [attr] using this

-- Only the first line contains a quote, and there is no further attribute in it.
theorem indexOf_attr_tail (ha : Ascii.equals ∉ a) (hk : Ascii.cr ∉ k) :
    indexOf (k ++ Ascii.equals :: [Ascii.quote]) (a ++ p.tail) = none := by
  cases h : p.contentType
  case none => exact indexOf_of_not_mem (c := Ascii.equals) (by simp) (by simp [lines, h, ha])
  case some t =>
    have hq : Ascii.quote ∉ t := p.contentType_mem t h _ (by simp)
    have hl : Ascii.quote ∉ Ascii.lf :: Bytes.ofString "Content-Type: " := by decide
    have ht : p.tail = Ascii.cr :: ((Ascii.lf :: Bytes.ofString "Content-Type: ") ++ t) := by
      simp [tail, lines, h]
    have hd : Ascii.cr ∉ Ascii.equals :: [Ascii.quote] := by decide
    have hcr : Ascii.cr ∉ k ++ Ascii.equals :: [Ascii.quote] := by
      rw [List.mem_append]
      exact not_or_intro hk hd
    have hn : ¬k ++ Ascii.equals :: [Ascii.quote] <:+: a := fun hi => ha (hi.subset (by simp))
    rw [ht, indexOf_append_cons hcr hn, indexOf_of_not_mem (c := Ascii.quote) (by simp) (by
      rw [List.mem_append]
      exact not_or_intro hl hq)]
    rfl

end Attr

theorem header_eq : p.header = formData ++ (p.attrs ++ p.tail) := by
  simp [header, disposition, tail]

theorem equals_not_mem {v t : Bytes} (hv : Ascii.equals ∉ v) (ht : Ascii.equals ∉ t) :
    Ascii.equals ∉ v ++ Ascii.quote :: t := by
  have : Ascii.equals ≠ Ascii.quote := by decide
  simp [hv, ht, this]

theorem name_free : Ascii.equals ∉ p.name ∧ Ascii.quote ∉ p.name :=
  ⟨p.name_mem _ (by simp), p.name_mem _ (by simp)⟩

theorem partHeader_none (h : p.filename = none) :
    partHeader p.header = (partContentType p.header).map fun ct => some (p.name, [], ct) := by
  have ⟨he, hq⟩ := p.name_free
  have hh : p.header = formData ++ (attr "name" p.name ++ p.tail) := by
    rw [header_eq, attrs, h]
  have hf : p.header.find "filename=\"" = none := by
    have hs : p.header = (formData ++ Bytes.ofString "name") ++
        Ascii.equals :: ((Ascii.quote :: (p.name ++ [Ascii.quote])) ++ p.tail) := by
      simp [hh, attr]
    have ha : Ascii.equals ∉ Ascii.quote :: (p.name ++ [Ascii.quote]) :=
      equals_not_mem (v := []) (by simp) (equals_not_mem (t := []) he (by simp))
    rw [find_zero, hs, filenameKey, indexOf_skip (by decide) (by decide) (by decide),
      p.indexOf_attr_tail ha (by decide)]
    rfl
  have hn : p.header.find "name=\"" = some formData.length := by
    rw [find_zero, hh, nameKey, indexOf_attr (by decide)]
  have hs : nameStart p.header (p.header.find "filename=\"") = some formData.length := by
    rw [hf, nameStart_none, hn]
  refine partHeader_of_complete hs (hh ▸ quotedValue_attr hq) ?_
  rw [hf]
  rfl

theorem partHeader_nameFirst (h : p.filename = some f) (ho : p.filenameFirst = false) :
    partHeader p.header = (partContentType p.header).map fun ct => some (p.name, f, ct) := by
  have ⟨he, hq⟩ := p.name_free
  have hfq : Ascii.quote ∉ f := p.filename_mem f h _ (by simp)
  let front := formData ++ (attr "name" p.name ++ Bytes.ofString "; ")
  have hh : p.header = formData ++ (attr "name" p.name ++
      (Bytes.ofString "; " ++ (attr "filename" f ++ p.tail))) := by
    rw [header_eq, attrs, h]
    simp [ho]
  have hf : p.header.find "filename=\"" = some front.length := by
    have hs : p.header = (formData ++ Bytes.ofString "name") ++ Ascii.equals ::
        ((Ascii.quote :: (p.name ++ Ascii.quote :: Bytes.ofString "; ")) ++ (attr "filename" f ++ p.tail)) := by
      simp [hh, attr]
    have ha : Ascii.equals ∉ Ascii.quote :: (p.name ++ Ascii.quote :: Bytes.ofString "; ") ++
        Bytes.ofString "filename" := by
      have := equals_not_mem (v := []) (by simp)
        (equals_not_mem (t := Bytes.ofString "; " ++ Bytes.ofString "filename") he (by decide))
      simpa using this
    rw [find_zero, hs, filenameKey, indexOf_skip (by decide) (by decide) (by decide),
      indexOf_attr ha]
    simp [front, attr]
    omega
  have hn : p.header.find "name=\"" = some formData.length := by
    rw [find_zero, hh, nameKey, indexOf_attr (by decide)]
  have hv : p.header = front ++ (attr "filename" f ++ p.tail) := by
    simp [hh, front]
  have hs : nameStart p.header (p.header.find "filename=\"") = some formData.length := by
    rw [hf, nameStart_of_ne hn]
    simp [front]
    omega
  refine partHeader_of_complete hs (hh ▸ quotedValue_attr hq) ?_
  rw [hf, hv]
  exact quotedValue_attr hfq

theorem partHeader_filenameFirst (h : p.filename = some f) (ho : p.filenameFirst = true) :
    partHeader p.header = (partContentType p.header).map fun ct => some (p.name, f, ct) := by
  have ⟨_, hq⟩ := p.name_free
  have hfe : Ascii.equals ∉ f := p.filename_mem f h _ (by simp)
  have hfq : Ascii.quote ∉ f := p.filename_mem f h _ (by simp)
  let front := formData ++ (attr "filename" f ++ Bytes.ofString "; ")
  have hh : p.header = formData ++ (attr "filename" f ++
      (Bytes.ofString "; " ++ (attr "name" p.name ++ p.tail))) := by
    rw [header_eq, attrs, h]
    simp [ho]
  have hf : p.header.find "filename=\"" = some formData.length := by
    rw [find_zero, hh, filenameKey, indexOf_attr (by decide)]
  have hn : p.header.find "name=\"" = some (formData.length + 4) := by
    have hs : p.header = (formData ++ Bytes.ofString "file") ++ (attr "name" f ++
        (Bytes.ofString "; " ++ (attr "name" p.name ++ p.tail))) := by
      have : Bytes.ofString "filename" = Bytes.ofString "file" ++ Bytes.ofString "name" := by
        decide
      simp [hh, attr, this]
    rw [find_zero, hs, nameKey, indexOf_attr (by decide), List.length_append]
    rfl
  have hv : p.header = front ++ (attr "name" p.name ++ p.tail) := by
    simp [hh, front]
  have hn' : p.header.find "name=\"" (formData.length + 10) = some front.length := by
    have hs : p.header = (formData ++ (Bytes.ofString "filename" ++ [Ascii.equals, Ascii.quote])) ++
        ((f ++ Ascii.quote :: Bytes.ofString "; ") ++ (attr "name" p.name ++ p.tail)) := by
      simp [hh, attr]
    have ha : Ascii.equals ∉ (f ++ Ascii.quote :: Bytes.ofString "; ") ++ Bytes.ofString "name" := by
      have := equals_not_mem (t := Bytes.ofString "; " ++ Bytes.ofString "name") hfe (by decide)
      simpa using this
    rw [hs, find_append_left (by rw [List.length_append]; rfl), nameKey, indexOf_attr ha]
    have hl : (Bytes.ofString "filename").length = 8 := rfl
    simp [front, attr, hl]
    omega
  have hs : nameStart p.header (p.header.find "filename=\"") = some front.length := by
    rw [hf, nameStart_of_eq hn, hn']
  refine partHeader_of_complete hs (hv ▸ quotedValue_attr hq) ?_
  rw [hf, hh]
  exact quotedValue_attr hfq

theorem partHeader_eq : partHeader p.header =
    (partContentType p.header).map fun ct => some (p.name, p.filename.getD [], ct) := by
  cases h : p.filename
  case none   => exact p.partHeader_none h
  case some f =>
    cases ho : p.filenameFirst
    case false => exact p.partHeader_nameFirst h ho
    case true  => exact p.partHeader_filenameFirst h ho

-- Neither the disposition nor the attributes contain a second colon.
theorem partContentType_eq : partContentType p.header = .ok (p.contentType.getD []) := by
  have ha : Ascii.colon ∉ p.attrs := p.not_mem_attrs (by simp)
  have hd : Ascii.colon ∉ Bytes.ofString " form-data; " := by decide
  have hf : formData = Bytes.ofString "Content-Disposition" ++ Ascii.colon :: Bytes.ofString " form-data; " := by
    decide
  have hk : Bytes.ofString "Content-Type:" = Bytes.ofString "Content-Type" ++ Ascii.colon :: [] := by
    decide
  have hs : p.header = Bytes.ofString "Content-Disposition" ++ Ascii.colon ::
      ((Bytes.ofString " form-data; " ++ p.attrs) ++ p.tail) := by
    rw [header_eq, hf]
    simp
  have hi : p.header.find "Content-Type:" = (indexOf "Content-Type:"
      ((Bytes.ofString " form-data; " ++ p.attrs) ++ p.tail)).map (20 + ·) := by
    rw [find_zero, hs, hk, indexOf_skip (by decide) (by decide) (by decide)]
    rfl
  cases h : p.contentType
  case none =>
    have ht : p.tail = [] := by simp [tail, lines, h]
    have hn : p.header.find "Content-Type:" = none := by
      rw [hi, ht, hk, indexOf_of_not_mem (c := Ascii.colon) (by simp) (by simp [ha, hd])]
      rfl
    simp only [partContentType, hn]
    rfl
  case some t =>
    let front := Bytes.ofString " form-data; " ++ (p.attrs ++ crlf)
    have hcr : Ascii.cr ∉ t := p.contentType_mem t h _ (by simp)
    have ht : (Bytes.ofString " form-data; " ++ p.attrs) ++ p.tail =
        front ++ (Bytes.ofString "Content-Type" ++ Ascii.colon :: ([] ++ Ascii.space :: t)) := by
      have : Bytes.ofString "Content-Type: " = Bytes.ofString "Content-Type" ++ [Ascii.colon, Ascii.space] := by
        decide
      simp [tail, lines, h, front, this]
    have hu : Ascii.colon ∉ front ++ Bytes.ofString "Content-Type" := by
      have hc : Ascii.colon ∉ crlf ++ Bytes.ofString "Content-Type" := by decide
      simp only [front, List.mem_append] at hc ⊢
      tauto
    have hn : p.header.find "Content-Type:" = some (20 + front.length) := by
      rw [hi, ht, hk, indexOf_aligned hu]
      rfl
    have hv : ∃ a, p.header = a ++ t ∧ a.length = 20 + front.length + 14 := by
      refine ⟨Bytes.ofString "Content-Disposition" ++ Ascii.colon ::
        (front ++ (Bytes.ofString "Content-Type" ++ [Ascii.colon, Ascii.space])), ?_, ?_⟩
      · rw [hs, ht]
        simp
      · have h₁ : (Bytes.ofString "Content-Disposition").length = 19 := rfl
        have h₂ : (Bytes.ofString "Content-Type").length = 12 := rfl
        simp [h₁, h₂]
        omega
    have ⟨a, he, hl⟩ := hv
    have hline : p.header.find "\r\n" (20 + front.length + 14) = none := by
      rw [he, find_append_left hl]
      exact Option.map_eq_none_iff.mpr (indexOf_of_head_not_mem hcr)
    simp only [partContentType, hn, hline]
    rw [he, substrFrom_append hl]
    rfl

theorem parsePart_content (offset : Nat) (parts : List Part) :
    ∃ part, parsePart offset p.content parts = .ok (parts ++ [part]) ∧ p.IsRead part := by
  have ht : p.content.take p.header.length = p.header := by simp [content]
  have hd : p.content.drop (p.header.length + 4) = p.data := by
    rw [content, ← List.append_assoc]
    exact List.drop_left' (by simp)
  have hn : ¬(p.filename.getD [] ≠ [] ∧ p.data = []) := by
    rintro ⟨h, hd⟩
    cases hf : p.filename
    case none   => simp [hf] at h
    case some f => exact p.data_ne (by simp [hf]) hd
  simp only [parsePart, p.find_blank, ht, hd, p.partHeader_eq, p.partContentType_eq, Except.map, bind,
    Except.bind, if_neg hn]
  exact ⟨_, rfl, rfl, rfl, rfl, rfl⟩

end FormPart

namespace Form

open MultipartParser

variable (f : Form)

-- What follows a delimiter.
def rest (f : Form) : List FormPart → Bytes
  | []      => Bytes.ofString "--"
  | p :: ps => crlf ++ (p.content ++ (crlf ++ (f.delimiter ++ rest f ps)))

theorem bytes_eq : f.bytes = f.delimiter ++ f.rest f.parts := by
  have (ps : List FormPart) :
      ps.flatMap (fun p => f.delimiter ++ (crlf ++ (p.content ++ crlf)))
        ++ (f.delimiter ++ Bytes.ofString "--") = f.delimiter ++ f.rest ps := by
    induction ps with
    | nil          => rfl
    | cons p ps hi => simp only [List.flatMap_cons, List.append_assoc, hi, rest]
  exact this f.parts

theorem two_le_length_rest (ps : List FormPart) : 2 ≤ (f.rest ps).length := by
  cases ps
  case nil  => exact Nat.le_of_eq rfl
  case cons => simp [rest]

theorem not_mem_delimiter (hb : b ∈ [Ascii.cr, Ascii.lf]) : b ∉ f.delimiter := by
  have hd : ∀ b ∈ [Ascii.cr, Ascii.lf], b ∉ Bytes.ofString "--" := by decide
  have := f.boundary_mem b (List.mem_append_left [Ascii.quote] hb)
  simp [delimiter, hd b hb, this]

-- The next delimiter is the first one behind a part.
theorem find_delimiter (hp : p ∈ f.parts) :
    Bytes.find (p.content ++ (crlf ++ (f.delimiter ++ s))) f.delimiter = some (p.content.length + 2) := by
  have hcr := f.not_mem_delimiter (b := Ascii.cr) (by simp)
  have hlf := f.not_mem_delimiter (b := Ascii.lf) (by simp)
  have hn : f.delimiter ≠ [] := List.append_ne_nil_of_right_ne_nil _ f.boundary_ne
  have he : ¬f.delimiter <:+: [] := by simpa using hn
  have hb : p.content ++ (crlf ++ (f.delimiter ++ s)) =
      p.header ++ Ascii.cr :: ([] ++ Ascii.lf :: ([] ++ Ascii.cr :: ([] ++ Ascii.lf ::
        (p.data ++ Ascii.cr :: ([] ++ Ascii.lf :: (f.delimiter ++ s)))))) := by
    simp [FormPart.content]
  rw [hb, find_zero, indexOf_append_cons hcr (f.header_fresh p hp), indexOf_append_cons hlf he,
    indexOf_append_cons hcr he, indexOf_append_cons hlf he, indexOf_append_cons hcr (f.data_fresh p hp),
    indexOf_append_cons hlf he, indexOf_of_isPrefix (List.prefix_append ..)]
  simp [FormPart.content]
  omega

theorem delimiter_ne : f.delimiter ≠ [] :=
  List.append_ne_nil_of_right_ne_nil _ f.boundary_ne

-- The parser stands two bytes behind a delimiter. The induction is on the parts that follow.
theorem go_rest {body : Bytes} (acc : List Part) (hp : ps ⊆ f.parts) (hc : cur ≤ body.length)
    (hd : body.drop cur = (f.rest ps).drop 2) :
    ∃ parts', parse.go body f.delimiter cur (some cur) acc = .ok (acc ++ parts') ∧
      List.Forall₂ FormPart.IsRead ps parts' := by
  induction ps generalizing cur acc with
  | nil =>
    have hn : Bytes.find (body.drop cur) f.delimiter = none := by
      rw [hd, find_zero]
      refine indexOf_eq_none_iff.mpr fun i _ hi => f.delimiter_ne ?_
      rw [show (f.rest []).drop 2 = [] from rfl, List.drop_nil] at hi
      exact List.prefix_nil.mp hi
    exact ⟨[], by rw [parse.go_none hc hn, List.append_nil], .nil⟩
  | cons p ps hi =>
    have ⟨hm, hp⟩ := List.cons_subset.mp hp
    have hd : body.drop cur = p.content ++ (crlf ++ (f.delimiter ++ f.rest ps)) := hd
    have hf : Bytes.find (body.drop cur) f.delimiter = some (p.content.length + 2) := by
      rw [hd]
      exact f.find_delimiter hm
    have hl := congrArg List.length hd
    have h2 := f.two_le_length_rest ps
    simp only [List.length_drop, List.length_append, List.length_cons, List.length_nil] at hl
    have ⟨part, hpart, hread⟩ := p.parsePart_content cur acc
    have hnext : body.drop (cur + (p.content.length + 2) + f.delimiter.length + 2) = (f.rest ps).drop 2 := by
      have : body.drop cur = (p.content ++ (crlf ++ f.delimiter)) ++ f.rest ps := by simp [hd]
      rw [Nat.add_assoc, Nat.add_assoc, ← List.drop_drop, this, ← Nat.add_assoc, ← List.drop_drop,
        List.drop_left' (by simp; omega)]
    have ⟨parts', hgo, hall⟩ := hi (acc ++ [part]) hp (by omega) hnext
    refine ⟨part :: parts', ?_, .cons hread hall⟩
    have hpos : 0 < p.content.length := by simp [FormPart.content]
    rw [parse.go_some hc hf, if_pos (by omega), hd, Nat.add_sub_cancel, List.take_left, hpart]
    simp only [bind, Except.bind]
    rw [if_neg (by omega), hgo]
    simp

theorem extractBoundary_contentType (quoted : Bool) :
    extractBoundary (f.contentType quoted) = .ok f.boundary := by
  have hq : Ascii.quote ∉ f.boundary := f.boundary_mem _ (by simp)
  have hb (v : Bytes) : boundaryOf (Bytes.ofString "multipart/form-data; boundary=" ++ v) =
      if v.head? = some Ascii.quote then v.tail.takeWhile (· ≠ Ascii.quote) else v := by
    have hi : indexOf "boundary" (Bytes.ofString "multipart/form-data; boundary=") = some 21 := by
      decide
    have hf : Bytes.find (Bytes.ofString "multipart/form-data; boundary=" ++ v) "boundary" = some 21 := by
      rw [find_zero]
      exact indexOf_append hi
    simp only [boundaryOf, hf]
    rfl
  rw [extractBoundary_eq, contentType, hb]
  cases quoted
  case false =>
    have hn : f.boundary.head? ≠ some Ascii.quote := fun h => hq (List.mem_of_head? h)
    simp only [Bool.false_eq_true, if_false, if_neg hn]
  case true =>
    have hp : ∀ b ∈ f.boundary, decide (b ≠ Ascii.quote) = true := by
      intro b hb
      simpa using fun he : b = Ascii.quote => hq (he ▸ hb)
    simp only [if_true, List.head?_cons, List.tail_cons]
    rw [List.takeWhile_append_of_pos hp]
    simp

-- Parsing the encoding of a form yields the parts of the form in their order.
theorem parse_parts (quoted : Bool) :
    ∃ parts, parse f.bytes (f.contentType quoted) = .ok parts ∧
      List.Forall₂ FormPart.IsRead f.parts parts := by
  have hf : f.bytes.find f.delimiter 0 = some 0 := by
    rw [find_zero, bytes_eq]
    exact indexOf_of_isPrefix (List.prefix_append ..)
  have hl : f.delimiter.length + 2 ≤ f.bytes.length := by
    have := f.two_le_length_rest f.parts
    rw [bytes_eq, List.length_append]
    omega
  have hd : f.bytes.drop (f.delimiter.length + 2) = (f.rest f.parts).drop 2 := by
    rw [bytes_eq, ← List.drop_drop, List.drop_left]
  have ⟨parts, hgo, hall⟩ := f.go_rest [] (List.Subset.refl _) hl hd
  refine ⟨parts, ?_, hall⟩
  simp only [parse, f.extractBoundary_contentType, bind, Except.bind, if_neg f.boundary_ne]
  have hl' : 0 + f.delimiter.length + 2 ≤ f.bytes.length := by rwa [Nat.zero_add]
  exact (parse.go_first hf hl').trans (by rwa [Nat.zero_add])

-- A field whose data looks like the end of a header, and a file without a content type.
example : ∃ f : Form, f.parts.length = 2 := ⟨{
  boundary := "x"
  parts := [
    { name := "a", filename := none, filenameFirst := false, contentType := some "text/plain",
      data := "\r\n\r\n--", name_mem := by decide, filename_mem := by decide,
      contentType_mem := by decide, data_ne := by decide },
    { name := "", filename := some "b", filenameFirst := true, contentType := none, data := "\r\n",
      name_mem := by decide, filename_mem := by decide,
      contentType_mem := by decide, data_ne := by decide }]
  boundary_ne  := by decide
  boundary_mem := by decide
  header_fresh := by decide
  data_fresh   := by decide
}, rfl⟩

end Form
end YNet
