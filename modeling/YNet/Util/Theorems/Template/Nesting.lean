import YNet.Util.Theorems.Template.Trees

open Except

namespace YNet.TemplateEngine

namespace Template

def keys : Template → List Bytes
  | text _                => []
  | var _ key rest        => key :: rest.keys
  | raw _ key rest        => key :: rest.keys
  | block _ _ key body rest => key :: (body.keys ++ rest.keys)

-- The literal text at the end.
def last : Template → Bytes
  | text s             => s
  | var _ _ rest       => rest.last
  | raw _ _ rest       => rest.last
  | block _ _ _ _ rest => rest.last

-- No brace stands in front of a tag, and no key is the name of a closing tag.
def Clear : Template → Prop
  | text _                  => True
  | var s key rest          => s.getLast? ≠ some Ascii.openBrace ∧ (∀ b : Block, key ≠ b.name) ∧ rest.Clear
  | raw s key rest          => s.getLast? ≠ some Ascii.openBrace ∧ (∀ b : Block, key ≠ b.name) ∧ rest.Clear
  | block _ s key body rest =>
    s.getLast? ≠ some Ascii.openBrace ∧ (∀ b : Block, key ≠ b.name) ∧ body.Clear ∧
      body.last.getLast? ≠ some Ascii.openBrace ∧ rest.Clear

-- No body contains the closing tag of its block, for the blocks with `e` #each blocks around them.
def FlatAt : Nat → Template → Prop
  | _, text _                        => True
  | e, var _ _ rest                  => rest.FlatAt e
  | e, raw _ _ rest                  => rest.FlatAt e
  | 0, block b _ _ body rest         => ¬b.closing <:+: body.print ∧ (b = .cond → body.FlatAt 0) ∧ rest.FlatAt 0
  | e + 1, block .cond _ _ body rest => body.FlatAt (e + 1) ∧ rest.FlatAt (e + 1)
  | e + 1, block .each _ _ body rest => body.FlatAt e ∧ rest.FlatAt (e + 1)

theorem flat_of_flatAt {t : Template} (hc : t.Clear) (h : ∀ e, t.FlatAt e) : t.Flat := by
  induction t with
  | text s                  => trivial
  | var s key rest hr       => exact ⟨hc.1, hr hc.2.2 h⟩
  | raw s key rest hr       => exact ⟨hc.1, hr hc.2.2 h⟩
  | block b s key body rest hb hr =>
    have ⟨hs, _, hcb, _, hcr⟩ := hc
    have hrest (e : Nat) : rest.FlatAt e := by
      cases e with
      | zero   => exact (h 0).2.2
      | succ e => cases b <;> exact (h (e + 1)).2
    have hbody (e : Nat) : body.FlatAt e := by
      cases b with
      | cond =>
        cases e with
        | zero   => exact (h 0).2.1 rfl
        | succ e => exact (h (e + 1)).1
      | each => exact (h (e + 1)).1
    exact ⟨hs, (h 0).1, hb hcb hbody, hr hcr hrest⟩

-- What is left of nested blocks behind some closing tag: templates with the closing tags between them.
def join : Template → List (Block × Template) → Bytes
  | t, []            => t.print
  | t, (b, t') :: cs => t.print ++ (b.closing ++ join t' cs)

structure Part (ks : List Bytes) (t : Template) : Prop where
  wf    : t.Wf
  clear : t.Clear
  keys  : t.keys ⊆ ks

def Remains (ks : List Bytes) : Template → List (Block × Template) → Prop
  | t, []            => t.Part ks
  | t, (_, t') :: cs => t.Part ks ∧ t.last.getLast? ≠ some Ascii.openBrace ∧ Remains ks t' cs

variable {ks : List Bytes} {t t' : Template} {cs cs' : List (Block × Template)} {b : Block}

theorem join_append : join t (cs ++ (b, t') :: cs') = join t cs ++ (b.closing ++ join t' cs') := by
  induction cs generalizing t with
  | nil         => rfl
  | cons c cs hi => simp only [List.cons_append, join, hi, List.append_assoc]

-- The templates in front of a closing tag.
def Closed (ks : List Bytes) (t : Template) (cs : List (Block × Template)) : Prop :=
  ∀ x ∈ t :: cs.map Prod.snd, x.Part ks ∧ x.last.getLast? ≠ some Ascii.openBrace

theorem Closed.append (h : Closed ks t cs) (h' : Remains ks t' cs') : Remains ks t (cs ++ (b, t') :: cs') := by
  induction cs generalizing t with
  | nil          => exact ⟨(h t (by simp)).1, (h t (by simp)).2, h'⟩
  | cons c cs hi =>
    have ⟨ht, h⟩ := List.forall_mem_cons.mp h
    exact ⟨ht.1, ht.2, hi h⟩

end Template

section Cut

variable {s key w u : Bytes} {b b' : Block} {ks : List Bytes} {t body rest : Template}

theorem find_of_literal (hs : IsLiteral s) :
    (s ++ (openTag ++ u)).find b.closing = ((openTag ++ u).find b.closing).map (s.length + ·) := by
  refine b.find_append fun h => hs ?_
  rw [b.closing_eq] at h
  exact (List.prefix_append ..).isInfix.trans h

theorem closing_prefix_iff (hc : Ascii.closeBrace ∉ w) :
    b.closing <+: openTag ++ (w ++ (closeTag ++ u)) ↔ w = b.name := by
  have hb : Ascii.closeBrace ∉ b.name := by cases b <;> decide +kernel
  rw [b.closing_eq, List.prefix_append_right_inj]
  constructor
  · rintro ⟨t, ht⟩
    have h₁ : (w ++ (closeTag ++ u)).find [Ascii.closeBrace] = some w.length := Bytes.find_byte_append hc
    have h₂ : (b.name ++ closeTag ++ t).find [Ascii.closeBrace] = some b.name.length := by
      rw [List.append_assoc]
      exact Bytes.find_byte_append hb
    rw [ht, h₁] at h₂
    rw [List.append_assoc] at ht
    exact (List.append_inj ht (Option.some.inj h₂).symm).1.symm
  · rintro rfl
    rw [← List.append_assoc]
    exact List.prefix_append ..

theorem not_closing_prefix_cons (h : w.head? ≠ some Ascii.openBrace) : ¬b.closing <+: Ascii.openBrace :: w := by
  intro hp
  rw [b.closing_eq] at hp
  have ⟨t, ht⟩ := (List.cons_prefix_cons.mp hp).2
  rw [← ht] at h
  exact h rfl

-- The tags other than the closing one are passed over.
theorem find_of_tag (ho : Ascii.openBrace ∉ w) (hc : Ascii.closeBrace ∉ w) (hn : w ≠ b.name) :
    (openTag ++ (w ++ (closeTag ++ u))).find b.closing = (u.find b.closing).map (2 + w.length + 2 + ·) := by
  have h₀ : ¬b.closing <+: Ascii.openBrace :: Ascii.openBrace :: (w ++ (closeTag ++ u)) :=
    fun h => hn ((closing_prefix_iff hc).mp h)
  have h₁ : ¬b.closing <+: Ascii.openBrace :: (w ++ (closeTag ++ u)) := by
    refine not_closing_prefix_cons ?_
    cases w with
    | nil      => exact fun h => absurd (Option.some.inj h) (by decide)
    | cons c w => exact fun h => ho (Option.some.inj h ▸ List.mem_cons_self)
  have h₂ : Ascii.openBrace ∉ w ++ closeTag := by
    rw [List.mem_append, or_iff_right ho]
    decide
  have hi := Bytes.indexOf_append_of_head_not_mem (s := u) (p := Ascii.openBrace :: (b.name ++ closeTag)) h₂
  have he : Ascii.openBrace :: Ascii.openBrace :: (b.name ++ closeTag) = b.closing := b.closing_eq.symm
  rw [he, List.append_assoc] at hi
  rw [Bytes.find_zero, Bytes.find_zero]
  show Bytes.indexOf b.closing (Ascii.openBrace :: Ascii.openBrace :: (w ++ (closeTag ++ u))) = _
  rw [Bytes.indexOf_cons_of_not h₀, Bytes.indexOf_cons_of_not h₁, hi, Option.map_map, Option.map_map]
  refine congrArg (Option.map · _) (funext fun i => ?_)
  simp only [Function.comp_apply, List.length_append, List.length_cons, List.length_nil]
  omega

theorem find_of_raw (hk : IsKey key) (hn : key ≠ b.name) :
    (openTag ++ (Ascii.openBrace :: key ++ (closeRaw ++ u))).find b.closing
      = (u.find b.closing).map (3 + key.length + 3 + ·) := by
  have ho : Ascii.openBrace ∉ key := fun h => hk.2 _ h (by simp)
  have hc : Ascii.closeBrace ∉ key := fun h => hk.2 _ h (by simp)
  have h₀ : ¬b.closing <+: Ascii.openBrace :: (openTag ++ (key ++ (closeTag ++ Ascii.closeBrace :: u))) := by
    intro h
    rw [b.closing_eq] at h
    have h := (List.cons_prefix_cons.mp (List.cons_prefix_cons.mp h).2).2
    cases b <;> exact absurd (List.cons_prefix_cons.mp h).1 (by decide)
  have h₁ : ¬b.closing <+: Ascii.closeBrace :: u := by
    intro h
    rw [b.closing_eq] at h
    exact absurd (List.cons_prefix_cons.mp h).1 (by decide)
  have hi := find_of_tag (b := b) (u := Ascii.closeBrace :: u) ho hc hn
  rw [Bytes.find_zero, Bytes.find_zero, Bytes.indexOf_cons_of_not h₁] at hi
  rw [Bytes.find_zero, Bytes.find_zero]
  show Bytes.indexOf b.closing (Ascii.openBrace :: (openTag ++ (key ++ (closeTag ++ Ascii.closeBrace :: u)))) = _
  rw [Bytes.indexOf_cons_of_not h₀, hi, Option.map_map, Option.map_map]
  refine congrArg (Option.map · _) (funext fun i => ?_)
  simp only [Function.comp_apply]
  omega

theorem IsKey.not_mem (hk : IsKey key) : Ascii.openBrace ∉ key ∧ Ascii.closeBrace ∉ key :=
  ⟨fun h => hk.2 _ h (by simp), fun h => hk.2 _ h (by simp)⟩

theorem Block.opening_append (b : Block) (hk : IsKey key) :
    Ascii.openBrace ∉ b.opening ++ key ∧ Ascii.closeBrace ∉ b.opening ++ key ∧ ∀ b' : Block, b.opening ++ key ≠ b'.name := by
  rw [List.mem_append, List.mem_append, or_iff_left hk.not_mem.1, or_iff_left hk.not_mem.2]
  refine ⟨by cases b <;> decide +kernel, by cases b <;> decide +kernel, fun b' h => ?_⟩
  have hh := congrArg List.head? h
  rw [b.head?_opening] at hh
  cases b' <;> exact absurd hh (by decide)

-- What is left of a text behind the first closing tag of some kind.
def Cut (b : Block) (ks : List Bytes) (u : Bytes) : Prop :=
  ∀ i, u.find b.closing = some i →
    ∃ t cs, u.drop (i + b.closing.length) = Template.join t cs ∧ Template.Closed ks t cs

theorem Cut.of_drop (h : Cut b ks u) (hd : w.drop n = u) (hf : w.find b.closing = (u.find b.closing).map (n + ·)) :
    Cut b ks w := by
  intro i hi
  have ⟨j, hj, he⟩ := Option.map_eq_some_iff.mp (hf.symm.trans hi)
  have ⟨t, cs, ht, hc⟩ := h j hj
  refine ⟨t, cs, ?_, hc⟩
  rw [← he, ← ht, ← hd, List.drop_drop, Nat.add_assoc]

theorem Cut.block (hb : Cut b ks body.print) (hr : Cut b ks rest.print) (ht : rest.Part ks)
    (hl : rest.last.getLast? ≠ some Ascii.openBrace) : Cut b ks (body.print ++ (b'.closing ++ rest.print)) := by
  intro i hi
  cases hfb : body.print.find b.closing with
  | some k =>
    have hk : (body.print ++ (b'.closing ++ rest.print)).find b.closing = some k := by
      rw [Bytes.find_zero] at hfb ⊢
      exact Bytes.indexOf_append hfb
    cases hk.symm.trans hi
    have ⟨t, cs, hd, hc⟩ := hb i hfb
    refine ⟨t, cs ++ [(b', rest)], ?_, ?_⟩
    · have hj : Template.join t (cs ++ (b', rest) :: []) = Template.join t cs ++ (b'.closing ++ Template.join rest []) :=
        Template.join_append
      rw [List.drop_append_of_le_length (Bytes.find_add_length_le hfb), hd]
      exact hj.symm
    · intro x hx
      rw [List.map_append, ← List.cons_append, List.mem_append] at hx
      rcases hx with hx | hx
      · exact hc x hx
      · exact List.mem_singleton.mp hx ▸ ⟨ht, hl⟩
  | none =>
    have hn := find_eq_none_iff.mp hfb
    by_cases he : b' = b
    case pos =>
      subst he
      cases (b'.find_closing hn).symm.trans hi
      refine ⟨rest, [], ?_, ?_⟩
      · rw [← List.drop_drop, List.drop_left, List.drop_left]
        rfl
      · intro x hx
        exact List.mem_singleton.mp hx ▸ ⟨ht, hl⟩
    case neg =>
      have hname : b'.name ≠ b.name := by
        cases b <;> cases b' <;> first | contradiction | decide +kernel
      have ho : Ascii.openBrace ∉ b'.name := by cases b' <;> decide +kernel
      have hc : Ascii.closeBrace ∉ b'.name := by cases b' <;> decide +kernel
      have hu : b'.closing ++ rest.print = openTag ++ (b'.name ++ (closeTag ++ rest.print)) := by
        rw [b'.closing_eq]
        simp only [List.append_assoc]
      refine (hr.of_drop (n := body.print.length + 2 + b'.name.length + 2) ?_ ?_) i hi
      · rw [hu]
        exact drop_tag rfl rfl
      · rw [hu, b.find_append hn, find_of_tag ho hc hname, Option.map_map]
        refine congrArg (Option.map · _) (funext fun i => ?_)
        simp only [Function.comp_apply]
        omega

theorem cut (ht : t.Part ks) (hl : t.last.getLast? ≠ some Ascii.openBrace) : Cut b ks t.print := by
  induction t with
  | text s =>
    intro i h
    rw [find_eq_none_iff.mpr fun h => ht.wf ?_] at h
    · contradiction
    · rw [b.closing_eq] at h
      exact (List.prefix_append ..).isInfix.trans h
  | var s key rest hi =>
    obtain ⟨⟨hs, hk, hw⟩, ⟨_, hn, hc⟩, hks⟩ := ht
    refine (hi ⟨hw, hc, (List.cons_subset.mp hks).2⟩ hl).of_drop (n := s.length + 2 + key.length + 2) (drop_tag rfl rfl) ?_
    rw [Template.print, find_of_literal hs, find_of_tag hk.not_mem.1 hk.not_mem.2 (hn b), Option.map_map]
    refine congrArg (Option.map · _) (funext fun i => ?_)
    simp only [Function.comp_apply]
    omega
  | raw s key rest hi =>
    obtain ⟨⟨hs, hk, hw⟩, ⟨_, hn, hc⟩, hks⟩ := ht
    have hd : (s ++ ((Ascii.openBrace :: openTag) ++ (key ++ (closeRaw ++ rest.print)))).drop (s.length + 3 + key.length + 3)
        = rest.print := drop_tag rfl rfl
    refine (hi ⟨hw, hc, (List.cons_subset.mp hks).2⟩ hl).of_drop (n := s.length + 3 + key.length + 3) hd ?_
    rw [Template.print, find_of_literal hs, find_of_raw hk (hn b), Option.map_map]
    refine congrArg (Option.map · _) (funext fun i => ?_)
    simp only [Function.comp_apply]
    omega
  | block b' s key body rest hb hr =>
    obtain ⟨⟨hs, hk, hwb, hwr⟩, ⟨_, _, hcb, hlb, hcr⟩, hks⟩ := ht
    obtain ⟨_, hks⟩ := List.cons_subset.mp hks
    obtain ⟨hkb, hkr⟩ := List.append_subset.mp hks
    obtain ⟨ho, hc, hn⟩ := b'.opening_append hk
    refine (Cut.block (hb ⟨hwb, hcb, hkb⟩ hlb) (hr ⟨hwr, hcr, hkr⟩ hl) ⟨hwr, hcr, hkr⟩ hl).of_drop
      (n := s.length + 2 + (b'.opening ++ key).length + 2) (drop_tag rfl rfl) ?_
    rw [Template.print, find_of_literal hs, find_of_tag ho hc (hn b), Option.map_map]
    refine congrArg (Option.map · _) (funext fun i => ?_)
    simp only [Function.comp_apply]
    omega

end Cut

section Probe

-- Only the closing tags that are left over, `e` #each blocks deep, are replaced by the text `w`. All blocks
-- are entered once.
def probe (ks : List Bytes) (w : Bytes) : Nat → Env
  | 0     => ks.map (·, .array [.object []]) ++ [(Block.cond.name, .string w), (Block.each.name, .string w)]
  | e + 1 => ks.map (·, .array [.object (probe ks w e)])

def inner (ks : List Bytes) (w : Bytes) : Nat → Env
  | 0     => []
  | e + 1 => probe ks w e

variable {ks : List Bytes} {key w : Bytes} {b : Block} {t : Template} {value : JsonValue}

theorem lookup_const : (ks.map (·, value)).lookup key = if key ∈ ks then some value else none := by
  induction ks with
  | nil        => rfl
  | cons k ks hi =>
    rw [List.map_cons, List.lookup_cons, hi]
    by_cases h : key = k
    case pos => simp [h]
    case neg =>
      have hb : (key == k) = false := beq_eq_false_iff_ne.mpr h
      simp [h, hb]

theorem lookup_probe (hk : key ∈ ks) : (probe ks w e).lookup key = some (.array [.object (inner ks w e)]) := by
  cases e with
  | zero   => rw [probe, List.lookup_append, lookup_const, if_pos hk]; rfl
  | succ e => rw [probe, lookup_const, if_pos hk]; rfl

theorem lookup_closing (hb : b.name ∉ ks) : (probe ks w 0).lookup b.name = some (.string w) := by
  rw [probe, List.lookup_append, lookup_const, if_neg hb]
  cases b <;> rfl

-- The probes of two runs.
abbrev short : Bytes := "x"
abbrev long  : Bytes := "xx"

def Probes (ks : List Bytes) (v v' : JsonValue) : Prop :=
  v = v' ∨ v = .object (probe ks short 0) ∧ v' = .object (probe ks long 0)

def Lengthened (w w' : JsonValue) : Prop :=
  w = w' ∨ w = .string short ∧ w' = .string long

theorem lookup_lengthened : Option.Rel Lengthened ((probe ks short 0).lookup key) ((probe ks long 0).lookup key) := by
  rw [probe, probe, List.lookup_append, List.lookup_append, lookup_const]
  split_ifs
  case pos => exact .some (.inl rfl)
  case neg =>
    simp only [Option.none_or, List.lookup_cons]
    split
    · exact .some (.inr ⟨rfl, rfl⟩)
    · split
      · exact .some (.inr ⟨rfl, rfl⟩)
      · exact .none

theorem rel_refl (w : Option JsonValue) : Option.Rel Lengthened w w := by
  cases w with
  | none   => exact .none
  | some w => exact .some (.inl rfl)

theorem agree_refl {R : α → α → Prop} (hr : ∀ a, R a a) (x : Except Failure α) : Agree R x x := by
  cases x with
  | error e => exact .error
  | ok a    => exact .ok (hr a)

-- With the longer probe, no output gets shorter.
theorem related_probes : Related (fun _ => True) (Probes ks) Lengthened (fun o o' => o.length ≤ o'.length) where
  infix_of _ _ := trivial
  refl         := le_rfl
  append h h'  := by simpa using Nat.add_le_add h h'
  truthy h     := by
    rcases h with rfl | ⟨rfl, rfl⟩ <;> rfl
  object h     := by
    rcases h with rfl | ⟨rfl, rfl⟩
    · exact agree_refl (fun ms k => rel_refl _) _
    · exact .ok fun k => lookup_lengthened
  array h      := by
    rcases h with rfl | ⟨rfl, rfl⟩
    · exact agree_refl (fun vs => List.forall₂_same.mpr fun v _ => .inl rfl) _
    · exact .error
  var h        := by
    rcases h with rfl | ⟨rfl, rfl⟩
    · exact le_rfl
    · decide +kernel
  raw _ _ _ h  := by
    rcases h with rfl | ⟨rfl, rfl⟩
    · exact le_rfl
    · decide +kernel

end Probe

section Join

variable {ks : List Bytes} {s key : Bytes} {b : Block} {t rest body : Template} {cs : List (Block × Template)}

namespace Template

theorem join_var : join (var s key rest) cs = s ++ (openTag ++ (key ++ (closeTag ++ join rest cs))) := by
  cases cs <;> simp only [join, print, List.append_assoc]

theorem join_raw : join (raw s key rest) cs = s ++ (openTag ++ (Ascii.openBrace :: key ++ (closeRaw ++ join rest cs))) := by
  cases cs <;> simp only [join, print, List.append_assoc]

theorem join_block : join (block b s key body rest) cs
    = s ++ (openTag ++ (b.opening ++ key ++ (closeTag ++ (body.print ++ (b.closing ++ join rest cs))))) := by
  cases cs <;> simp only [join, print, List.append_assoc]

theorem Remains.part (h : Remains ks t cs) : t.Part ks := by
  cases cs with
  | nil  => exact h
  | cons => exact h.1

theorem Remains.behind (h : Remains ks t cs) (hr : rest.Part ks) (hl : rest.last = t.last) : Remains ks rest cs := by
  cases cs with
  | nil  => exact hr
  | cons => exact ⟨hr, hl ▸ h.2.1, h.2.2⟩

end Template

variable {loadFile : Bytes → Except Failure Bytes}

theorem render_le (n : Nat) (u : Bytes) : Agree (fun o o' => o.length ≤ o'.length)
    (renderString loadFile n u (.object (probe ks short 0))) (renderString loadFile n u (.object (probe ks long 0))) :=
  renderString_agree related_probes (fun _ _ _ => trivial) n _ _ _ trivial (.inr ⟨rfl, rfl⟩)

theorem blockRender_le (n : Nat) (u : Bytes) (var : Option JsonValue) : Agree (fun o o' => o.length ≤ o'.length)
    (b.render (renderString loadFile n) u (.object (probe ks short 0)) var)
    (b.render (renderString loadFile n) u (.object (probe ks long 0)) var) := by
  have hs : Uniform _ _ _ (renderString loadFile n) := renderString_agree (@related_probes ks) (fun _ _ _ => trivial) n
  cases b with
  | cond => exact renderIf_agree related_probes hs trivial (.inr ⟨rfl, rfl⟩) (rel_refl var)
  | each => exact renderEach_agree related_probes hs trivial (rel_refl var)

-- A closing tag that is left over, or is behind a block that was closed too early, is replaced by the probe.
theorem render_lt (hks : ∀ b : Block, b.name ∉ ks) (hr : Template.Remains ks t cs) (h : cs ≠ [] ∨ ¬t.FlatAt 0) :
    Agree (fun o o' => o.length < o'.length) (renderString loadFile n (Template.join t cs) (.object (probe ks short 0)))
      (renderString loadFile n (Template.join t cs) (.object (probe ks long 0))) := by
  induction n generalizing t cs with
  | zero      => exact .error
  | succ n hi =>
    have hp := hr.part
    cases t with
    | text s =>
      cases cs with
      | nil => exact absurd trivial (h.resolve_left (by simp))
      | cons c cs =>
        obtain ⟨b, t'⟩ := c
        have hk : IsKey b.name := by cases b <;> decide +kernel
        have hj : Template.join (.text s) ((b, t') :: cs) = s ++ (openTag ++ (b.name ++ (closeTag ++ Template.join t' cs))) := by
          simp only [Template.join, Template.print, b.closing_eq, List.append_assoc]
        rw [hj, renderString_var hp.wf hr.2.1 hk, renderString_var hp.wf hr.2.1 hk, lookup_closing (hks b), lookup_closing (hks b)]
        refine (render_le n _).bind fun o o' ho => .ok ?_
        have hl : (htmlEscape (Json.toText (.string short))).length < (htmlEscape (Json.toText (.string long))).length := by
          decide +kernel
        simp only [Option.elim_some, List.length_append]
        omega
    | var s key rest =>
      obtain ⟨⟨hs, hk, hw⟩, ⟨he, _, hc⟩, hsub⟩ := hp
      obtain ⟨hkey, hsub⟩ := List.cons_subset.mp hsub
      rw [Template.join_var, renderString_var hs he hk, renderString_var hs he hk, lookup_probe hkey, lookup_probe hkey]
      refine (hi (hr.behind ⟨hw, hc, hsub⟩ rfl) h).bind fun o o' ho => .ok ?_
      simp only [inner, List.length_append]
      omega
    | raw s key rest =>
      obtain ⟨⟨hs, hk, hw⟩, ⟨he, _, hc⟩, hsub⟩ := hp
      obtain ⟨hkey, hsub⟩ := List.cons_subset.mp hsub
      rw [Template.join_raw, renderString_raw hs he hk, renderString_raw hs he hk, lookup_probe hkey, lookup_probe hkey]
      refine (hi (hr.behind ⟨hw, hc, hsub⟩ rfl) h).bind fun o o' ho => .ok ?_
      simp only [inner, List.length_append]
      omega
    | block b s key body rest =>
      obtain ⟨⟨hs, hk, hwb, hwr⟩, ⟨he, _, hcb, hlb, hcr⟩, hsub⟩ := hp
      obtain ⟨hkey, hsub⟩ := List.cons_subset.mp hsub
      obtain ⟨hkb, hkr⟩ := List.append_subset.mp hsub
      have hrest := hr.behind ⟨hwr, hcr, hkr⟩ rfl
      rw [Template.join_block]
      by_cases hin : b.closing <:+: body.print
      case pos =>
        obtain ⟨i, hf⟩ := Option.ne_none_iff_exists'.mp (mt find_eq_none_iff.mp (not_not_intro hin))
        obtain ⟨t', cs', hd, hcl⟩ := cut ⟨hwb, hcb, hkb⟩ hlb i hf
        have hu : (body.print ++ (b.closing ++ Template.join rest cs)).find b.closing = some i := by
          rw [Bytes.find_zero] at hf ⊢
          exact Bytes.indexOf_append hf
        have hdrop : (body.print ++ (b.closing ++ Template.join rest cs)).drop (i + b.closing.length)
            = Template.join t' (cs' ++ (b, rest) :: cs) := by
          rw [List.drop_append_of_le_length (Bytes.find_add_length_le hf), hd, Template.join_append]
        rw [renderString_block hs he hk hu, renderString_block hs he hk hu, hdrop, lookup_probe hkey, lookup_probe hkey]
        refine (blockRender_le n _ _).bind fun o o' ho => ?_
        refine (hi (hcl.append hrest) (.inl (by simp))).bind fun q q' hq => .ok ?_
        simp only [List.length_append]
        omega
      case neg =>
        have hdrop : (body.print ++ (b.closing ++ Template.join rest cs)).drop (body.print.length + b.closing.length)
            = Template.join rest cs := by
          rw [← List.drop_drop, List.drop_left, List.drop_left]
        rw [renderString_block hs he hk (b.find_closing hin), renderString_block hs he hk (b.find_closing hin), List.take_left,
          hdrop, lookup_probe hkey, lookup_probe hkey]
        by_cases hg : cs ≠ [] ∨ ¬rest.FlatAt 0
        case pos =>
          refine (blockRender_le n _ _).bind fun o o' ho => ?_
          refine (hi hrest hg).bind fun q q' hq => .ok ?_
          simp only [List.length_append]
          omega
        case neg =>
          obtain ⟨hcs, hfr⟩ := not_or.mp hg
          have hbody : b = .cond ∧ ¬body.FlatAt 0 := by
            refine Classical.not_imp.mp fun hb => h.resolve_left hcs ⟨hin, hb, not_not.mp hfr⟩
          have hlt := @hi body [] ⟨hwb, hcb, hkb⟩ (.inr hbody.2)
          rw [hbody.1]
          refine .bind (R := fun o o' => o.length < o'.length) hlt fun o o' ho => ?_
          refine (render_le n _).bind fun q q' hq => .ok ?_
          simp only [List.length_append]
          omega

end Join

section Depth

variable {ks : List Bytes} {t : Template} {loadFile : Bytes → Except Failure Bytes}

theorem typed_nil : t.Typed [] := by
  induction t with
  | text                      => trivial
  | var _ _ _ hr              => exact hr
  | raw _ _ _ hr              => exact hr
  | block b _ _ body rest hb hr =>
    cases b with
    | cond => exact ⟨hb, hr⟩
    | each => exact ⟨by simp, hr⟩

theorem typed_of_inner (h : ∀ t : Template, t.keys ⊆ ks → t.Typed (inner ks w e)) (hks : t.keys ⊆ ks) :
    t.Typed (probe ks w e) := by
  induction t with
  | text         => trivial
  | var _ _ _ hr => exact hr (List.cons_subset.mp hks).2
  | raw _ _ _ hr => exact hr (List.cons_subset.mp hks).2
  | block b _ key body rest hb hr =>
    have ⟨hkey, hks⟩ := List.cons_subset.mp hks
    have ⟨hkb, hkr⟩ := List.append_subset.mp hks
    cases b with
    | cond => exact ⟨hb hkb, hr hkr⟩
    | each =>
      refine ⟨fun value hv => ?_, hr hkr⟩
      rw [lookup_probe hkey] at hv
      cases hv
      exact ⟨_, rfl, fun item hi => ⟨_, List.mem_singleton.mp hi, h body hkb⟩⟩

theorem typed_probe (hks : t.keys ⊆ ks) : t.Typed (probe ks w e) := by
  induction e generalizing t with
  | zero      => exact typed_of_inner (fun _ _ => typed_nil) hks
  | succ e he => exact typed_of_inner (fun _ h => he h) hks

theorem sem_probe (hks : t.keys ⊆ ks) : t.sem (probe ks w 0) = t.sem (probe ks w' 0) := by
  induction t with
  | text          => rfl
  | var s key rest hr =>
    have ⟨hkey, hks⟩ := List.cons_subset.mp hks
    simp only [Template.sem, lookup_probe hkey, inner, hr hks]
  | raw s key rest hr =>
    have ⟨hkey, hks⟩ := List.cons_subset.mp hks
    simp only [Template.sem, lookup_probe hkey, inner, hr hks]
  | block b s key body rest hb hr =>
    have ⟨hkey, hks⟩ := List.cons_subset.mp hks
    have ⟨hkb, hkr⟩ := List.append_subset.mp hks
    cases b <;> simp only [Template.sem, lookup_probe hkey, inner, hb hkb, hr hkr]

theorem each_render_single {self : Bytes → JsonValue → Except Failure Bytes} :
    Block.each.render self u vars (some (.array [item])) = self u item := by
  simp only [Block.render, renderEach, getArray, pure_bind, List.mapM_cons, List.mapM_nil, bind_assoc,
    List.flatten_cons, List.flatten_nil, List.append_nil, bind_pure]

-- What a longer probe adds to the output, compared with what it adds to the meaning.
def Gap (ks : List Bytes) (e : Nat) (t : Template) (o o' : Bytes) : Prop :=
  o.length + (t.sem (probe ks long e)).length ≤ o'.length + (t.sem (probe ks short e)).length ∧
    (¬t.FlatAt e → o.length + (t.sem (probe ks long e)).length < o'.length + (t.sem (probe ks short e)).length)

theorem renderString_gap (hks : ∀ b : Block, b.name ∉ ks) (ht : t.Part ks) (hf : ∀ e' < e, t.FlatAt e') :
    Agree (Gap ks e t) (renderString loadFile n t.print (.object (probe ks short e)))
      (renderString loadFile n t.print (.object (probe ks long e))) := by
  induction e generalizing t n with
  | zero =>
    have hs : t.sem (probe ks long 0) = t.sem (probe ks short 0) := sem_probe ht.keys
    by_cases h : t.FlatAt 0
    case pos =>
      refine (render_le n t.print).mono fun o o' ho => ⟨?_, absurd h⟩
      rw [hs]
      omega
    case neg =>
      have hlt : Agree _ (renderString loadFile n (Template.join t []) _) _ := render_lt hks ht (.inr h)
      refine hlt.mono fun o o' ho => ⟨?_, fun _ => ?_⟩ <;>
      · rw [hs]
        omega
  | succ e he =>
    induction t generalizing n with
    | text s =>
      cases n with
      | zero   => exact .error
      | succ n =>
        have hs := find_eq_none_iff.mpr ht.wf
        rw [Template.print, renderString_of_no_tag hs, renderString_of_no_tag hs]
        exact .ok ⟨le_rfl, absurd trivial⟩
    | var s key rest hr =>
      cases n with
      | zero   => exact .error
      | succ n =>
        obtain ⟨⟨hs, hk, hw⟩, ⟨hse, _, hc⟩, hsub⟩ := ht
        obtain ⟨hkey, hsub⟩ := List.cons_subset.mp hsub
        rw [Template.print, renderString_var hs hse hk, renderString_var hs hse hk]
        refine (hr ⟨hw, hc, hsub⟩ hf).bind fun o o' ho => .ok ?_
        simp only [Gap, Template.sem, List.length_append] at ho ⊢
        exact ⟨by omega, fun h => by have := ho.2 h; omega⟩
    | raw s key rest hr =>
      cases n with
      | zero   => exact .error
      | succ n =>
        obtain ⟨⟨hs, hk, hw⟩, ⟨hse, _, hc⟩, hsub⟩ := ht
        obtain ⟨hkey, hsub⟩ := List.cons_subset.mp hsub
        rw [Template.print, renderString_raw hs hse hk, renderString_raw hs hse hk]
        refine (hr ⟨hw, hc, hsub⟩ hf).bind fun o o' ho => .ok ?_
        simp only [Gap, Template.sem, List.length_append] at ho ⊢
        exact ⟨by omega, fun h => by have := ho.2 h; omega⟩
    | block b s key body rest hb hr =>
      cases n with
      | zero   => exact .error
      | succ n =>
        obtain ⟨⟨hs, hk, hwb, hwr⟩, ⟨hse, _, hcb, hlb, hcr⟩, hsub⟩ := ht
        obtain ⟨hkey, hsub⟩ := List.cons_subset.mp hsub
        obtain ⟨hkb, hkr⟩ := List.append_subset.mp hsub
        -- The blocks further out are closed by the right tags.
        have hin := (hf 0 (Nat.succ_pos e)).1
        have hfr : ∀ e' < e + 1, rest.FlatAt e' := by
          intro e' hlt
          cases e' with
          | zero    => exact (hf 0 hlt).2.2
          | succ e' => cases b <;> exact (hf _ hlt).2
        have hdrop : (body.print ++ (b.closing ++ rest.print)).drop (body.print.length + b.closing.length) = rest.print := by
          rw [← List.drop_drop, List.drop_left, List.drop_left]
        have hrest := hr (n := n) ⟨hwr, hcr, hkr⟩ hfr
        rw [Template.print, renderString_block hs hse hk (b.find_closing hin), renderString_block hs hse hk (b.find_closing hin),
          List.take_left, hdrop, lookup_probe hkey, lookup_probe hkey]
        cases b with
        | cond =>
          have hfb : ∀ e' < e + 1, body.FlatAt e' := by
            intro e' hlt
            cases e' with
            | zero    => exact (hf 0 hlt).2.1 rfl
            | succ e' => exact (hf _ hlt).1
          have hbody := hb (n := n) ⟨hwb, hcb, hkb⟩ hfb
          refine .bind (R := Gap ks (e + 1) body) hbody fun o o' ho => hrest.bind fun q q' hq => .ok ?_
          have ht : isTruthy (.array [.object (inner ks short (e + 1))]) = true := rfl
          have ht' : isTruthy (.array [.object (inner ks long (e + 1))]) = true := rfl
          simp only [Gap, Template.sem, lookup_probe hkey, Option.any_some, ht, ht', if_true, List.length_append] at ho hq ⊢
          refine ⟨by omega, fun h => ?_⟩
          rcases not_and_or.mp h with h | h
          · have := ho.2 h
            omega
          · have := hq.2 h
            omega
        | each =>
          rw [each_render_single, each_render_single]
          have hbody := he (n := n) ⟨hwb, hcb, hkb⟩ fun e' hlt => (hf (e' + 1) (Nat.succ_lt_succ hlt)).1
          refine .bind (R := Gap ks e body) hbody fun o o' ho => hrest.bind fun q q' hq => .ok ?_
          simp only [Gap, Template.sem, lookup_probe hkey, elements, inner, members, List.flatMap_cons, List.flatMap_nil,
            List.append_nil, List.length_append] at ho hq ⊢
          refine ⟨by omega, fun h => ?_⟩
          rcases not_and_or.mp h with h | h
          · have := ho.2 h
            omega
          · have := hq.2 h
            omega

end Depth

-- The template is rendered as its tree says, whatever the variables are.
def RendersSem (loadFile : Bytes → Except Failure Bytes) (t : Template) : Prop :=
  ∀ env, t.Typed env → ∀ n, t.print.length < n → renderString loadFile n t.print (.object env) = .ok (t.sem env)

-- The least number of #each blocks around a block that is closed too early.
theorem exists_least {t : Template} (hc : t.Clear) (h : ¬t.Flat) : ∃ e, ¬t.FlatAt e ∧ ∀ e' < e, t.FlatAt e' := by
  classical
  have he : ∃ e, ¬t.FlatAt e := by
    by_contra hn
    exact h (t.flat_of_flatAt hc fun e => not_not.mp (not_exists.mp hn e))
  exact ⟨Nat.find he, Nat.find_spec he, fun e' hlt => not_not.mp (Nat.find_min he hlt)⟩

theorem name_not_mem_keys {t : Template} (hc : t.Clear) (b : Block) : b.name ∉ t.keys := by
  induction t with
  | text => simp [Template.keys]
  | var s key rest hr =>
    have ⟨_, hn, hc⟩ := hc
    simpa [Template.keys] using ⟨(hn b).symm, hr hc⟩
  | raw s key rest hr =>
    have ⟨_, hn, hc⟩ := hc
    simpa [Template.keys] using ⟨(hn b).symm, hr hc⟩
  | block _ s key body rest hb hr =>
    have ⟨_, hn, hcb, _, hcr⟩ := hc
    simpa [Template.keys] using ⟨(hn b).symm, hb hcb, hr hcr⟩

-- The search for closing tags takes nested blocks of the same kind apart.
theorem renderString_sem_iff (loadFile : Bytes → Except Failure Bytes) {t : Template} (hw : t.Wf) :
    (t.Flat → RendersSem loadFile t) ∧ (t.Clear → (RendersSem loadFile t ↔ t.Flat)) := by
  have hflat (hf : t.Flat) : RendersSem loadFile t := fun env he n hn => renderString_print hw hf he hn
  refine ⟨hflat, fun hc => ⟨fun h => by_contra fun hnf => ?_, hflat⟩⟩
  have ⟨e, hne, hf⟩ := exists_least hc hnf
  have hg : Agree _ (renderString loadFile (t.print.length + 1) t.print _) _ :=
    renderString_gap (name_not_mem_keys hc) ⟨hw, hc, List.Subset.refl _⟩ hf
  rw [h _ (typed_probe (List.Subset.refl _)) _ (Nat.lt_succ_self _),
    h _ (typed_probe (List.Subset.refl _)) _ (Nat.lt_succ_self _)] at hg
  cases hg with
  | ok hg =>
    have := hg.2 hne
    omega

-- A list that is shown if it is not empty.
def listTemplate : Template :=
  .block .cond [] "items" (.block .each "<ul>" "items" (.var "<li>" "name" (.text "</li>")) (.text "</ul>")) (.text [])

theorem renderString_sem_iff_list : RendersSem (loadFile ∅) listTemplate :=
  (renderString_sem_iff (loadFile ∅) (by decide +kernel)).1 (by decide +kernel)

-- A text that is shown although the condition is false.
def hiddenTemplate : Template :=
  .block .cond [] "a" (.block .cond [] "b" (.text []) (.text "secret")) (.text [])

theorem not_rendersSem : hiddenTemplate.Wf ∧ hiddenTemplate.Typed [("a", .bool false)] ∧
    hiddenTemplate.sem [("a", .bool false)] = [] ∧
    renderString (loadFile ∅) 60 hiddenTemplate.print (.object [("a", .bool false)]) = .ok "secret" ∧
    ¬RendersSem (loadFile ∅) hiddenTemplate := by
  have hw : hiddenTemplate.Wf := by decide +kernel
  have ht : hiddenTemplate.Typed [("a", .bool false)] := ⟨⟨trivial, trivial⟩, trivial⟩
  have hs : hiddenTemplate.sem [("a", .bool false)] = [] := by decide +kernel
  have hr : renderString (loadFile ∅) 60 hiddenTemplate.print (.object [("a", .bool false)]) = .ok "secret" := by
    decide +kernel
  refine ⟨hw, ht, hs, hr, fun h => ?_⟩
  have := h _ ht 60 (by decide +kernel)
  rw [hr, hs] at this
  exact absurd (Except.ok.inj this) (by decide +kernel)

end YNet.TemplateEngine
