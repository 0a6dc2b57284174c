import YNet.Util.Theorems.Template.Unfinished

namespace YNet.TemplateEngine

abbrev Env := List (Bytes × JsonValue)

inductive Block
  | cond
  | each
  deriving DecidableEq

namespace Block

def opening : Block → Bytes
  | cond => "#if "
  | each => "#each "

def closing : Block → Bytes
  | cond => closeIf
  | each => closeEach

-- The name of the closing tag.
def name : Block → Bytes
  | cond => "/if"
  | each => "/each"

def render (b : Block) (self : Bytes → JsonValue → Except Failure Bytes) (body : Bytes) (vars : JsonValue)
    (var : Option JsonValue) : Except Failure Bytes :=
  match b with
  | cond => renderIf self body vars var
  | each => renderEach self body var

end Block

-- A template as a tree. Each tag stands behind a literal text, and in front of the rest of the template.
inductive Template
  | text (s : Bytes)
  | var (s key : Bytes) (rest : Template)
  | raw (s key : Bytes) (rest : Template)
  | block (b : Block) (s key : Bytes) (body rest : Template)

-- A literal text contains no tag, and a key neither braces nor blanks.
def IsLiteral (s : Bytes) : Prop :=
  ¬openTag <:+: s

def IsKey (key : Bytes) : Prop :=
  key ≠ [] ∧ ∀ c ∈ key, c ∉ [Ascii.space, Ascii.tab, Ascii.openBrace, Ascii.closeBrace]

instance : DecidablePred IsLiteral :=
  fun _ => inferInstanceAs (Decidable (¬_))

instance : DecidablePred IsKey :=
  fun _ => inferInstanceAs (Decidable (_ ∧ _))

def elements : Option JsonValue → List JsonValue
  | some (.array items) => items
  | _                   => []

def members : JsonValue → Env
  | .object ms => ms
  | _          => []

namespace Template

def print : Template → Bytes
  | text s                  => s
  | var s key rest          => s ++ (openTag ++ (key ++ (closeTag ++ rest.print)))
  | raw s key rest          => s ++ (openTag ++ (Ascii.openBrace :: key ++ (closeRaw ++ rest.print)))
  | block b s key body rest =>
    s ++ (openTag ++ (b.opening ++ key ++ (closeTag ++ (body.print ++ (b.closing ++ rest.print)))))

-- The meaning of a template, by recursion on the tree.
def sem : Template → Env → Bytes
  | text s, _                       => s
  | var s key rest, env             =>
    s ++ ((env.lookup key).elim [] (fun value => htmlEscape (Json.toText value)) ++ rest.sem env)
  | raw s key rest, env             => s ++ ((env.lookup key).elim [] Json.toText ++ rest.sem env)
  | block .cond s key body rest, env =>
    s ++ ((if (env.lookup key).any isTruthy then body.sem env else []) ++ rest.sem env)
  | block .each s key body rest, env =>
    s ++ ((elements (env.lookup key)).flatMap (fun item => body.sem (members item)) ++ rest.sem env)

def Wf : Template → Prop
  | text s                  => IsLiteral s
  | var s key rest          => IsLiteral s ∧ IsKey key ∧ rest.Wf
  | raw s key rest          => IsLiteral s ∧ IsKey key ∧ rest.Wf
  | block _ s key body rest => IsLiteral s ∧ IsKey key ∧ body.Wf ∧ rest.Wf

def decWf : (t : Template) → Decidable t.Wf
  | text s                  => inferInstanceAs (Decidable (IsLiteral s))
  | var _ _ rest            =>
    have := decWf rest
    inferInstanceAs (Decidable (_ ∧ _ ∧ _))
  | raw _ _ rest            =>
    have := decWf rest
    inferInstanceAs (Decidable (_ ∧ _ ∧ _))
  | block _ _ _ body rest =>
    have := decWf body
    have := decWf rest
    inferInstanceAs (Decidable (_ ∧ _ ∧ _ ∧ _))

instance : DecidablePred Wf :=
  decWf

-- Each variable of an #each block is an array of objects, if it is there.
def Typed : Template → Env → Prop
  | text _, _                      => True
  | var _ _ rest, env              => rest.Typed env
  | raw _ _ rest, env              => rest.Typed env
  | block .cond _ _ body rest, env => body.Typed env ∧ rest.Typed env
  | block .each _ key body rest, env =>
    (∀ value, env.lookup key = some value →
      ∃ items, value = .array items ∧ ∀ item ∈ items, ∃ ms, item = .object ms ∧ body.Typed ms) ∧ rest.Typed env

-- No brace stands in front of a tag, and no body contains the closing tag of its block.
def Flat : Template → Prop
  | text _               => True
  | var s _ rest         => s.getLast? ≠ some Ascii.openBrace ∧ rest.Flat
  | raw s _ rest         => s.getLast? ≠ some Ascii.openBrace ∧ rest.Flat
  | block b s _ body rest =>
    s.getLast? ≠ some Ascii.openBrace ∧ ¬b.closing <:+: body.print ∧ body.Flat ∧ rest.Flat

def decFlat : (t : Template) → Decidable t.Flat
  | text _                => inferInstanceAs (Decidable True)
  | var _ _ rest          =>
    have := decFlat rest
    inferInstanceAs (Decidable (_ ∧ _))
  | raw _ _ rest          =>
    have := decFlat rest
    inferInstanceAs (Decidable (_ ∧ _))
  | block _ _ _ body rest =>
    have := decFlat body
    have := decFlat rest
    inferInstanceAs (Decidable (_ ∧ _ ∧ _ ∧ _))

instance : DecidablePred Flat :=
  decFlat

end Template

section Tags

variable {s key keyName u : Bytes}

theorem find_openTag (hs : IsLiteral s) (he : s.getLast? ≠ some Ascii.openBrace) :
    (s ++ (openTag ++ u)).find openTag = some s.length := by
  have ⟨start, hf, h⟩ := find_openTag_append (r := u) hs
  rcases h with h | ⟨a, h, _⟩
  · exact h ▸ hf
  · exact absurd (by simp [h]) he

theorem findIdx?_eq_zero {p : UInt8 → Bool} (hn : key ≠ []) (h : ∀ c ∈ key, p c) : key.findIdx? p = some 0 := by
  cases key with
  | nil        => contradiction
  | cons c key => rw [List.findIdx?_cons, if_pos (h c List.mem_cons_self)]

theorem trim_key (hk : IsKey key) : trim key = .ok key := by
  have hall : ∀ c ∈ key, decide (c ∉ Bytes.ofString " \t") = true := by
    intro c hc
    have hset : Bytes.ofString " \t" = [Ascii.space, Ascii.tab] := by decide +kernel
    have := hk.2 c hc
    simp_all
  have hfirst : key.findFirstNotOf " \t" = some 0 := by
    rw [Bytes.findFirstNotOf, List.drop_zero, findIdx?_eq_zero hk.1 hall]
    rfl
  have hlast : key.findLastNotOf " \t" = some (key.length - 1) := by
    rw [Bytes.findLastNotOf, findIdx?_eq_zero (by simpa using hk.1) (by simpa using hall)]
    rfl
  have hpos := List.length_pos_iff.mpr hk.1
  simp only [trim, hfirst, hlast, List.drop_zero, pure, Except.pure]
  rw [List.take_of_length_le (by omega)]

theorem getElem?_behind (t : Bytes) : (s ++ (openTag ++ t))[s.length + 2]? = t.head? := by
  rw [← List.append_assoc, List.getElem?_append_right (by simp), List.head?_eq_getElem?]
  simp

theorem tagAt_eq (hb : Ascii.closeBrace ∉ keyName) (hn : keyName.head? ≠ some Ascii.openBrace) :
    tagAt (s ++ (openTag ++ (keyName ++ (closeTag ++ u)))) s.length = some (
      let pos := s.length + 2 + keyName.length + 2
      if (Bytes.ofString "#if ").isPrefixOf keyName then
        (u.find closeIf).elim (.cond (keyName.drop 4) none, pos)
          fun i => (.cond (keyName.drop 4) (some (u.take i)), pos + i + 7)
      else if (Bytes.ofString "#each ").isPrefixOf keyName then
        (u.find closeEach).elim (.each (keyName.drop 6) none, pos)
          fun i => (.each (keyName.drop 6) (some (u.take i)), pos + i + 9)
      else if (Bytes.ofString "> ").isPrefixOf keyName then (.file (keyName.drop 2), pos)
      else (.var keyName, pos)) := by
  have hh : (s ++ (openTag ++ (keyName ++ (closeTag ++ u))))[s.length + 2]? ≠ some Ascii.openBrace := by
    rw [getElem?_behind]
    cases keyName with
    | nil      => simp; decide
    | cons c k => exact hn
  have hf : (s ++ (openTag ++ (keyName ++ (closeTag ++ u)))).find closeTag s.length
      = some (s.length + (2 + keyName.length)) := by
    have hc : Ascii.closeBrace ∉ openTag ++ keyName := by
      rw [List.mem_append, or_iff_left hb]
      decide
    have := Bytes.indexOf_append_self (p := [Ascii.closeBrace]) (s := u) hc
    rw [Bytes.find_append_left rfl, ← List.append_assoc openTag, this, List.length_append]
    rfl
  have hd : (s ++ (openTag ++ (keyName ++ (closeTag ++ u)))).drop (s.length + 2) = keyName ++ (closeTag ++ u) := by
    rw [← List.append_assoc]
    exact List.drop_left' (by simp)
  have hd' : (s ++ (openTag ++ (keyName ++ (closeTag ++ u)))).drop (s.length + 2 + keyName.length + 2) = u := by
    rw [Nat.add_assoc (s.length + 2), ← List.drop_drop, hd, ← List.append_assoc]
    exact List.drop_left' (by simp)
  have hclose (pat : Bytes) : (s ++ (openTag ++ (keyName ++ (closeTag ++ u)))).find pat (s.length + 2 + keyName.length + 2)
      = (u.find pat).map (s.length + 2 + keyName.length + 2 + ·) := by
    rw [Bytes.find_eq_map pat (by simp; omega), hd']
  have hstop : s.length + (2 + keyName.length) = s.length + 2 + keyName.length := by omega
  have hlen : s.length + 2 + keyName.length - s.length - 2 = keyName.length := by omega
  rw [tagAt, if_neg hh, hf, Option.map_some]
  have hbody (i : Nat) : s.length + 2 + keyName.length + 2 + i - (s.length + 2 + keyName.length) - 2 = i := by omega
  simp only [hstop, hlen, hd, hd', List.take_left, hclose, Option.elim_map, Function.comp_def, hbody]

theorem tagAt_raw (hk : IsKey key) :
    tagAt (s ++ (openTag ++ (Ascii.openBrace :: key ++ (closeRaw ++ u)))) s.length
      = some (.raw key, s.length + 3 + key.length + 3) := by
  have hh : (s ++ (openTag ++ (Ascii.openBrace :: key ++ (closeRaw ++ u))))[s.length + 2]? = some Ascii.openBrace := by
    rw [getElem?_behind]
    rfl
  have he : s ++ (openTag ++ (Ascii.openBrace :: key ++ (closeRaw ++ u)))
      = s ++ ((openTag ++ [Ascii.openBrace]) ++ (key ++ (closeRaw ++ u))) := by simp
  have hb : Ascii.closeBrace ∉ key := fun h => hk.2 _ h (by simp)
  have hf : (s ++ (openTag ++ (Ascii.openBrace :: key ++ (closeRaw ++ u)))).find closeRaw s.length
      = some (s.length + (3 + key.length)) := by
    have hc : Ascii.closeBrace ∉ (openTag ++ [Ascii.openBrace]) ++ key := by
      rw [List.mem_append, or_iff_left hb]
      decide
    have := Bytes.indexOf_append_self (p := closeTag) (s := u) hc
    rw [he, Bytes.find_append_left rfl, ← List.append_assoc _ key, this, List.length_append]
    rfl
  have hd : (s ++ (openTag ++ (Ascii.openBrace :: key ++ (closeRaw ++ u)))).drop (s.length + 3) = key ++ (closeRaw ++ u) := by
    rw [he, ← List.append_assoc]
    exact List.drop_left' (by simp)
  have hlen : s.length + (3 + key.length) - s.length - 3 = key.length := by omega
  rw [tagAt, if_pos hh, hf, Option.map_some, hd, hlen, List.take_left, ← Nat.add_assoc]

section Steps

variable {loadFile : Bytes → Except Failure Bytes} {env : Env} {t : Bytes}

theorem drop_tag {a c k : Bytes} (ha : a.length = m) (hc : c.length = n) :
    (s ++ (a ++ (k ++ (c ++ u)))).drop (s.length + m + k.length + n) = u := by
  have he : s ++ (a ++ (k ++ (c ++ u))) = s ++ a ++ k ++ c ++ u := by simp only [List.append_assoc]
  rw [he]
  exact List.drop_left' (by simp [ha, hc, Nat.add_assoc])

theorem IsKey.not_prefix (hk : IsKey key) {pat : Bytes} (hp : Ascii.space ∈ pat) : pat.isPrefixOf key = false := by
  rw [Bool.eq_false_iff]
  intro h
  exact hk.2 _ ((List.isPrefixOf_iff_prefix.mp h).subset hp) (by simp)

theorem renderString_var (hs : IsLiteral s) (he : s.getLast? ≠ some Ascii.openBrace) (hk : IsKey key) :
    renderString loadFile (n + 1) (s ++ (openTag ++ (key ++ (closeTag ++ u)))) (.object env) = (do
      let rest ← renderString loadFile n u (.object env)
      return s ++ ((env.lookup key).elim [] (fun value => htmlEscape (Json.toText value)) ++ rest)) := by
  have hb : Ascii.closeBrace ∉ key := fun h => hk.2 _ h (by simp)
  have hn : key.head? ≠ some Ascii.openBrace := fun h => hk.2 _ (List.mem_of_head? h) (by simp)
  have ht := tagAt_eq (s := s) (u := u) hb hn
  dsimp only at ht
  rw [hk.not_prefix (by decide), hk.not_prefix (by decide), hk.not_prefix (by decide)] at ht
  have hd : (s ++ (openTag ++ (key ++ (closeTag ++ u)))).drop (s.length + 2 + key.length + 2) = u := drop_tag rfl rfl
  rw [renderString_of_tag (find_openTag hs he) ht (trim_key hk)]
  simp only [Tag.name, Tag.render, pure_bind, List.take_left]
  exact congrArg (fun t => renderString loadFile n t (.object env) >>= _) hd

theorem renderString_raw (hs : IsLiteral s) (he : s.getLast? ≠ some Ascii.openBrace) (hk : IsKey key) :
    renderString loadFile (n + 1) (s ++ (openTag ++ (Ascii.openBrace :: key ++ (closeRaw ++ u)))) (.object env) = (do
      let rest ← renderString loadFile n u (.object env)
      return s ++ ((env.lookup key).elim [] Json.toText ++ rest)) := by
  have hd : (s ++ ((Ascii.openBrace :: openTag) ++ (key ++ (closeRaw ++ u)))).drop (s.length + 3 + key.length + 3) = u :=
    drop_tag rfl rfl
  rw [renderString_of_tag (find_openTag hs he) (tagAt_raw hk) (trim_key hk)]
  simp only [Tag.name, Tag.render, pure_bind, List.take_left]
  exact congrArg (fun t => renderString loadFile n t (.object env) >>= _) hd

theorem Block.head?_opening (b : Block) : (b.opening ++ key).head? = some 0x23 := by
  cases b <;> rfl

theorem tagAt_block {b : Block} (hk : IsKey key) (hu : u.find b.closing = some i) :
    ∃ tag, tagAt (s ++ (openTag ++ (b.opening ++ key ++ (closeTag ++ u)))) s.length
        = some (tag, s.length + 2 + (b.opening ++ key).length + 2 + i + b.closing.length) ∧
      tag.name = key ∧ ∀ (loadFile) (self) (vars) (obj : Env) (name), tag.render loadFile self vars obj name = (do
        return some (← b.render self (u.take i) vars (obj.lookup name))) := by
  have hb : Ascii.closeBrace ∉ b.opening ++ key := by
    rw [List.mem_append, not_or]
    exact ⟨by cases b <;> decide +kernel, fun h => hk.2 _ h (by simp)⟩
  have hn : (b.opening ++ key).head? ≠ some Ascii.openBrace := by
    rw [b.head?_opening]
    decide
  have ht := tagAt_eq (s := s) (u := u) hb hn
  dsimp only at ht
  cases b with
  | cond =>
    have hp : (Bytes.ofString "#if ").isPrefixOf (Block.cond.opening ++ key) = true :=
      List.isPrefixOf_iff_prefix.mpr (List.prefix_append ..)
    have hu : u.find closeIf = some i := hu
    rw [if_pos hp, hu] at ht
    exact ⟨_, ht, List.drop_left' (by decide), fun _ _ _ _ _ => rfl⟩
  | each =>
    have hp : (Bytes.ofString "#each ").isPrefixOf (Block.each.opening ++ key) = true :=
      List.isPrefixOf_iff_prefix.mpr (List.prefix_append ..)
    have hp' : ¬(Bytes.ofString "#if ").isPrefixOf (Block.each.opening ++ key) = true := by
      rw [List.isPrefixOf_iff_prefix]
      intro h
      have h := List.prefix_of_prefix_length_le h (List.prefix_append ..) (by decide)
      exact absurd h (by decide)
    have hu : u.find closeEach = some i := hu
    rw [if_neg hp', if_pos hp, hu] at ht
    exact ⟨_, ht, List.drop_left' (by decide), fun _ _ _ _ _ => rfl⟩

theorem renderString_block {b : Block} (hs : IsLiteral s) (he : s.getLast? ≠ some Ascii.openBrace) (hk : IsKey key)
    (hu : u.find b.closing = some i) :
    renderString loadFile (n + 1) (s ++ (openTag ++ (b.opening ++ key ++ (closeTag ++ u)))) (.object env) = (do
      let block ← b.render (renderString loadFile n) (u.take i) (.object env) (env.lookup key)
      let rest ← renderString loadFile n (u.drop (i + b.closing.length)) (.object env)
      return s ++ (block ++ rest)) := by
  have ⟨tag, ht, hn, hr⟩ := tagAt_block (s := s) hk hu
  have hd : (s ++ (openTag ++ (b.opening ++ key ++ (closeTag ++ u)))).drop
      (s.length + 2 + (b.opening ++ key).length + 2 + i + b.closing.length) = u.drop (i + b.closing.length) := by
    rw [Nat.add_assoc _ i, ← List.drop_drop]
    exact congrArg (List.drop _) (drop_tag rfl rfl)
  rw [renderString_of_tag (find_openTag hs he) ht (hn ▸ trim_key hk), hr, hd, hn]
  simp only [bind_assoc, pure_bind, List.take_left]

end Steps

end Tags

section Flat

variable {loadFile : Bytes → Except Failure Bytes} {env : Env} {pat w u : Bytes}

theorem find_eq_none_iff : w.find pat = none ↔ ¬pat <:+: w := by
  rw [Bytes.find_zero, Bytes.indexOf_eq_none_iff]
  constructor
  · rintro h ⟨a, c, rfl⟩
    exact h a.length (by simp) (by simp)
  · exact fun h i _ hp => h (hp.isInfix.trans (List.drop_suffix ..).isInfix)

theorem Block.closing_eq (b : Block) : b.closing = openTag ++ (b.name ++ closeTag) := by
  cases b <;> decide +kernel

-- A closing tag is not found in a text that is followed by a tag, if it is not in the text.
theorem Block.find_append (b : Block) (h : ¬b.closing <:+: w) :
    (w ++ (openTag ++ u)).find b.closing = ((openTag ++ u).find b.closing).map (w.length + ·) := by
  have hb : ∀ m < b.closing.length, 0 < m → ¬(b.closing.drop m).take 2 <+: openTag := by
    cases b <;> decide +kernel
  rw [Bytes.find_zero, Bytes.find_zero]
  refine Bytes.indexOf_append_of_not fun i hi hc => ?_
  rw [List.drop_append_of_le_length hi.le] at hc
  rcases Nat.lt_or_ge (w.length - i) b.closing.length with hlt | hge
  case inl =>
    -- The occurrence would reach into the tag.
    have ⟨t, ht⟩ := hc
    refine hb (w.length - i) hlt (Nat.sub_pos_of_lt hi) ?_
    have := congrArg (List.drop (w.length - i)) ht
    rw [List.drop_append_of_le_length hlt.le, List.drop_left' (by simp)] at this
    have hp : (b.closing.drop (w.length - i)).take 2 <+: openTag ++ u :=
      (List.take_prefix ..).trans ⟨t, this⟩
    exact List.prefix_of_prefix_length_le hp (List.prefix_append ..) (List.length_take_le ..)
  case inr =>
    have := List.prefix_of_prefix_length_le hc (List.prefix_append ..) (by simpa using hge)
    exact h (this.isInfix.trans (List.drop_suffix ..).isInfix)

theorem Block.find_closing (b : Block) (h : ¬b.closing <:+: w) : (w ++ (b.closing ++ u)).find b.closing = some w.length := by
  have hp : (b.closing ++ u).find b.closing = some 0 := by
    rw [Bytes.find_zero, Bytes.indexOf_of_isPrefix (List.prefix_append ..)]
  have := b.find_append (u := b.name ++ closeTag ++ u) h
  rw [← List.append_assoc openTag, ← b.closing_eq, hp] at this
  exact this

theorem mapM_eq_ok {f : JsonValue → Except Failure Bytes} {g : JsonValue → Bytes} {items : List JsonValue}
    (h : ∀ item ∈ items, f item = .ok (g item)) : items.mapM f = .ok (items.map g) := by
  induction items with
  | nil             => rfl
  | cons item items hi =>
    have ⟨h, hs⟩ := List.forall_mem_cons.mp h
    rw [List.mapM_cons, h, hi hs]
    rfl

theorem render_cond {self : Bytes → JsonValue → Except Failure Bytes} {var : Option JsonValue}
    (h : self w vars = .ok page) :
    Block.cond.render self w vars var = .ok (if var.any isTruthy then page else []) := by
  cases var with
  | none     => rfl
  | some var =>
    simp only [Block.render, renderIf, Option.any_some, h]
    split_ifs <;> rfl

theorem render_each {self : Bytes → JsonValue → Except Failure Bytes} {var : Option JsonValue} {g : JsonValue → Bytes}
    (h : ∀ value, var = some value → ∃ items, value = .array items ∧ ∀ item ∈ items, self w item = .ok (g item)) :
    Block.each.render self w vars var = .ok ((elements var).flatMap g) := by
  cases var with
  | none     => rfl
  | some var =>
    have ⟨items, ha, hs⟩ := h var rfl
    subst ha
    simp only [Block.render, renderEach, getArray, pure_bind, mapM_eq_ok hs]
    rfl

-- The flat search for the closing tags finds the right ones.
theorem renderString_print {t : Template} (hw : t.Wf) (hf : t.Flat) (he : t.Typed env) (hn : t.print.length < n) :
    renderString loadFile n t.print (.object env) = .ok (t.sem env) := by
  induction t generalizing n env with
  | text s =>
    have ⟨n, hm⟩ := Nat.exists_eq_succ_of_ne_zero (Nat.ne_zero_of_lt hn)
    subst hm
    refine renderString_of_no_tag ?_
    exact find_eq_none_iff.mpr hw
  | var s key rest hi =>
    have ⟨n, hm⟩ := Nat.exists_eq_succ_of_ne_zero (Nat.ne_zero_of_lt hn)
    subst hm
    have ⟨hs, hk, hw⟩ := hw
    rw [Template.print, renderString_var hs hf.1 hk, hi hw hf.2 he ?_]
    · rfl
    · simp [Template.print] at hn
      omega
  | raw s key rest hi =>
    have ⟨n, hm⟩ := Nat.exists_eq_succ_of_ne_zero (Nat.ne_zero_of_lt hn)
    subst hm
    have ⟨hs, hk, hw⟩ := hw
    rw [Template.print, renderString_raw hs hf.1 hk, hi hw hf.2 he ?_]
    · rfl
    · simp [Template.print] at hn
      omega
  | block b s key body rest hb hr =>
    have ⟨n, hm⟩ := Nat.exists_eq_succ_of_ne_zero (Nat.ne_zero_of_lt hn)
    subst hm
    have ⟨hs, hk, hwb, hwr⟩ := hw
    have ⟨hse, hc, hfb, hfr⟩ := hf
    have hu : (body.print ++ (b.closing ++ rest.print)).find b.closing = some body.print.length :=
      b.find_closing hc
    have hlen : body.print.length < n ∧ rest.print.length < n := by
      simp [Template.print] at hn
      omega
    have hd : (body.print ++ (b.closing ++ rest.print)).drop (body.print.length + b.closing.length) = rest.print := by
      rw [← List.drop_drop, List.drop_left, List.drop_left]
    rw [Template.print, renderString_block hs hse hk hu, List.take_left, hd]
    cases b with
    | cond =>
      rw [render_cond (hb hwb hfb he.1 hlen.1), hr hwr hfr he.2 hlen.2]
      rfl
    | each =>
      have hitems : ∀ value, env.lookup key = some value → ∃ items, value = .array items ∧
          ∀ item ∈ items, renderString loadFile n body.print item = .ok (body.sem (members item)) := by
        intro value hv
        have ⟨items, ha, hi⟩ := he.1 value hv
        refine ⟨items, ha, fun item hm => ?_⟩
        have ⟨ms, ho, ht⟩ := hi item hm
        rw [ho]
        exact hb hwb hfb ht hlen.1
      rw [render_each hitems, hr hwr hfr he.2 hlen.2]
      rfl

end Flat

end YNet.TemplateEngine
