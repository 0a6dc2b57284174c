import YNet.Core.Theorems.Request.Parse

open Lines

namespace YNet

-- A header as it can be written in a line. The value may contain single terminator bytes.
structure IsHeader (f : Bytes × Bytes) : Prop where
  name  : ∀ b ∈ [Ascii.colon, Ascii.cr, Ascii.lf], b ∉ f.1
  value : ¬crlf <:+: f.2
  blank : ∀ b ∈ f.2.head?, b ∉ [Ascii.space, Ascii.tab]

-- What the standard serialisation of a request is made of.
structure Serialization where
  method  : Bytes
  target  : Bytes
  version : Bytes
  headers : List (Bytes × Bytes)
  body    : Bytes
  method_mem  : method ∈ Request.methods
  target_mem  : ∀ b ∈ [Ascii.space, Ascii.cr, Ascii.lf], b ∉ target
  version_mem : version ∈ Request.versions
  isHeader    : ∀ f ∈ headers, IsHeader f
  names_nodup : (headers.map Prod.fst).Nodup

namespace Serialization

def line (f : Bytes × Bytes) : Bytes :=
  f.1 ++ (Ascii.colon :: Ascii.space :: f.2)

theorem line_isLine (h : IsHeader f) : line f ≠ [] ∧ IsLine (line f) := by
  refine ⟨by simp [line], .of_no_terminator fun hi => h.value ?_⟩
  rw [line, List.cons_infix_append_iff (h.name _ (by simp))] at hi
  exact (List.cons_infix_append_iff (t := [Ascii.colon, Ascii.space]) (by decide)).mp hi

theorem field_line (h : IsHeader f) : Message.field (line f) = some f := by
  have hp : ∀ b ∈ f.1, (decide (b ≠ Ascii.colon)) = true := by
    intro b hb
    simpa using fun he : b = Ascii.colon => h.name b (by simp [he]) hb
  have hb : f.2.dropWhile (· ∈ [Ascii.space, Ascii.tab]) = f.2 := by
    cases hv : f.2
    case nil      => rfl
    case cons b v => exact List.dropWhile_cons_of_neg (by simpa using h.blank b (by simp [hv]))
  rw [Message.field, if_pos (by simp [line]), line, List.takeWhile_append_of_pos hp,
    List.dropWhile_append_of_pos hp]
  simp only [List.dropWhile_cons]
  simpa using congrArg (Prod.mk f.1) hb

theorem not_mem_method (hm : m ∈ Request.methods) (hb : b ∈ [Ascii.space, Ascii.cr]) :
    b ∉ m := by
  have : ∀ m ∈ Request.methods, ∀ b ∈ [Ascii.space, Ascii.cr], b ∉ m := by decide +kernel
  exact this m hm b hb

theorem not_mem_version (hm : v ∈ Request.versions) (hb : b ∈ [Ascii.space, Ascii.cr]) :
    b ∉ v := by
  have : ∀ m ∈ Request.versions, ∀ b ∈ [Ascii.space, Ascii.cr], b ∉ m := by decide +kernel
  exact this v hm b hb

def start (s : Serialization) : Bytes :=
  s.method ++ (Ascii.space :: (s.target ++ (Ascii.space :: s.version)))

def message (s : Serialization) : Message where
  start := s.start
  lines := s.headers.map line
  body  := s.body
  isLine_start := by
    have h₁ := not_mem_method (b := Ascii.cr) s.method_mem (by simp)
    have h₂ := not_mem_version (b := Ascii.cr) s.version_mem (by simp)
    have h₃ := s.target_mem Ascii.cr (by simp)
    refine .of_not_mem ?_
    simp only [start, List.mem_append, List.mem_cons, h₁, h₂, h₃, or_false, false_or]
    decide
  isLine_lines := by
    simp only [List.mem_map, forall_exists_index, and_imp]
    rintro l f hf rfl
    exact line_isLine (s.isHeader f hf)

def bytes (s : Serialization) : Bytes :=
  s.message.bytes

variable (s : Serialization)

def sp1 : Nat :=
  s.method.length

def sp2 : Nat :=
  s.method.length + 1 + s.target.length

-- What follows the version.
def tail : Bytes :=
  crlf ++ (wire s.message.lines ++ (crlf ++ s.body))

theorem bytes_eq : s.bytes =
    s.method ++ (Ascii.space :: (s.target ++ (Ascii.space :: (s.version ++ s.tail)))) := by
  simp [bytes, Message.bytes, message, start, tail]

theorem find_sp1 : s.bytes.find " " = some s.sp1 := by
  rw [bytes_eq]
  exact Bytes.find_byte_append (not_mem_method s.method_mem (by simp))

theorem bytes_eq_append : s.bytes =
    (s.method ++ [Ascii.space]) ++ (s.target ++ (Ascii.space :: (s.version ++ s.tail))) := by
  rw [bytes_eq]
  simp

theorem find_sp2 : s.bytes.find " " (s.sp1 + 1) = some s.sp2 := by
  rw [bytes_eq_append, Bytes.find_append_left (by simp [sp1])]
  have := Bytes.indexOf_append_self (p := []) (s := s.version ++ s.tail) (s.target_mem Ascii.space (by simp))
  exact congrArg (Option.map _) this

theorem target_eq : s.message.target s.sp1 s.sp2 = s.target := by
  have : s.message.bytes.drop (s.sp1 + 1) = s.target ++ (Ascii.space :: (s.version ++ s.tail)) := by
    change s.bytes.drop _ = _
    rw [bytes_eq_append, List.drop_left' (by simp [sp1])]
  rw [Message.target, this, List.take_left' (by simp [sp1, sp2])]

theorem version_eq : s.message.version s.sp2 = s.version := by
  have hd : s.message.bytes.drop (s.sp2 + 1) = s.version ++ s.tail := by
    have : s.bytes = (s.method ++ Ascii.space :: (s.target ++ [Ascii.space])) ++ (s.version ++ s.tail) := by
      rw [bytes_eq]
      simp
    change s.bytes.drop _ = _
    rw [this, List.drop_left' (by simp [sp2]; omega)]
  have hl : Bytes.sizeSub s.message.start.length (s.sp2 + 1) = s.version.length := by
    have : s.message.start.length = s.sp2 + 1 + s.version.length := by
      simp [message, start, sp2]; omega
    rw [Bytes.sizeSub_of_le (by omega)]
    omega
  rw [Message.version, hd, hl, List.take_left]

theorem take_sp1 : s.message.bytes.take s.sp1 = s.method := by
  change s.bytes.take _ = _
  rw [bytes_eq, sp1, List.take_left]

theorem fields_eq : s.message.fields = s.headers := by
  have : ∀ f ∈ s.headers, Message.field (line f) = some f :=
    fun f hf => field_line (s.isHeader f hf)
  rw [Message.fields, message, List.filterMap_map]
  exact (List.filterMap_congr this).trans List.filterMap_some

theorem bytes_ne_nil : s.bytes ≠ [] := by
  rw [bytes_eq]
  simp

-- Every header stands in a line of its own.
theorem exists_line (h : f ∈ s.headers) :
    ∃ p, line f <+: s.bytes.drop p ∧ p + (line f).length ≤ s.message.headEnd := by
  have ⟨pre, post, he⟩ := List.append_of_mem h
  have hw : wire s.message.lines = wire (pre.map line) ++ (line f ++ (crlf ++ wire (post.map line))) := by
    change wire (s.headers.map line) = _
    rw [he, List.map_append, List.map_cons, wire_append, wire_cons]
  refine ⟨(s.start ++ (crlf ++ wire (pre.map line))).length, ?_, ?_⟩
  · have : s.bytes = (s.start ++ (crlf ++ wire (pre.map line))) ++
        (line f ++ ((crlf ++ wire (post.map line)) ++ (crlf ++ s.body))) := by
      change s.start ++ (crlf ++ (wire s.message.lines ++ (crlf ++ s.body))) = _
      rw [hw]
      simp only [List.append_assoc]
    rw [this, List.drop_left]
    exact List.prefix_append ..
  · rw [Message.headEnd, hw]
    change _ ≤ s.start.length + _
    simp only [List.length_append, List.length_cons, List.length_nil]
    omega

end Serialization

end YNet
