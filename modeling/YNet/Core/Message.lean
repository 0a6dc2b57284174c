import YNet.Core.Request
import YNet.Lib.Lines

open Lines

namespace YNet

-- A request as a sequence of bytes: the request line, the header lines, and what lies behind the
-- first empty line.
structure Message where
  start : Bytes
  lines : List Bytes
  body  : Bytes
  isLine_start : IsLine start
  isLine_lines : ∀ l ∈ lines, l ≠ [] ∧ IsLine l

namespace Message

def bytes (m : Message) : Bytes :=
  m.start ++ (crlf ++ (wire m.lines ++ (crlf ++ m.body)))

-- The offset of the empty line.
def headEnd (m : Message) : Nat :=
  m.start.length + (wire m.lines).length

-- A header line is split at its first colon. Lines without a colon are skipped.
def field (line : Bytes) : Option (Bytes × Bytes) :=
  if Ascii.colon ∈ line then
    some (line.takeWhile (· ≠ Ascii.colon),
      (line.dropWhile (· ≠ Ascii.colon)).tail.dropWhile (· ∈ [Ascii.space, Ascii.tab]))
  else none

def fields (m : Message) : List (Bytes × Bytes) :=
  m.lines.filterMap field

def insertField (headers : StringMap) (f : Bytes × Bytes) : StringMap :=
  headers.insert f.1 f.2

def headers (m : Message) : StringMap :=
  m.fields.foldl insertField ∅

theorem length_bytes (m : Message) : m.bytes.length = m.headEnd + 4 + m.body.length := by
  simp only [bytes, headEnd, List.length_append, List.length_cons, List.length_nil]
  omega

theorem find_blank (m : Message) : m.bytes.find blank = some m.headEnd := by
  rw [Bytes.find_zero]
  exact indexOf_blank_wire m.isLine_start m.isLine_lines

theorem find_crlf (m : Message) : m.bytes.find crlf = some m.start.length := by
  rw [Bytes.find_zero]
  exact m.isLine_start.indexOf_eq

theorem exists_of_find_blank {raw : Bytes} (h : raw.find blank = some i) :
    ∃ m : Message, m.bytes = raw := by
  rw [Bytes.find_zero] at h
  have ⟨start, t, he, hl, ht⟩ := exists_line_of_blank h
  have ⟨lines, body, hw, hlines⟩ := exists_wire ht
  exact ⟨⟨start, lines, body, hl, hlines⟩, by simp [bytes, he, hw]⟩

-- A text can be split in only one way.
theorem bytes_injective : Function.Injective bytes := by
  rintro ⟨start, lines, body, hs, hl⟩ ⟨start', lines', body', hs', hl'⟩ h
  have hlen := congrArg (Bytes.indexOf crlf) h
  simp only [bytes, hs.indexOf_eq, hs'.indexOf_eq, Option.some.injEq] at hlen
  obtain ⟨rfl, h⟩ := List.append_inj h hlen
  have hr := congrArg readLines (List.append_cancel_left h)
  rw [readLines_wire hl, readLines_wire hl'] at hr
  cases hr
  rfl

end Message
end YNet
