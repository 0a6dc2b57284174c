import YNet.Core.Message
import YNet.Core.Response
import YNet.Lib.Split

open Lines Cpp

namespace YNet

noncomputable def Order.arbitrary : Order where
  entries m := m.entries.toList.map fun e => (e.1, e.2)
  nodup m := by
    have h : m.entries.toList.NodupKeys := by
      rw [← Multiset.coe_nodupKeys, Multiset.coe_toList]
      exact m.nodupKeys
    rw [List.map_map]
    exact h
  mem_iff m key value := by
    rw [← Option.mem_def, Finmap.mem_lookup_iff, ← Multiset.mem_toList, List.mem_map]
    constructor
    · rintro ⟨e, he, h⟩
      cases h
      exact he
    · intro h
      exact ⟨_, h, rfl⟩

instance : Nonempty Order :=
  ⟨.arbitrary⟩

namespace Response

variable {order : Order} {res : Response}

-- The headers that `build` writes.
def sent (res : Response) : StringMap :=
  res.headers.insert "Content-Length" (natToString res.body.length)

theorem foldl_headerLine {fields : List (Bytes × Bytes)} :
    fields.foldl (fun head f => head ++ headerLine f ++ Bytes.ofString "\r\n") head
      = head ++ wire (fields.map headerLine) := by
  induction fields generalizing head with
  | nil            => simp
  | cons f fields hi =>
    rw [List.foldl_cons, hi, List.map_cons, wire_cons]
    simp only [List.append_assoc]
    rfl

theorem build_eq (order : Order) (res : Response) : (build order res).1 =
    wire (statusLine res.statusCode :: (order.entries res.sent).map headerLine) ++ (crlf ++ res.body) := by
  change (List.foldl _ _ (order.entries res.sent)) ++ _ ++ res.body = _
  rw [foldl_headerLine, wire_cons]
  simp only [List.append_assoc]
  rfl

theorem build_build : (build order (build order res).2).1 = (build order res).1 := by
  have hs : (build order res).2.sent = res.sent := Finmap.insert_insert ..
  rw [build_eq, build_eq, hs]
  rfl

section Lines

theorem isdigit_not_mem {b : UInt8} (hb : ¬isdigit b) : b ∉ natToString n :=
  fun h => hb (natToString_digits b h)

theorem cr_not_mem_toString : Ascii.cr ∉ Cpp.toString n := by
  have h := isdigit_not_mem (b := Ascii.cr) (n := n.natAbs) (by decide)
  rw [Cpp.toString]
  split
  · simpa using ⟨by decide, h⟩
  · exact h

theorem cr_not_mem_statusMsg : Ascii.cr ∉ (statusMsg code).getD "Unknown" := by
  unfold statusMsg
  split <;> decide

theorem statusLine_isLine : statusLine code ≠ [] ∧ IsLine (statusLine code) := by
  have hn : Bytes.ofString "HTTP/1.1 " ≠ [] := by decide
  refine ⟨by simp [statusLine, hn], .of_not_mem ?_⟩
  simp only [statusLine, List.mem_append, cr_not_mem_toString, cr_not_mem_statusMsg, or_false]
  decide

theorem headerLine_eq : headerLine f = f.1 ++ (Ascii.colon :: Ascii.space :: f.2) :=
  List.append_assoc ..

theorem headerLine_ne_nil : headerLine f ≠ [] := by
  simp [headerLine_eq]

theorem headerLine_isLine_iff : IsLine (headerLine f) ↔ ¬crlf <:+: f.1 ∧ ¬crlf <:+: f.2 := by
  rw [isLine_iff, headerLine_eq, ← not_or, not_iff_not]
  constructor
  · intro h
    refine (List.infix_append_cons (by decide) h).imp_right fun h => ?_
    exact (List.infix_append_cons (s := []) (by decide) h).resolve_left (by simp)
  · rintro (h | h)
    · exact h.trans (List.prefix_append ..).isInfix
    · exact h.trans ⟨f.1 ++ [Ascii.colon, Ascii.space], [], by simp⟩

end Lines

section Splitting

-- The head is the status line and one line for each header, and the body follows the first empty line.
def Unsplit (order : Order) (res : Response) : Prop :=
  readLines (res.build order).1
    = some (statusLine res.statusCode :: (order.entries res.sent).map headerLine, res.body)

theorem lookup_sent_iff : res.sent.lookup key = some value ↔
    (key = "Content-Length" ∧ value = natToString res.body.length) ∨
      (key ≠ ("Content-Length" : Bytes) ∧ res.headers.lookup key = some value) := by
  by_cases hk : key = "Content-Length"
  case pos =>
    rw [hk, sent, Finmap.lookup_insert]
    simp [eq_comm]
  case neg =>
    rw [sent, Finmap.lookup_insert_of_ne _ hk]
    simp [hk]

theorem isLine_length : ¬crlf <:+: Bytes.ofString "Content-Length" ∧ ¬crlf <:+: natToString n := by
  refine ⟨by decide, fun h => ?_⟩
  exact isdigit_not_mem (by decide) (h.subset List.mem_cons_self)

theorem forall_headerLine_iff :
    (∀ l ∈ (order.entries res.sent).map headerLine, l ≠ [] ∧ IsLine l) ↔
      ∀ key value, key ≠ ("Content-Length" : Bytes) → res.headers.lookup key = some value →
        ¬crlf <:+: key ∧ ¬crlf <:+: value := by
  rw [List.forall_mem_map]
  constructor
  · intro h key value hk hv
    have hm : (key, value) ∈ order.entries res.sent :=
      (order.mem_iff _ _ _).mpr (lookup_sent_iff.mpr (.inr ⟨hk, hv⟩))
    exact headerLine_isLine_iff.mp (h _ hm).2
  · intro h f hf
    refine ⟨headerLine_ne_nil, headerLine_isLine_iff.mpr ?_⟩
    rcases lookup_sent_iff.mp ((order.mem_iff _ _ _).mp hf) with ⟨hk, hv⟩ | ⟨hk, hv⟩
    · rw [hk, hv]
      exact isLine_length
    · exact h _ _ hk hv

theorem unsplit_iff_lines : Unsplit order res ↔
    ∀ l ∈ (order.entries res.sent).map headerLine, l ≠ [] ∧ IsLine l := by
  rw [Unsplit, build_eq]
  constructor
  · intro h
    exact (List.forall_mem_cons.mp (readLines_sound h).1).2
  · intro h
    exact readLines_wire (List.forall_mem_cons.mpr ⟨statusLine_isLine, h⟩)

-- A response is split by nothing but a terminator in a name or a value.
theorem unsplit_iff (order : Order) (res : Response) : Unsplit order res ↔
    ∀ key value, key ≠ ("Content-Length" : Bytes) → res.headers.lookup key = some value →
      ¬crlf <:+: key ∧ ¬crlf <:+: value :=
  unsplit_iff_lines.trans forall_headerLine_iff

-- The body that the client sees starts in the URL.
theorem redirect_split : ∃ order : Order, ¬Unsplit order (redirect {} "/\r\n\r\n<script>") := by
  refine ⟨.arbitrary, fun h => ?_⟩
  have hl : (redirect {} "/\r\n\r\n<script>").headers.lookup ("Location" : Bytes)
      = some ("/\r\n\r\n<script>" : Bytes) := Finmap.lookup_insert _
  have hn := forall_headerLine_iff.mp (unsplit_iff_lines.mp h) _ _ (by decide) hl
  exact hn.2 (by decide)

end Splitting

end Response
end YNet
