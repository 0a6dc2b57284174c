import YNet.Core.Serialization
import YNet.Core.Theorems.Response
import YNet.Lib.Fill

open Lines Cpp

namespace YNet

section Reader

-- What a client gets out of a response.
structure Reply where
  statusCode : Int
  headers    : StringMap
  body       : Bytes

def lowercase (s : Bytes) : Bytes :=
  s.map fun c => if 0x41 ≤ c && c ≤ 0x5A then c + 0x20 else c

namespace Reply

def readStatus (line : Bytes) : Option Int :=
  if Bytes.ofString "HTTP/1.1 " <+: line then
    (strto 10 (line.drop 9)).map fun n => signed n.1 n.2
  else none

-- The value is separated from the name by a colon and one blank.
def readField (line : Bytes) : Bytes × Bytes :=
  (line.takeWhile (· ≠ Ascii.colon), (line.dropWhile (· ≠ Ascii.colon)).drop 2)

def readLength (fields : List (Bytes × Bytes)) : Option Nat :=
  match fields.find? (fun f => lowercase f.1 = "content-length") with
  | none   => none
  | some f => (strto 10 f.2).map Prod.snd

-- A reader that takes the lines up to the first empty one, and then the announced number of bytes.
def read (s : Bytes) : Option (Reply × Bytes) :=
  match readLines s with
  | some (line :: lines, rest) =>
    match readStatus line, readLength (lines.map readField) with
    | some statusCode, some n =>
      if n ≤ rest.length then
        some (⟨statusCode, (lines.map readField).foldl Message.insertField ∅, rest.take n⟩, rest.drop n)
      else none
    | _, _ => none
  | _ => none

theorem read_eq_some (h : read s = some (reply, rest)) : rest.length < s.length := by
  unfold read at h
  split at h
  case h_2 => contradiction
  case h_1 line lines t ht =>
    split at h
    case h_2 => contradiction
    case h_1 =>
      split_ifs at h
      cases h
      have ⟨_, hs⟩ := readLines_sound ht
      have := congrArg List.length hs
      simp only [wire_cons, List.length_append, List.length_cons, List.length_nil, List.length_drop] at this ⊢
      omega

def readAll (s : Bytes) : Option (List Reply) :=
  if s = [] then some []
  else
    match _h : read s with
    | none               => none
    | some (reply, rest) => (readAll rest).map (reply :: ·)
termination_by s.length
decreasing_by exact read_eq_some _h

theorem readAll_append (hn : s ≠ []) (h : read (s ++ t) = some (reply, t)) :
    readAll (s ++ t) = (readAll t).map (reply :: ·) := by
  rw [readAll, if_neg (by simp [hn])]
  split
  case h_1 h' => exact absurd (h.symm.trans h') (by simp)
  case h_2 h' =>
    cases h.symm.trans h'
    rfl

end Reply

end Reader

section Calls

-- The calls on a response that the application can make.
inductive Call
  | status (code : Int)
  | header (key value : Bytes)
  | body (body : Bytes)
  | json (text : Bytes)
  | html (text : Bytes)
  | redirect (url : Bytes) (code : Int)

structure IsFieldName (key : Bytes) : Prop where
  ne_nil : key ≠ []
  bytes  : ∀ b ∈ [Ascii.colon, Ascii.cr, Ascii.lf], b ∉ key
  -- No other spelling of the header that delimits the response.
  length : lowercase key = "content-length" → key = "Content-Length"

def IsFieldValue (value : Bytes) : Prop :=
  ∀ b ∈ [Ascii.cr, Ascii.lf], b ∉ value

instance : DecidablePred IsFieldValue :=
  fun _ => inferInstanceAs (Decidable (∀ b ∈ _, _))

def Call.Clean : Call → Prop
  | header key value => IsFieldName key ∧ IsFieldValue value
  | redirect url _   => IsFieldValue url
  | _                => True

namespace Response

def call (res : Response) : Call → Response
  | .status code       => res.status code
  | .header key value  => res.header key value
  | .body body         => res.setBody body
  | .json text         => res.json text
  | .html text         => res.html text
  | .redirect url code => res.redirect url code

def Clean (res : Response) : Prop :=
  ∀ key value, res.headers.lookup key = some value → IsFieldName key ∧ IsFieldValue value

variable {res : Response} {c : Call} {calls : List Call}

theorem Clean.header (h : res.Clean) (hk : IsFieldName key) (hv : IsFieldValue value) :
    (res.header key value).Clean := by
  intro key' value' hl
  by_cases he : key' = key
  case pos =>
    subst he
    cases (Finmap.lookup_insert _).symm.trans hl
    exact ⟨hk, hv⟩
  case neg => exact h key' value' ((Finmap.lookup_insert_of_ne _ he).symm.trans hl)

theorem isFieldName_contentType : IsFieldName "Content-Type" :=
  ⟨by decide, by decide +kernel, fun h => absurd h (by decide)⟩

theorem isFieldName_location : IsFieldName "Location" :=
  ⟨by decide, by decide +kernel, fun h => absurd h (by decide)⟩

theorem Clean.call (h : res.Clean) (hc : c.Clean) : (res.call c).Clean := by
  cases c with
  | status   => exact h
  | header   => exact h.header hc.1 hc.2
  | body     => exact h
  | json     => exact h.header isFieldName_contentType (by decide +kernel)
  | html     => exact h.header isFieldName_contentType (by decide +kernel)
  | redirect => exact h.header isFieldName_location hc

theorem clean_foldl (h : res.Clean) (hc : ∀ c ∈ calls, c.Clean) : (calls.foldl call res).Clean := by
  induction calls generalizing res with
  | nil             => exact h
  | cons c calls hi =>
    have ⟨hc, hcs⟩ := List.forall_mem_cons.mp hc
    exact hi (h.call hc) hcs

end Response

end Calls

-- A response as the application builds it, and the order in which its headers are written.
structure Script where
  calls : List Call
  clean : ∀ c ∈ calls, c.Clean
  order : Order

namespace Script

variable (s : Script)

def response : Response :=
  s.calls.foldl Response.call {}

def bytes : Bytes :=
  (s.response.build s.order).1

-- What a client is to read. The length is the one of the body, whatever the application has set.
def reply : Reply :=
  ⟨s.response.statusCode, s.response.sent, s.response.body⟩

theorem response_clean : s.response.Clean :=
  Response.clean_foldl (fun _ _ h => absurd h (by simp)) s.clean

theorem no_terminator_of_not_mem (h : Ascii.cr ∉ t) : ¬crlf <:+: t :=
  fun hi => h (hi.subset List.mem_cons_self)

theorem isFieldName_length : IsFieldName "Content-Length" :=
  ⟨by decide, by decide +kernel, fun _ => rfl⟩

theorem isFieldValue_natToString : IsFieldValue (natToString n) := by
  have h : ∀ b ∈ [Ascii.cr, Ascii.lf], ¬isdigit b := by decide +kernel
  exact fun b hb => Response.isdigit_not_mem (h b hb)

theorem sent_clean (h : s.response.sent.lookup key = some value) :
    IsFieldName key ∧ IsFieldValue value := by
  rcases Response.lookup_sent_iff.mp h with ⟨rfl, rfl⟩ | ⟨_, h⟩
  · exact ⟨isFieldName_length, isFieldValue_natToString⟩
  · exact s.response_clean _ _ h

theorem mem_entries_clean (h : f ∈ s.order.entries s.response.sent) : IsFieldName f.1 ∧ IsFieldValue f.2 :=
  s.sent_clean ((s.order.mem_iff _ _ _).mp h)

theorem readLines_bytes : readLines (s.bytes ++ t)
    = some (Response.statusLine s.response.statusCode :: (s.order.entries s.response.sent).map Response.headerLine,
      s.response.body ++ t) := by
  have hl : ∀ l ∈ (s.order.entries s.response.sent).map Response.headerLine, l ≠ [] ∧ IsLine l := by
    rw [List.forall_mem_map]
    intro f hf
    have ⟨hk, hv⟩ := s.mem_entries_clean hf
    exact ⟨Response.headerLine_ne_nil, Response.headerLine_isLine_iff.mpr
      ⟨no_terminator_of_not_mem (hk.bytes _ (by simp)), no_terminator_of_not_mem (hv _ (by simp))⟩⟩
  rw [bytes, Response.build_eq, List.append_assoc, List.append_assoc]
  exact readLines_wire (List.forall_mem_cons.mpr ⟨Response.statusLine_isLine, hl⟩)

theorem readStatus_statusLine : Reply.readStatus (Response.statusLine code) = some code := by
  have hs : Response.statusLine code = Bytes.ofString "HTTP/1.1 " ++
      (Cpp.toString code ++ (Ascii.space :: (Response.statusMsg code).getD "Unknown")) := by
    simp only [Response.statusLine, List.append_assoc]
    rfl
  have hd : (Response.statusLine code).drop 9
      = Cpp.toString code ++ (Ascii.space :: (Response.statusMsg code).getD "Unknown") := by
    rw [hs]
    exact List.drop_left' rfl
  rw [Reply.readStatus, if_pos (hs ▸ List.prefix_append ..), hd]
  exact strto_toString (by simp; decide)

theorem readField_headerLine (h : IsFieldName f.1) : Reply.readField (Response.headerLine f) = f := by
  have hp : ∀ b ∈ f.1, decide (b ≠ Ascii.colon) = true := by
    intro b hb
    simpa using fun he : b = Ascii.colon => h.bytes b (by simp [he]) hb
  rw [Reply.readField, Response.headerLine_eq, List.takeWhile_append_of_pos hp,
    List.dropWhile_append_of_pos hp]
  simp

theorem map_readField : ((s.order.entries s.response.sent).map Response.headerLine).map Reply.readField
    = s.order.entries s.response.sent := by
  rw [List.map_map]
  exact (List.map_congr_left fun f hf => readField_headerLine (s.mem_entries_clean hf).1).trans (List.map_id _)

theorem readLength_entries : Reply.readLength (s.order.entries s.response.sent) = some s.response.body.length := by
  have hm : (("Content-Length" : Bytes), natToString s.response.body.length) ∈ s.order.entries s.response.sent :=
    (s.order.mem_iff _ _ _).mpr (Finmap.lookup_insert _)
  rw [Reply.readLength]
  cases hf : (s.order.entries s.response.sent).find? (fun f => lowercase f.1 = "content-length") with
  | none   =>
    have hl : lowercase (Bytes.ofString "Content-Length") = "content-length" := by decide
    exact absurd (List.find?_eq_none.mp hf _ hm) (by simp [hl])
  | some f =>
    -- The header is found under no other spelling, and its value is the one that `build` has set.
    have hmem := List.mem_of_find?_eq_some hf
    have hk : f.1 = "Content-Length" := (s.mem_entries_clean hmem).1.length (by simpa using List.find?_some hf)
    have hv : s.response.sent.lookup f.1 = some f.2 := (s.order.mem_iff _ _ _).mp hmem
    rw [hk, Response.sent, Finmap.lookup_insert] at hv
    have hn := @strto_natToString s.response.body.length [] (by simp)
    rw [List.append_nil] at hn
    simp [← Option.some.inj hv, hn]

theorem foldl_entries : (s.order.entries s.response.sent).foldl Message.insertField ∅ = s.response.sent := by
  refine Finmap.ext_lookup fun key => Option.ext fun value => ?_
  exact (Finmap.lookup_fill_iff (s.order.nodup _)).trans (s.order.mem_iff _ _ _)

theorem read_bytes : Reply.read (s.bytes ++ t) = some (s.reply, t) := by
  have hle : s.response.body.length ≤ (s.response.body ++ t).length := by simp
  simp only [Reply.read, s.readLines_bytes, readStatus_statusLine, s.map_readField, s.readLength_entries,
    s.foldl_entries, if_pos hle, List.take_left, List.drop_left]
  rfl

theorem bytes_ne_nil : s.bytes ≠ [] := by
  rw [bytes, Response.build_eq, wire_cons]
  simp

-- The responses on one connection are read back in their order.
theorem readAll_bytes (scripts : List Script) :
    Reply.readAll (scripts.flatMap bytes) = some (scripts.map reply) ∧
      ∀ s ∈ scripts, ((s.response.build s.order).2.build s.order).1 = s.bytes := by
  refine ⟨?_, fun s _ => Response.build_build⟩
  induction scripts with
  | nil               => rw [List.flatMap_nil, Reply.readAll, if_pos rfl]; rfl
  | cons s scripts hi =>
    rw [List.flatMap_cons, Reply.readAll_append s.bytes_ne_nil s.read_bytes, hi]
    rfl

end Script

end YNet
