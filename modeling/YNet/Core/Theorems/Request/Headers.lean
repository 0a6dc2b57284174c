import YNet.Core.Message

open Lines

namespace YNet

section Field

variable {header : Bytes}

theorem Message.field_of_find_none (h : header.find ":" = none) : field header = none := by
  have hm : Ascii.colon ∉ header := Bytes.find_byte_eq_none_iff.mp h
  exact if_neg hm

theorem findFirstNotOf_eq {s set : Bytes} (h : pos ≤ s.length) :
    (match s.findFirstNotOf set pos with
      | some i => s.substrFrom i
      | none   => .ok []) = .ok ((s.drop pos).dropWhile (· ∈ set)) := by
  unfold Bytes.findFirstNotOf
  cases hf : (s.drop pos).findIdx? (· ∉ set)
  case none =>
    rw [List.findIdx?_eq_none_iff] at hf
    simp only [Option.map_none]
    rw [List.dropWhile_eq_nil_iff.mpr (by simpa using hf)]
  case some i =>
    have ⟨hi, he⟩ := List.findIdx?_eq_some_iff_findIdx_eq.mp hf
    simp only [Option.map_some]
    rw [Bytes.substrFrom_of_le (by simp at hi; omega), ← List.drop_drop, ← he,
      List.dropWhile_eq_drop_findIdx_not]
    simp

theorem headerValue_eq (h : colon + 1 ≤ header.length) :
    Request.headerValue header colon
      = .ok ((header.drop (colon + 1)).dropWhile (· ∈ [Ascii.space, Ascii.tab])) :=
  findFirstNotOf_eq h

theorem Message.field_of_find_some (h : header.find ":" = some colon) :
    ∃ key value, header.substr 0 colon = .ok key ∧ Request.headerValue header colon = .ok value ∧
      field header = some (key, value) := by
  have hc : colon + 1 ≤ header.length := Bytes.find_add_length_le h
  have ⟨ht, hd⟩ := Bytes.span_of_find_byte (c := Ascii.colon) h
  have hm : Ascii.colon ∈ header := by
    rw [← List.takeWhile_append_dropWhile (p := (· ≠ Ascii.colon)) (l := header), hd]
    simp
  refine ⟨_, _, Bytes.substr_of_le (Nat.zero_le _), headerValue_eq hc, ?_⟩
  rw [field, if_pos hm, ht, hd]
  rfl

end Field

section ParseHeaders

open Message

variable {data : Bytes} {config : Config} {req : Request} {lines : List Bytes} {body : Bytes}
  {count : Nat}

-- The position of the next terminator, when the rest of `data` starts with a line.
theorem find_crlf_eq (h : IsLine l) (hp : pos ≤ data.length)
    (hd : data.drop pos = l ++ (crlf ++ s)) : data.find crlf pos = some (pos + l.length) := by
  rw [Bytes.find, if_pos hp, hd, h.indexOf_eq]
  rfl

theorem drop_line (hd : data.drop pos = l ++ (crlf ++ s)) :
    data.drop (pos + l.length + 2) = s ∧ pos + l.length + 2 ≤ data.length := by
  have hs : data.drop (pos + l.length + 2) = s := by
    rw [Nat.add_assoc, ← List.drop_drop, hd]
    simp [List.drop_append]
  have := congrArg List.length hd
  simp only [List.length_drop, List.length_append, List.length_cons, List.length_nil] at this
  exact ⟨hs, by omega⟩

theorem parseHeaders_empty (hp : pos ≤ data.length) (hd : data.drop pos = crlf ++ body) :
    Request.parseHeaders data config req pos count = .ok (.ok (req, pos)) := by
  have hf : data.find "\r\n" pos = some pos := find_crlf_eq (l := []) (.of_not_mem (by simp)) hp hd
  rw [Request.parseHeaders]
  split
  case h_1 => rfl
  case h_2 next h =>
    cases h.symm.trans hf
    exact if_pos rfl

-- One iteration of the loop.
theorem parseHeaders_line (hl : IsLine l) (hn : l ≠ []) (hp : pos ≤ data.length)
    (hd : data.drop pos = l ++ (crlf ++ s)) :
    Request.parseHeaders data config req pos count
      = match field l with
        | none   => Request.parseHeaders data config req (pos + l.length + 2) count
        | some f =>
          let req := { req with headers := Message.insertField req.headers f }
          if (count + 1 : Int) > config.maxHeaders.toInt then .ok (.error (req.fail 431))
          else Request.parseHeaders data config req (pos + l.length + 2) (count + 1) := by
  have hlen : 0 < l.length := List.length_pos_iff.mpr hn
  have hs : data.substr pos (pos + l.length - pos) = .ok l := by
    rw [Bytes.substr_of_le hp, hd, Nat.add_sub_cancel_left, List.take_left]
  rw [Request.parseHeaders]
  split
  case h_1 h => exact absurd (h.symm.trans (find_crlf_eq hl hp hd)) (by simp)
  case h_2 next h =>
    cases h.symm.trans (find_crlf_eq hl hp hd)
    rw [if_neg (by omega), hs]
    simp only [bind, Except.bind]
    cases hc : Bytes.find l ":"
    case none => rw [field_of_find_none hc]
    case some colon =>
      obtain ⟨key, value, hk, hv, hf⟩ := field_of_find_some hc
      simp only [hk, hv, hf]
      rfl

-- The loop stops at the empty line, unless it has counted too many headers before.
theorem parseHeaders_eq (hl : ∀ l ∈ lines, l ≠ [] ∧ IsLine l) (hp : pos ≤ data.length)
    (hd : data.drop pos = wire lines ++ (crlf ++ body))
    (hc : lines.filterMap field = [] ∨
      (count + (lines.filterMap field).length : Int) ≤ config.maxHeaders.toInt) :
    Request.parseHeaders data config req pos count = .ok (.ok
      ({ req with headers := (lines.filterMap field).foldl Message.insertField req.headers },
        pos + (wire lines).length)) := by
  induction lines generalizing req pos count
  case nil => exact parseHeaders_empty hp hd
  case cons l lines hi =>
    have ⟨⟨hn, h⟩, hl⟩ := List.forall_mem_cons.mp hl
    rw [wire_cons, List.append_assoc, List.append_assoc] at hd
    have ⟨hs, hp'⟩ := drop_line hd
    have hw : pos + (wire (l :: lines)).length = pos + l.length + 2 + (wire lines).length := by
      simp; omega
    rw [parseHeaders_line h hn hp hd, hw]
    cases hf : field l
    case none =>
      rw [List.filterMap_cons_none hf] at hc ⊢
      exact hi hl hp' hs hc
    case some f =>
      rw [List.filterMap_cons_some hf] at hc ⊢
      simp only [reduceCtorEq, List.length_cons, false_or] at hc
      dsimp only
      rw [if_neg (by omega), List.foldl_cons]
      exact hi hl hp' hs (.inr <| by omega)

theorem parseHeaders_reject (hl : ∀ l ∈ lines, l ≠ [] ∧ IsLine l) (hp : pos ≤ data.length)
    (hd : data.drop pos = wire lines ++ (crlf ++ body))
    (hf : lines.filterMap field ≠ [])
    (hc : config.maxHeaders.toInt < (count + (lines.filterMap field).length : Int)) :
    ∃ req' : Request, Request.parseHeaders data config req pos count = .ok (.error (req'.fail 431)) := by
  induction lines generalizing req pos count
  case nil => contradiction
  case cons l lines hi =>
    have ⟨⟨hn, h⟩, hl⟩ := List.forall_mem_cons.mp hl
    rw [wire_cons, List.append_assoc, List.append_assoc] at hd
    have ⟨hs, hp'⟩ := drop_line hd
    rw [parseHeaders_line h hn hp hd]
    cases hfl : field l
    case none =>
      rw [List.filterMap_cons_none hfl] at hc hf
      exact hi hl hp' hs hf hc
    case some f =>
      rw [List.filterMap_cons_some hfl, List.length_cons] at hc
      by_cases hm : (count + 1 : Int) > config.maxHeaders.toInt
      case pos => exact ⟨_, if_pos hm⟩
      case neg =>
        dsimp only
        rw [if_neg hm]
        refine hi hl hp' hs (fun he => ?_) (by push_cast at hc ⊢; omega)
        simp only [he, List.length_nil] at hc
        omega

end ParseHeaders

end YNet
