import YNet.Lib.Fill
import YNet.Util.Theorems.Url

open Cpp

namespace YNet

section Encode

theorem digitValue_upperHexDigit (h : d < 16) :
    isxdigit (upperHexDigit d) ∧ digitValue (upperHexDigit d) = d := by
  have : ∀ d < 16, isxdigit (upperHexDigit d) ∧ digitValue (upperHexDigit d) = d := by decide +kernel
  exact this d h

-- What is written for a single byte.
theorem urlEncode_cons (c : UInt8) (s : Bytes) : urlEncode (c :: s) = urlEncode [c] ++ urlEncode s := by
  simp [urlEncode]

theorem urlDecode_urlEncode_cons (c : UInt8) (t : Bytes) : urlDecode (urlEncode [c] ++ t) = c :: urlDecode t := by
  have hu : ∀ c, isUnreserved c → c ≠ Ascii.percent ∧ c ≠ Ascii.plus := by decide +kernel
  by_cases h : isUnreserved c
  case pos =>
    have he : urlEncode [c] = [c] := by simp [urlEncode, h]
    rw [he]
    exact urlDecode_literal (hu c h).1 (hu c h).2
  case neg =>
    have hc := c.toNat_lt
    have ⟨ha, hav⟩ := digitValue_upperHexDigit (d := c.toNat / 16) (by omega)
    have ⟨hb, hbv⟩ := digitValue_upperHexDigit (d := c.toNat % 16) (by omega)
    have he : urlEncode [c] = [Ascii.percent, upperHexDigit (c.toNat / 16), upperHexDigit (c.toNat % 16)] := by
      simp [urlEncode, h]
    rw [he]
    have := urlDecode_escape (s := t) ha hb
    rw [hav, hbv, Nat.div_add_mod' c.toNat 16, ofInt_toNat] at this
    exact this

theorem urlDecode_urlEncode (s : Bytes) : urlDecode (urlEncode s) = s := by
  induction s with
  | nil         => rfl
  | cons c s hi => rw [urlEncode_cons, urlDecode_urlEncode_cons, hi]

-- The encoded text does not contain the separators.
theorem not_mem_urlEncode (hb : b ∈ [Ascii.ampersand, Ascii.equals]) : b ∉ urlEncode s := by
  have h : ∀ b ∈ [Ascii.ampersand, Ascii.equals], ∀ c, b ∉ urlEncode [c] := by decide +kernel
  induction s with
  | nil         => simp [urlEncode]
  | cons c s hi =>
    rw [urlEncode_cons, List.mem_append, not_or]
    exact ⟨h b hb c, hi⟩

end Encode

section Pairs

variable {query : Bytes} {q : StringMap}

def pairText (p : Bytes × Bytes) : Bytes :=
  urlEncode p.1 ++ Ascii.equals :: urlEncode p.2

def queryText (ps : List (Bytes × Bytes)) : Bytes :=
  [Ascii.ampersand].intercalate (ps.map pairText)

theorem insertPair_pairText (q : StringMap) (p : Bytes × Bytes) :
    insertPair q (pairText p) = .ok (q.insert p.1 p.2) := by
  have hk : Ascii.equals ∉ urlEncode p.1 := not_mem_urlEncode (by simp)
  have hf : (pairText p).find "=" = some (urlEncode p.1).length := Bytes.find_byte_append hk
  have hkey : (pairText p).substr 0 (urlEncode p.1).length = .ok (urlEncode p.1) := by
    rw [Bytes.substr_of_le (Nat.zero_le _), List.drop_zero, pairText, List.take_left]
  have hvalue : (pairText p).substrFrom ((urlEncode p.1).length + 1) = .ok (urlEncode p.2) := by
    have : pairText p = (urlEncode p.1 ++ [Ascii.equals]) ++ urlEncode p.2 := by simp [pairText]
    rw [this]
    exact Bytes.substrFrom_append (by simp)
  simp only [insertPair, hf, hkey, hvalue, bind, Except.bind, urlDecode_urlEncode]
  rfl

theorem ampersand_not_mem_pairText (p : Bytes × Bytes) : Ascii.ampersand ∉ pairText p := by
  have hk : Ascii.ampersand ∉ urlEncode p.1 := not_mem_urlEncode (by simp)
  have hv : Ascii.ampersand ∉ urlEncode p.2 := not_mem_urlEncode (by simp)
  have he : Ascii.ampersand ≠ Ascii.equals := by decide
  simp [pairText, hk, hv, he]

-- The loop takes one pair after the other.
theorem parseQuery.go_queryText (hp : pos ≤ query.length) (hd : query.drop pos = queryText ps) :
    parseQuery.go query q pos = .ok (q.fill ps) := by
  induction ps generalizing q pos with
  | nil          =>
    have hl : ¬pos < query.length := by
      have := congrArg List.length hd
      simp [queryText] at this
      omega
    rw [parseQuery.go, if_neg hl]
    rfl
  | cons p ps hi =>
    have hm := ampersand_not_mem_pairText p
    have hfind := Bytes.find_eq_map [Ascii.ampersand] hp
    have hlt : pos < query.length := by
      have h : query.drop pos ≠ [] := by
        rw [hd]
        cases ps <;> simp [queryText, pairText, List.intercalate_cons_cons]
      exact List.length_lt_of_drop_ne_nil h
    rw [parseQuery.go, if_pos hlt]
    cases ps with
    | nil =>
      have hd : query.drop pos = pairText p := by simpa [queryText] using hd
      rw [hd, Bytes.find_zero, Bytes.indexOf_of_head_not_mem hm] at hfind
      split
      case h_1     => rw [Bytes.substrFrom_of_le hp, hd]; exact insertPair_pairText q p
      case h_2 _ h => exact absurd (h.symm.trans hfind) (by simp)
    | cons p' ps =>
      have hd : query.drop pos = pairText p ++ (Ascii.ampersand :: queryText (p' :: ps)) := by
        simpa [queryText, List.intercalate_cons_cons] using hd
      have hi' : Bytes.indexOf [Ascii.ampersand] (pairText p ++ (Ascii.ampersand :: queryText (p' :: ps))) =
          some (pairText p).length :=
        Bytes.indexOf_append_self (p := []) hm
      rw [hd, Bytes.find_zero, hi', Option.map_some] at hfind
      have hnext : query.drop (pos + (pairText p).length + 1) = queryText (p' :: ps) := by
        rw [Nat.add_assoc, ← List.drop_drop, hd, List.drop_append]
        simp
      have hle : pos + (pairText p).length + 1 ≤ query.length := Bytes.find_add_length_le hfind
      split
      case h_1 h   => exact absurd (h.symm.trans hfind) (by simp)
      case h_2 _ h =>
        cases h.symm.trans hfind
        rw [Bytes.substr_of_le hp, hd, Nat.add_sub_cancel_left, List.take_left]
        simp only [bind, Except.bind, insertPair_pairText]
        exact hi hle hnext

-- Every list of pairs with different keys is read back from its encoding.
theorem parseQuery_queryText :
    (∀ s, urlDecode (urlEncode s) = s) ∧ ∀ ps : List (Bytes × Bytes), (ps.map Prod.fst).Nodup →
      ∃ q, parseQuery (queryText ps) = .ok q ∧ ∀ key value, q.lookup key = some value ↔ (key, value) ∈ ps := by
  refine ⟨urlDecode_urlEncode, fun ps h => ⟨_, parseQuery.go_queryText (Nat.zero_le _) rfl, fun _ _ => ?_⟩⟩
  exact Finmap.lookup_fill_iff h

theorem parseQuery_queryText_empty : ∃ q, parseQuery (queryText [("", "a=b"), ("%", "")]) = .ok q ∧
    ∀ key value, q.lookup key = some value ↔ (key, value) ∈ [(("" : Bytes), ("a=b" : Bytes)), ("%", "")] :=
  parseQuery_queryText.2 _ (by decide)

end Pairs

end YNet
