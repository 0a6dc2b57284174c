import YNet.Security.SessionRun
import YNet.Util.Theorems.Crypto

namespace YNet.Session

def IsCookieName (name : Bytes) : Prop :=
  name ≠ [] ∧ ∀ b ∈ name, b ≠ Ascii.semicolon ∧ b ≠ Ascii.equals ∧ b ≠ Ascii.space

def IsCookieValue (value : Bytes) : Prop :=
  Ascii.semicolon ∉ value ∧ value.head? ≠ some Ascii.space ∧ value.getLast? ≠ some Ascii.space

structure Cookie where
  name    : Bytes
  value   : Bytes
  isName  : IsCookieName name
  isValue : IsCookieValue value

namespace Cookie

variable {cookieName cookie : Bytes}

def text (c : Cookie) : Bytes :=
  c.name ++ Ascii.equals :: c.value

-- The value of a `Cookie` header.
def header (cookies : List Cookie) : Bytes :=
  [Ascii.semicolon, Ascii.space].intercalate (cookies.map text)

-- The value of the first cookie with a name, if it has the form of a session id.
def idOf (cookieName : Bytes) (cookies : List Cookie) : Option Bytes :=
  ((cookies.find? (·.name = cookieName)).map (·.value)).filter fun value =>
    value.length = 64 ∧ ∀ b ∈ value, b ∈ ("0123456789abcdef" : Bytes)

theorem isId_eq (value : Bytes) :
    isId value = decide (value.length = 64 ∧ ∀ b ∈ value, b ∈ ("0123456789abcdef" : Bytes)) := by
  rw [Bool.eq_iff_iff]
  simp only [isId, Bool.and_eq_true, decide_eq_true_eq, Option.isNone_iff_eq_none, Bytes.findFirstNotOf_eq_none_iff]

theorem trimLeft_append {s t : Bytes} (hs : ∀ b ∈ s, b = Ascii.space) (ht : t.head? ≠ some Ascii.space) :
    trimLeft (s ++ t) = t := by
  have hset : (" " : Bytes) = [Ascii.space] := by decide +kernel
  cases t with
  | nil      =>
    have : (s ++ []).findFirstNotOf " " = none := by
      simpa [Bytes.findFirstNotOf_eq_none_iff, hset] using hs
    rw [trimLeft, this, Option.getD_none, List.drop_length]
  | cons b t =>
    have hb : b ≠ Ascii.space := by simpa using ht
    have : (s ++ b :: t).findFirstNotOf " " = some s.length := by
      simp only [Bytes.findFirstNotOf, hset, List.drop_zero, List.mem_singleton, Nat.zero_add, Option.map_id',
        List.findIdx?_append, List.findIdx?_cons]
      rw [List.findIdx?_eq_none_iff.mpr fun b hb => by simpa using hs b hb]
      simp [hb]
    rw [trimLeft, this, Option.getD_some, List.drop_left]

theorem trimLeft_self {t : Bytes} (ht : t.head? ≠ some Ascii.space) : trimLeft t = t :=
  trimLeft_append (s := []) (by simp) ht

theorem trimRight_self {t : Bytes} (ht : t.getLast? ≠ some Ascii.space) : trimRight t = t := by
  have hset : (" " : Bytes) = [Ascii.space] := by decide +kernel
  induction t using List.reverseRecOn with
  | nil                  => rfl
  | append_singleton t b =>
    have hb : b ≠ Ascii.space := by simpa using ht
    have : Bytes.findLastNotOf (t ++ [b]) " " = some t.length := by
      simp [Bytes.findLastNotOf, hset, List.findIdx?_cons, hb]
    rw [trimRight, this, Option.map_some, Option.getD_some, List.take_of_length_le (by simp)]

theorem semicolon_not_mem_text (c : Cookie) : Ascii.semicolon ∉ c.text := by
  have hn : Ascii.semicolon ∉ c.name := fun hm => (c.isName.2 _ hm).1 rfl
  have he : Ascii.semicolon ≠ Ascii.equals := by decide
  simp [text, hn, he, c.isValue.1]

-- What the loop makes of one token, which begins with a space unless it is the first one.
theorem parse_token {p token : Bytes} (c : Cookie) (hs : ∀ b ∈ p, b = Ascii.space) (ht : token = p ++ c.text) :
    token.find "=" = some (p ++ c.name).length ∧ token.substr 0 (p ++ c.name).length = .ok (p ++ c.name) ∧
    token.substrFrom ((p ++ c.name).length + 1) = .ok c.value := by
  have ht : token = (p ++ c.name) ++ Ascii.equals :: c.value := by simp [ht, text]
  have hm : Ascii.equals ∉ p ++ c.name := by
    rw [List.mem_append, not_or]
    exact ⟨fun hm => absurd (hs _ hm) (by decide), fun hm => (c.isName.2 _ hm).2.1 rfl⟩
  refine ⟨ht ▸ Bytes.find_byte_append hm, ?_, ?_⟩
  · rw [ht, Bytes.substr_of_le (Nat.zero_le _), List.drop_zero, List.take_left]
  · rw [ht, List.append_cons]
    exact Bytes.substrFrom_append (by rw [List.length_append, List.length_singleton])

theorem trim_name {p : Bytes} (c : Cookie) (hs : ∀ b ∈ p, b = Ascii.space) : trimLeft (p ++ c.name) = c.name := by
  refine trimLeft_append hs fun h => ?_
  exact (c.isName.2 _ (List.mem_of_mem_head? h)).2.2 rfl

theorem trim_value (c : Cookie) : trimRight (trimLeft c.value) = c.value := by
  rw [trimLeft_self c.isValue.2.1, trimRight_self c.isValue.2.2]

theorem idOf_cons (cookieName : Bytes) (c : Cookie) (cs : List Cookie) :
    idOf cookieName (c :: cs) = if c.name = cookieName then if isId c.value then some c.value else none else idOf cookieName cs := by
  by_cases hn : c.name = cookieName
  case pos => simp [idOf, hn, isId_eq, Option.filter_some]
  case neg => simp [idOf, hn]

-- The loop takes one cookie after the other.
theorem parseCookie_header {p : Bytes} (hs : ∀ b ∈ p, b = Ascii.space) (hi : i ≤ cookie.length)
    (hd : cookie.drop i = p ++ header cookies) (hc : cookies = [] → p = []) :
    parseCookie cookieName cookie i = .ok (idOf cookieName cookies) := by
  induction cookies generalizing i p with
  | nil =>
    have hl : ¬i < cookie.length := by
      have := congrArg List.length hd
      simp [header, hc rfl] at this
      omega
    rw [parseCookie, if_neg hl]
    rfl
  | cons c cs ih =>
    have hm : Ascii.semicolon ∉ p ++ c.text := by
      rw [List.mem_append, not_or]
      exact ⟨fun hm => absurd (hs _ hm) (by decide), c.semicolon_not_mem_text⟩
    have hfind := Bytes.find_eq_map [Ascii.semicolon] hi
    have hlt : i < cookie.length := by
      have h : cookie.drop i ≠ [] := by
        rw [hd]
        cases cs <;> simp [header, text, List.intercalate_cons_cons]
      exact List.length_lt_of_drop_ne_nil h
    have ⟨semi, hsemi, htoken, hnext⟩ : ∃ semi, (cookie.find ";" i).getD cookie.length = semi ∧
        cookie.substr i (semi - i) = .ok (p ++ c.text) ∧
        parseCookie cookieName cookie (semi + 1) = .ok (idOf cookieName cs) := by
      cases cs with
      | nil =>
        have hd : cookie.drop i = p ++ c.text := by simpa [header] using hd
        rw [hd, Bytes.find_zero, Bytes.indexOf_of_head_not_mem hm] at hfind
        refine ⟨cookie.length, by rw [show (";" : Bytes) = [Ascii.semicolon] from rfl, hfind]; rfl, ?_, ?_⟩
        · rw [Bytes.substr_of_le hi, hd, ← hd, List.take_of_length_le (by simp)]
        · rw [parseCookie, if_neg (by omega)]
          rfl
      | cons c' cs =>
        have hd : cookie.drop i = (p ++ c.text) ++ (Ascii.semicolon :: ([Ascii.space] ++ header (c' :: cs))) := by
          simpa [header, List.intercalate_cons_cons] using hd
        have hi' : Bytes.indexOf [Ascii.semicolon] ((p ++ c.text) ++ (Ascii.semicolon :: ([Ascii.space] ++ header (c' :: cs))))
            = some (p ++ c.text).length :=
          Bytes.indexOf_append_self (p := []) hm
        rw [hd, Bytes.find_zero, hi', Option.map_some] at hfind
        refine ⟨i + (p ++ c.text).length, by rw [show (";" : Bytes) = [Ascii.semicolon] from rfl, hfind]; rfl, ?_, ?_⟩
        · rw [Bytes.substr_of_le hi, hd, Nat.add_sub_cancel_left, List.take_left]
        · refine ih (p := [Ascii.space]) (by simp) (Bytes.find_add_length_le hfind) ?_ (by simp)
          rw [Nat.add_assoc, ← List.drop_drop, hd, List.drop_append]
          simp
    have ⟨heq, hkey, hvalue⟩ := parse_token c hs rfl
    rw [parseCookie, if_pos hlt]
    simp only [hsemi, htoken, bind, Except.bind, heq, hkey, hvalue, c.trim_name hs, c.trim_value, hnext, idOf_cons]
    split_ifs <;> rfl

theorem isCookieValue_randomHex (buf : Bytes) : IsCookieValue (randomHex buf) := by
  have hm (b : UInt8) (h : b ∉ ("0123456789abcdef" : Bytes)) : b ∉ randomHex buf := fun hb => h (mem_toHex hb)
  have hsemi := hm Ascii.semicolon (by decide +kernel)
  have hspace := hm Ascii.space (by decide +kernel)
  exact ⟨hsemi, fun h => hspace (List.mem_of_mem_head? h), fun h => hspace (List.mem_of_getLast? h)⟩

-- The cookie that `create_session` issues.
def issued (h : IsCookieName cookieName) (buf : Bytes) : Cookie where
  name    := cookieName
  value   := randomHex buf
  isName  := h
  isValue := isCookieValue_randomHex buf

theorem idOf_of_find {c : Cookie} (h : cookies.find? (·.name = cookieName) = some c) (hl : c.value.length = 64)
    (hm : ∀ b ∈ c.value, b ∈ ("0123456789abcdef" : Bytes)) : idOf cookieName cookies = some c.value := by
  simp only [idOf, h, Option.map_some, Option.filter_some, hl, true_and, decide_eq_true_eq]
  rw [if_pos hm]

theorem find_issued {before : List Cookie} (h : IsCookieName cookieName) (hb : ∀ c ∈ before, c.name ≠ cookieName)
    (buf : Bytes) (after : List Cookie) :
    (before ++ issued h buf :: after).find? (·.name = cookieName) = some (issued h buf) := by
  have hn : before.find? (·.name = cookieName) = none := by simpa using hb
  rw [List.find?_append, hn, Option.none_or]
  exact List.find?_cons_of_pos (by simp [issued])

end Cookie

theorem sessionId_header (hc : req.getHeader "Cookie" = some (Cookie.header cookies)) (cookieName : Bytes) :
    sessionId cookieName req = .ok (Cookie.idOf cookieName cookies) := by
  simp only [sessionId, hc]
  exact Cookie.parseCookie_header (p := []) (by simp) (Nat.zero_le _) rfl fun _ => rfl

-- A session id comes back from every client that sends the cookie among cookies of other names.
theorem sessionId_cookies (o : Options) :
    (∀ cookies req, req.getHeader "Cookie" = some (Cookie.header cookies) →
      sessionId o.cookieName req = .ok (Cookie.idOf o.cookieName cookies)) ∧
    ∀ buf : Bytes, buf.length = 32 →
      ((randomHex buf).length = 64 ∧ ∀ b ∈ randomHex buf, b ∈ ("0123456789abcdef" : Bytes)) ∧
      ∀ h : IsCookieName o.cookieName,
        setCookie o (randomHex buf) = (Cookie.issued h buf).text ++ Bytes.ofString "; " ++ o.cookieFlags ∧
        ∀ before after req, (∀ c ∈ before ++ after, c.name ≠ o.cookieName) →
          req.getHeader "Cookie" = some (Cookie.header (before ++ Cookie.issued h buf :: after)) →
          sessionId o.cookieName req = .ok (some (randomHex buf)) := by
  refine ⟨fun cookies req hc => sessionId_header hc _, fun buf hl => ?_⟩
  have hlen : (randomHex buf).length = 64 := by rw [randomHex, length_toHex, hl]
  have hmem : ∀ b ∈ randomHex buf, b ∈ ("0123456789abcdef" : Bytes) := fun b => mem_toHex
  refine ⟨⟨hlen, hmem⟩, fun h => ⟨by simp [setCookie, Cookie.text, Cookie.issued]; rfl, fun before after req hn hc => ?_⟩⟩
  have hf := Cookie.find_issued h (fun c hm => hn c (List.mem_append_left _ hm)) buf after
  rw [sessionId_header hc, Cookie.idOf_of_find hf hlen hmem]
  rfl

-- A request of a client that has a cookie for the language, too.
def language : Cookie where
  name    := "lang"
  value   := "de"
  isName  := ⟨by decide +kernel, by decide +kernel⟩
  isValue := ⟨by decide +kernel, by decide +kernel, by decide +kernel⟩

def localized : Request where
  headers :=
    let cookie : Bytes := Bytes.ofString "lang=de; session_id=" ++ randomHex (List.replicate 32 0xA5)
    Finmap.insert ("Cookie" : Bytes) cookie ∅

theorem sessionId_cookies_localized : sessionId "session_id" localized = .ok (some (randomHex (List.replicate 32 0xA5))) := by
  have hn : IsCookieName "session_id" := ⟨by decide +kernel, by decide +kernel⟩
  have hc : localized.getHeader "Cookie" = some (Bytes.ofString "lang=de; session_id=" ++ randomHex (List.replicate 32 0xA5)) := by
    decide +kernel
  exact (((sessionId_cookies {}).2 (List.replicate 32 0xA5) rfl).2 hn).2 [language] [] localized (by decide +kernel) hc

end YNet.Session
