import TortoiseSvn.Lib.TextSearch
import TortoiseSvn.Utils.PathUnescape

/-!
# Escaping a URL

`PathEscape` goes over the string twice: first it escapes what is no ASCII character, then what is
no character of a URI. The second pass must not escape the percent signs of the first one, so their
positions are kept in a set. At last, the brackets of an IPv6 address are put back.

A string without percent signs is escaped byte by byte. A `Token` is a byte together with the way it
is written, so an escaped string is the code of some tokens.

Main results: `passes_eq`, `written_letters`.
-/

namespace TortoiseSvn.CPathUtils

open Lib (forall_byte)

/-! ### Strings -/

/-- A string literal. -/
def ascii (s : List Char) : List UInt8 := s.map Char.toUInt8

/-- The place of the first occurrence from some place on; `none` for -1.
Source: `CStringA::Find` -/
def Find (s sub : List UInt8) (iStart : ℕ) : Option ℕ :=
  (Lib.Text.find sub (s.drop iStart)).map (iStart + ·)

/-- `%02X` behind a percent sign. -/
def formatHex (c : UInt8) : List UInt8 :=
  [percent, szHex.getD (c.toNat / 16) 0, szHex.getD (c.toNat % 16) 0]

/-! ### The code -/

/-- Source: `PathUtils.cpp` `iri_escape_chars` -/
def iri_escape_chars : List UInt8 := List.replicate 128 1 ++ List.replicate 128 0

/-- Source: `PathUtils.cpp` `uri_autoescape_chars` -/
def uri_autoescape_chars : List UInt8 := [
    0, 0, 0, 0, 0, 0, 0, 0,   0, 0, 0, 0, 0, 0, 0, 0,
    0, 0, 0, 0, 0, 0, 0, 0,   0, 0, 0, 0, 0, 0, 0, 0,
    0, 1, 0, 0, 1, 1, 1, 1,   1, 1, 1, 1, 1, 1, 1, 1,
    1, 1, 1, 1, 1, 1, 1, 1,   1, 1, 1, 0, 0, 1, 0, 0,
    1, 1, 1, 1, 1, 1, 1, 1,   1, 1, 1, 1, 1, 1, 1, 1,
    1, 1, 1, 1, 1, 1, 1, 1,   1, 1, 1, 0, 0, 0, 0, 1,
    0, 1, 1, 1, 1, 1, 1, 1,   1, 1, 1, 1, 1, 1, 1, 1,
    1, 1, 1, 1, 1, 1, 1, 1,   1, 1, 1, 0, 0, 0, 1, 0] ++ List.replicate 128 0

/-- The state of the first pass.
Source: `PathUtils.cpp` `CPathUtils::PathEscape` -/
structure FirstPass where
  ret2 : List UInt8
  j : ℕ
  needsEscaping : Bool
  escapedPositions : List ℕ

/-- One round of the first loop.
Source: `PathUtils.cpp` `CPathUtils::PathEscape` -/
def FirstPass.append (p : FirstPass) (c : UInt8) : FirstPass :=
  if iri_escape_chars.getD c.toNat 0 ≠ 0 then { p with ret2 := p.ret2 ++ [c], j := p.j + 1 }
  else
    { ret2 := p.ret2 ++ formatHex c
      j := p.j + 2 + 1
      needsEscaping := true
      escapedPositions := p.j :: p.escapedPositions }

/-- Source: `PathUtils.cpp` `CPathUtils::DoesPercentNeedEscaping` -/
def isHexDigit (c : UInt8) : Bool :=
  decide ('0'.toUInt8 ≤ c ∧ c ≤ '9'.toUInt8) || decide ('A'.toUInt8 ≤ c ∧ c ≤ 'F'.toUInt8) ||
    decide ('a'.toUInt8 ≤ c ∧ c ≤ 'f'.toUInt8)

/-- Source: `PathUtils.cpp` `CPathUtils::DoesPercentNeedEscaping` -/
def DoesPercentNeedEscaping (str : List UInt8) : Bool :=
  if str.getD 1 0 = 0 then true
  else if !isHexDigit (str.getD 1 0) then true
  else if !isHexDigit (str.getD 2 0) then true
  else false

/-- This percent sign needs escaping. What is given are the rest of the string from it on and its
position.
Source: `PathUtils.cpp` `CPathUtils::PathEscape` -/
def percentNeedsEscaping (escapedPositions : List ℕ) (i : ℕ) (mid : List UInt8)
    (needsEscaping : Bool) : Bool :=
  (needsEscaping && decide (mid.take 3 ≠ ascii ['%', '2', '5']) && decide (i ∉ escapedPositions)) ||
    DoesPercentNeedEscaping mid

/-- The second loop, from some position on.
Source: `PathUtils.cpp` `CPathUtils::PathEscape` -/
def secondPass (escapedPositions : List ℕ) : ℕ → List UInt8 → Bool → List UInt8 → List UInt8
  | _, [], _, ret => ret
  | i, c :: rest, needsEscaping, ret =>
    if uri_autoescape_chars.getD c.toNat 0 ≠ 0 then
      if c = percent ∧ percentNeedsEscaping escapedPositions i (c :: rest) needsEscaping then
        secondPass escapedPositions (i + 1) rest true (ret ++ formatHex c)
      else secondPass escapedPositions (i + 1) rest needsEscaping (ret ++ [c])
    else secondPass escapedPositions (i + 1) rest true (ret ++ formatHex c)

/-- Source: `PathUtils.cpp` `CPathUtils::PathEscape` -/
def shortenFileUrl (ret : List UInt8) : List UInt8 :=
  let file := ascii ['f', 'i', 'l', 'e', ':', '/', '/']
  let file5C := ascii ['f', 'i', 'l', 'e', ':', '/', '/', '/', '%', '5', 'C']
  let ret :=
    if ret.take 11 = file5C ∧ Find ret (ascii ['%']) 12 = none then
      Lib.Text.replace file5C file ret
    else ret
  Lib.Text.replace (ascii ['f', 'i', 'l', 'e', ':', '/', '/', '/', '/', '%', '5', 'C']) file ret

/-- The brackets are put back in the part of the URL that ends with the host.
Source: `PathUtils.cpp` `CPathUtils::PathEscape` -/
def unescapeBrackets (leftpart : List UInt8) : List UInt8 :=
  let leftpart := Lib.Text.replace (ascii [':', '/', '/', '%', '5', 'B'])
    (ascii [':', '/', '/', '[']) leftpart
  let leftpart := Lib.Text.replace (ascii ['%', '5', 'D', '/']) (ascii [']', '/']) leftpart
  Lib.Text.replace (ascii ['%', '5', 'D', ':']) (ascii [']', ':']) leftpart

/-- Source: `PathUtils.cpp` `CPathUtils::PathEscape` -/
def handleIpv6 (ret : List UInt8) : List UInt8 :=
  match Find ret (ascii [':', '/', '/', '%', '5', 'B']) 0 with
  | none => ret
  | some urlpos =>
    if 0 < urlpos then
      match Find ret (ascii ['/']) (urlpos + 6) with
      | none => ret
      | some domainpos =>
        if urlpos < domainpos then
          let leftpart := ret.take (domainpos + 1)
          if (Find leftpart (ascii ['%', '5', 'D', ':']) 0).any (0 < ·) ∨
              (Find leftpart (ascii ['%', '5', 'D', '/']) 0).any (0 < ·) then
            unescapeBrackets leftpart ++ ret.drop (domainpos + 1)
          else ret
        else ret
    else ret

/-- Source: `PathUtils.cpp` `CPathUtils::PathEscape` -/
def PathEscape (path : List UInt8) : List UInt8 :=
  let first := (cString path).foldl FirstPass.append ⟨[], 0, false, []⟩
  let ret := secondPass first.escapedPositions 0 first.ret2 first.needsEscaping []
  handleIpv6 (shortenFileUrl ret)

/-! ### Tokens -/

/-- A byte as it is, or as an escape. -/
inductive Token
  | raw (c : UInt8) (h : c ≠ percent)
  | escape (c : UInt8)
  deriving DecidableEq

namespace Token

def byte : Token → UInt8
  | raw c _ => c
  | escape c => c

/-- The letters of a token. -/
def letters : Token → List UInt8
  | raw c _ => [c]
  | escape c => formatHex c

/-- A byte is escaped unless it is a character of a URI. -/
def ofByte (c : UInt8) : Token :=
  if h : uri_autoescape_chars.getD c.toNat 0 ≠ 0 ∧ c ≠ percent then raw c h.2 else escape c

@[simp] theorem byte_ofByte (c : UInt8) : (ofByte c).byte = c := by
  unfold ofByte
  split <;> rfl

theorem ofByte_injective : Function.Injective ofByte := fun c d h => by
  rw [← byte_ofByte c, h, byte_ofByte]

end Token

/-! ### Facts about bytes -/

/-- What holds of all bytes, by enumeration. -/
theorem byte_cases : ∀ c, (szHex.getD (c.toNat / 16) 0 ∈ szHex ∧
    szHex.getD (c.toNat % 16) 0 ∈ szHex) ∧ 0 ∉ formatHex c ∧
    ((hexValue ((formatHex c).getD 1 0)).bind fun high =>
      (hexValue ((formatHex c).getD 2 0)).map (hexByte high)) = some c :=
  forall_byte (by decide +kernel)

theorem formatHex_mem_szHex (c : UInt8) : ∀ a ∈ (formatHex c).tail, a ∈ szHex :=
  List.forall_mem_cons.mpr ⟨(byte_cases c).1.1, List.forall_mem_singleton.mpr (byte_cases c).1.2⟩

theorem uri_szHex : ∀ a ∈ szHex, uri_autoescape_chars.getD a.toNat 0 ≠ 0 ∧ a ≠ percent ∧
    isHexDigit a = true := by
  have hall : szHex.all fun a => decide (uri_autoescape_chars.getD a.toNat 0 ≠ 0 ∧ a ≠ percent ∧
      isHexDigit a = true) := by decide +kernel
  exact fun a ha => of_decide_eq_true (List.all_eq_true.mp hall a ha)

/-- An escape stands for its byte. -/
theorem hexByte_formatHex (c : UInt8) : ((hexValue ((formatHex c).getD 1 0)).bind fun high =>
    (hexValue ((formatHex c).getD 2 0)).map (hexByte high)) = some c :=
  (byte_cases c).2.2

theorem formatHex_injective : Function.Injective formatHex := by
  intro c d h
  exact Option.some.inj ((hexByte_formatHex c).symm.trans (h ▸ hexByte_formatHex d))

theorem uri_percent : uri_autoescape_chars.getD percent.toNat 0 ≠ 0 := by decide

/-- What the first pass escapes is no character of a URI. -/
theorem uri_eq_zero_of_iri (c : UInt8) (h : iri_escape_chars.getD c.toNat 0 = 0) :
    uri_autoescape_chars.getD c.toNat 0 = 0 := by
  have hlarge : 128 ≤ c.toNat := by
    by_contra hlt
    rw [iri_escape_chars, List.getD_append _ _ _ _ (by rw [List.length_replicate]; omega),
      List.getD_replicate _ (by omega)] at h
    exact absurd h (by decide)
  rw [uri_autoescape_chars, List.getD_append_right _ _ _ _ hlarge, List.getD_eq_getElem?_getD,
    List.getElem?_getD_replicate_default_eq]

/-- The three letters of an escape: a percent sign and two digits. -/
theorem formatHex_eq (c : UInt8) : ∃ x ∈ szHex, ∃ y ∈ szHex, formatHex c = [percent, x, y] :=
  ⟨_, formatHex_mem_szHex c _ (List.mem_cons_self ..), _,
    formatHex_mem_szHex c _ (List.mem_cons_of_mem _ (List.mem_cons_self ..)), rfl⟩

/-! ### The two passes -/

/-- What the first pass writes for a byte. -/
def firstLetters (c : UInt8) : List UInt8 :=
  if iri_escape_chars.getD c.toNat 0 ≠ 0 then [c] else formatHex c

theorem FirstPass.append_eq (p : FirstPass) (c : UInt8) :
    (p.append c).ret2 = p.ret2 ++ firstLetters c ∧
      (p.append c).j = p.j + (firstLetters c).length ∧
      (∀ i ∈ p.escapedPositions, i ∈ (p.append c).escapedPositions) ∧
      (iri_escape_chars.getD c.toNat 0 = 0 → p.j ∈ (p.append c).escapedPositions) := by
  unfold FirstPass.append firstLetters
  split_ifs with hiri
  · exact ⟨rfl, rfl, fun i hi => hi, fun hz => absurd hz hiri⟩
  · exact ⟨rfl, rfl, fun i hi => List.mem_cons_of_mem _ hi, fun _ => List.mem_cons_self ..⟩

/-- The set holds the position of every escape of the first pass. -/
theorem firstPass_spec (s : List UInt8) (p : FirstPass) :
    (s.foldl FirstPass.append p).ret2 = p.ret2 ++ s.flatMap firstLetters ∧
      (∀ i ∈ p.escapedPositions, i ∈ (s.foldl FirstPass.append p).escapedPositions) ∧
      ∀ front c back, s = front ++ c :: back → iri_escape_chars.getD c.toNat 0 = 0 →
        p.j + (front.flatMap firstLetters).length ∈
          (s.foldl FirstPass.append p).escapedPositions := by
  induction s generalizing p with
  | nil => exact ⟨by simp, fun i hi => hi, fun front c back heq => by simp at heq⟩
  | cons a s ih =>
    obtain ⟨hret, hj, hkeep, hnew⟩ := p.append_eq a
    obtain ⟨ihret, ihkeep, ihnew⟩ := ih (p.append a)
    rw [List.foldl_cons]
    refine ⟨?_, fun i hi => ihkeep i (hkeep i hi), ?_⟩
    · rw [ihret, hret, List.flatMap_cons, List.append_assoc]
    · intro front c back heq hc
      rcases front with _ | ⟨b, front⟩
      · obtain ⟨rfl, -⟩ := List.cons.inj heq
        exact ihkeep _ (hnew hc)
      · obtain ⟨rfl, hrest⟩ := List.cons.inj heq
        have hmem := ihnew front c back hrest hc
        rwa [hj, Nat.add_assoc, ← List.length_append, ← List.flatMap_cons] at hmem

section SecondPass

variable {escapedPositions : List ℕ} {i : ℕ} {c : UInt8} {rest : List UInt8} {needsEscaping : Bool}
  {ret : List UInt8}

theorem secondPass_uri (hc : uri_autoescape_chars.getD c.toNat 0 ≠ 0) (hp : c ≠ percent) :
    secondPass escapedPositions i (c :: rest) needsEscaping ret =
      secondPass escapedPositions (i + 1) rest needsEscaping (ret ++ [c]) := by
  rw [secondPass, if_pos hc, if_neg fun h => hp h.1]

theorem secondPass_escape (hc : uri_autoescape_chars.getD c.toNat 0 = 0) :
    secondPass escapedPositions i (c :: rest) needsEscaping ret =
      secondPass escapedPositions (i + 1) rest true (ret ++ formatHex c) := by
  rw [secondPass, if_neg (not_not.mpr hc)]

/-- An escape of the first pass is copied. -/
theorem secondPass_formatHex (hi : i ∈ escapedPositions) :
    secondPass escapedPositions i (formatHex c ++ rest) needsEscaping ret =
      secondPass escapedPositions (i + 3) rest needsEscaping (ret ++ formatHex c) := by
  obtain ⟨x, hx, y, hy, hformat⟩ := formatHex_eq c
  obtain ⟨hxuri, hxp, hxhex⟩ := uri_szHex x hx
  obtain ⟨hyuri, hyp, hyhex⟩ := uri_szHex y hy
  have hxz : x ≠ 0 := by
    rintro rfl
    exact absurd hxhex (by decide)
  have hpercent : percentNeedsEscaping escapedPositions i (percent :: x :: y :: rest)
      needsEscaping = false := by
    simp [percentNeedsEscaping, DoesPercentNeedEscaping, hi, hxz, hxhex, hyhex]
  rw [hformat, List.cons_append, List.cons_append, List.cons_append, List.nil_append, secondPass,
    if_pos uri_percent, if_neg fun h => absurd (hpercent.symm.trans h.2) Bool.false_ne_true,
    secondPass_uri hxuri hxp, secondPass_uri hyuri hyp]
  simp

end SecondPass

/-- The second pass escapes what is no character of a URI and copies the escapes. -/
theorem secondPass_eq {escapedPositions : List ℕ} {s : List UInt8} (hs : percent ∉ s) (i : ℕ)
    (hpos : ∀ front c back, s = front ++ c :: back → iri_escape_chars.getD c.toNat 0 = 0 →
      i + (front.flatMap firstLetters).length ∈ escapedPositions)
    (needsEscaping : Bool) (ret : List UInt8) :
    secondPass escapedPositions i (s.flatMap firstLetters) needsEscaping ret =
      ret ++ (s.map Token.ofByte).flatMap Token.letters := by
  induction s generalizing i needsEscaping ret with
  | nil => simp [secondPass]
  | cons c s ih =>
    obtain ⟨hc, hs⟩ := not_or.mp (mt List.mem_cons.mpr hs)
    have hpos' : ∀ front d back, s = front ++ d :: back → iri_escape_chars.getD d.toNat 0 = 0 →
        i + (firstLetters c).length + (front.flatMap firstLetters).length ∈ escapedPositions := by
      intro front d back heq hd
      have hmem := hpos (c :: front) d back (by rw [heq, List.cons_append]) hd
      rwa [List.flatMap_cons, List.length_append, ← Nat.add_assoc] at hmem
    rw [List.flatMap_cons, List.map_cons, List.flatMap_cons, ← List.append_assoc]
    by_cases hiri : iri_escape_chars.getD c.toNat 0 = 0
    · have huri := uri_eq_zero_of_iri c hiri
      have hfirst : firstLetters c = formatHex c := if_neg (not_not.mpr hiri)
      have htoken : Token.ofByte c = .escape c := dif_neg fun h => h.1 huri
      rw [hfirst] at hpos' ⊢
      have hmem : i ∈ escapedPositions := hpos [] c s rfl hiri
      rw [htoken, secondPass_formatHex hmem]
      exact ih hs _ hpos' _ _
    · have hfirst : firstLetters c = [c] := if_pos hiri
      rw [hfirst] at hpos' ⊢
      rw [List.singleton_append]
      by_cases huri : uri_autoescape_chars.getD c.toNat 0 = 0
      · have htoken : Token.ofByte c = .escape c := dif_neg fun h => h.1 huri
        rw [htoken, secondPass_escape huri]
        exact ih hs _ hpos' _ _
      · have htoken : Token.ofByte c = .raw c (Ne.symm hc) := dif_pos ⟨huri, Ne.symm hc⟩
        rw [htoken, secondPass_uri huri (Ne.symm hc)]
        exact ih hs _ hpos' _ _

/-- **The two passes escape byte by byte.** -/
theorem passes_eq {s : List UInt8} (hs : percent ∉ s) :
    let first := s.foldl FirstPass.append ⟨[], 0, false, []⟩
    secondPass first.escapedPositions 0 first.ret2 first.needsEscaping [] =
      (s.map Token.ofByte).flatMap Token.letters := by
  intro first
  obtain ⟨hret, -, hpos⟩ := firstPass_spec s ⟨[], 0, false, []⟩
  rw [show first.ret2 = s.flatMap firstLetters from hret, secondPass_eq hs 0 hpos, List.nil_append]

/-! ### The way back -/

/-- What is written for tokens decodes to their bytes. -/
theorem written_letters {ts : List Token} :
    written false (ts.flatMap Token.letters) = ts.map Token.byte := by
  induction ts with
  | nil => rfl
  | cons t ts ih =>
    rw [List.flatMap_cons, List.map_cons, ← ih]
    cases t with
    | raw c hc => exact written_of_ne hc _ _
    | escape c =>
      have hbyte := hexByte_formatHex c
      obtain ⟨x, hx, y, hy, hformat⟩ := formatHex_eq c
      rw [hformat] at hbyte
      change ((hexValue x).bind fun high => (hexValue y).map (hexByte high)) = some c at hbyte
      rw [Token.letters, hformat, List.cons_append, List.cons_append, List.cons_append,
        List.nil_append, written_percent]
      rcases hxv : hexValue x with _ | high
      · rw [hxv] at hbyte
        exact nomatch hbyte
      · rw [hxv, Option.bind_some] at hbyte
        dsimp only
        rw [hbyte]
        rfl

theorem zero_notMem_letters {ts : List Token} (h : 0 ∉ ts.map Token.byte) :
    0 ∉ ts.flatMap Token.letters := by
  have hhex : ∀ c, 0 ∉ formatHex c := fun c => (byte_cases c).2.1
  intro hmem
  obtain ⟨t, ht, hmem⟩ := List.mem_flatMap.mp hmem
  cases t with
  | raw c hc => exact h (List.mem_map.mpr ⟨_, ht, (List.mem_singleton.mp hmem).symm⟩)
  | escape c => exact hhex c hmem

end TortoiseSvn.CPathUtils
