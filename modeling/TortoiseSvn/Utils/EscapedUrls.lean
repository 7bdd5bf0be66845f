import TortoiseSvn.Utils.PathEscape

/-!
# Escaped URLs

An escaped URL is made of URI characters and escapes; brackets stand in the host part only, which is
what begins behind the first `://` with a bracket and ends before the next slash. The code looks for
the first `://[`, and then puts back all brackets before a slash or a colon, from the beginning of
the URL to the end of the host part.

Main results: `handleIpv6_eq`, `pathEscape_iff`.
-/

namespace TortoiseSvn.CPathUtils

open Lib.Text

/-! ### The letters of tokens are a code -/

theorem isCode_letters : IsCode Token.letters where
  ne_nil t := by
    cases t with
    | raw c h => exact List.cons_ne_nil _ _
    | escape c => exact List.cons_ne_nil _ _
  eq_of_begins t u h := by
    cases t with
    | raw c hc =>
      cases u with
      | raw d hd =>
        obtain ⟨rfl, -⟩ := List.cons_prefix_cons.mp h
        rfl
      | escape d => exact absurd (List.cons_prefix_cons.mp h).1 hc
    | escape c =>
      cases u with
      | raw d hd => exact absurd (List.cons_prefix_cons.mp h).1.symm hd
      | escape d => rw [formatHex_injective (h.eq_of_length rfl)]

/-- What begins with neither a percent sign nor a digit does not begin within an escape. -/
theorem notMem_tail_letters {a : UInt8} (ha : a ∉ szHex) (t : Token) : a ∉ t.letters.tail := by
  cases t with
  | raw c h => exact List.not_mem_nil
  | escape c => exact mt (formatHex_mem_szHex c a) ha

/-- The escaped form of a string, before the brackets are put back. -/
def escaped (s : List UInt8) : List UInt8 := (s.map Token.ofByte).flatMap Token.letters

theorem escaped_append (s t : List UInt8) : escaped (s ++ t) = escaped s ++ escaped t := by
  rw [escaped, List.map_append, List.flatMap_append]
  rfl

theorem escaped_pos {s : List UInt8} (h : s ≠ []) : 0 < (escaped s).length := by
  obtain ⟨c, s, rfl⟩ := List.exists_cons_of_ne_nil h
  have hpos := List.length_pos_of_ne_nil (isCode_letters.ne_nil (Token.ofByte c))
  rw [escaped, List.map_cons, List.flatMap_cons, List.length_append]
  omega

/-- A pattern that can be searched for in an escaped string. -/
def Searchable (p : List UInt8) : Prop := Starts Token.letters (p.map Token.ofByte)

theorem find_escaped {p : List UInt8} (hp : Searchable p) (s : List UInt8) :
    find (escaped p) (escaped s) = (find p s).map fun n => (escaped (s.take n)).length := by
  rw [escaped, escaped, isCode_letters.find_flatMap hp, find_map Token.ofByte_injective]
  congr 1
  funext n
  rw [← List.map_take]
  rfl

/-- A pattern is found behind the beginning iff it is in the source. -/
theorem find_escaped_pos {p : List UInt8} (hp : Searchable p) (s : List UInt8) :
    (find (escaped p) (escaped s)).any (0 < ·) = (find p s).any (0 < ·) := by
  rw [find_escaped hp, Option.any_map]
  rcases hfind : find p s with _ | n
  · rfl
  · obtain ⟨front, back, rfl, rfl, -⟩ := find_eq_some hfind
    rw [Option.any_some, Option.any_some, List.take_left]
    rcases front with _ | ⟨c, front⟩
    · rfl
    · simp [escaped_pos (List.cons_ne_nil c front)]

/-! ### The branch for IPv6 addresses -/

def slash : UInt8 := '/'.toUInt8

def colon : UInt8 := ':'.toUInt8

/-- `://[` -/
def openIpv6 : List UInt8 := ascii [':', '/', '/', '[']

/-- `]:` and `]/` -/
def closeIpv6 (d : UInt8) : List UInt8 := [']'.toUInt8, d]

/-- The part of the URL that ends with the slash behind the host. -/
def leftpart (scheme host : List UInt8) : List UInt8 := scheme ++ (openIpv6 ++ (host ++ [slash]))

/-- The branch for IPv6 addresses is taken: `://[` is not at the beginning, there is a slash behind
it, and a bracket before a colon or a slash is not at the beginning either. -/
structure Ipv6 (s scheme host rest : List UInt8) : Prop where
  split : s = scheme ++ (openIpv6 ++ (host ++ slash :: rest))
  first : find openIpv6 s = some scheme.length
  scheme_ne : scheme ≠ []
  slash_notMem : slash ∉ host
  closed : (find (closeIpv6 colon) (leftpart scheme host)).any (0 < ·) ∨
    (find (closeIpv6 slash) (leftpart scheme host)).any (0 < ·)

theorem searchable_of_cons {a : UInt8} {as p : List UInt8} (h : escaped p = a :: as)
    (ha : a ∉ szHex) : Searchable p :=
  ⟨a, as, h, notMem_tail_letters ha⟩

theorem escaped_open : escaped openIpv6 = ascii [':', '/', '/', '%', '5', 'B'] := by decide

theorem escaped_close_colon : escaped (closeIpv6 colon) = ascii ['%', '5', 'D', ':'] := by decide

theorem escaped_close_slash : escaped (closeIpv6 slash) = ascii ['%', '5', 'D', '/'] := by decide

theorem escaped_slash : escaped [slash] = ascii ['/'] := by decide

theorem searchable_open : Searchable openIpv6 := searchable_of_cons escaped_open (by decide)

theorem searchable_close_colon : Searchable (closeIpv6 colon) :=
  searchable_of_cons escaped_close_colon (by decide)

theorem searchable_close_slash : Searchable (closeIpv6 slash) :=
  searchable_of_cons escaped_close_slash (by decide)

theorem searchable_slash : Searchable [slash] := searchable_of_cons escaped_slash (by decide)

theorem find_slash {host rest : List UInt8} (h : slash ∉ host) :
    find [slash] (host ++ slash :: rest) = some host.length := by
  have hfirst : ∀ x y, host = x ++ y → y ≠ [] → ¬ [slash] <+: y ++ ([slash] ++ rest) := by
    intro x y hxy hy hpre
    obtain ⟨c, y, rfl⟩ := List.exists_cons_of_ne_nil hy
    obtain ⟨rfl, -⟩ := List.cons_prefix_cons.mp hpre
    exact h (hxy ▸ List.mem_append_right _ (List.mem_cons_self ..))
  exact find_of_first hfirst

/-! ### What the code finds -/

section Found

variable {s scheme host rest tail : List UInt8}

theorem length_escaped_open : (escaped openIpv6).length = 6 := by decide

theorem length_escaped_slash : (escaped [slash]).length = 1 := by decide

/-- The place of `://%5B` is that of `://[`. -/
theorem Find_open (s : List UInt8) : Find (escaped s) (ascii [':', '/', '/', '%', '5', 'B']) 0 =
    (find openIpv6 s).map fun n => (escaped (s.take n)).length := by
  rw [Find, List.drop_zero, ← escaped_open, find_escaped searchable_open]
  rcases find openIpv6 s with _ | n
  · rfl
  · exact congrArg some (Nat.zero_add _)

theorem Find_slash (s t : List UInt8) :
    Find (escaped (s ++ t)) (ascii ['/']) (escaped s).length =
      (find [slash] t).map fun n => (escaped s).length + (escaped (t.take n)).length := by
  rw [Find, escaped_append, List.drop_left, ← escaped_slash, find_escaped searchable_slash,
    Option.map_map]
  rfl

theorem escaped_take (scheme tail : List UInt8) :
    escaped ((scheme ++ tail).take scheme.length) = escaped scheme := by
  rw [List.take_left]

/-- The places at which the code cuts the URL. -/
theorem cut_leftpart (hsplit : s = scheme ++ (openIpv6 ++ (host ++ slash :: rest))) :
    (escaped s).take ((escaped scheme).length + 6 + (escaped host).length + 1) =
        escaped (leftpart scheme host) ∧
      (escaped s).drop ((escaped scheme).length + 6 + (escaped host).length + 1) = escaped rest := by
  have happend : escaped s = escaped (leftpart scheme host) ++ escaped rest := by
    rw [hsplit, ← escaped_append, leftpart]
    simp
  have hlength : (escaped scheme).length + 6 + (escaped host).length + 1 =
      (escaped (leftpart scheme host)).length := by
    simp only [leftpart, escaped_append, List.length_append, length_escaped_open,
      length_escaped_slash]
    omega
  rw [happend, hlength]
  exact ⟨List.take_left, List.drop_left⟩

theorem Find_close (l : List UInt8) :
    (Find (escaped l) (ascii ['%', '5', 'D', ':']) 0).any (0 < ·) =
        (find (closeIpv6 colon) l).any (0 < ·) ∧
      (Find (escaped l) (ascii ['%', '5', 'D', '/']) 0).any (0 < ·) =
        (find (closeIpv6 slash) l).any (0 < ·) := by
  have hzero : ∀ p, (Find (escaped l) p 0).any (0 < ·) = (find p (escaped l)).any (0 < ·) := by
    intro p
    rw [Find, List.drop_zero, Option.any_map]
    simp
  rw [hzero, hzero, ← escaped_close_colon, ← escaped_close_slash,
    find_escaped_pos searchable_close_colon, find_escaped_pos searchable_close_slash]
  exact ⟨rfl, rfl⟩

/-- The first `://[`, and the first slash behind it. -/
theorem handleIpv6_split (hfirst : find openIpv6 s = some scheme.length)
    (hsplit : s = scheme ++ (openIpv6 ++ (host ++ slash :: rest))) (hscheme : scheme ≠ [])
    (hhost : slash ∉ host) : handleIpv6 (escaped s) =
      if (find (closeIpv6 colon) (leftpart scheme host)).any (0 < ·) ∨
          (find (closeIpv6 slash) (leftpart scheme host)).any (0 < ·) then
        unescapeBrackets (escaped (leftpart scheme host)) ++ escaped rest
      else escaped s := by
  have hopen : Find (escaped s) (ascii [':', '/', '/', '%', '5', 'B']) 0 =
      some (escaped scheme).length := by
    rw [Find_open, hfirst, Option.map_some, hsplit, escaped_take]
  have hslash : Find (escaped s) (ascii ['/']) ((escaped scheme).length + 6) =
      some ((escaped scheme).length + 6 + (escaped host).length) := by
    have hfind := Find_slash (scheme ++ openIpv6) (host ++ slash :: rest)
    rw [find_slash hhost, Option.map_some, List.take_left, List.append_assoc, ← hsplit,
      escaped_append, List.length_append, length_escaped_open] at hfind
    exact hfind
  obtain ⟨htake, hdrop⟩ := cut_leftpart hsplit
  obtain ⟨hcolon, hclose⟩ := Find_close (leftpart scheme host)
  rw [handleIpv6, hopen]
  dsimp only
  rw [if_pos (escaped_pos hscheme), hslash]
  dsimp only
  rw [if_pos (by omega), htake, hdrop, hcolon, hclose]

theorem handleIpv6_eq (h : Ipv6 s scheme host rest) :
    handleIpv6 (escaped s) =
      unescapeBrackets (escaped (leftpart scheme host)) ++ escaped rest := by
  rw [handleIpv6_split h.first h.split h.scheme_ne h.slash_notMem, if_pos h.closed]

/-- Without such a branch the escaped string stays as it is. -/
theorem handleIpv6_of_not (h : ∀ scheme host rest, ¬ Ipv6 s scheme host rest) :
    handleIpv6 (escaped s) = escaped s := by
  rcases hfirst : find openIpv6 s with _ | n
  · rw [handleIpv6, Find_open, hfirst]
    rfl
  obtain ⟨scheme, tail, hsplit, rfl, -⟩ := find_eq_some hfirst
  by_cases hscheme : scheme = []
  · subst hscheme
    rw [handleIpv6, Find_open, hfirst]
    rfl
  rcases hslash : find [slash] tail with _ | m
  · have hnone : Find (escaped s) (ascii ['/']) ((escaped scheme).length + 6) = none := by
      have hfind := Find_slash (scheme ++ openIpv6) tail
      rw [hslash, Option.map_none, List.append_assoc, ← hsplit, escaped_append, List.length_append,
        length_escaped_open] at hfind
      exact hfind
    rw [handleIpv6, Find_open, hfirst, Option.map_some, hsplit, escaped_take, ← hsplit]
    dsimp only
    rw [if_pos (escaped_pos hscheme), hnone]
  · obtain ⟨host, rest, rfl, rfl, hbefore⟩ := find_eq_some hslash
    have hhost : slash ∉ host := by
      intro hmem
      obtain ⟨x, y, rfl⟩ := List.append_of_mem hmem
      exact hbefore x (slash :: y) rfl (List.cons_ne_nil _ _) ⟨y ++ ([slash] ++ rest), rfl⟩
    rw [handleIpv6_split hfirst hsplit hscheme hhost]
    exact if_neg fun hclosed => h scheme host rest ⟨hsplit, hfirst, hscheme, hhost, hclosed⟩

end Found

/-! ### The brackets that are put back -/

def IsBracket (c : UInt8) : Prop := c = '['.toUInt8 ∨ c = ']'.toUInt8

/-- A token stays as it is, or it is a bracket that was escaped. -/
inductive Restored : Token → Token → Prop
  | refl (t : Token) : Restored t t
  | bracket {c : UInt8} (hc : IsBracket c) (h : c ≠ percent) : Restored (.escape c) (.raw c h)

namespace Restored

variable {t u v : Token}

theorem byte_eq (h : Restored t u) : u.byte = t.byte := by
  cases h with
  | refl => rfl
  | bracket hc hp => rfl

theorem trans (h : Restored t u) (h' : Restored u v) : Restored t v := by
  cases h with
  | refl => exact h'
  | bracket hc hp =>
    cases h'
    exact .bracket hc hp

theorem raw_eq {c : UInt8} {hc : c ≠ percent} (h : Restored (.raw c hc) u) : u = .raw c hc := by
  cases h
  rfl

end Restored

/-- The tokens of the pattern that is put in the place of one with a bracket. -/
def openTokens : List Token :=
  [.raw colon (by decide), .raw slash (by decide), .raw slash (by decide),
    .raw '['.toUInt8 (by decide)]

def closeToken : Token := .raw ']'.toUInt8 (by decide)

def closeTokens (d : UInt8) : List Token := [closeToken, Token.ofByte d]

/-- Source: the three replacements of `PathUtils.cpp` `CPathUtils::PathEscape`, for tokens -/
def restoreBrackets (ts : List Token) : List Token :=
  let ts := replace (openIpv6.map Token.ofByte) openTokens ts
  let ts := replace ((closeIpv6 slash).map Token.ofByte) (closeTokens slash) ts
  replace ((closeIpv6 colon).map Token.ofByte) (closeTokens colon) ts

theorem unescapeBrackets_eq (l : List UInt8) : unescapeBrackets (escaped l) =
    (restoreBrackets (l.map Token.ofByte)).flatMap Token.letters := by
  have hopen : openTokens.flatMap Token.letters = ascii [':', '/', '/', '['] := by decide
  have hcolon : (closeTokens colon).flatMap Token.letters = ascii [']', ':'] := by decide
  have hslash : (closeTokens slash).flatMap Token.letters = ascii [']', '/'] := by decide
  rw [unescapeBrackets, ← escaped_open, ← hopen, ← escaped_close_slash, ← hslash,
    ← escaped_close_colon, ← hcolon]
  rw [escaped, escaped, escaped, escaped, isCode_letters.replace_flatMap searchable_open,
    isCode_letters.replace_flatMap searchable_close_slash,
    isCode_letters.replace_flatMap searchable_close_colon]
  rfl

theorem restored_open : List.Forall₂ Restored (openIpv6.map Token.ofByte) openTokens :=
  .cons (.refl _) (.cons (.refl _) (.cons (.refl _) (.cons (.bracket (.inl rfl) _) .nil)))

theorem restored_close (d : UInt8) :
    List.Forall₂ Restored ((closeIpv6 d).map Token.ofByte) (closeTokens d) :=
  .cons (.bracket (.inr rfl) _) (.cons (.refl _) .nil)

theorem forall₂_trans {a b c : List Token} (h : List.Forall₂ Restored a b)
    (h' : List.Forall₂ Restored b c) : List.Forall₂ Restored a c := by
  induction h generalizing c with
  | nil => exact h'
  | cons hab _ ih =>
    obtain ⟨z, c, hbc, hrest, rfl⟩ := List.forall₂_cons_left_iff.mp h'
    exact .cons (hab.trans hbc) (ih hrest)

theorem map_byte_eq {a b : List Token} (h : List.Forall₂ Restored a b) :
    b.map Token.byte = a.map Token.byte := by
  induction h with
  | nil => rfl
  | cons hab _ ih => rw [List.map_cons, List.map_cons, hab.byte_eq, ih]

/-- Tokens that are no escapes stay. -/
theorem eq_of_restored {a b : List Token} (h : List.Forall₂ Restored a b)
    (ha : ∀ t ∈ a, t ≠ .escape t.byte) : b = a := by
  induction h with
  | nil => rfl
  | cons hab _ ih =>
    rw [ih fun t ht => ha t (List.mem_cons_of_mem _ ht)]
    cases hab with
    | refl => rfl
    | bracket hc hp => exact absurd rfl (ha _ (List.mem_cons_self ..))

theorem restored_restoreBrackets (ts : List Token) :
    List.Forall₂ Restored ts (restoreBrackets ts) := by
  have hopen := forall₂_replace Restored.refl restored_open (List.cons_ne_nil _ _)
  have hclose : ∀ d l, List.Forall₂ Restored l
      (replace ((closeIpv6 d).map Token.ofByte) (closeTokens d) l) :=
    fun d => forall₂_replace Restored.refl (restored_close d) (List.cons_ne_nil _ _)
  exact forall₂_trans (hopen ts) (forall₂_trans (hclose slash _) (hclose colon _))

/-- The result is written for tokens of the source. -/
theorem exists_tokens (s : List UInt8) : ∃ ts, handleIpv6 (escaped s) = ts.flatMap Token.letters ∧
    List.Forall₂ Restored (s.map Token.ofByte) ts := by
  by_cases h : ∃ scheme host rest, Ipv6 s scheme host rest
  · obtain ⟨scheme, host, rest, h⟩ := h
    refine ⟨restoreBrackets ((leftpart scheme host).map Token.ofByte) ++ rest.map Token.ofByte,
      ?_, ?_⟩
    · rw [handleIpv6_eq h, unescapeBrackets_eq, List.flatMap_append]
      rfl
    · have hs : s = leftpart scheme host ++ rest := by
        rw [h.split, leftpart]
        simp
      nth_rewrite 1 [hs]
      rw [List.map_append]
      exact List.rel_append (restored_restoreBrackets _) (List.forall₂_same.mpr fun t _ => .refl t)
  · refine ⟨s.map Token.ofByte, ?_, List.forall₂_same.mpr fun t _ => .refl t⟩
    exact handleIpv6_of_not fun scheme host rest h' => h ⟨scheme, host, rest, h'⟩

/-! ### The way back -/

theorem map_byte_ofByte (s : List UInt8) : (s.map Token.ofByte).map Token.byte = s := by
  rw [List.map_map]
  exact (List.map_congr_left fun c _ => Token.byte_ofByte c).trans (List.map_id s)

theorem infix_of_escaped {p s : List UInt8} (hp : Searchable p) (h : escaped p <:+: escaped s) :
    p <:+: s := by
  have htokens := (isCode_letters.infix_of_flatMap hp h).map Token.byte
  rwa [map_byte_ofByte, map_byte_ofByte] at htokens

/-- `file:///` -/
def fileUrl : List UInt8 := ascii ['f', 'i', 'l', 'e', ':', '/', '/', '/']

/-- Nothing is shortened in a string that has no `file:///` in it. -/
theorem shortenFileUrl_eq {s : List UInt8} (h : ¬ fileUrl <:+: s) :
    shortenFileUrl (escaped s) = escaped s := by
  have hfile : escaped fileUrl = fileUrl := by decide
  have hsearch : Searchable fileUrl := searchable_of_cons hfile (by decide)
  have hno : ∀ p, fileUrl <+: p → ¬ p <:+: escaped s := by
    intro p hpre hwithin
    exact h (infix_of_escaped hsearch (hfile.symm ▸ hpre.isInfix.trans hwithin))
  rw [shortenFileUrl]
  rw [replace_of_absent (hno _ (by decide)), ite_self, replace_of_absent (hno _ (by decide))]

theorem PathEscape_eq {s : List UInt8} (hzero : 0 ∉ s) (hpercent : percent ∉ s)
    (hfile : ¬ fileUrl <:+: s) : PathEscape s = handleIpv6 (escaped s) := by
  have hpasses := passes_eq hpercent
  rw [PathEscape, cString_of_notMem hzero]
  dsimp only at hpasses ⊢
  rw [hpasses]
  exact congrArg handleIpv6 (shortenFileUrl_eq hfile)

/-- **Unescaping takes escaping back.** -/
theorem PathUnescapeA_PathEscape {s : List UInt8} (hzero : 0 ∉ s) (hpercent : percent ∉ s)
    (hfile : ¬ fileUrl <:+: s) : PathUnescapeA (PathEscape s) = s := by
  obtain ⟨ts, hts, hrestored⟩ := exists_tokens s
  have hbytes : ts.map Token.byte = s := (map_byte_eq hrestored).trans (map_byte_ofByte s)
  rw [PathEscape_eq hzero hpercent hfile, hts, PathUnescapeA_eq, written_letters, hbytes]
  · exact cString_of_notMem hzero
  · apply zero_notMem_letters
    rwa [hbytes]

/-! ### The letters of a URL -/

/-- Characters of a URI, escapes and brackets. -/
def IsEscaped : List UInt8 → Prop
  | [] => True
  | c :: rest =>
    if c = percent then
      match rest with
      | x :: y :: r => isHexDigit x = true ∧ isHexDigit y = true ∧ IsEscaped r
      | _ => False
    else (uri_autoescape_chars.getD c.toNat 0 ≠ 0 ∨ IsBracket c) ∧ IsEscaped rest

/-- `://` -/
def separator : List UInt8 := ascii [':', '/', '/']

/-- Up to this character, a string ends with a host part: behind the first `://` there is a bracket,
and no slash. -/
def InHost (front : List UInt8) (c : UInt8) : Prop :=
  ∃ scheme host, front ++ [c] = scheme ++ (openIpv6 ++ host) ∧ ¬ separator <:+: scheme ∧
    slash ∉ host

/-- Characters of a URI and escapes, and brackets in the host part. -/
structure Allowed (ret : List UInt8) : Prop where
  letters : IsEscaped ret
  brackets : ∀ front c back, ret = front ++ c :: back → IsBracket c → InHost front c

/-- When brackets are put back, the first `://[` is the first `://`, and before it no bracket stands
before a colon or a slash. -/
def BracketsInHost (s : List UInt8) : Prop :=
  ∀ scheme host rest, Ipv6 s scheme host rest → ¬ separator <:+: scheme ∧
    ∀ d, d = colon ∨ d = slash → ¬ closeIpv6 d <:+: scheme ++ [colon]

theorem uri_or_bracket {c d : UInt8} {hd : d ≠ percent}
    (h : Restored (Token.ofByte c) (.raw d hd)) :
    uri_autoescape_chars.getD d.toNat 0 ≠ 0 ∨ IsBracket d := by
  unfold Token.ofByte at h
  split at h
  · rename_i huri
    cases h
    exact .inl huri.1
  · cases h with
    | bracket hc _ => exact .inr hc

theorem isEscaped_letters {s : List UInt8} {ts : List Token}
    (h : List.Forall₂ Restored (s.map Token.ofByte) ts) : IsEscaped (ts.flatMap Token.letters) := by
  induction s generalizing ts with
  | nil =>
    obtain rfl := List.forall₂_nil_left_iff.mp h
    exact trivial
  | cons c s ih =>
    obtain ⟨t, ts, ht, hrest, rfl⟩ := List.forall₂_cons_left_iff.mp h
    have hts := ih hrest
    rw [List.flatMap_cons]
    cases t with
    | raw d hd =>
      rw [Token.letters, List.singleton_append, IsEscaped.eq_def]
      dsimp only
      rw [if_neg hd]
      exact ⟨uri_or_bracket ht, hts⟩
    | escape d =>
      obtain ⟨x, hx, y, hy, hformat⟩ := formatHex_eq d
      rw [Token.letters, hformat, List.cons_append, List.cons_append, List.cons_append,
        List.nil_append, IsEscaped.eq_def]
      exact ⟨(uri_szHex x hx).2.2, (uri_szHex y hy).2.2, hts⟩

/-- A letter that is neither a percent sign nor a digit is one of the bytes. -/
theorem mem_bytes_of_mem_letters {a : UInt8} (ha : a ∉ szHex) (hp : a ≠ percent) {ts : List Token}
    (h : a ∈ ts.flatMap Token.letters) : .raw a hp ∈ ts := by
  obtain ⟨t, ht, hmem⟩ := List.mem_flatMap.mp h
  cases t with
  | raw c hc =>
    obtain rfl := List.mem_singleton.mp hmem
    exact ht
  | escape c =>
    rcases List.mem_cons.mp hmem with rfl | hmem
    · exact absurd rfl hp
    · exact absurd (formatHex_mem_szHex c a hmem) ha

theorem IsBracket.facts {c : UInt8} (h : IsBracket c) : c ∉ szHex ∧ c ≠ percent ∧ c ≠ slash ∧
    c ≠ colon ∧ uri_autoescape_chars.getD c.toNat 0 = 0 := by
  rcases h with rfl | rfl
  · decide
  · decide

/-- No bracket is left over before brackets are put back. -/
theorem not_isBracket_of_mem_escaped {s : List UInt8} {c : UInt8} (h : c ∈ escaped s) :
    ¬ IsBracket c := by
  intro hc
  obtain ⟨hhex, hp, -, -, huri⟩ := hc.facts
  obtain ⟨a, -, ha⟩ := List.mem_map.mp (mem_bytes_of_mem_letters hhex hp h)
  unfold Token.ofByte at ha
  split at ha
  · rename_i hand
    obtain rfl := Token.raw.inj ha
    exact hand.1 huri
  · cases ha

/-! ### Brackets in the host part -/

/-- A member of the first list stands in it. -/
theorem split_first {α : Type} {a back m z : List α} {c : α} (h : a ++ c :: back = m ++ z)
    (hz : c ∉ z) : ∃ b, m = a ++ c :: b := by
  rcases List.append_eq_append_iff.mp h with ⟨e, hm, he⟩ | ⟨e, ha, he⟩
  · rcases e with _ | ⟨d, e⟩
    · rw [List.nil_append] at he
      exact absurd (he ▸ List.mem_cons_self ..) hz
    · obtain ⟨rfl, -⟩ := List.cons.inj he
      exact ⟨e, hm⟩
  · exact absurd (he ▸ List.mem_append_right _ (List.mem_cons_self ..)) hz

/-- A member of the middle list only. -/
theorem split_middle {α : Type} {front back x m z : List α} {c : α}
    (h : front ++ c :: back = x ++ (m ++ z)) (hx : c ∉ x) (hz : c ∉ z) :
    ∃ a b, m = a ++ c :: b ∧ front = x ++ a := by
  rcases List.append_eq_append_iff.mp h with ⟨a, hxa, ha⟩ | ⟨a, hfront, ha⟩
  · rcases a with _ | ⟨d, a⟩
    · obtain ⟨b, hb⟩ := split_first (a := []) (m := m) ha hz
      exact ⟨[], b, hb, by rw [hxa, List.append_nil, List.append_nil]⟩
    · obtain ⟨rfl, -⟩ := List.cons.inj ha
      exact absurd (hxa ▸ List.mem_append_right _ (List.mem_cons_self ..)) hx
  · obtain ⟨b, hb⟩ := split_first ha.symm hz
    exact ⟨a, b, hb, hfront⟩

section Host

variable {s scheme host rest : List UInt8}

theorem find_leftpart (h : Ipv6 s scheme host rest) :
    find openIpv6 (leftpart scheme host) = some scheme.length := by
  obtain ⟨front, back, hsplit, hlength, hbefore⟩ := find_eq_some h.first
  obtain ⟨rfl, hback⟩ := List.append_inj (hsplit.symm.trans h.split) hlength
  rw [List.append_cancel_left_eq] at hback
  refine find_of_first fun x y hxy hy hpre => hbefore x y hxy hy (hpre.trans ?_)
  rw [hback]
  exact ⟨rest, by simp⟩

theorem open_ne_nil : openIpv6.map Token.ofByte ≠ [] := List.cons_ne_nil _ _

theorem close_ne_nil (d : UInt8) : (closeIpv6 d).map Token.ofByte ≠ [] := List.cons_ne_nil _ _

/-- The first replacement puts one bracket back. -/
theorem replace_open (h : Ipv6 s scheme host rest) : ∃ ts,
    replace (openIpv6.map Token.ofByte) openTokens ((leftpart scheme host).map Token.ofByte) =
        scheme.map Token.ofByte ++ (openTokens ++ ts) ∧
      List.Forall₂ Restored ((host ++ [slash]).map Token.ofByte) ts := by
  have hfind := (find_map Token.ofByte_injective).trans (find_leftpart h)
  obtain ⟨front, back, hsplit, hlength, hreplace⟩ :=
    replace_of_find (q := openTokens) open_ne_nil hfind
  rw [leftpart, List.map_append, List.map_append] at hsplit
  obtain ⟨rfl, hback⟩ := List.append_inj hsplit.symm (by rw [hlength, List.length_map])
  rw [List.append_cancel_left_eq] at hback
  subst hback
  exact ⟨_, hreplace, forall₂_replace Restored.refl restored_open open_ne_nil _⟩

/-- No bracket before a colon or a slash begins in front of the host. -/
theorem not_prefix_close {d : UInt8} (h : ¬ closeIpv6 d <:+: scheme ++ [colon]) {x y : List Token}
    (hxy : scheme.map Token.ofByte ++ openTokens = x ++ y) (hy : y ≠ []) (l : List Token) :
    ¬ (closeIpv6 d).map Token.ofByte <+: y ++ l := by
  have hopen : Token.ofByte ']'.toUInt8 ∉ openTokens := by decide
  have htokens : ¬ (closeIpv6 d).map Token.ofByte <:+: scheme.map Token.ofByte ++
      [Token.ofByte colon] := by
    intro hwithin
    have hbytes := hwithin.map Token.byte
    rw [← List.map_singleton, ← List.map_append, map_byte_ofByte, map_byte_ofByte] at hbytes
    exact h hbytes
  obtain ⟨t, y, rfl⟩ := List.exists_cons_of_ne_nil hy
  intro hpre
  obtain ⟨rfl, hnext⟩ := List.cons_prefix_cons.mp hpre
  rcases List.append_eq_append_iff.mp hxy with ⟨e, hx, he⟩ | ⟨e, hscheme, he⟩
  · exact hopen (he ▸ List.mem_append_right _ (List.mem_cons_self ..))
  · -- the bracket is in front of `://[`, and what follows it is there or is the colon
    rcases e with _ | ⟨t, e⟩
    · rw [List.nil_append] at he
      exact hopen (he ▸ List.mem_cons_self ..)
    obtain ⟨rfl, rfl⟩ := List.cons.inj he
    apply htokens
    rw [hscheme]
    rcases e with _ | ⟨u, e⟩
    · have hd : Token.ofByte d = Token.ofByte colon := (List.cons_prefix_cons.mp hnext).1
      exact ⟨x, [], by simp [closeIpv6, hd]⟩
    · have hd : Token.ofByte d = u := (List.cons_prefix_cons.mp hnext).1
      exact ⟨x, e ++ [Token.ofByte colon], by simp [closeIpv6, hd]⟩

theorem replace_host {d : UInt8} (h : ¬ closeIpv6 d <:+: scheme ++ [colon]) (l : List Token) :
    replace ((closeIpv6 d).map Token.ofByte) (closeTokens d)
        (scheme.map Token.ofByte ++ (openTokens ++ l)) =
      scheme.map Token.ofByte ++ (openTokens ++
        replace ((closeIpv6 d).map Token.ofByte) (closeTokens d) l) := by
  rw [← List.append_assoc, replace_append fun x y hxy hy => not_prefix_close h hxy hy l,
    List.append_assoc]

theorem escaped_separator : escaped separator = separator := by decide

theorem searchable_separator : Searchable separator :=
  searchable_of_cons escaped_separator (by decide)

/-- The letters of the host hold no slash. -/
theorem slash_notMem_letters {ts : List Token}
    (h : List.Forall₂ Restored (host.map Token.ofByte) ts) (hhost : slash ∉ host) :
    slash ∉ ts.flatMap Token.letters := by
  intro hmem
  have hraw := mem_bytes_of_mem_letters (a := slash) (by decide) (by decide) hmem
  apply hhost
  rw [← map_byte_ofByte host, ← map_byte_eq h]
  exact List.mem_map.mpr ⟨_, hraw, rfl⟩

/-- When only brackets of the host are put back, the result is allowed. -/
theorem allowed_of_host (h : Ipv6 s scheme host rest) (hscheme : ¬ separator <:+: scheme)
    (hclose : ∀ d, d = colon ∨ d = slash → ¬ closeIpv6 d <:+: scheme ++ [colon]) :
    Allowed (handleIpv6 (escaped s)) := by
  obtain ⟨ts, hts, hrestored⟩ := exists_tokens s
  refine ⟨hts ▸ isEscaped_letters hrestored, ?_⟩
  obtain ⟨ts₁, hopen, htokens⟩ := replace_open h
  have hreplace : ∀ d l, List.Forall₂ Restored l
      (replace ((closeIpv6 d).map Token.ofByte) (closeTokens d) l) :=
    fun d => forall₂_replace Restored.refl (restored_close d) (close_ne_nil d)
  have htokens' := forall₂_trans htokens (forall₂_trans (hreplace slash _) (hreplace colon _))
  rw [List.map_append] at htokens'
  obtain ⟨hs, last, hsplit, hhost, hlast⟩ := forall₂_split htokens'
  have hlast : last = [Token.ofByte slash] := eq_of_restored hlast (by decide)
  have hret : handleIpv6 (escaped s) = (escaped scheme ++ separator) ++
      (('['.toUInt8 :: hs.flatMap Token.letters) ++ (slash :: escaped rest)) := by
    rw [handleIpv6_eq h, unescapeBrackets_eq, restoreBrackets]
    rw [hopen, replace_host (hclose slash (.inr rfl)), replace_host (hclose colon (.inl rfl)),
      hsplit, hlast]
    simp only [List.flatMap_append, List.append_assoc]
    rfl
  intro front c back hfront hc
  obtain ⟨-, -, hslash, hcolon, -⟩ := hc.facts
  rw [hret] at hfront
  have hbefore : c ∉ escaped scheme ++ separator := by
    intro hmem
    rcases List.mem_append.mp hmem with hmem | hmem
    · exact not_isBracket_of_mem_escaped hmem hc
    · have hmem : c ∈ [colon, slash, slash] := hmem
      simp [hcolon, hslash] at hmem
  have hbehind : c ∉ slash :: escaped rest := by
    intro hmem
    rcases List.mem_cons.mp hmem with heq | hmem
    · exact hslash heq
    · exact not_isBracket_of_mem_escaped hmem hc
  obtain ⟨a, b, hmiddle, rfl⟩ := split_middle hfront.symm hbefore hbehind
  obtain ⟨host', ha, hpre⟩ : ∃ host', a ++ [c] = '['.toUInt8 :: host' ∧
      host' <+: hs.flatMap Token.letters := by
    rcases a with _ | ⟨z, a⟩
    · obtain ⟨rfl, -⟩ := List.cons.inj hmiddle
      exact ⟨[], rfl, List.nil_prefix⟩
    · obtain ⟨rfl, ha⟩ := List.cons.inj hmiddle
      refine ⟨a ++ [c], rfl, b, ?_⟩
      rw [List.append_assoc]
      exact ha.symm
  refine ⟨escaped scheme, host', ?_, fun hwithin => ?_, fun hmem => ?_⟩
  · rw [List.append_assoc, ha, List.append_assoc]
    rfl
  · rw [← escaped_separator] at hwithin
    exact hscheme (infix_of_escaped searchable_separator hwithin)
  · exact slash_notMem_letters hhost h.slash_notMem (hpre.subset hmem)

/-- A bracket that was put back stays. -/
theorem exists_raw {a b l : List Token} {c : UInt8} {hc : c ≠ percent}
    (h : List.Forall₂ Restored (a ++ .raw c hc :: b) l) :
    ∃ a' b', l = a' ++ .raw c hc :: b' ∧ a'.length = a.length := by
  obtain ⟨a', b', rfl, ha, hb⟩ := forall₂_split h
  obtain ⟨t, b'', ht, -, rfl⟩ := List.forall₂_cons_left_iff.mp hb
  exact ⟨a', b'', by rw [ht.raw_eq], ha.length_eq.symm⟩

/-- Where a bracket stands before a colon or a slash, this or an earlier one is put back. -/
theorem exists_close (d : UInt8) (x y : List Token) : ∃ a b,
    replace ((closeIpv6 d).map Token.ofByte) (closeTokens d)
        (x ++ ((closeIpv6 d).map Token.ofByte ++ y)) = a ++ closeToken :: b ∧
      a.length ≤ x.length := by
  obtain ⟨n, hn, hfind⟩ := find_le (p := (closeIpv6 d).map Token.ofByte) x y
  obtain ⟨front, back, -, hlength, hreplace⟩ :=
    replace_of_find (q := closeTokens d) (close_ne_nil d) hfind
  exact ⟨front, _, hreplace, by omega⟩

/-- Where a bracket stands before a colon or a slash in front of `://[`, one is put back there. -/
theorem exists_restored (h : Ipv6 s scheme host rest) {d : UInt8} (hd : d = colon ∨ d = slash)
    (hwithin : closeIpv6 d <:+: scheme ++ [colon]) :
    ∃ a b, restoreBrackets ((leftpart scheme host).map Token.ofByte) = a ++ closeToken :: b ∧
      a.length < scheme.length := by
  obtain ⟨ts, hopen, -⟩ := replace_open h
  obtain ⟨x, y, hxy⟩ := hwithin
  have hlength := congrArg List.length hxy
  simp only [List.length_append, closeIpv6, List.length_cons, List.length_nil] at hlength
  have hreplace : ∀ l, List.Forall₂ Restored l
      (replace ((closeIpv6 colon).map Token.ofByte) (closeTokens colon) l) :=
    forall₂_replace Restored.refl (restored_close colon) (close_ne_nil colon)
  -- the bracket and what follows it, among all tokens
  have hsplit : scheme.map Token.ofByte ++ (openTokens ++ ts) = x.map Token.ofByte ++
      ((closeIpv6 d).map Token.ofByte ++ (y.map Token.ofByte ++ (openTokens.tail ++ ts))) := by
    have hmap := congrArg (fun l => l.map Token.ofByte ++ (openTokens.tail ++ ts)) hxy
    simp only [List.map_append, List.append_assoc] at hmap
    exact hmap.symm
  rw [restoreBrackets, hopen, hsplit]
  rcases hd with rfl | rfl
  · -- it may be put back by the replacement for slashes, too
    have hslash := forall₂_replace Restored.refl (restored_close slash) (close_ne_nil slash)
      (x.map Token.ofByte ++ ((closeIpv6 colon).map Token.ofByte ++
        (y.map Token.ofByte ++ (openTokens.tail ++ ts))))
    obtain ⟨x', l, hl, hx', hrest⟩ := forall₂_split hslash
    obtain ⟨u, l₁, hu, hnext, rfl⟩ := List.forall₂_cons_left_iff.mp hrest
    obtain ⟨v, l₂, hv, -, rfl⟩ := List.forall₂_cons_left_iff.mp hnext
    have hcolon : Token.ofByte colon = .raw colon (by decide) := by decide
    rw [hcolon] at hv
    obtain rfl := hv.raw_eq
    have hlength' := hx'.length_eq
    rw [List.length_map] at hlength'
    rw [hl]
    by_cases hescape : u = Token.ofByte ']'.toUInt8
    · obtain ⟨a, b, hab, hle⟩ := exists_close colon x' l₂
      subst hescape
      exact ⟨a, b, hab, by omega⟩
    · have hraw : u = closeToken := by
        have hbracket : Token.ofByte ']'.toUInt8 = .escape ']'.toUInt8 := by decide
        rw [hbracket] at hu hescape
        cases hu with
        | refl => exact absurd rfl hescape
        | bracket hc hp => rfl
      subst hraw
      obtain ⟨a, b, hab, hlength₂⟩ := exists_raw (hreplace (x' ++ closeToken :: _))
      exact ⟨a, b, hab, by omega⟩
  · obtain ⟨a, b, hab, hle⟩ := exists_close slash (x.map Token.ofByte)
      (y.map Token.ofByte ++ (openTokens.tail ++ ts))
    obtain ⟨a', b', hab', hlength'⟩ := exists_raw (hreplace (a ++ closeToken :: b))
    rw [List.length_map] at hle
    rw [hab]
    exact ⟨a', b', hab', by omega⟩

/-- Behind the first `://` there is no other one in the host part. -/
theorem front_eq_scheme {front scheme' host' : List UInt8}
    (h : (front ++ separator) ++ ['['.toUInt8] = scheme' ++ (openIpv6 ++ host'))
    (hslash : slash ∉ host') : front = scheme' := by
  rcases List.eq_nil_or_concat host' with rfl | ⟨g, e, rfl⟩
  · have hopen : scheme' ++ (openIpv6 ++ []) = (scheme' ++ separator) ++ ['['.toUInt8] := by
      simp [openIpv6, separator, ascii]
    rw [hopen] at h
    exact List.append_cancel_right (List.append_cancel_right h)
  · rw [List.concat_eq_append] at h hslash
    rw [← List.append_assoc openIpv6, ← List.append_assoc scheme'] at h
    obtain ⟨h, -⟩ := List.append_inj' h rfl
    have hfront : front ++ separator = (front ++ [colon, slash]) ++ [slash] := by
      rw [List.append_assoc]
      rfl
    rw [hfront] at h
    rcases List.eq_nil_or_concat g with rfl | ⟨g', e', rfl⟩
    · have hopen : scheme' ++ (openIpv6 ++ []) = (scheme' ++ separator) ++ ['['.toUInt8] := by
        simp [openIpv6, separator, ascii]
      rw [hopen] at h
      exact absurd (List.append_inj' h rfl).2 (by decide)
    · rw [List.concat_eq_append] at h hslash
      rw [← List.append_assoc openIpv6, ← List.append_assoc scheme'] at h
      obtain ⟨rfl, -⟩ := List.cons.inj (List.append_inj' h rfl).2
      exact absurd (by simp) hslash

/-- Up to a character of the host part there is a `://`. -/
theorem separator_infix {front scheme' host' : List UInt8} {c : UInt8}
    (h : front ++ [c] = scheme' ++ (openIpv6 ++ host')) : separator <:+: front := by
  obtain ⟨g, e, hge⟩ : ∃ g e, '['.toUInt8 :: host' = g ++ [e] := by
    obtain ⟨g, e, hge⟩ := (List.eq_nil_or_concat ('['.toUInt8 :: host')).resolve_left
      (List.cons_ne_nil _ _)
    exact ⟨g, e, by rw [hge, List.concat_eq_append]⟩
  have hopen : scheme' ++ (openIpv6 ++ host') = (scheme' ++ (separator ++ g)) ++ [e] := by
    have hcons : openIpv6 ++ host' = separator ++ ('['.toUInt8 :: host') := rfl
    rw [hcons, hge, List.append_assoc, List.append_assoc]
  rw [hopen] at h
  exact ⟨scheme', g, by rw [List.append_assoc, (List.append_inj' h rfl).1]⟩

/-- An allowed result is one in which only brackets of the host were put back. -/
theorem host_of_allowed (h : Ipv6 s scheme host rest)
    (hallowed : Allowed (handleIpv6 (escaped s))) : ¬ separator <:+: scheme ∧
      ∀ d, d = colon ∨ d = slash → ¬ closeIpv6 d <:+: scheme ++ [colon] := by
  have hret := handleIpv6_eq h
  rw [unescapeBrackets_eq] at hret
  have hseparator : ¬ separator <:+: scheme := by
    rintro ⟨x, y, rfl⟩
    -- the bracket of `://[` is behind another `://` and two slashes
    obtain ⟨ts, hopen, -⟩ := replace_open h
    have hrestored : List.Forall₂ Restored
        ((x ++ separator ++ y).map Token.ofByte ++ (openTokens ++ ts))
        (restoreBrackets ((leftpart (x ++ separator ++ y) host).map Token.ofByte)) := by
      rw [restoreBrackets, hopen]
      exact forall₂_trans
        (forall₂_replace Restored.refl (restored_close slash) (close_ne_nil slash) _)
        (forall₂_replace Restored.refl (restored_close colon) (close_ne_nil colon) _)
    obtain ⟨front, back, hfront, hscheme, hback⟩ := forall₂_split hrestored
    obtain ⟨mid, last, rfl, hmid, -⟩ := forall₂_split hback
    have hmid : mid = openTokens := eq_of_restored hmid (by decide)
    rw [List.map_append, List.map_append, List.append_assoc] at hscheme
    obtain ⟨x', z, rfl, -, hz⟩ := forall₂_split hscheme
    obtain ⟨mid', y', rfl, hmid', -⟩ := forall₂_split hz
    have hmid' : mid' = separator.map Token.ofByte := eq_of_restored hmid' (by decide)
    have hletters : handleIpv6 (escaped s) =
        ((x' ++ (mid' ++ y')).flatMap Token.letters ++ separator) ++
          '['.toUInt8 :: (last.flatMap Token.letters ++ escaped rest) := by
      rw [hret, hfront, hmid]
      simp only [List.flatMap_append, List.append_assoc]
      rfl
    obtain ⟨scheme', host', hin, hno, hslash⟩ := hallowed.brackets _ _ _ hletters (.inl rfl)
    apply hno
    rw [← front_eq_scheme hin hslash, List.flatMap_append, List.flatMap_append, hmid']
    exact ⟨_, _, by rw [List.append_assoc]; rfl⟩
  refine ⟨hseparator, fun d hd hwithin => ?_⟩
  obtain ⟨a, b, hab, hlt⟩ := exists_restored h hd hwithin
  have hbytes := map_byte_eq (restored_restoreBrackets ((leftpart scheme host).map Token.ofByte))
  rw [hab, map_byte_ofByte, List.map_append] at hbytes
  have hscheme : a.map Token.byte <+: scheme :=
    List.prefix_of_prefix_length_le ⟨_, hbytes⟩ (List.prefix_append _ _)
      (by rw [List.length_map]; omega)
  rw [hab, List.flatMap_append, List.flatMap_cons, List.append_assoc] at hret
  obtain ⟨scheme', host', hin, -, -⟩ := hallowed.brackets _ _ _ hret (.inr rfl)
  have hletters := separator_infix hin
  rw [← escaped_separator] at hletters
  have htokens := (isCode_letters.infix_of_flatMap searchable_separator hletters).map Token.byte
  rw [map_byte_ofByte] at htokens
  exact hseparator (htokens.trans hscheme.isInfix)

end Host

/-- **The result is allowed iff brackets are put back in the host part only.** Unescaping takes
escaping back in any case. -/
theorem pathEscape_iff (s : List UInt8) (hzero : 0 ∉ s) (hpercent : percent ∉ s)
    (hfile : ¬ fileUrl <:+: s) :
    Allowed (PathEscape s) ∧ PathUnescapeA (PathEscape s) = s ↔ BracketsInHost s := by
  rw [and_iff_left (PathUnescapeA_PathEscape hzero hpercent hfile),
    PathEscape_eq hzero hpercent hfile]
  constructor
  · intro hallowed scheme host rest h
    exact host_of_allowed h hallowed
  · intro hhost
    by_cases h : ∃ scheme host rest, Ipv6 s scheme host rest
    · obtain ⟨scheme, host, rest, h⟩ := h
      obtain ⟨hscheme, hclose⟩ := hhost scheme host rest h
      exact allowed_of_host h hscheme hclose
    · obtain ⟨ts, hts, hrestored⟩ := exists_tokens s
      refine ⟨hts ▸ isEscaped_letters hrestored, fun front c back hfront hc => ?_⟩
      rw [handleIpv6_of_not fun scheme host rest h' => h ⟨scheme, host, rest, h'⟩] at hfront
      refine absurd hc (not_isBracket_of_mem_escaped (s := s) ?_)
      rw [hfront]
      exact List.mem_append_right _ (List.mem_cons_self ..)

/-- `http://[::1]/p` -/
theorem pathEscape_iff_loopback :
    let s := ascii ['h', 't', 't', 'p', ':', '/', '/', '[', ':', ':', '1', ']', '/', 'p']
    Allowed (PathEscape s) ∧ PathUnescapeA (PathEscape s) = s ↔ BracketsInHost s :=
  pathEscape_iff _ (by decide) (by decide) (by decide)

/-- The bracket in the path of `http://h/x]/y://[a]/z` is put back. -/
theorem pathEscape_bracket_in_path : ¬ ∀ s, 0 ∉ s → percent ∉ s → ¬ fileUrl <:+: s →
    Allowed (PathEscape s) ∧ PathUnescapeA (PathEscape s) = s := by
  intro hall
  have h := hall (ascii ['h', 't', 't', 'p', ':', '/', '/', 'h', '/', 'x', ']', '/', 'y', ':', '/',
    '/', '[', 'a', ']', '/', 'z']) (by decide) (by decide) (by decide)
  rw [PathEscape_eq (by decide) (by decide) (by decide)] at h
  have hbranch : Ipv6 _ (ascii ['h', 't', 't', 'p', ':', '/', '/', 'h', '/', 'x', ']', '/', 'y'])
      (ascii ['a', ']']) (ascii ['z']) :=
    ⟨rfl, by decide, by decide, by decide, by decide⟩
  exact (host_of_allowed hbranch h.1).1 (by decide)

end TortoiseSvn.CPathUtils
