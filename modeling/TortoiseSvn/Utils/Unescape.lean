import Mathlib.Data.List.GetD
import Mathlib.Tactic
import TortoiseSvn.Lib.LittleEndian

/-!
# Percent decoding in place

`Unescape` decodes a string in its own buffer, with one pointer for what is read and another for
what is written. `written` is the list of bytes that it writes; `decoded` is what decoding means:
two hex digits behind a percent sign stand for a byte, every other byte stands for itself. A stray
percent sign stays in the string only when the two bytes behind it are left alone as well.

Main results: `unescape_buffer`, `unescape_eq_decoded_iff`.
-/

namespace TortoiseSvn.CPathUtils

open Lib (forall_byte)

/-! ### The code -/

/-- A buffer and the two pointers into it.
Source: `PathUtils.cpp` `Unescape` -/
structure Unescaping where
  psz : List UInt8
  pszSource : ℕ
  pszDest : ℕ
  deriving Repr, DecidableEq

def percent : UInt8 := '%'.toUInt8

/-- Source: the C library's `toupper`, in the "C" locale -/
def toupper (c : UInt8) : UInt8 := if 'a'.toUInt8 ≤ c ∧ c ≤ 'z'.toUInt8 then c - 32 else c

/-- Source: `PathUtils.cpp` `Unescape` -/
def szHex : List UInt8 := ['0', '1', '2', '3', '4', '5', '6', '7', '8', '9', 'A', 'B', 'C', 'D', 'E',
  'F'].map Char.toUInt8

/-- The position of the first such character; the terminator is one of the characters.
Source: the C library's `strchr` -/
def strchr (s : List UInt8) (c : UInt8) : Option ℕ := (s ++ [0]).idxOf? c

namespace Unescaping

/-- The character at some position. -/
def char (p : Unescaping) (i : ℕ) : UInt8 := p.psz.getD i 0

/-- The buffer with one character in upper case. -/
def upper (p : Unescaping) (i : ℕ) : Unescaping := { p with psz := p.psz.set i (toupper (p.char i)) }

/-- `*pszDest++ = nValue`, and go on reading at some position. -/
def put (p : Unescaping) (nValue : UInt8) (next : ℕ) : Unescaping :=
  { psz := p.psz.set p.pszDest nValue, pszSource := next, pszDest := p.pszDest + 1 }

/-- One round of the loop; `none` when it is left.
Source: `PathUtils.cpp` `Unescape` -/
def round (p : Unescaping) : Option Unescaping :=
  if p.char p.pszSource = 0 ∨ p.char p.pszDest = 0 then none
  else if p.char p.pszSource = percent then
    if p.char (p.pszSource + 1) = 0 ∨ p.char (p.pszSource + 2) = 0 then none
    else
      let q := p.upper (p.pszSource + 1)
      match strchr szHex (q.char (p.pszSource + 1)) with
      | some high =>
        let r := q.upper (p.pszSource + 2)
        match strchr szHex (r.char (p.pszSource + 2)) with
        | some low => some (r.put (UInt8.ofNat (high <<< 4 + low)) (p.pszSource + 3))
        | none => some (r.put '?'.toUInt8 (p.pszSource + 3))
      | none => some (q.put (q.char p.pszSource) (p.pszSource + 1))
  else some (p.put (p.char p.pszSource) (p.pszSource + 1))

@[simp] theorem length_upper (p : Unescaping) (i : ℕ) : (p.upper i).psz.length = p.psz.length :=
  List.length_set

@[simp] theorem length_put (p : Unescaping) (v : UInt8) (i : ℕ) :
    (p.put v i).psz.length = p.psz.length := List.length_set

/-- There is nothing behind the buffer. -/
theorem lt_of_char {p : Unescaping} {i : ℕ} (h : p.char i ≠ 0) : i < p.psz.length := by
  by_contra hi
  exact h (List.getD_eq_default _ _ (not_lt.mp hi))

/-- Every round reads on, in a buffer of the same size. -/
theorem round_progress {p q : Unescaping} (h : p.round = some q) :
    q.psz.length = p.psz.length ∧ p.pszSource < q.pszSource ∧ p.pszSource < p.psz.length := by
  unfold round at h
  split_ifs at h with hend hpercent hshort
  · have hin := lt_of_char (not_or.mp hend).1
    dsimp only at h
    split at h
    · split at h
      · obtain rfl := Option.some.inj h
        exact ⟨by simp, by simp [put], hin⟩
      · obtain rfl := Option.some.inj h
        exact ⟨by simp, by simp [put], hin⟩
    · obtain rfl := Option.some.inj h
      exact ⟨by simp, by simp [put], hin⟩
  · obtain rfl := Option.some.inj h
    exact ⟨by simp, by simp [put], lt_of_char (not_or.mp hend).1⟩

/-- Source: `PathUtils.cpp` `Unescape` -/
def loop (p : Unescaping) : Unescaping :=
  match _ : p.round with
  | none => p
  | some q => q.loop
termination_by p.psz.length - p.pszSource
decreasing_by
  obtain ⟨hlength, hnext, hin⟩ := round_progress ‹_›
  omega

end Unescaping

/-- The buffer and the position of the terminator that was written.
Source: `PathUtils.cpp` `Unescape` -/
def Unescape (psz : List UInt8) : List UInt8 × ℕ :=
  let p := Unescaping.loop ⟨psz, 0, 0⟩
  (p.psz.set p.pszDest 0, p.pszDest)

/-- The string in a buffer. -/
def cString (psz : List UInt8) : List UInt8 := psz.takeWhile (· ≠ 0)

/-! ### What is written -/

/-- The number that a hex digit in either case stands for. -/
def hexValue (c : UInt8) : Option ℕ :=
  if '0'.toUInt8 ≤ c ∧ c ≤ '9'.toUInt8 then some (c.toNat - '0'.toNat)
  else if 'A'.toUInt8 ≤ c ∧ c ≤ 'F'.toUInt8 then some (c.toNat - 'A'.toNat + 10)
  else if 'a'.toUInt8 ≤ c ∧ c ≤ 'f'.toUInt8 then some (c.toNat - 'a'.toNat + 10)
  else none

/-- The byte for two digits. -/
def hexByte (high low : ℕ) : UInt8 := UInt8.ofNat (16 * high + low)

/-- The bytes that are written for some bytes of the source, the first of which may have been put
in upper case. -/
def written : Bool → List UInt8 → List UInt8
  | _, [] => []
  | up, c :: rest =>
    if c = percent then
      match rest with
      | h :: l :: r =>
        match hexValue h with
        | some high =>
          match hexValue l with
          | some low => hexByte high low :: written false r
          | none => '?'.toUInt8 :: written false r
        | none => percent :: written true (h :: l :: r)
      | _ => []
    else (if up then toupper c else c) :: written false rest

/-- Two hex digits behind a percent sign stand for a byte, if it is not the terminator. Every other
byte stands for itself. -/
def decoded : List UInt8 → List UInt8
  | c :: h :: l :: r =>
    match hexValue h, hexValue l with
    | some high, some low =>
      if c = percent ∧ hexByte high low ≠ 0 then hexByte high low :: decoded r
      else c :: decoded (h :: l :: r)
    | _, _ => c :: decoded (h :: l :: r)
  | c :: r => c :: decoded r
  | [] => []

/-- Every percent sign has two bytes behind it. Either they are hex digits of a byte other than the
terminator, or the first of them is neither a hex digit nor a lower-case letter. -/
def Clean : List UInt8 → Prop
  | c :: h :: l :: r =>
    if c = percent then
      match hexValue h with
      | some high => (∃ low, hexValue l = some low ∧ hexByte high low ≠ 0) ∧ Clean r
      | none => toupper h = h ∧ Clean (h :: l :: r)
    else Clean (h :: l :: r)
  | c :: r => c ≠ percent ∧ Clean r
  | [] => True

/-! ### Single bytes -/

@[simp] theorem percent_ne_zero : percent ≠ 0 := by decide

@[simp] theorem toupper_percent : toupper percent = percent := by decide

attribute [local simp] written decoded Clean

/-- What holds of all characters, by enumeration. -/
theorem toupper_cases : ∀ c, (toupper c = 0 ↔ c = 0) ∧ (toupper c = percent ↔ c = percent) ∧
    (c ≠ 0 → strchr szHex (toupper c) = hexValue c) := forall_byte (by decide +kernel)

theorem toupper_eq_zero (c : UInt8) : toupper c = 0 ↔ c = 0 := (toupper_cases c).1

theorem toupper_eq_percent (c : UInt8) : toupper c = percent ↔ c = percent :=
  (toupper_cases c).2.1

/-- The digits of the code are the hex digits in either case. -/
theorem strchr_szHex (c : UInt8) : c ≠ 0 → strchr szHex (toupper c) = hexValue c :=
  (toupper_cases c).2.2

theorem shiftLeft_add {high low : ℕ} : UInt8.ofNat (high <<< 4 + low) = hexByte high low := by
  rw [hexByte, Nat.shiftLeft_eq, mul_comm]

/-! ### The equations of `written` -/

@[simp] theorem written_nil (up : Bool) : written up [] = [] := by rw [written.eq_def]

theorem written_of_ne {c : UInt8} (hc : c ≠ percent) (up : Bool) (rest : List UInt8) :
    written up (c :: rest) = (if up then toupper c else c) :: written false rest := by
  rw [written.eq_def]
  exact if_neg hc

/-- Nothing is left to do when the two digits cannot be there. -/
theorem written_short {rest : List UInt8} (hrest : rest.length < 2) (up : Bool) :
    written up (percent :: rest) = [] := by
  rw [written.eq_def]
  rcases rest with _ | ⟨h, _ | ⟨l, r⟩⟩
  · rfl
  · rfl
  · simp at hrest

theorem written_percent (h l : UInt8) (r : List UInt8) (up : Bool) :
    written up (percent :: h :: l :: r) =
      match hexValue h with
      | some high => (((hexValue l).map (hexByte high)).getD '?'.toUInt8) :: written false r
      | none => percent :: written true (h :: l :: r) := by
  rw [written.eq_def]
  simp only [if_true]
  rcases hexValue h with _ | high
  · rfl
  · rcases hexValue l with _ | low <;> rfl

theorem written_upper (c : UInt8) (rest : List UInt8) :
    written true (c :: rest) = written false (toupper c :: rest) := by
  by_cases hc : c = percent
  · subst hc
    rw [toupper_percent, written.eq_def, written.eq_def]
    simp only [if_true]
  · rw [written_of_ne hc, written_of_ne (mt (toupper_eq_percent c).mp hc)]
    rfl

/-! ### The loop -/

namespace Unescaping

/-- Some bytes are written, some were read, some are left; the terminator is at its place. -/
structure Reading (p : Unescaping) (w g t : List UInt8) : Prop where
  psz : p.psz = w ++ (g ++ (t ++ [0]))
  pszDest : p.pszDest = w.length
  pszSource : p.pszSource = w.length + g.length
  nonzero : 0 ∉ g ++ t

namespace Reading

variable {p : Unescaping} {w g t : List UInt8}

theorem char_source (h : Reading p w g t) (i : ℕ) : p.char (p.pszSource + i) = t.getD i 0 := by
  rw [char, h.psz, h.pszSource, List.getD_append_right _ _ _ _ (by omega),
    List.getD_append_right _ _ _ _ (by omega),
    show w.length + g.length + i - w.length - g.length = i by omega]
  rcases lt_or_ge i t.length with hi | hi
  · exact List.getD_append _ _ _ _ hi
  · rw [List.getD_append_right _ _ _ _ hi, List.getD_eq_default t 0 hi]
    rcases i - t.length with _ | n <;> rfl

/-- The place that is written next holds a byte that was read, or the one to be read next. -/
theorem char_dest (h : Reading p w g t) (ht : t ≠ []) : p.char p.pszDest ≠ 0 := by
  rw [char, h.psz, h.pszDest, List.getD_append_right _ _ _ _ le_rfl, Nat.sub_self]
  have hmem := h.nonzero
  rcases g with _ | ⟨a, g⟩
  · rcases t with _ | ⟨c, r⟩
    · exact absurd rfl ht
    · rintro rfl
      exact hmem (List.mem_cons_self ..)
  · rintro rfl
    exact hmem (List.mem_cons_self ..)

theorem upper (h : Reading p w g t) {i : ℕ} (hi : i < t.length) :
    Reading (p.upper (p.pszSource + i)) w g (t.set i (toupper (t.getD i 0))) := by
  refine ⟨?_, h.pszDest, h.pszSource, ?_⟩
  · rw [Unescaping.upper, h.char_source, h.psz, h.pszSource, List.set_append_right _ _ (by omega),
      List.set_append_right _ _ (by omega),
      show w.length + g.length + i - w.length - g.length = i by omega, List.set_append_left _ _ hi]
  · intro hmem
    rcases List.mem_append.mp hmem with hg | ht
    · exact h.nonzero (List.mem_append_left _ hg)
    · rcases List.mem_or_eq_of_mem_set ht with ht | hzero
      · exact h.nonzero (List.mem_append_right _ ht)
      · rw [eq_comm, toupper_eq_zero, List.getD_eq_getElem _ _ hi] at hzero
        exact h.nonzero (List.mem_append_right _ (hzero ▸ List.getElem_mem hi))

/-- A byte is written for some bytes that are read. -/
theorem put {a : List UInt8} (h : Reading p w g (a ++ t)) (ha : a ≠ []) (v : UInt8) {i : ℕ}
    (hi : i = p.pszSource + a.length) : Reading (p.put v i) (w ++ [v]) (g ++ a).tail t := by
  obtain ⟨b, bs, hb⟩ := List.exists_cons_of_ne_nil (List.append_ne_nil_of_right_ne_nil g ha)
  have hlength := congrArg List.length hb
  simp only [List.length_append, List.length_cons] at hlength
  have hmem := h.nonzero
  rw [← List.append_assoc, hb] at hmem
  refine ⟨?_, ?_, ?_, ?_⟩
  · rw [Unescaping.put, h.psz, h.pszDest, List.set_append_right _ _ le_rfl, Nat.sub_self, hb]
    rw [List.append_assoc, ← List.append_assoc g, hb]
    simp
  · simp [Unescaping.put, h.pszDest]
  · simp [Unescaping.put, hi, h.pszSource, hb]
    omega
  · rw [hb]
    exact fun hz => hmem (List.mem_cons_of_mem _ hz)

theorem ne_zero (h : Reading p w g t) {c : UInt8} (hc : c ∈ t) : c ≠ 0 :=
  fun hz => h.nonzero (List.mem_append_right _ (hz ▸ hc))

theorem round_end (h : Reading p w g []) : p.round = none := if_pos (.inl (h.char_source 0))

/-- The loop goes on where there is a byte to read. -/
theorem round_eq {c : UInt8} {r : List UInt8} (h : Reading p w g (c :: r)) :
    ¬ (p.char p.pszSource = 0 ∨ p.char p.pszDest = 0) ∧ p.char p.pszSource = c := by
  have hc : p.char p.pszSource = c := h.char_source 0
  refine ⟨not_or.mpr ⟨?_, h.char_dest (List.cons_ne_nil _ _)⟩, hc⟩
  rw [hc]
  exact h.ne_zero (List.mem_cons_self ..)

theorem round_plain {c : UInt8} {r : List UInt8} (h : Reading p w g (c :: r)) (hc : c ≠ percent) :
    ∃ q g', p.round = some q ∧ Reading q (w ++ [c]) g' r := by
  obtain ⟨hgo, hchar⟩ := h.round_eq
  refine ⟨_, _, ?_, h.put (a := [c]) (List.cons_ne_nil _ _) c rfl⟩
  rw [round, if_neg hgo, hchar, if_neg hc]
  rfl

theorem round_short {r : List UInt8} (h : Reading p w g (percent :: r)) (hr : r.length < 2) :
    p.round = none := by
  obtain ⟨hgo, hchar⟩ := h.round_eq
  rw [round, if_neg hgo, if_pos hchar, if_pos]
  rw [h.char_source, h.char_source]
  rcases r with _ | ⟨a, _ | ⟨b, r⟩⟩
  · exact .inl rfl
  · exact .inr rfl
  · simp at hr

section Escape

variable {x y : UInt8} {r : List UInt8}

/-- A percent sign with two bytes behind it: the first of them is put in upper case. -/
theorem round_percent (h : Reading p w g (percent :: x :: y :: r)) :
    let q := p.upper (p.pszSource + 1)
    Reading q w g (percent :: toupper x :: y :: r) ∧ p.round = (match hexValue x with
      | some high =>
        match hexValue y with
        | some low => some ((q.upper (p.pszSource + 2)).put (hexByte high low) (p.pszSource + 3))
        | none => some ((q.upper (p.pszSource + 2)).put '?'.toUInt8 (p.pszSource + 3))
      | none => some (q.put percent (p.pszSource + 1))) := by
  intro q
  have hq : Reading q w g (percent :: toupper x :: y :: r) := h.upper (i := 1) (by simp)
  have hr : Reading (q.upper (p.pszSource + 2)) w g (percent :: toupper x :: toupper y :: r) :=
    hq.upper (i := 2) (by simp)
  have hx : x ≠ 0 := h.ne_zero (by simp)
  have hy : y ≠ 0 := h.ne_zero (by simp)
  have hsource : q.char p.pszSource = percent := hq.char_source 0
  have hhigh : q.char (p.pszSource + 1) = toupper x := hq.char_source 1
  have hlow : (q.upper (p.pszSource + 2)).char (p.pszSource + 2) = toupper y := hr.char_source 2
  obtain ⟨hgo, hchar⟩ := h.round_eq
  refine ⟨hq, ?_⟩
  rw [round, if_neg hgo, if_pos hchar, if_neg]
  · dsimp only
    rw [show p.upper (p.pszSource + 1) = q from rfl, hhigh, hsource, strchr_szHex x hx, hlow,
      strchr_szHex y hy]
    simp only [shiftLeft_add]
  · rw [h.char_source 1, h.char_source 2]
    exact not_or.mpr ⟨hx, hy⟩

theorem round_escape (h : Reading p w g (percent :: x :: y :: r)) {high : ℕ}
    (hx : hexValue x = some high) : ∃ q g', p.round = some q ∧
      Reading q (w ++ [((hexValue y).map (hexByte high)).getD '?'.toUInt8]) g' r := by
  obtain ⟨hq, hround⟩ := h.round_percent
  have hr := hq.upper (i := 2) (by simp)
  refine ⟨_, _, ?_, hr.put (a := [percent, toupper x, toupper y]) (List.cons_ne_nil _ _) _ rfl⟩
  rw [hround, hx]
  rcases hexValue y with _ | low <;> rfl

theorem round_stray (h : Reading p w g (percent :: x :: y :: r)) (hx : hexValue x = none) :
    ∃ q g', p.round = some q ∧ Reading q (w ++ [percent]) g' (toupper x :: y :: r) := by
  obtain ⟨hq, hround⟩ := h.round_percent
  refine ⟨_, _, ?_, hq.put (a := [percent]) (List.cons_ne_nil _ _) percent rfl⟩
  rw [hround, hx]
  rfl

end Escape

end Reading

theorem loop_of_none {p : Unescaping} (h : p.round = none) : p.loop = p := by
  rw [loop]
  split
  · rfl
  · simp_all

theorem loop_of_some {p q : Unescaping} (h : p.round = some q) : p.loop = q.loop := by
  rw [loop]
  split
  · simp_all
  · rw [Option.some.inj (h.symm.trans ‹_›)]

theorem length_loop (p : Unescaping) : p.loop.psz.length = p.psz.length := by
  induction p using loop.induct with
  | case1 p hround => rw [loop_of_none hround]
  | case2 p q hround ih => rw [loop_of_some hround, ih, (round_progress hround).1]

/-- The loop writes the bytes of `written` behind those it has written already. -/
theorem loop_spec {p : Unescaping} {w g t : List UInt8} (h : Reading p w g t) :
    ∃ g' t', Reading p.loop (w ++ written false t) g' t' := by
  induction hn : t.length using Nat.strong_induction_on generalizing p w g t with
  | _ n ih =>
    -- one more round, which writes one byte and leaves fewer to be read
    have hnext : ∀ {q : Unescaping} {v : UInt8} {g' r : List UInt8}, p.round = some q →
        Reading q (w ++ [v]) g' r → r.length < t.length → written false t = v :: written false r →
        ∃ g' t', Reading p.loop (w ++ written false t) g' t' := by
      intro q v g' r hround hq hlt hw
      obtain ⟨g'', t', hloop⟩ := ih r.length (hn ▸ hlt) hq rfl
      rw [List.append_assoc, List.singleton_append] at hloop
      rw [loop_of_some hround, hw]
      exact ⟨g'', t', hloop⟩
    have hstop : p.round = none → written false t = [] →
        ∃ g' t', Reading p.loop (w ++ written false t) g' t' := by
      intro hround hw
      rw [loop_of_none hround, hw, List.append_nil]
      exact ⟨g, t, h⟩
    rcases t with _ | ⟨c, rest⟩
    · exact hstop h.round_end (written_nil _)
    · by_cases hc : c = percent
      · subst hc
        rcases lt_or_ge rest.length 2 with hrest | hrest
        · exact hstop (h.round_short hrest) (written_short hrest _)
        · obtain ⟨x, y, r, rfl⟩ : ∃ x y r, rest = x :: y :: r := by
            rcases rest with _ | ⟨x, _ | ⟨y, r⟩⟩
            · simp at hrest
            · simp at hrest
            · exact ⟨x, y, r, rfl⟩
          have hw := written_percent x y r false
          rcases hx : hexValue x with _ | high
          · rw [hx, written_upper] at hw
            obtain ⟨q, g', hround, hq⟩ := h.round_stray hx
            exact hnext hround hq (by simp) hw
          · rw [hx] at hw
            obtain ⟨q, g', hround, hq⟩ := h.round_escape hx
            exact hnext hround hq (by simp; omega) hw
      · obtain ⟨q, g', hround, hq⟩ := h.round_plain hc
        exact hnext hround hq (by simp) (written_of_ne hc _ _)

end Unescaping

/-- **The buffer holds the bytes of `written`, a terminator and what was there before.** The size
of the buffer and the terminator at its end stay. -/
theorem unescape_buffer {s : List UInt8} (h : 0 ∉ s) :
    (Unescape (s ++ [0])).2 = (written false s).length ∧
      ∃ back, (Unescape (s ++ [0])).1 = written false s ++ 0 :: back ∧
        (written false s).length + back.length = s.length ∧
        (back = [] ∨ ∃ front, back = front ++ [0]) := by
  have hread : Unescaping.Reading ⟨s ++ [0], 0, 0⟩ [] [] s := ⟨rfl, rfl, rfl, h⟩
  obtain ⟨g, t, hloop⟩ := Unescaping.loop_spec hread
  have hlength := Unescaping.length_loop ⟨s ++ [0], 0, 0⟩
  obtain ⟨a, as, ha⟩ := List.exists_cons_of_ne_nil
    (show g ++ (t ++ [0]) ≠ [] by simp)
  rw [hloop.psz, ha] at hlength
  simp only [List.nil_append, List.length_append, List.length_cons, List.length_nil] at hlength
  refine ⟨hloop.pszDest, as, ?_, by omega, ?_⟩
  · rw [Unescape]
    dsimp only
    rw [hloop.psz, hloop.pszDest, ha, List.set_append_right _ _ le_rfl, Nat.sub_self]
    rfl
  · rcases as.eq_nil_or_concat with rfl | ⟨front, z, rfl⟩
    · exact .inl rfl
    · rw [List.concat_eq_append, ← List.append_assoc, ← List.cons_append] at ha
      obtain rfl : 0 = z := (List.append_inj' ha rfl).2 |> List.cons.inj |>.1
      exact .inr ⟨front, List.concat_eq_append⟩

/-! ### Decoding -/

@[simp] theorem cString_zero (back : List UInt8) : cString (0 :: back) = [] := by simp [cString]

theorem cString_cons {c : UInt8} (hc : c ≠ 0) (back : List UInt8) :
    cString (c :: back) = c :: cString back := by
  simp [cString, hc]

theorem cString_append_zero (d back : List UInt8) : cString (d ++ 0 :: back) = cString d := by
  induction d with
  | nil => simp [cString]
  | cons c d ih =>
    by_cases hc : c = 0
    · subst hc
      simp
    · rw [List.cons_append, cString_cons hc, cString_cons hc, ih]

/-- The string in the buffer ends where the first terminator was written. -/
theorem cString_unescape {s : List UInt8} (h : 0 ∉ s) :
    cString (Unescape (s ++ [0])).1 = cString (written false s) := by
  obtain ⟨-, back, hbuffer, -, -⟩ := unescape_buffer h
  rw [hbuffer, cString_append_zero]

theorem decoded_of_ne {c : UInt8} (hc : c ≠ percent) (rest : List UInt8) :
    decoded (c :: rest) = c :: decoded rest := by
  rcases rest with _ | ⟨h, _ | ⟨l, r⟩⟩
  · rfl
  · rfl
  · rw [decoded]
    rcases hexValue h with _ | high
    · rfl
    · rcases hexValue l with _ | low
      · rfl
      · exact if_neg fun hand => hc hand.1

theorem clean_of_ne {c : UInt8} (hc : c ≠ percent) (rest : List UInt8) :
    Clean (c :: rest) ↔ Clean rest := by
  rcases rest with _ | ⟨h, _ | ⟨l, r⟩⟩
  · exact and_iff_right hc
  · exact and_iff_right hc
  · rw [Clean, if_neg hc]

/-- What is written is the decoded string iff nothing is in the way of any percent sign. -/
theorem written_eq_decoded {s : List UInt8} (h : 0 ∉ s) :
    cString (written false s) = decoded s ↔ Clean s := by
  induction hn : s.length using Nat.strong_induction_on generalizing s with
  | _ n ih =>
    rcases s with _ | ⟨c, rest⟩
    · exact iff_of_true (by simp [cString, decoded]) trivial
    obtain ⟨hc, hrest⟩ := not_or.mp (mt List.mem_cons.mpr h)
    have ihrest := ih rest.length (by simp [← hn]) hrest rfl
    by_cases hp : c = percent
    · subst hp
      rcases rest with _ | ⟨x, _ | ⟨y, r⟩⟩
      · exact iff_of_false (by simp [cString, decoded]) fun h => h.1 rfl
      · exact iff_of_false (by simp [cString, decoded]) fun h => h.1 rfl
      have ihr := ih r.length (by simp [← hn]; omega)
        (fun hr => hrest (List.mem_cons_of_mem _ (List.mem_cons_of_mem _ hr))) rfl
      rw [written_percent, decoded, Clean, if_pos rfl]
      rcases hx : hexValue x with _ | high
      · -- the percent sign stays, and the byte behind it is put in upper case
        rw [cString_cons percent_ne_zero, List.cons_inj_right]
        by_cases hupper : toupper x = x
        · rw [written_upper, hupper, ihrest]
          exact (and_iff_right rfl).symm
        · have hxp : x ≠ percent := fun heq => hupper (heq ▸ toupper_percent)
          rw [written_of_ne hxp, decoded_of_ne hxp, if_pos rfl, cString_cons]
          · exact iff_of_false (fun heq => hupper (List.cons.inj heq).1) fun hand => hupper hand.1
          · rw [ne_eq, toupper_eq_zero]
            exact fun hz => hrest (hz ▸ List.mem_cons_self ..)
      · rcases hy : hexValue y with _ | low
        · -- a question mark is written for all three bytes
          have hquestion : '?'.toUInt8 ≠ 0 ∧ '?'.toUInt8 ≠ percent := by decide
          refine iff_of_false ?_ fun hand => ?_
          · dsimp only
            rw [Option.map_none, Option.getD_none, cString_cons hquestion.1]
            exact fun heq => hquestion.2 (List.cons.inj heq).1
          · obtain ⟨⟨low, hlow, -⟩, -⟩ := hand
            exact nomatch hlow
        · dsimp only
          rw [Option.map_some, Option.getD_some]
          by_cases hv : hexByte high low = 0
          · -- the terminator is written
            refine iff_of_false ?_ fun hand => ?_
            · rw [hv, cString_zero, if_neg fun hand => hand.2 rfl]
              exact nofun
            · obtain ⟨⟨low', hlow, hne⟩, -⟩ := hand
              obtain rfl := Option.some.inj hlow
              exact hne hv
          · rw [cString_cons hv, if_pos ⟨rfl, hv⟩, List.cons_inj_right, ihr]
            exact (and_iff_right ⟨low, rfl, hv⟩).symm
    · rw [written_of_ne hp, decoded_of_ne hp, clean_of_ne hp, if_neg Bool.false_ne_true,
        cString_cons (Ne.symm hc), List.cons_inj_right]
      exact ihrest

/-- **The buffer is left with the decoded string iff nothing is in the way of any percent sign.** -/
theorem unescape_eq_decoded_iff (s : List UInt8) (h : 0 ∉ s) :
    cString (Unescape (s ++ [0])).1 = decoded s ↔ Clean s := by
  rw [cString_unescape h]
  exact written_eq_decoded h

/-- `a%20b` -/
theorem unescape_eq_decoded_iff_space :
    cString (Unescape ([97, 37, 50, 48, 98] ++ [0])).1 = decoded [97, 37, 50, 48, 98] ↔
      Clean [97, 37, 50, 48, 98] :=
  unescape_eq_decoded_iff _ (by decide)

/-- The percent sign of `100%` is lost. -/
theorem unescape_hundred_percent : ¬ ∀ s : List UInt8, 0 ∉ s →
    cString (Unescape (s ++ [0])).1 = decoded s := by
  intro hall
  have h := hall [49, 48, 48, 37] (by decide)
  rw [cString_unescape (by decide)] at h
  exact absurd h (by decide)

end TortoiseSvn.CPathUtils
