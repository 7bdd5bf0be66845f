import TortoiseSvn.Merge.UnicodeType
import TortoiseSvn.Utils.Unescape

/-!
# The overloads of `PathUnescape`

A URL is decoded as UTF-8, whether it comes in UTF-8 or in UTF-16. The overload for `const char*`
decodes in a `std::string`, whose length stays what it was, and converts as many bytes. So its
result is longer than the decoded string as soon as there was something to decode.

The conversions belong to the system. `ExactUtf8` is what is assumed about them.

Main result: `pathUnescape_eq_iff`.
-/

namespace TortoiseSvn

namespace CUnicodeUtils

/-! ### The conversions -/

/-- The conversions of the system, without the limits that the caller's buffers are too large for.
Source: `UnicodeUtils.cpp`, as it calls them for `CP_UTF8` -/
structure SystemConversion where
  multiByteToWideChar : List UInt8 → List UInt16
  wideCharToMultiByte : List UInt16 → List UInt8

/-- `CStringT (buffer, len-1)`, for a buffer that the system has filled. -/
def withoutTerminator {α : Type} (buffer : List α) : List α :=
  if buffer.length = 0 then [] else buffer.take (buffer.length - 1)

variable (system : SystemConversion)

/-- Source: `UnicodeUtils.cpp` `CUnicodeUtils::GetUTF8` -/
def GetUTF8 (string : List UInt16) : List UInt8 :=
  withoutTerminator (system.wideCharToMultiByte (string ++ [0]))

/-- Source: `UnicodeUtils.cpp` `CUnicodeUtils::GetUnicode` -/
def GetUnicode (string : List UInt8) : List UInt16 :=
  withoutTerminator (system.multiByteToWideChar (string ++ [0]))

/-- Source: `UnicodeUtils.cpp` `CUnicodeUtils::UTF8ToUTF16` -/
def UTF8ToUTF16 (string : List UInt8) : List UInt16 :=
  withoutTerminator (system.multiByteToWideChar (string ++ [0]))

end CUnicodeUtils

namespace CPathUtils

open CUnicodeUtils Merge.FileText

/-! ### The overloads -/

/-- The overload for `CStringA`.
Source: `PathUtils.cpp` `CPathUtils::PathUnescape` -/
def PathUnescapeA (path : List UInt8) : List UInt8 :=
  let urlabuf := cString path ++ List.replicate (path.length + 1 - (cString path).length) 0
  cString (Unescape urlabuf).1

variable (system : SystemConversion)

/-- The overload for `CStringW`.
Source: `PathUtils.cpp` `CPathUtils::PathUnescape` -/
def PathUnescapeW (path : List UInt16) : List UInt16 :=
  if path.length = 0 then []
  else
    let patha := GetUTF8 system path
    let patha := PathUnescapeA patha
    GetUnicode system patha

/-- The quick path does not work for such a character.
Source: `PathUtils.cpp` `CPathUtils::PathUnescape` -/
def notQuick (c : UInt8) : Bool := decide (0x80 ≤ c) || decide (c = percent)

/-- The overload for `const char*`. The decoded string ends with the buffer, not with the
terminator.
Source: `PathUtils.cpp` `CPathUtils::PathUnescape` -/
def PathUnescape (path : List UInt8) : List UInt16 :=
  if path.any notQuick then
    let utf8Path := (Unescape (path ++ [0])).1.take path.length
    UTF8ToUTF16 system utf8Path
  else GetUnicode system path

/-! ### The mapping of code points -/

/-- The UTF-16 text of a scalar value. -/
def utf16EncodeChar (c : Char) : List UInt16 :=
  if c.toNat < 0x10000 then [UInt16.ofNat c.toNat]
  else [UInt16.ofNat (0xD800 + (c.toNat - 0x10000) / 0x400),
    UInt16.ofNat (0xDC00 + (c.toNat - 0x10000) % 0x400)]

/-- The UTF-16 text of some scalar values. -/
def encodeUtf16 (cs : List Char) : List UInt16 := cs.flatMap utf16EncodeChar

/-- The system maps all characters that it is given code point by code point, and a terminator in
their midst is a character like any other. -/
structure ExactUtf8 : Prop where
  wide : ∀ cs, system.multiByteToWideChar (encodeUtf8 cs) = encodeUtf16 cs
  bytes : ∀ cs, system.wideCharToMultiByte (encodeUtf16 cs) = encodeUtf8 cs
  terminator : ∀ a b, system.multiByteToWideChar (a ++ 0 :: b) =
    system.multiByteToWideChar a ++ 0 :: system.multiByteToWideChar b

/-- Every percent sign has two bytes behind it, and the first of them is no hex digit. -/
def NothingToUnescape (s : List UInt8) : Prop :=
  ∀ front back, s = front ++ percent :: back → ∃ x y r, back = x :: y :: r ∧ hexValue x = none

/-! ### Nothing to unescape -/

theorem nothingToUnescape_cons {c : UInt8} {s : List UInt8} : NothingToUnescape (c :: s) ↔
    (c = percent → ∃ x y r, s = x :: y :: r ∧ hexValue x = none) ∧ NothingToUnescape s := by
  constructor
  · intro h
    refine ⟨fun hc => h [] s (by rw [hc, List.nil_append]), fun front back heq => ?_⟩
    exact h (c :: front) back (by rw [heq, List.cons_append])
  · rintro ⟨hc, h⟩ front back heq
    rcases front with _ | ⟨a, front⟩
    · obtain ⟨rfl, rfl⟩ := List.cons.inj heq
      exact hc rfl
    · exact h front back (List.cons.inj heq).2

/-- The string never grows, and it keeps its length iff there is nothing to unescape. -/
theorem length_written (s : List UInt8) (up : Bool) : (written up s).length ≤ s.length ∧
    ((written up s).length = s.length ↔ NothingToUnescape s) := by
  induction hn : s.length using Nat.strong_induction_on generalizing s up with
  | _ n ih =>
    subst hn
    rcases s with _ | ⟨c, rest⟩
    · refine ⟨by simp, iff_of_true (by simp) fun front back heq => ?_⟩
      simp at heq
    have ihrest := ih rest.length (by simp) rest
    rw [nothingToUnescape_cons]
    by_cases hp : c = percent
    · subst hp
      rcases rest with _ | ⟨x, _ | ⟨y, r⟩⟩
      · refine ⟨by simp [written_short], iff_of_false (by simp [written_short]) fun hand => ?_⟩
        simpa using hand.1 rfl
      · refine ⟨by simp [written_short], iff_of_false (by simp [written_short]) fun hand => ?_⟩
        simpa using hand.1 rfl
      rw [written_percent]
      rcases hx : hexValue x with _ | high
      · obtain ⟨hle, heq⟩ := ihrest true rfl
        refine ⟨by simpa using hle, ?_⟩
        rw [← heq]
        simp [hx]
      · obtain ⟨hle, -⟩ := ih r.length (by simp; omega) r false rfl
        refine ⟨by simp; omega, iff_of_false (by simp; omega) fun hand => ?_⟩
        simpa [hx] using hand.1 rfl
    · obtain ⟨hle, heq⟩ := ihrest false rfl
      rw [written_of_ne hp]
      refine ⟨by simpa using hle, ?_⟩
      rw [← heq]
      simp [hp]

/-- Where there is nothing to unescape, no terminator is written. -/
theorem zero_notMem_written {s : List UInt8} (h : 0 ∉ s) (hs : NothingToUnescape s) (up : Bool) :
    0 ∉ written up s := by
  induction s generalizing up with
  | nil => simp
  | cons c rest ih =>
    obtain ⟨hc, hrest⟩ := not_or.mp (mt List.mem_cons.mpr h)
    obtain ⟨hp, hnothing⟩ := nothingToUnescape_cons.mp hs
    by_cases hcp : c = percent
    · obtain ⟨x, y, r, rfl, hx⟩ := hp hcp
      rw [hcp, written_percent, hx]
      exact fun hmem => (List.mem_cons.mp hmem).elim (Ne.symm percent_ne_zero)
        (ih hrest hnothing true)
    · rw [written_of_ne hcp]
      refine fun hmem => (List.mem_cons.mp hmem).elim (fun hz => ?_) (ih hrest hnothing false)
      split at hz
      · exact hc ((toupper_eq_zero c).mp hz.symm).symm
      · exact hc hz

theorem cString_of_notMem {s : List UInt8} (h : 0 ∉ s) : cString s = s := by
  induction s with
  | nil => rfl
  | cons c s ih =>
    obtain ⟨hc, hs⟩ := not_or.mp (mt List.mem_cons.mpr h)
    rw [cString_cons (Ne.symm hc), ih hs]

/-- The decoded string is as long as the source iff there is nothing to unescape. -/
theorem length_cString_written {s : List UInt8} (h : 0 ∉ s) :
    (cString (written false s)).length = s.length ↔ NothingToUnescape s := by
  obtain ⟨hle, heq⟩ := length_written s false
  constructor
  · intro hlength
    have hle' : (cString (written false s)).length ≤ (written false s).length :=
      (List.takeWhile_prefix _).length_le
    exact heq.mp (by omega)
  · intro hs
    rw [cString_of_notMem (zero_notMem_written h hs _), heq.mpr hs]

/-! ### The overloads agree -/

theorem withoutTerminator_concat {α : Type} (l : List α) (a : α) :
    withoutTerminator (l ++ [a]) = l := by
  simp [withoutTerminator]

/-- A string is followed by a terminator, or there is nothing behind it. -/
theorem cString_eq_or (w : List UInt8) : cString w = w ∨ ∃ more, w = cString w ++ 0 :: more := by
  induction w with
  | nil => exact .inl rfl
  | cons c w ih =>
    by_cases hc : c = 0
    · subst hc
      exact .inr ⟨w, by simp⟩
    · rw [cString_cons hc]
      rcases ih with heq | ⟨more, heq⟩
      · exact .inl (congrArg _ heq)
      · exact .inr ⟨more, congrArg (c :: ·) heq⟩

/-- The decoded string ends with a terminator in the buffer, and the buffer does as well. -/
theorem exists_back {s : List UInt8} (h : 0 ∉ s) : ∃ back,
    (Unescape (s ++ [0])).1 = cString (written false s) ++ 0 :: back ∧
      (cString (written false s)).length + back.length = s.length ∧
      (back = [] ∨ ∃ front, back = front ++ [0]) := by
  obtain ⟨-, back, hbuffer, hlength, hback⟩ := unescape_buffer h
  rcases cString_eq_or (written false s) with heq | ⟨more, heq⟩
  · rw [heq]
    exact ⟨back, hbuffer, hlength, hback⟩
  · have hlength' := congrArg List.length heq
    simp only [List.length_append, List.length_cons] at hlength'
    refine ⟨more ++ 0 :: back, ?_, ?_, .inr ?_⟩
    · rw [hbuffer]
      nth_rewrite 1 [heq]
      simp
    · simp only [List.length_append, List.length_cons]
      omega
    · rcases hback with rfl | ⟨front, rfl⟩
      · exact ⟨more, rfl⟩
      · exact ⟨more ++ 0 :: front, by simp⟩

variable {system}

/-- The terminator is converted to a terminator, which is left out. -/
theorem GetUnicode_eq (hsystem : ExactUtf8 system) (s : List UInt8) :
    GetUnicode system s = system.multiByteToWideChar s := by
  have hnil : system.multiByteToWideChar [] = [] := hsystem.wide []
  rw [GetUnicode, hsystem.terminator, hnil, withoutTerminator_concat]

theorem GetUTF8_encodeUtf16 (hsystem : ExactUtf8 system) (cs : List Char) :
    GetUTF8 system (encodeUtf16 cs) = encodeUtf8 cs := by
  have hzero : encodeUtf16 cs ++ [0] = encodeUtf16 (cs ++ ['\x00']) := by
    rw [encodeUtf16, encodeUtf16, List.flatMap_append]
    rfl
  have hzero' : encodeUtf8 (cs ++ ['\x00']) = encodeUtf8 cs ++ [0] := by
    rw [encodeUtf8, encodeUtf8, List.flatMap_append]
    rfl
  rw [GetUTF8, hzero, hsystem.bytes, hzero', withoutTerminator_concat]

/-- The overload for `CStringA` gives the string that is left in the buffer. -/
theorem PathUnescapeA_eq {s : List UInt8} (h : 0 ∉ s) :
    PathUnescapeA s = cString (written false s) := by
  rw [PathUnescapeA, cString_of_notMem h, Nat.add_sub_cancel_left]
  exact cString_unescape h

theorem encodeUtf16_ne_nil (c : Char) (cs : List Char) : (encodeUtf16 (c :: cs)).length ≠ 0 := by
  rw [encodeUtf16, List.flatMap_cons, List.length_append, utf16EncodeChar]
  split_ifs
  · simp
  · simp

/-- The overload for `CStringW` converts the decoded string. -/
theorem PathUnescapeW_eq (hsystem : ExactUtf8 system) {cs : List Char} (h : 0 ∉ encodeUtf8 cs) :
    PathUnescapeW system (encodeUtf16 cs) =
      system.multiByteToWideChar (cString (written false (encodeUtf8 cs))) := by
  rcases cs with _ | ⟨c, cs⟩
  · exact (hsystem.wide []).symm
  · rw [PathUnescapeW, if_neg (encodeUtf16_ne_nil c cs)]
    dsimp only
    rw [GetUTF8_encodeUtf16 hsystem, PathUnescapeA_eq h, GetUnicode_eq hsystem]

theorem written_of_notMem {s : List UInt8} (h : percent ∉ s) :
    written false s = s ∧ NothingToUnescape s := by
  induction s with
  | nil => exact ⟨rfl, fun front back heq => by simp at heq⟩
  | cons c s ih =>
    obtain ⟨hc, hs⟩ := not_or.mp (mt List.mem_cons.mpr h)
    obtain ⟨hwritten, hnothing⟩ := ih hs
    refine ⟨?_, nothingToUnescape_cons.mpr ⟨fun heq => absurd heq.symm hc, hnothing⟩⟩
    rw [written_of_ne (Ne.symm hc), hwritten]
    rfl

/-- The overload for `const char*` converts what is behind the decoded string as well. -/
theorem PathUnescape_eq (hsystem : ExactUtf8 system) {s : List UInt8} (h : 0 ∉ s) :
    PathUnescape system s = system.multiByteToWideChar (cString (written false s)) ↔
      NothingToUnescape s := by
  by_cases hquick : s.any notQuick
  · rw [PathUnescape, if_pos hquick]
    dsimp only
    obtain ⟨back, hbuffer, hlength, hback⟩ := exists_back h
    rw [hbuffer, ← length_cString_written h]
    rcases hback with rfl | ⟨front, rfl⟩
    · refine iff_of_true ?_ hlength
      rw [List.take_left' hlength]
      exact GetUnicode_eq hsystem _
    · rw [← List.cons_append, ← List.append_assoc, List.take_left' (by simpa using hlength)]
      simp only [List.length_append, List.length_cons, List.length_nil] at hlength
      refine iff_of_false (fun heq => ?_) (by omega)
      have hlonger := congrArg List.length ((GetUnicode_eq hsystem _).symm.trans heq)
      rw [hsystem.terminator] at hlonger
      simp at hlonger
  · rw [PathUnescape, if_neg hquick, GetUnicode_eq hsystem]
    have hpercent : percent ∉ s := by
      intro hmem
      exact hquick (List.any_eq_true.mpr ⟨percent, hmem, by decide⟩)
    obtain ⟨hwritten, hnothing⟩ := written_of_notMem hpercent
    rw [hwritten, cString_of_notMem h]
    exact iff_of_true rfl hnothing

/-- **The overloads agree iff there is nothing to unescape.** -/
theorem pathUnescape_eq_iff (hsystem : ExactUtf8 system) (cs : List Char) (h : 0 ∉ encodeUtf8 cs) :
    PathUnescape system (encodeUtf8 cs) = PathUnescapeW system (encodeUtf16 cs) ↔
      NothingToUnescape (encodeUtf8 cs) := by
  rw [PathUnescapeW_eq hsystem h]
  exact PathUnescape_eq hsystem h

/-! ### A system that converts this way -/

/-- A text without terminators; what is not UTF-8 is replaced. -/
def wideText (text : List UInt8) : List UInt16 :=
  match text.toByteArray.utf8Decode? with
  | some cs => encodeUtf16 cs.toList
  | none => [0xFFFD]

/-- The text up to a terminator comes first, then the terminator, then what is behind it. -/
def wideTexts : List UInt8 → List UInt8 → List UInt16
  | text, [] => wideText text
  | text, b :: bs =>
    if b = 0 then wideText text ++ 0 :: wideTexts [] bs else wideTexts (text ++ [b]) bs

/-- A unit that is no surrogate; a surrogate on its own is replaced. -/
def loneUnit (c : UInt16) : Char := if c.toNat.isValidChar then Char.ofNat c.toNat else '\uFFFD'

def decodeUtf16 : List UInt16 → List Char
  | c :: d :: rest =>
    if c.toNat / 0x400 = 0x36 ∧ d.toNat / 0x400 = 0x37 then
      Char.ofNat (0x10000 + c.toNat % 0x400 * 0x400 + d.toNat % 0x400) :: decodeUtf16 rest
    else loneUnit c :: decodeUtf16 (d :: rest)
  | [c] => [loneUnit c]
  | [] => []

/-- Text by text, and what is no text is replaced. -/
def textSystem : SystemConversion where
  multiByteToWideChar := wideTexts []
  wideCharToMultiByte := fun string => encodeUtf8 (decodeUtf16 string)

theorem wideText_encodeUtf8 (cs : List Char) : wideText (encodeUtf8 cs) = encodeUtf16 cs := by
  have hdecode := List.utf8Decode?_utf8Encode (l := cs)
  rw [wideText, encodeUtf8]
  rw [List.utf8Encode] at hdecode
  rw [hdecode]

theorem wideTexts_zero (a b text : List UInt8) :
    wideTexts text (a ++ 0 :: b) = wideTexts text a ++ 0 :: wideTexts [] b := by
  induction a generalizing text with
  | nil => exact if_pos rfl
  | cons c a ih =>
    rw [List.cons_append, wideTexts, wideTexts, ih, ih]
    split_ifs
    · rw [List.append_assoc, List.cons_append]
    · rfl

theorem wideTexts_append {bytes : List UInt8} (h : 0 ∉ bytes) (text rest : List UInt8) :
    wideTexts text (bytes ++ rest) = wideTexts (text ++ bytes) rest := by
  induction bytes generalizing text with
  | nil => rw [List.nil_append, List.append_nil]
  | cons c bytes ih =>
    obtain ⟨hc, hbytes⟩ := not_or.mp (mt List.mem_cons.mpr h)
    rw [List.cons_append, wideTexts, if_neg (Ne.symm hc), ih hbytes, List.append_assoc]
    rfl

theorem zero_notMem_utf8EncodeChar {c : Char} (hc : c ≠ '\x00') :
    0 ∉ String.utf8EncodeChar c := by
  have hvalid : c.val.toNat < 0xD800 ∨ 0xDFFF < c.val.toNat ∧ c.val.toNat < 0x110000 := c.valid
  have hpos : c.val.toNat ≠ 0 := fun hz => hc (Char.toNat_inj.mp hz)
  have hbyte : ∀ n, 0 < n → n < 256 → 0 ≠ UInt8.ofNat n := by
    intro n hn hlt heq
    have hnat := congrArg UInt8.toNat heq
    rw [toNat_byte hlt] at hnat
    exact hn.ne hnat
  unfold String.utf8EncodeChar
  generalize c.val.toNat = v at hvalid hpos
  dsimp only
  split_ifs
  all_goals
    simp only [List.mem_cons, List.not_mem_nil, or_false, not_or]
  · exact hbyte _ (by omega) (by omega)
  · exact ⟨hbyte _ (by omega) (by omega), hbyte _ (by omega) (by omega)⟩
  · exact ⟨hbyte _ (by omega) (by omega), hbyte _ (by omega) (by omega),
      hbyte _ (by omega) (by omega)⟩
  · exact ⟨hbyte _ (by omega) (by omega), hbyte _ (by omega) (by omega),
      hbyte _ (by omega) (by omega), hbyte _ (by omega) (by omega)⟩

theorem wideTexts_encodeUtf8 (cs ds : List Char) :
    wideTexts (encodeUtf8 ds) (encodeUtf8 cs) = encodeUtf16 (ds ++ cs) := by
  induction cs generalizing ds with
  | nil =>
    rw [List.append_nil]
    exact wideText_encodeUtf8 ds
  | cons c cs ih =>
    by_cases hc : c = '\x00'
    · subst hc
      have hcons : encodeUtf8 ('\x00' :: cs) = 0 :: encodeUtf8 cs := rfl
      rw [hcons, wideTexts, if_pos rfl, wideText_encodeUtf8, encodeUtf16, encodeUtf16,
        List.flatMap_append, List.flatMap_cons]
      exact congrArg _ (congrArg _ (ih []))
    · have hstep : encodeUtf8 ds ++ String.utf8EncodeChar c = encodeUtf8 (ds ++ [c]) := by
        rw [encodeUtf8, encodeUtf8, List.flatMap_append, List.flatMap_singleton]
      rw [encodeUtf8.eq_1 (c :: cs), List.flatMap_cons,
        wideTexts_append (zero_notMem_utf8EncodeChar hc), hstep]
      exact (ih (ds ++ [c])).trans (by rw [List.append_assoc, List.singleton_append])

theorem decodeUtf16_of_not_lead {c : UInt16} (hc : c.toNat / 0x400 ≠ 0x36) (rest : List UInt16) :
    decodeUtf16 (c :: rest) = loneUnit c :: decodeUtf16 rest := by
  rcases rest with _ | ⟨d, rest⟩
  · rfl
  · exact if_neg fun hand => hc hand.1

theorem decodeUtf16_encodeUtf16 (cs : List Char) : decodeUtf16 (encodeUtf16 cs) = cs := by
  induction cs with
  | nil => rfl
  | cons c cs ih =>
    have hvalid : c.toNat < 0xD800 ∨ 0xDFFF < c.toNat ∧ c.toNat < 0x110000 := c.valid
    rw [encodeUtf16, List.flatMap_cons, utf16EncodeChar]
    change decodeUtf16 (_ ++ encodeUtf16 cs) = _
    split_ifs with hsmall
    · have hnat : (UInt16.ofNat c.toNat).toNat = c.toNat := UInt16.toNat_ofNat_of_lt' hsmall
      rw [List.singleton_append, decodeUtf16_of_not_lead (by rw [hnat]; omega), ih, loneUnit, hnat,
        if_pos hvalid, Char.ofNat_toNat]
    · have hlead : (UInt16.ofNat (0xD800 + (c.toNat - 0x10000) / 0x400)).toNat =
          0xD800 + (c.toNat - 0x10000) / 0x400 := UInt16.toNat_ofNat_of_lt' (by
        rw [UInt16.size]
        omega)
      have htrail : (UInt16.ofNat (0xDC00 + (c.toNat - 0x10000) % 0x400)).toNat =
          0xDC00 + (c.toNat - 0x10000) % 0x400 := UInt16.toNat_ofNat_of_lt' (by
        rw [UInt16.size]
        omega)
      rw [List.cons_append, List.cons_append, List.nil_append, decodeUtf16, hlead, htrail,
        if_pos (by omega), ih]
      rw [show 0x10000 + (0xD800 + (c.toNat - 0x10000) / 0x400) % 0x400 * 0x400 +
        (0xDC00 + (c.toNat - 0x10000) % 0x400) % 0x400 = c.toNat by omega, Char.ofNat_toNat]

theorem exactUtf8_textSystem : ExactUtf8 textSystem where
  wide cs := wideTexts_encodeUtf8 cs []
  bytes cs := congrArg encodeUtf8 (decodeUtf16_encodeUtf16 cs)
  terminator a b := wideTexts_zero a b []

/-- `50 % off` -/
theorem pathUnescape_eq_iff_percent :
    PathUnescape textSystem (encodeUtf8 ['5', '0', ' ', '%', ' ', 'o', 'f', 'f']) =
        PathUnescapeW textSystem (encodeUtf16 ['5', '0', ' ', '%', ' ', 'o', 'f', 'f']) ↔
      NothingToUnescape (encodeUtf8 ['5', '0', ' ', '%', ' ', 'o', 'f', 'f']) :=
  pathUnescape_eq_iff exactUtf8_textSystem _ (by decide)

/-- `a%20b` is decoded to `a b` by one overload, and to a longer string by the other. -/
theorem pathUnescape_space : ¬ ∀ system, ExactUtf8 system → ∀ cs, 0 ∉ encodeUtf8 cs →
    WellFormedUtf8 (cString (Unescape (encodeUtf8 cs ++ [0])).1) →
    PathUnescape system (encodeUtf8 cs) = PathUnescapeW system (encodeUtf16 cs) := by
  intro hall
  have h : 0 ∉ encodeUtf8 ['a', '%', '2', '0', 'b'] := by decide
  have heq := hall textSystem exactUtf8_textSystem ['a', '%', '2', '0', 'b'] h
    ⟨['a', ' ', 'b'], by rw [cString_unescape h]; decide⟩
  rw [PathUnescapeW_eq exactUtf8_textSystem h, PathUnescape_eq exactUtf8_textSystem h] at heq
  obtain ⟨x, y, r, hback, hx⟩ := heq [97] [50, 48, 98] (by decide)
  obtain rfl := (List.cons.inj hback).1
  exact absurd hx (by decide)

end CPathUtils

end TortoiseSvn
