import Mathlib.Data.List.TakeWhile
import Mathlib.Data.Nat.Digits.Defs
import TortoiseSvn.Svn.RevRanges

/-!
# Revision lists as text

`ToListString` prints the ranges of an array in the order of their starts, as in `1,3-5,10`.
`FromListString` cuts a text at commas and hyphens, reads a revision from every piece and adds the
ranges it finds to an empty array one by one.

Main result: `fromListString_toListString`. What forward ranges were added to an array in any order is
printed and read back as an array that covers the same revisions. All ranges of such an array run
forward, so that adding one never gives up revisions.
-/

namespace TortoiseSvn.Svn

/-- The largest `LONG`. -/
def longMax : ℤ := 2147483647

/-! ### A revision as text -/

/-- The decimal digits of a number. -/
def decimal (n : ℕ) : List UInt16 :=
  if n = 0 then [48] else (Nat.digits 10 n).reverse.map fun d => UInt16.ofNat (48 + d)

/-- The number that `%ld` prints. -/
def formatLong : ℤ → List UInt16
  | .ofNat n => decimal n
  | .negSucc n => 45 :: decimal (n + 1)

/-- A decimal digit. -/
def isDigit (c : UInt16) : Bool := 48 ≤ c ∧ c ≤ 57

/-- The value of a text of digits; `_wtol` stops at the largest `LONG`. -/
def wtol (s : List UInt16) : ℤ :=
  min (s.foldl (fun v c => 10 * v + (c.toNat - 48)) 0 : ℕ) longMax

/-- White space, as `CString::Trim` removes it. -/
def isSpace (c : UInt16) : Bool :=
  (9 ≤ c ∧ c ≤ 13) ∨ c = 32 ∨ c = 0x85 ∨ c = 0xa0 ∨ c = 0x1680 ∨ (0x2000 ≤ c ∧ c ≤ 0x200a) ∨
    c = 0x2028 ∨ c = 0x2029 ∨ c = 0x202f ∨ c = 0x205f ∨ c = 0x3000

/-- Source: `SVNRev.cpp` `SVNRev::Create (CString)`, `sRev.Trim ()` -/
def trim (s : List UInt16) : List UInt16 := ((s.dropWhile isSpace).reverse.dropWhile isSpace).reverse

/-- The upper case of a letter, for `CString::CompareNoCase`. -/
def upper (c : UInt16) : UInt16 := if 97 ≤ c ∧ c ≤ 122 then c - 32 else c

namespace SVNRev

/-- `HEAD`, `BASE`, `WC`, `PREV` and `COMMITTED`. -/
def keywords : List (List UInt16 × SVNRev) :=
  [([72, 69, 65, 68], head), ([66, 65, 83, 69], base), ([87, 67], working), ([80, 82, 69, 86], previous),
    ([67, 79, 77, 77, 73, 84, 84, 69, 68], committed)]

/-- A revision from a text; an invalid one is unspecified. Subversion parses dates: `parseDate` tells
whether it finds one between braces.
Source: `SVNRev.cpp` `SVNRev::Create (CString)` -/
def createFromString (parseDate : List UInt16 → Bool) (s : List UInt16) : SVNRev :=
  let sRev := trim s
  if sRev.head? = some 123 then
    if parseDate ((sRev.drop 1).take (sRev.length - 2)) then date else unspecified
  else
    match keywords.find? fun word => sRev.map upper = word.1 with
    | some word => word.2
    | none =>
      if sRev = [] then head
      else
        let sRev := if sRev.head? = some 114 then sRev.drop 1 else sRev
        if sRev.all isDigit then number (wtol sRev) else unspecified

/-- Source: `SVNRev.h` `SVNRev::IsValid` -/
def isValid (rev : SVNRev) : Bool := rev ≠ unspecified

/-- A revision of a range has lost the text of its date.
Source: `SVNRev.cpp` `SVNRev::ToString` -/
def toText : SVNRev → List UInt16
  | head => [72, 69, 65, 68]
  | base => [66, 65, 83, 69]
  | working => [87, 67]
  | number value => formatLong value
  | committed => [67, 79, 77, 77, 73, 84, 84, 69, 68]
  | previous => [80, 82, 69, 86]
  | unspecified => [85, 78, 83, 80, 69, 67, 73, 70, 73, 69, 68]
  | date => []

end SVNRev

namespace SVNRevRangeArray

open SVNRev

/-! ### Printing -/

/-- Source: `SVNRev.cpp` `SVNRevRangeArray::ToListString`, a range -/
def rangeText (range : SVNRevRange) : List UInt16 :=
  if range.start = range.stop then range.start.toText
  else range.start.toText ++ 45 :: range.stop.toText

/-- The ranges in the given order, with commas between them.
Source: `SVNRev.cpp` `SVNRevRangeArray::ToListString`, the loop -/
def listText (ranges : List SVNRevRange) : List UInt16 :=
  ranges.foldl (fun sRet range => (if sRet = [] then sRet else sRet ++ [44]) ++ rangeText range) []

/-- Source: `SVNRev.h` `AscSort`, `DescSort` -/
def sortsBefore (bReverse : Bool) (a b : SVNRevRange) : Prop :=
  if bReverse then b.start.toLong < a.start.toLong else a.start.toLong < b.start.toLong

/-- `ToListString` may return `text`. Ranges with the same start are sorted in any order.
Source: `SVNRev.cpp` `SVNRevRangeArray::ToListString` -/
def ToListString (bReverse : Bool) (ranges : SVNRevRangeArray) (text : List UInt16) : Prop :=
  ∃ sorted, sorted.Perm ranges ∧ sorted.Pairwise (fun a b => ¬ sortsBefore bReverse b a) ∧
    text = listText sorted

/-! ### Reading -/

/-- Add the range that ends with a revision.
Source: `SVNRev.cpp` `SVNRevRangeArray::FromListString` -/
def addEnding (ranges : SVNRevRangeArray) (prevRev rev : SVNRev) : SVNRevRangeArray :=
  ranges.addRevRange (if prevRev.isValid then ⟨prevRev, rev⟩ else ⟨rev, rev⟩)

/-- The pieces of a text between commas and hyphens. `str` is what was read of the current piece.
Source: `SVNRev.cpp` `SVNRevRangeArray::FromListString`, the loop -/
def readList (parseDate : List UInt16 → Bool) :
    List UInt16 → List UInt16 → SVNRev → SVNRevRangeArray → Option SVNRevRangeArray
  | [], str, prevRev, ranges =>
    let rev := createFromString parseDate str
    if rev.isValid then some (ranges.addEnding prevRev rev) else none
  | c :: rest, str, prevRev, ranges =>
    if c = 44 then
      let rev := createFromString parseDate str
      if rev.isValid then readList parseDate rest [] unspecified (ranges.addEnding prevRev rev) else none
    else if c = 45 then
      let rev := createFromString parseDate str
      if rev.isValid then readList parseDate rest [] rev ranges else none
    else readList parseDate rest (str ++ [c]) prevRev ranges

/-- The array is cleared at first and when a piece is no revision. The text ends at a terminator.
Source: `SVNRev.cpp` `SVNRevRangeArray::FromListString` -/
def fromListString (parseDate : List UInt16 → Bool) (string : List UInt16) :
    Bool × SVNRevRangeArray :=
  if string = [] then (true, [])
  else
    match readList parseDate (string.takeWhile (· ≠ 0)) [] unspecified [] with
    | some ranges => (true, ranges)
    | none => (false, [])

/-! ### Numbers -/

theorem toNat_digit {d : ℕ} (h : d < 10) : (UInt16.ofNat (48 + d)).toNat = 48 + d := by
  rw [UInt16.toNat_ofNat_of_lt']
  change 48 + d < 65536
  omega

theorem mem_decimal {n : ℕ} {c : UInt16} (hc : c ∈ decimal n) : ∃ d < 10, c = UInt16.ofNat (48 + d) := by
  unfold decimal at hc
  split at hc
  · exact ⟨0, by norm_num, List.mem_singleton.mp hc⟩
  · obtain ⟨d, hd, rfl⟩ := List.mem_map.mp hc
    exact ⟨d, Nat.digits_lt_base (by norm_num) (List.mem_reverse.mp hd), rfl⟩

theorem isDigit_of_mem {n : ℕ} {c : UInt16} (hc : c ∈ decimal n) : isDigit c = true := by
  obtain ⟨d, hd, rfl⟩ := mem_decimal hc
  have hval := toNat_digit hd
  simp only [isDigit, decide_eq_true_eq, UInt16.le_iff_toNat_le, hval]
  change 48 ≤ 48 + d ∧ 48 + d ≤ 57
  omega

theorem decimal_ne_nil (n : ℕ) : decimal n ≠ [] := by
  unfold decimal
  split
  · exact List.cons_ne_nil _ _
  · rename_i hn
    simpa using Nat.digits_ne_nil_iff_ne_zero.mpr hn

theorem foldl_digits (ds : List ℕ) (h : ∀ d ∈ ds, d < 10) :
    (ds.reverse.map fun d => UInt16.ofNat (48 + d)).foldl
      (fun v c => 10 * v + (c.toNat - 48)) 0 = Nat.ofDigits 10 ds := by
  induction ds with
  | nil => rfl
  | cons d ds ih =>
    obtain ⟨hd, hds⟩ := List.forall_mem_cons.mp h
    rw [List.reverse_cons, List.map_append, List.foldl_append, ih hds, Nat.ofDigits_cons]
    simp only [List.map_cons, List.map_nil, List.foldl_cons, List.foldl_nil, toNat_digit hd,
      Nat.add_sub_cancel_left]
    exact Nat.add_comm _ _

/-- The digits of a `LONG` are read back. -/
theorem wtol_decimal {n : ℕ} (h : (n : ℤ) ≤ longMax) : wtol (decimal n) = n := by
  have hvalue : (decimal n).foldl (fun v c => 10 * v + (c.toNat - 48)) 0 = n := by
    unfold decimal
    split
    · rename_i hn
      rw [hn]
      rfl
    · rw [foldl_digits _ fun d hd => Nat.digits_lt_base (by norm_num) hd, Nat.ofDigits_digits]
  rw [wtol, hvalue, min_eq_left h]

theorem not_isSpace_digit {c : UInt16} (h : isDigit c = true) : isSpace c = false := by
  simp only [isDigit, decide_eq_true_eq, UInt16.le_iff_toNat_le] at h
  change 48 ≤ c.toNat ∧ c.toNat ≤ 57 at h
  simp only [isSpace, decide_eq_false_iff_not, UInt16.le_iff_toNat_le, ← UInt16.toNat_inj]
  change ¬ ((9 ≤ c.toNat ∧ c.toNat ≤ 13) ∨ c.toNat = 32 ∨ c.toNat = 133 ∨ c.toNat = 160 ∨
    c.toNat = 5760 ∨ (8192 ≤ c.toNat ∧ c.toNat ≤ 8202) ∨ c.toNat = 8232 ∨ c.toNat = 8233 ∨
    c.toNat = 8239 ∨ c.toNat = 8287 ∨ c.toNat = 12288)
  omega

theorem upper_digit {c : UInt16} (h : isDigit c = true) : upper c = c := by
  simp only [isDigit, decide_eq_true_eq, UInt16.le_iff_toNat_le] at h
  change 48 ≤ c.toNat ∧ c.toNat ≤ 57 at h
  unfold upper
  rw [if_neg]
  rw [UInt16.le_iff_toNat_le, UInt16.le_iff_toNat_le]
  change ¬ (97 ≤ c.toNat ∧ c.toNat ≤ 122)
  omega

theorem trim_digits {s : List UInt16} (h : ∀ c ∈ s, isDigit c = true) : trim s = s := by
  have hnone : ∀ l : List UInt16, (∀ c ∈ l, isDigit c = true) → l.dropWhile isSpace = l := by
    intro l hl
    cases l with
    | nil => rfl
    | cons c l =>
      rw [List.dropWhile_cons_of_neg]
      simp [not_isSpace_digit (hl c List.mem_cons_self)]
  rw [trim, hnone s h, hnone s.reverse fun c hc => h c (List.mem_reverse.mp hc), List.reverse_reverse]

/-- A text of digits is read as a number. -/
theorem createFromString_digits (parseDate : List UInt16 → Bool) {s : List UInt16} (hne : s ≠ [])
    (h : ∀ c ∈ s, isDigit c = true) : createFromString parseDate s = number (wtol s) := by
  obtain ⟨c, s, rfl⟩ := List.exists_cons_of_ne_nil hne
  have hc := h c List.mem_cons_self
  have hother : ∀ d : UInt16, isDigit d = false → c ≠ d := by
    rintro d hd rfl
    rw [hc] at hd
    exact nomatch hd
  have hword : keywords.find? (fun word => (c :: s).map upper = word.1) = none := by
    rw [List.find?_eq_none]
    intro word hword
    rw [List.map_cons, upper_digit hc]
    simp only [keywords, List.mem_cons, List.not_mem_nil, or_false] at hword
    rcases hword with rfl | rfl | rfl | rfl | rfl
    all_goals
      rw [decide_eq_true_eq]
      intro heq
      exact hother _ (by decide) (List.cons.inj heq).1
  have hall : (c :: s).all isDigit = true := List.all_eq_true.mpr h
  unfold createFromString
  simp only [trim_digits h, List.head?_cons, Option.some.injEq, if_neg (hother 123 (by decide)), hword,
    if_neg hne, if_neg (hother 114 (by decide)), hall, if_true]

theorem createFromString_decimal (parseDate : List UInt16 → Bool) {n : ℕ} (h : (n : ℤ) ≤ longMax) :
    createFromString parseDate (decimal n) = number n := by
  rw [createFromString_digits parseDate (decimal_ne_nil n) fun c hc => isDigit_of_mem hc,
    wtol_decimal h]

/-! ### Reading what was printed -/

/-- A range that runs forward between revision numbers. -/
def Forward (range : SVNRevRange) : Prop :=
  ∃ a b : ℕ, a ≤ b ∧ (b : ℤ) ≤ longMax ∧ range = ⟨number a, number b⟩

section Reading

variable {parseDate : List UInt16 → Bool}

/-- The digits of a piece are collected. -/
theorem readList_digits {digits : List UInt16} (h : ∀ c ∈ digits, isDigit c = true)
    (rest str : List UInt16) (prevRev : SVNRev) (ranges : SVNRevRangeArray) :
    readList parseDate (digits ++ rest) str prevRev ranges =
      readList parseDate rest (str ++ digits) prevRev ranges := by
  induction digits generalizing str with
  | nil => rw [List.nil_append, List.append_nil]
  | cons c digits ih =>
    obtain ⟨hc, hdigits⟩ := List.forall_mem_cons.mp h
    have hcomma : c ≠ 44 := by
      rintro rfl
      exact absurd hc (by decide)
    have hhyphen : c ≠ 45 := by
      rintro rfl
      exact absurd hc (by decide)
    rw [List.cons_append, readList, if_neg hcomma, if_neg hhyphen, ih hdigits, List.append_assoc,
      List.singleton_append]

/-- What comes behind a range: the end of the text, or a comma and more. -/
theorem readList_range {range : SVNRevRange} (h : Forward range) (ranges : SVNRevRangeArray) :
    readList parseDate (rangeText range) [] unspecified ranges = some (ranges.addRevRange range) ∧
      ∀ rest, readList parseDate (rangeText range ++ 44 :: rest) [] unspecified ranges =
        readList parseDate rest [] unspecified (ranges.addRevRange range) := by
  obtain ⟨a, b, hab, hb, rfl⟩ := h
  have ha : (a : ℤ) ≤ longMax := by omega
  have hdigits : ∀ n : ℕ, ∀ c ∈ decimal n, isDigit c = true := fun n c hc => isDigit_of_mem hc
  have hra := createFromString_decimal parseDate ha
  have hrb := createFromString_decimal parseDate hb
  by_cases heq : a = b
  · subst heq
    have htext : rangeText ⟨number a, number a⟩ = decimal a := if_pos rfl
    have hend := @readList_digits parseDate _ (hdigits a)
    refine ⟨?_, fun rest => ?_⟩
    · have h := hend [] [] unspecified ranges
      rw [List.append_nil, List.nil_append] at h
      rw [htext, h, readList]
      simp [hra, isValid, addEnding]
    · rw [htext, hend, List.nil_append, readList, if_pos rfl]
      simp [hra, isValid, addEnding]
  · have hne : (number a : SVNRev) ≠ number b := fun he => heq (by simpa using he)
    have htext : rangeText ⟨number a, number b⟩ = decimal a ++ 45 :: decimal b := if_neg hne
    -- the piece in front of the hyphen gives the start
    have hfirst : ∀ rest, readList parseDate (decimal a ++ 45 :: rest) [] unspecified ranges =
        readList parseDate rest [] (number a) ranges := by
      intro rest
      rw [readList_digits (hdigits a), List.nil_append, readList, if_neg (by decide), if_pos rfl]
      simp [hra, isValid]
    have hlast := @readList_digits parseDate _ (hdigits b)
    refine ⟨?_, fun rest => ?_⟩
    · have h := hlast [] [] (number a) ranges
      rw [List.append_nil, List.nil_append] at h
      rw [htext, hfirst, h, readList]
      simp [hrb, isValid, addEnding]
    · rw [htext, List.append_assoc, List.cons_append, hfirst, hlast, List.nil_append, readList,
        if_pos rfl]
      simp [hrb, isValid, addEnding]

theorem rangeText_ne_nil {range : SVNRevRange} (h : Forward range) : rangeText range ≠ [] := by
  obtain ⟨a, b, -, -, rfl⟩ := h
  unfold rangeText
  split
  · exact decimal_ne_nil a
  · simp

theorem listText_concat (front : List SVNRevRange) (range : SVNRevRange) :
    listText (front ++ [range]) =
      (if listText front = [] then listText front else listText front ++ [44]) ++ rangeText range := by
  rw [listText, List.foldl_append, List.foldl_cons, List.foldl_nil, listText]

theorem listText_ne_nil {front : List SVNRevRange} (h : ∀ range ∈ front, Forward range)
    (hne : front ≠ []) : listText front ≠ [] := by
  obtain ⟨front, range, rfl⟩ : ∃ front' range, front = front' ++ [range] :=
    ⟨front.dropLast, front.getLast hne, (List.dropLast_append_getLast hne).symm⟩
  rw [listText_concat]
  exact List.append_ne_nil_of_right_ne_nil _ (rangeText_ne_nil (h range (by simp)))

/-- The printed ranges are added one by one. -/
theorem readList_listText {sorted : List SVNRevRange} (h : ∀ range ∈ sorted, Forward range)
    (hne : sorted ≠ []) : readList parseDate (listText sorted) [] unspecified [] =
        some (sorted.foldl addRevRange []) ∧
      ∀ rest, readList parseDate (listText sorted ++ 44 :: rest) [] unspecified [] =
        readList parseDate rest [] unspecified (sorted.foldl addRevRange []) := by
  induction sorted using List.reverseRecOn with
  | nil => exact absurd rfl hne
  | append_singleton front range ih =>
    have hrange := h range (by simp)
    have hfront : ∀ x ∈ front, Forward x := fun x hx => h x (List.mem_append_left _ hx)
    rw [List.foldl_append, List.foldl_cons, List.foldl_nil, listText_concat]
    rcases List.eq_nil_or_concat front with rfl | hconcat
    · exact readList_range hrange []
    · have hne' : front ≠ [] := by
        rintro rfl
        obtain ⟨l, x, hl⟩ := hconcat
        simp at hl
      obtain ⟨-, hmore⟩ := ih hfront hne'
      obtain ⟨hend, hrest⟩ := @readList_range parseDate range hrange (front.foldl addRevRange [])
      rw [if_neg (listText_ne_nil hfront hne'), List.append_assoc, List.singleton_append]
      refine ⟨?_, fun rest => ?_⟩
      · rw [hmore, hend]
      · rw [List.append_assoc, List.cons_append, hmore, hrest]

theorem ne_zero_of_mem {sorted : List SVNRevRange} (h : ∀ range ∈ sorted, Forward range)
    {c : UInt16} (hc : c ∈ listText sorted) : c ≠ 0 := by
  have hdigit : ∀ n : ℕ, ∀ d ∈ decimal n, d ≠ 0 := by
    rintro n d hd rfl
    exact absurd (isDigit_of_mem hd) (by decide)
  induction sorted using List.reverseRecOn generalizing c with
  | nil => exact absurd hc List.not_mem_nil
  | append_singleton front range ih =>
    have hfront : ∀ x ∈ front, Forward x := fun x hx => h x (List.mem_append_left _ hx)
    rw [listText_concat, List.mem_append] at hc
    rcases hc with hc | hc
    · split at hc
      · exact ih hfront hc
      · rcases List.mem_append.mp hc with hc | hc
        · exact ih hfront hc
        · rw [List.mem_singleton.mp hc]
          decide
    · obtain ⟨a, b, -, -, rfl⟩ := h range (by simp)
      unfold rangeText at hc
      split at hc
      · exact hdigit a c hc
      · rcases List.mem_append.mp hc with hc | hc
        · exact hdigit a c hc
        · rcases List.mem_cons.mp hc with rfl | hc
          · decide
          · exact hdigit b c hc

theorem fromListString_listText {sorted : List SVNRevRange} (h : ∀ range ∈ sorted, Forward range) :
    fromListString parseDate (listText sorted) = (true, sorted.foldl addRevRange []) := by
  unfold fromListString
  rcases eq_or_ne sorted [] with rfl | hne
  · rfl
  · have hnul : (listText sorted).takeWhile (· ≠ 0) = listText sorted :=
      List.takeWhile_eq_self_iff.mpr fun c hc => by simpa using ne_zero_of_mem h hc
    rw [if_neg (listText_ne_nil h hne), hnul, (readList_listText h hne).1]

end Reading

/-! ### Adding forward ranges -/

theorem Forward.numbered {range : SVNRevRange} (h : Forward range) : Numbered range := by
  obtain ⟨a, b, -, -, rfl⟩ := h
  exact ⟨a, b, Int.natCast_nonneg a, Int.natCast_nonneg b, rfl⟩

/-- Forward ranges give up nothing. -/
theorem not_givesUp {ranges : SVNRevRangeArray} (h : ∀ range ∈ ranges, Forward range) (n : ℤ) :
    ¬ GivesUp ranges n := by
  rintro ⟨front, first, last, back, rfl, -, hback, -⟩
  obtain ⟨a, b, hab, -, heq⟩ := h ⟨number first, number last⟩ (by simp)
  rw [SVNRevRange.mk.injEq, number.injEq, number.injEq] at heq
  omega

/-- Upwards, a forward range is extended to a forward one that holds the revision. -/
theorem extend_forward {n : ℕ} (hn : (n : ℤ) ≤ longMax) {range range' : SVNRevRange}
    (h : Forward range) (hext : extend n false range = some range') :
    Forward range' ∧ ∀ reverse, extend n reverse range' = some range' := by
  obtain ⟨a, b, hab, hb, rfl⟩ := h
  have hmin : min (a : ℤ) b = a := min_eq_left (by omega)
  have hmax : max (a : ℤ) b = b := max_eq_right (by omega)
  have hinside : ∀ c d : ℕ, c ≤ n → n ≤ d → ∀ reverse,
      extend n reverse ⟨number c, number d⟩ = some ⟨number c, number d⟩ := by
    intro c d hc hd reverse
    rw [extend_number (Int.natCast_nonneg n) (Int.natCast_nonneg c) (Int.natCast_nonneg d), if_pos]
    omega
  rw [extend_number (Int.natCast_nonneg n) (Int.natCast_nonneg a) (Int.natCast_nonneg b), hmin,
    hmax] at hext
  have hnot : ¬ ((b : ℤ) < a ∨ (a : ℤ) = b ∧ false = true) := by
    rintro (hlt | ⟨-, hfalse⟩)
    · omega
    · exact nomatch hfalse
  rw [if_neg hnot, if_neg hnot] at hext
  split_ifs at hext with hin hlow hhigh
  · obtain rfl := Option.some.inj hext
    exact ⟨⟨a, b, hab, hb, rfl⟩, hinside a b (by omega) (by omega)⟩
  · obtain rfl := Option.some.inj hext
    exact ⟨⟨n, b, by omega, hb, rfl⟩, hinside n b le_rfl (by omega)⟩
  · obtain rfl := Option.some.inj hext
    exact ⟨⟨a, n, by omega, hn, rfl⟩, hinside a n (by omega) le_rfl⟩

/-- Whether a range meets a revision does not depend on the direction. -/
theorem extend_none {n : ℕ} {range : SVNRevRange} (h : Forward range)
    (hext : extend n false range = none) (reverse : Bool) : extend n reverse range = none := by
  obtain ⟨a, b, -, -, rfl⟩ := h
  rw [extend_number (Int.natCast_nonneg n) (Int.natCast_nonneg a) (Int.natCast_nonneg b)] at hext ⊢
  split_ifs at hext ⊢
  rfl

/-- Adding a revision upwards keeps the ranges forward, and adding it again changes nothing. -/
theorem addRevision_forward {n : ℕ} (hn : (n : ℤ) ≤ longMax) {ranges : SVNRevRangeArray}
    (h : ∀ range ∈ ranges, Forward range) :
    (∀ range ∈ addRevision (number n) false ranges, Forward range) ∧
      ∀ reverse, addRevision (number n) reverse (addRevision (number n) false ranges) =
        addRevision (number n) false ranges := by
  induction ranges with
  | nil =>
    have hself : Forward ⟨number n, number n⟩ := ⟨n, n, le_rfl, hn, rfl⟩
    have hext : ∀ reverse, extend n reverse ⟨number n, number n⟩ = some ⟨number n, number n⟩ := by
      intro reverse
      rw [extend_number (Int.natCast_nonneg n) (Int.natCast_nonneg n) (Int.natCast_nonneg n), if_pos]
      omega
    refine ⟨fun range hrange => ?_, fun reverse => ?_⟩
    · rw [List.mem_singleton.mp hrange]
      exact hself
    · simp only [addRevision, toLong, hext]
  | cons range ranges ih =>
    obtain ⟨hrange, hranges⟩ := List.forall_mem_cons.mp h
    obtain ⟨hforward, hagain⟩ := ih hranges
    rcases hext : extend n false range with _ | range'
    · have hnone := extend_none hrange hext
      simp only [addRevision, toLong, hext, hnone, hagain, List.forall_mem_cons]
      exact ⟨⟨hrange, hforward⟩, fun _ => trivial⟩
    · obtain ⟨hrange', hsame⟩ := extend_forward hn hrange hext
      simp only [addRevision, toLong, hext, hsame, List.forall_mem_cons]
      exact ⟨⟨hrange', hranges⟩, fun _ => trivial⟩

/-- Adding revisions upwards adds nothing else. -/
theorem addUpwards_forward {ns : List ℤ} (hns : ∀ n ∈ ns, 0 ≤ n ∧ n ≤ longMax)
    {ranges : SVNRevRangeArray} (h : ∀ range ∈ ranges, Forward range) :
    (∀ range ∈ ns.foldl (fun ranges r => ranges.addRevision (create r) false) ranges,
        Forward range) ∧
      covered (ns.foldl (fun ranges r => ranges.addRevision (create r) false) ranges) =
        {n | n ∈ ns} ∪ covered ranges := by
  induction ns generalizing ranges with
  | nil => exact ⟨h, by simp⟩
  | cons n ns ih =>
    obtain ⟨⟨hn, hmax⟩, hrest⟩ := List.forall_mem_cons.mp hns
    obtain ⟨n, rfl⟩ := Int.eq_ofNat_of_zero_le hn
    have hforward := (addRevision_forward hmax h).1
    have hcovered := (covered_addRevision_iff hn false fun range hr => (h range hr).numbered).mpr
      (not_givesUp h n)
    rw [List.foldl_cons, create_of_nonneg hn]
    obtain ⟨hall, hunion⟩ := ih hrest hforward
    refine ⟨hall, ?_⟩
    rw [hunion, hcovered]
    ext r
    simp only [Set.mem_union, Set.mem_ofPred_eq, Set.mem_insert_iff, List.mem_cons]
    tauto

/-- Adding a forward range adds its revisions; the loop downwards finds the only revision of a single
range there already. -/
theorem addRevRange_forward {ranges : SVNRevRangeArray} (h : ∀ range ∈ ranges, Forward range)
    {range : SVNRevRange} (hrange : Forward range) :
    (∀ x ∈ ranges.addRevRange range, Forward x) ∧
      covered (ranges.addRevRange range) = between range ∪ covered ranges := by
  obtain ⟨a, b, hab, hb, rfl⟩ := hrange
  obtain ⟨hforward, hcovered⟩ := @addUpwards_forward (ascending a b)
    (fun n hn => by
      have hmem := mem_ascending.mp hn
      omega) ranges h
  have hbetween : between ⟨number a, number b⟩ = {n | n ∈ ascending a b} := by
    ext n
    rw [between_number, min_eq_left (by omega), max_eq_right (by omega), Set.mem_Icc,
      Set.mem_ofPred_eq, mem_ascending]
  have hadd : ranges.addRevRange ⟨number a, number b⟩ =
      (ascending a b).foldl (fun ranges r => ranges.addRevision (create r) false) ranges := by
    simp only [addRevRange, isNumber, toLong, not_true_eq_false, or_self, if_false]
    rcases hab.eq_or_lt with rfl | hlt
    · have hup : ascending (a : ℤ) a = [(a : ℤ)] := by simp [ascending]
      have hdown : descending (a : ℤ) a = [(a : ℤ)] := by simp [descending]
      simp only [hup, hdown, List.foldl_cons, List.foldl_nil, create_of_nonneg (Int.natCast_nonneg a)]
      exact (addRevision_forward hb h).2 true
    · have hdown : descending (a : ℤ) b = [] := by
        rw [descending, show ((a : ℤ) + 1 - b).toNat = 0 by omega]
        rfl
      rw [hdown, List.foldl_nil]
  rw [hadd, hbetween]
  exact ⟨hforward, hcovered⟩

theorem addAll_forward {sorted : List SVNRevRange} (h : ∀ range ∈ sorted, Forward range) :
    (∀ x ∈ sorted.foldl addRevRange [], Forward x) ∧
      covered (sorted.foldl addRevRange []) = covered sorted := by
  induction sorted using List.reverseRecOn with
  | nil => exact ⟨fun x hx => absurd hx List.not_mem_nil, rfl⟩
  | append_singleton front range ih =>
    obtain ⟨hforward, hcovered⟩ := ih fun x hx => h x (List.mem_append_left _ hx)
    obtain ⟨hall, hunion⟩ := addRevRange_forward hforward (h range (by simp))
    rw [List.foldl_append, List.foldl_cons, List.foldl_nil]
    refine ⟨hall, ?_⟩
    rw [hunion, hcovered, covered_append, covered_cons, Set.union_comm]
    simp [covered]

/-- The calls that add forward ranges. -/
def forwardCalls (pairs : List (ℕ × ℕ)) : List Call :=
  pairs.map fun pair => .addRevRange pair.1 pair.2

/-- **What forward ranges were added in any order is printed and read back** as an array that covers
the same revisions. The loop over a range that ends with the largest `LONG` would not end. -/
theorem fromListString_toListString (parseDate : List UInt16 → Bool) (pairs : List (ℕ × ℕ))
    (h : ∀ pair ∈ pairs, pair.1 ≤ pair.2 ∧ (pair.2 : ℤ) < longMax) :
    (∃ text, ToListString false (run (forwardCalls pairs)) text) ∧
      ∀ text, ToListString false (run (forwardCalls pairs)) text →
        ∃ ranges, fromListString parseDate text = (true, ranges) ∧
          covered ranges = covered (run (forwardCalls pairs)) := by
  have hrun : run (forwardCalls pairs) =
      (pairs.map fun pair => (⟨number pair.1, number pair.2⟩ : SVNRevRange)).foldl addRevRange [] := by
    rw [run, forwardCalls, List.foldl_map, List.foldl_map]
    rfl
  have hpairs : ∀ range ∈ pairs.map fun pair => (⟨number pair.1, number pair.2⟩ : SVNRevRange),
      Forward range := by
    intro range hrange
    obtain ⟨pair, hpair, rfl⟩ := List.mem_map.mp hrange
    obtain ⟨hle, hlt⟩ := h pair hpair
    exact ⟨pair.1, pair.2, hle, hlt.le, rfl⟩
  have hforward := (addAll_forward hpairs).1
  rw [← hrun] at hforward
  constructor
  · let before : SVNRevRange → SVNRevRange → Prop := fun a b => a.start.toLong ≤ b.start.toLong
    have : DecidableRel before := fun a b => Int.decLe _ _
    have : Std.Total before := ⟨fun a b => Int.le_total _ _⟩
    have : IsTrans SVNRevRange before := ⟨fun a b c => Int.le_trans⟩
    refine ⟨_, _, List.perm_insertionSort before _, ?_, rfl⟩
    refine (List.pairwise_insertionSort before _).imp fun hab => ?_
    simp only [sortsBefore, Bool.false_eq_true, if_false, not_lt]
    exact hab
  · rintro text ⟨sorted, hperm, -, rfl⟩
    have hsorted : ∀ range ∈ sorted, Forward range := fun range hr =>
      hforward range (hperm.mem_iff.mp hr)
    refine ⟨_, fromListString_listText hsorted, ?_⟩
    rw [(addAll_forward hsorted).2]
    ext r
    simp only [covered, Set.mem_ofPred_eq, hperm.mem_iff]

/-- Added out of order, with an overlap and a single revision. -/
theorem fromListString_toListString_three :
    (∃ text, ToListString false (run (forwardCalls [(4, 9), (1, 1), (3, 5)])) text) ∧
      ∀ text, ToListString false (run (forwardCalls [(4, 9), (1, 1), (3, 5)])) text →
        ∃ ranges, fromListString (fun _ => false) text = (true, ranges) ∧
          covered ranges = covered (run (forwardCalls [(4, 9), (1, 1), (3, 5)])) :=
  fromListString_toListString (fun _ => false) [(4, 9), (1, 1), (3, 5)] (by
    intro pair hpair
    simp only [List.mem_cons, List.not_mem_nil, or_false] at hpair
    rcases hpair with rfl | rfl | rfl <;> exact ⟨by decide, by decide⟩)

end SVNRevRangeArray

end TortoiseSvn.Svn
