import Mathlib.Tactic

/-!
# The encoding of a file

`CheckUnicodeType` looks at the bytes of a file. Without NUL bytes and byte order marks it tells UTF-8
from ASCII with one counter of continuation bytes that are still needed; the lead bytes C0, C1 and F5
to FF are illegal, but no second byte is compared with its lead byte.

Main result: `detectsUtf8_iff`. UTF-8 is detected exactly iff no second byte is out of the range that
its lead byte allows; overlong forms, surrogates and values above U+10FFFF pass for UTF-8.
-/

namespace TortoiseSvn.Merge

namespace FileText

/-- Source: `FileTextLines.h` `CFileTextLines::UnicodeType` -/
inductive UnicodeType where
  | autotype | binary | ascii | utf16LE | utf16BE | utf16LEBOM | utf16BEBOM | utf32LE | utf32BE
  | utf8 | utf8BOM
  deriving DecidableEq, Repr

/-! ### The check -/

/-- One of the 32-bit words of a buffer is 0.
Source: `FileTextLines.cpp` `CFileTextLines::CheckUnicodeType`, the scan for binary files -/
def hasZeroDword : List UInt8 → Bool
  | a :: b :: c :: d :: rest => (a = 0 ∧ b = 0 ∧ c = 0 ∧ d = 0) || hasZeroDword rest
  | _ => false

/-- The type of a file with too many NUL bytes, of which one is at `i`.
Source: `FileTextLines.cpp` `CFileTextLines::CheckUnicodeType`, `nullcount > (cb / 50)` -/
def tooManyNulls (cb i nullcount : ℕ) : Option UnicodeType :=
  if cb / 50 < nullcount then some (if i % 2 = 1 then .utf16LE else .utf16BE) else none

/-- Go on to the first byte that is not ASCII: the position, the NUL bytes so far and the rest. An
error is a type that is returned at once.
Source: `FileTextLines.cpp` `CFileTextLines::CheckUnicodeType`, the first loop -/
def asciiLoop (cb : ℕ) : ℕ → ℕ → List UInt8 → Except UnicodeType (ℕ × ℕ × List UInt8)
  | i, nullcount, [] => .ok (i, nullcount, [])
  | i, nullcount, z :: rest =>
    if z = 0 then
      match tooManyNulls cb i (nullcount + 1) with
      | some type => .error type
      | none => asciiLoop cb (i + 1) (nullcount + 1) rest
    else if z &&& 0x80 ≠ 0 then .ok (i, nullcount, z :: rest)
    else asciiLoop cb (i + 1) nullcount rest

/-- The number of continuation bytes that are needed at the end. An error is a type that is returned at
once.
Source: `FileTextLines.cpp` `CFileTextLines::CheckUnicodeType`, "check remaining text for UTF-8
validity" -/
def validityLoop (cb : ℕ) : ℕ → ℕ → ℕ → List UInt8 → Except UnicodeType ℕ
  | _, _, nNeedData, [] => .ok nNeedData
  | i, nullcount, nNeedData, zChar :: rest =>
    if zChar &&& 0x80 = 0 then
      if zChar = 0 then
        match tooManyNulls cb i (nullcount + 1) with
        | some type => .error type
        | none => validityLoop cb (i + 1) (nullcount + 1) 0 rest
      else if nNeedData ≠ 0 then .error .ascii
      else validityLoop cb (i + 1) nullcount nNeedData rest
    else if zChar &&& 0x40 = 0 then
      if nNeedData = 0 then .error .ascii
      else validityLoop cb (i + 1) nullcount (nNeedData - 1) rest
    else if nNeedData ≠ 0 then .error .ascii
    else if zChar &&& 0x20 = 0 then
      if zChar ≤ 0xC1 then .error .ascii else validityLoop cb (i + 1) nullcount 1 rest
    else if zChar &&& 0x10 = 0 then validityLoop cb (i + 1) nullcount 2 rest
    else if zChar &&& 0x08 = 0 then
      if 0xf5 ≤ zChar then .error .ascii else validityLoop cb (i + 1) nullcount 3 rest
    else .error .ascii

/-- `useUTF8` is the setting of that name.
Source: `FileTextLines.cpp` `CFileTextLines::CheckUnicodeType` -/
def CheckUnicodeType (useUTF8 : Bool) (buffer : List UInt8) : UnicodeType :=
  let cb := buffer.length
  if cb < 2 then .ascii
  else if hasZeroDword buffer then .binary
  else if buffer.take 4 = [0xFF, 0xFE, 0, 0] then .utf32LE
  else if buffer.take 4 = [0, 0, 0xFE, 0xFF] then .utf32BE
  else if buffer.take 2 = [0xFF, 0xFE] then .utf16LEBOM
  else if buffer.take 2 = [0xFE, 0xFF] then .utf16BEBOM
  else if cb < 3 then .ascii
  else if buffer.take 3 = [0xEF, 0xBB, 0xBF] then .utf8BOM
  else
    match asciiLoop cb 0 0 buffer with
    | .error type => type
    | .ok (i, nullcount, rest) =>
      match validityLoop cb i nullcount 0 rest with
      | .error type => type
      | .ok nNeedData =>
        if rest ≠ [] ∧ nNeedData = 0 then .utf8
        else if rest = [] ∧ useUTF8 then .utf8
        else .ascii

/-! ### UTF-8 -/

/-- The UTF-8 text of some scalar values. -/
def encodeUtf8 (cs : List Char) : List UInt8 := cs.flatMap String.utf8EncodeChar

/-- The bytes are the UTF-8 text of some scalar values. -/
def WellFormedUtf8 (buffer : List UInt8) : Prop := ∃ cs, encodeUtf8 cs = buffer

/-- A byte that is not ASCII. -/
def NonAscii (buffer : List UInt8) : Prop := ∃ z ∈ buffer, 0x80 ≤ z.toNat

/-- UTF-8 with other bytes than ASCII is detected, and nothing else; what is detected survives a
decoder and the encoder. -/
structure DetectsUtf8 (buffer : List UInt8) : Prop where
  detects : CheckUnicodeType false buffer = .utf8 ↔ WellFormedUtf8 buffer ∧ NonAscii buffer
  other : CheckUnicodeType false buffer ≠ .utf8 → CheckUnicodeType false buffer = .ascii
  survives : ∀ decode : List UInt8 → List Char, (∀ cs, decode (encodeUtf8 cs) = cs) →
    CheckUnicodeType false buffer = .utf8 → encodeUtf8 (decode buffer) = buffer

/-! ### Patterns of bytes -/

/-- The number of continuation bytes that a first byte needs. -/
def need (a : UInt8) : Option ℕ :=
  if a.toNat < 0x80 then some 0
  else if a.toNat < 0xC2 then none
  else if a.toNat < 0xE0 then some 1
  else if a.toNat < 0xF0 then some 2
  else if a.toNat < 0xF5 then some 3
  else none

/-- A continuation byte. -/
def Continuation (b : UInt8) : Prop := 0x80 ≤ b.toNat ∧ b.toNat < 0xC0

/-- A first byte and as many continuation bytes as it needs. -/
def Pattern (p : List UInt8) : Prop :=
  ∃ a tail, p = a :: tail ∧ need a = some tail.length ∧ ∀ b ∈ tail, Continuation b

/-- The second byte makes an overlong form, a surrogate or a value above U+10FFFF. -/
def OutOfRange (p : List UInt8) : Prop :=
  ∃ a b rest, p = a :: b :: rest ∧ ((a = 0xE0 ∧ b.toNat < 0xA0) ∨ (a = 0xED ∧ 0xA0 ≤ b.toNat) ∨
    (a = 0xF0 ∧ b.toNat < 0x90) ∨ (a = 0xF4 ∧ 0x90 ≤ b.toNat))

/-- The bytes fall into patterns. -/
def Falls (ps : List (List UInt8)) (buffer : List UInt8) : Prop :=
  (∀ p ∈ ps, Pattern p) ∧ ps.flatten = buffer

/-- The bytes fall into patterns, one of which has its second byte out of range. -/
def IllFormed (buffer : List UInt8) : Prop := ∃ ps, Falls ps buffer ∧ ∃ p ∈ ps, OutOfRange p

/-! ### Characters as patterns -/

theorem toNat_byte {n : ℕ} (h : n < 256) : (UInt8.ofNat n).toNat = n := UInt8.toNat_ofNat_of_lt' h

/-- A scalar value is written as a pattern with its second byte in range. -/
theorem pattern_encodeChar (c : Char) :
    Pattern (String.utf8EncodeChar c) ∧ ¬ OutOfRange (String.utf8EncodeChar c) := by
  have hvalid : c.val.toNat < 0xD800 ∨ 0xDFFF < c.val.toNat ∧ c.val.toNat < 0x110000 := c.valid
  unfold String.utf8EncodeChar
  generalize c.val.toNat = v at hvalid
  dsimp only
  split_ifs with hone htwo hthree
  · refine ⟨⟨_, [], rfl, ?_, fun b hb => absurd hb List.not_mem_nil⟩, ?_⟩
    · rw [need, toNat_byte (by omega), if_pos (by omega)]
      rfl
    · rintro ⟨a, b, rest, heq, -⟩
      exact nomatch heq
  · refine ⟨⟨_, [_], rfl, ?_, ?_⟩, ?_⟩
    · rw [need, toNat_byte (by omega), if_neg (by omega), if_neg (by omega), if_pos (by omega)]
      rfl
    · intro b hb
      rw [List.mem_singleton.mp hb, Continuation, toNat_byte (by omega)]
      omega
    · rintro ⟨a, b, rest, heq, hrange⟩
      obtain ⟨rfl, -⟩ := List.cons.inj heq
      simp only [← UInt8.toNat_inj, toNat_byte (show v / 64 % 32 + 192 < 256 by omega)] at hrange
      change (_ = 224 ∧ _) ∨ (_ = 237 ∧ _) ∨ (_ = 240 ∧ _) ∨ (_ = 244 ∧ _) at hrange
      omega
  · refine ⟨⟨_, [_, _], rfl, ?_, ?_⟩, ?_⟩
    · rw [need, toNat_byte (by omega), if_neg (by omega), if_neg (by omega), if_neg (by omega),
        if_pos (by omega)]
      rfl
    · simp only [List.forall_mem_cons, Continuation]
      rw [toNat_byte (by omega), toNat_byte (by omega)]
      exact ⟨by omega, by omega, fun b hb => absurd hb List.not_mem_nil⟩
    · rintro ⟨a, b, rest, heq, hrange⟩
      obtain ⟨rfl, hsecond⟩ := List.cons.inj heq
      obtain ⟨rfl, -⟩ := List.cons.inj hsecond
      simp only [← UInt8.toNat_inj, toNat_byte (show v / 4096 % 16 + 224 < 256 by omega),
        toNat_byte (show v / 64 % 64 + 128 < 256 by omega)] at hrange
      change (_ = 224 ∧ _) ∨ (_ = 237 ∧ _) ∨ (_ = 240 ∧ _) ∨ (_ = 244 ∧ _) at hrange
      omega
  · refine ⟨⟨_, [_, _, _], rfl, ?_, ?_⟩, ?_⟩
    · rw [need, toNat_byte (by omega), if_neg (by omega), if_neg (by omega), if_neg (by omega),
        if_neg (by omega), if_pos (by omega)]
      rfl
    · simp only [List.forall_mem_cons, Continuation]
      rw [toNat_byte (by omega), toNat_byte (by omega), toNat_byte (by omega)]
      exact ⟨by omega, by omega, by omega, fun b hb => absurd hb List.not_mem_nil⟩
    · rintro ⟨a, b, rest, heq, hrange⟩
      obtain ⟨rfl, hsecond⟩ := List.cons.inj heq
      obtain ⟨rfl, -⟩ := List.cons.inj hsecond
      simp only [← UInt8.toNat_inj, toNat_byte (show v / 262144 % 8 + 240 < 256 by omega),
        toNat_byte (show v / 4096 % 64 + 128 < 256 by omega)] at hrange
      change (_ = 224 ∧ _) ∨ (_ = 237 ∧ _) ∨ (_ = 240 ∧ _) ∨ (_ = 244 ∧ _) at hrange
      omega

/-- The scalar value of a number. -/
def scalar (v : ℕ) (h : v < 0xD800 ∨ 0xDFFF < v ∧ v < 0x110000) : Char :=
  ⟨UInt32.ofNatLT v (by change v < 4294967296; omega), by
    rw [UInt32.isValidChar, UInt32.toNat_ofNatLT]
    exact h⟩

theorem encodeChar_scalar (v : ℕ) (h : v < 0xD800 ∨ 0xDFFF < v ∧ v < 0x110000) :
    String.utf8EncodeChar (scalar v h) =
      if v ≤ 0x7f then [UInt8.ofNat v]
      else if v ≤ 0x7ff then [UInt8.ofNat (v / 64 % 0x20 + 0xc0), UInt8.ofNat (v % 0x40 + 0x80)]
      else if v ≤ 0xffff then
        [UInt8.ofNat (v / 4096 % 0x10 + 0xe0), UInt8.ofNat (v / 64 % 0x40 + 0x80),
          UInt8.ofNat (v % 0x40 + 0x80)]
      else
        [UInt8.ofNat (v / 262144 % 0x08 + 0xf0), UInt8.ofNat (v / 4096 % 0x40 + 0x80),
          UInt8.ofNat (v / 64 % 0x40 + 0x80), UInt8.ofNat (v % 0x40 + 0x80)] := rfl

theorem byte_eq {n : ℕ} {b : UInt8} (h : n = b.toNat) : UInt8.ofNat n = b := by
  rw [h, UInt8.ofNat_toNat]

/-- Other patterns are scalar values. -/
theorem exists_encodeChar {p : List UInt8} (hp : Pattern p) (hrange : ¬ OutOfRange p) :
    ∃ c, String.utf8EncodeChar c = p := by
  obtain ⟨a, tail, rfl, hneed, htail⟩ := hp
  have hbyte : ∀ b : UInt8, b.toNat < 256 := fun b => b.toNat_lt
  have ha := hbyte a
  unfold need at hneed
  split_ifs at hneed with hone hnone htwo hthree hfour
  · obtain rfl := List.length_eq_zero_iff.mp (Option.some.inj hneed).symm
    refine ⟨scalar a.toNat (by omega), ?_⟩
    rw [encodeChar_scalar, if_pos (by omega), byte_eq rfl]
  · obtain ⟨b, rfl⟩ := List.length_eq_one_iff.mp (Option.some.inj hneed).symm
    obtain ⟨hb, hb'⟩ := htail b (by simp)
    refine ⟨scalar ((a.toNat - 0xC0) * 64 + (b.toNat - 0x80)) (by omega), ?_⟩
    rw [encodeChar_scalar, if_neg (by omega), if_pos (by omega), @byte_eq _ a (by omega),
      @byte_eq _ b (by omega)]
  · obtain ⟨b, c, rfl⟩ := List.length_eq_two.mp (Option.some.inj hneed).symm
    obtain ⟨hb, hb'⟩ := htail b (by simp)
    obtain ⟨hc, hc'⟩ := htail c (by simp)
    have hoverlong : a.toNat = 0xE0 → 0xA0 ≤ b.toNat := fun h => by
      by_contra hlt
      exact hrange ⟨a, b, [c], rfl, Or.inl ⟨UInt8.toNat_inj.mp h, by omega⟩⟩
    have hsurrogate : a.toNat = 0xED → b.toNat < 0xA0 := fun h => by
      by_contra hlt
      exact hrange ⟨a, b, [c], rfl, Or.inr (Or.inl ⟨UInt8.toNat_inj.mp h, by omega⟩)⟩
    refine ⟨scalar ((a.toNat - 0xE0) * 4096 + (b.toNat - 0x80) * 64 + (c.toNat - 0x80)) (by omega),
      ?_⟩
    rw [encodeChar_scalar, if_neg (by omega), if_neg (by omega), if_pos (by omega),
      @byte_eq _ a (by omega), @byte_eq _ b (by omega), @byte_eq _ c (by omega)]
  · obtain ⟨b, c, d, rfl⟩ := List.length_eq_three.mp (Option.some.inj hneed).symm
    obtain ⟨hb, hb'⟩ := htail b (by simp)
    obtain ⟨hc, hc'⟩ := htail c (by simp)
    obtain ⟨hd, hd'⟩ := htail d (by simp)
    have hoverlong : a.toNat = 0xF0 → 0x90 ≤ b.toNat := fun h => by
      by_contra hlt
      exact hrange ⟨a, b, [c, d], rfl,
        Or.inr (Or.inr (Or.inl ⟨UInt8.toNat_inj.mp h, by omega⟩))⟩
    have habove : a.toNat = 0xF4 → b.toNat < 0x90 := fun h => by
      by_contra hlt
      exact hrange ⟨a, b, [c, d], rfl,
        Or.inr (Or.inr (Or.inr ⟨UInt8.toNat_inj.mp h, by omega⟩))⟩
    refine ⟨scalar ((a.toNat - 0xF0) * 262144 + (b.toNat - 0x80) * 4096 + (c.toNat - 0x80) * 64 +
      (d.toNat - 0x80)) (by omega), ?_⟩
    rw [encodeChar_scalar, if_neg (by omega), if_neg (by omega), if_neg (by omega),
      @byte_eq _ a (by omega), @byte_eq _ b (by omega), @byte_eq _ c (by omega),
      @byte_eq _ d (by omega)]

/-! ### One way to fall into patterns -/

theorem Pattern.ne_nil {p : List UInt8} (hp : Pattern p) : p ≠ [] := by
  obtain ⟨a, tail, rfl, -⟩ := hp
  exact List.cons_ne_nil a tail

/-- The first byte of a pattern tells its length. -/
theorem Pattern.append_inj {p q x y : List UInt8} (hp : Pattern p) (hq : Pattern q)
    (h : p ++ x = q ++ y) : p = q ∧ x = y := by
  obtain ⟨a, tail, rfl, hneed, -⟩ := hp
  obtain ⟨b, tail', rfl, hneed', -⟩ := hq
  obtain rfl : a = b := (List.cons.inj h).1
  refine List.append_inj h ?_
  rw [hneed] at hneed'
  rw [List.length_cons, List.length_cons, Option.some.inj hneed']

theorem Falls.unique {ps qs : List (List UInt8)} {buffer : List UInt8} (hp : Falls ps buffer)
    (hq : Falls qs buffer) : ps = qs := by
  obtain ⟨hps, rfl⟩ := hp
  obtain ⟨hqs, hflat⟩ := hq
  induction ps generalizing qs with
  | nil =>
    cases qs with
    | nil => rfl
    | cons q qs =>
      have hnil : q = [] := (List.append_eq_nil_iff.mp hflat).1
      exact absurd hnil (hqs q List.mem_cons_self).ne_nil
  | cons p ps ih =>
    obtain ⟨hhead, htail⟩ := List.forall_mem_cons.mp hps
    cases qs with
    | nil =>
      have hnil : p = [] := (List.append_eq_nil_iff.mp hflat.symm).1
      exact absurd hnil hhead.ne_nil
    | cons q qs =>
      obtain ⟨hhead', htail'⟩ := List.forall_mem_cons.mp hqs
      obtain ⟨rfl, hrest⟩ := hhead.append_inj hhead' hflat.symm
      rw [ih htail htail' hrest.symm]

/-- The bytes of UTF-8 fall into patterns with their second bytes in range. -/
theorem wellFormedUtf8_iff (buffer : List UInt8) :
    WellFormedUtf8 buffer ↔ (∃ ps, Falls ps buffer) ∧ ¬ IllFormed buffer := by
  constructor
  · rintro ⟨cs, rfl⟩
    have hfalls : Falls (cs.map String.utf8EncodeChar) (encodeUtf8 cs) := by
      refine ⟨fun p hp => ?_, (List.flatMap_def).symm⟩
      obtain ⟨c, -, rfl⟩ := List.mem_map.mp hp
      exact (pattern_encodeChar c).1
    refine ⟨⟨_, hfalls⟩, ?_⟩
    rintro ⟨ps, hps, p, hp, hrange⟩
    rw [hps.unique hfalls] at hp
    obtain ⟨c, -, rfl⟩ := List.mem_map.mp hp
    exact (pattern_encodeChar c).2 hrange
  · rintro ⟨⟨ps, hps⟩, hlegal⟩
    have hchars : ∀ p ∈ ps, ∃ c, String.utf8EncodeChar c = p := fun p hp =>
      exists_encodeChar (hps.1 p hp) fun hrange => hlegal ⟨ps, hps, p, hp, hrange⟩
    have hmem : ps ∈ Set.range (List.map String.utf8EncodeChar) := by
      rw [Set.range_list_map]
      exact hchars
    obtain ⟨cs, hcs⟩ := hmem
    refine ⟨cs, ?_⟩
    rw [encodeUtf8, List.flatMap_def, hcs, hps.2]

/-! ### Bytes that are still needed -/

/-- So many continuation bytes, and then bytes that fall into patterns. -/
def Owes (n : ℕ) (l : List UInt8) : Prop :=
  ∃ tail rest ps, l = tail ++ rest ∧ tail.length = n ∧ (∀ b ∈ tail, Continuation b) ∧ Falls ps rest

theorem owes_zero (l : List UInt8) : Owes 0 l ↔ ∃ ps, Falls ps l := by
  constructor
  · rintro ⟨tail, rest, ps, rfl, hlen, -, hps⟩
    rw [List.length_eq_zero_iff.mp hlen]
    exact ⟨ps, hps⟩
  · rintro ⟨ps, hps⟩
    exact ⟨[], l, ps, rfl, rfl, fun b hb => absurd hb List.not_mem_nil, hps⟩

theorem owes_nil (n : ℕ) : Owes n [] ↔ n = 0 := by
  constructor
  · rintro ⟨tail, rest, ps, hnil, rfl, -⟩
    rw [(List.append_eq_nil_iff.mp hnil.symm).1]
    rfl
  · rintro rfl
    exact (owes_zero []).mpr ⟨[], fun p hp => absurd hp List.not_mem_nil, rfl⟩

theorem owes_succ_cons (n : ℕ) (b : UInt8) (l : List UInt8) :
    Owes (n + 1) (b :: l) ↔ Continuation b ∧ Owes n l := by
  constructor
  · rintro ⟨tail, rest, ps, heq, hlen, htail, hps⟩
    cases tail with
    | nil => exact nomatch hlen
    | cons b' tail =>
      obtain ⟨rfl, rfl⟩ := List.cons.inj heq
      obtain ⟨hb, htail⟩ := List.forall_mem_cons.mp htail
      exact ⟨hb, tail, rest, ps, rfl, Nat.succ.inj hlen, htail, hps⟩
  · rintro ⟨hb, tail, rest, ps, rfl, rfl, htail, hps⟩
    exact ⟨b :: tail, rest, ps, rfl, rfl, List.forall_mem_cons.mpr ⟨hb, htail⟩, hps⟩

theorem owes_zero_cons (a : UInt8) (l : List UInt8) :
    Owes 0 (a :: l) ↔ ∃ n, need a = some n ∧ Owes n l := by
  rw [owes_zero]
  constructor
  · rintro ⟨ps, hps, hflat⟩
    cases ps with
    | nil => exact nomatch hflat
    | cons p ps =>
      obtain ⟨⟨b, tail, rfl, hneed, htail⟩, hrest⟩ := List.forall_mem_cons.mp hps
      obtain ⟨rfl, rfl⟩ := List.cons.inj hflat
      exact ⟨_, hneed, tail, _, ps, rfl, rfl, htail, hrest, rfl⟩
  · rintro ⟨n, hneed, tail, rest, ps, rfl, rfl, htail, hps, rfl⟩
    exact ⟨(a :: tail) :: ps, List.forall_mem_cons.mpr ⟨⟨a, tail, rfl, hneed, htail⟩, hps⟩, rfl⟩

theorem not_owes_cons {n : ℕ} {a : UInt8} (hn : n ≠ 0) (ha : ¬ Continuation a) (l : List UInt8) :
    ¬ Owes n (a :: l) := by
  obtain ⟨n, rfl⟩ := Nat.exists_eq_succ_of_ne_zero hn
  rw [owes_succ_cons]
  exact fun h => ha h.1

/-- The bits of a byte that are looked at, from the highest on. -/
theorem bits (z : UInt8) : (z &&& 0x80 = 0 ↔ z.toNat < 0x80) ∧
    (0x80 ≤ z.toNat → (z &&& 0x40 = 0 ↔ z.toNat < 0xC0)) ∧
    (0xC0 ≤ z.toNat → (z &&& 0x20 = 0 ↔ z.toNat < 0xE0)) ∧
    (0xE0 ≤ z.toNat → (z &&& 0x10 = 0 ↔ z.toNat < 0xF0)) ∧
    (0xF0 ≤ z.toNat → (z &&& 0x08 = 0 ↔ z.toNat < 0xF8)) ∧
    (z ≤ 0xC1 ↔ z.toNat < 0xC2) ∧ (0xf5 ≤ z ↔ 0xF5 ≤ z.toNat) := by
  obtain ⟨z⟩ := z
  revert z
  decide +kernel

/-- The loop ends with nothing needed iff `valid` holds; what it returns at once is ASCII. -/
def Checks (result : Except UnicodeType ℕ) (valid : Prop) : Prop :=
  (result = .ok 0 ↔ valid) ∧ ∀ type, result = .error type → type = .ascii

theorem checks_error {valid : Prop} (h : ¬ valid) : Checks (.error .ascii) valid :=
  ⟨iff_of_false nofun h, fun _ htype => (Except.error.inj htype).symm⟩

/-- The second loop accepts the bytes that were needed with bytes behind them that fall into
patterns. -/
theorem validityLoop_spec (cb : ℕ) {l : List UInt8} (hnul : 0 ∉ l) (i nullcount nNeedData : ℕ) :
    Checks (validityLoop cb i nullcount nNeedData l) (Owes nNeedData l) := by
  induction l generalizing i nNeedData with
  | nil =>
    rw [validityLoop, owes_nil]
    exact ⟨by simp, fun type h => nomatch h⟩
  | cons z l ih =>
    obtain ⟨hz, hl⟩ := not_or.mp (mt List.mem_cons.mpr hnul)
    have ih := fun i n => ih hl i n
    obtain ⟨htop, hsecond, hthird, hfourth, hfifth, hlow, hhigh⟩ := bits z
    -- what a first byte asks for
    have hlead : ∀ n, need z = some n → (Owes 0 (z :: l) ↔ Owes n l) := by
      intro n hn
      rw [owes_zero_cons]
      simp [hn]
    have hillegal : need z = none → ¬ Owes 0 (z :: l) := by
      intro hn
      rw [owes_zero_cons]
      simp [hn]
    rw [validityLoop]
    by_cases hascii : z.toNat < 0x80
    · rw [if_pos (htop.mpr hascii), if_neg (Ne.symm hz)]
      split_ifs with hn
      · exact checks_error (not_owes_cons hn (fun h => Nat.not_le.mpr hascii h.1) l)
      · rw [not_not.mp hn, hlead 0 (by rw [need, if_pos hascii])]
        exact ih _ 0
    · rw [if_neg (mt htop.mp hascii)]
      by_cases htail : z.toNat < 0xC0
      · rw [if_pos ((hsecond (by omega)).mpr htail)]
        split_ifs with hn
        · rw [hn]
          exact checks_error (hillegal (by rw [need, if_neg hascii, if_pos (by omega)]))
        · obtain ⟨n, rfl⟩ := Nat.exists_eq_succ_of_ne_zero hn
          rw [Nat.succ_eq_add_one, owes_succ_cons,
            and_iff_right (show Continuation z from ⟨by omega, htail⟩)]
          exact ih _ n
      · rw [if_neg (mt (hsecond (by omega)).mp htail)]
        split_ifs with hn htwo hlow' hthree hfour hhigh'
        · exact checks_error (not_owes_cons hn (fun h => htail h.2) l)
        · rw [not_not.mp hn]
          rw [hlow] at hlow'
          exact checks_error (hillegal (by rw [need, if_neg hascii, if_pos hlow']))
        · rw [not_not.mp hn]
          rw [hlow] at hlow'
          rw [hthird (by omega)] at htwo
          rw [hlead 1 (by rw [need, if_neg hascii, if_neg hlow', if_pos htwo])]
          exact ih _ 1
        · rw [not_not.mp hn]
          rw [hthird (by omega)] at htwo
          rw [hfourth (by omega)] at hthree
          rw [hlead 2 (by rw [need, if_neg hascii, if_neg (by omega), if_neg htwo, if_pos hthree])]
          exact ih _ 2
        · rw [not_not.mp hn]
          rw [hthird (by omega)] at htwo
          rw [hfourth (by omega)] at hthree
          rw [hhigh] at hhigh'
          exact checks_error (hillegal (by
            rw [need, if_neg hascii, if_neg (by omega), if_neg htwo, if_neg hthree,
              if_neg (by omega)]))
        · rw [not_not.mp hn]
          rw [hthird (by omega)] at htwo
          rw [hfourth (by omega)] at hthree
          rw [hhigh] at hhigh'
          rw [hlead 3 (by
            rw [need, if_neg hascii, if_neg (by omega), if_neg htwo, if_neg hthree,
              if_pos (by omega)])]
          exact ih _ 3
        · rw [not_not.mp hn]
          rw [hthird (by omega)] at htwo
          rw [hfourth (by omega)] at hthree
          rw [hfifth (by omega)] at hfour
          exact checks_error (hillegal (by
            rw [need, if_neg hascii, if_neg (by omega), if_neg htwo, if_neg hthree,
              if_neg (by omega)]))

/-- The first loop skips ASCII. -/
theorem asciiLoop_spec (cb : ℕ) {l : List UInt8} (hnul : 0 ∉ l) (i nullcount : ℕ) :
    ∃ j rest, asciiLoop cb i nullcount l = .ok (j, nullcount, rest) ∧ 0 ∉ rest ∧
      (rest ≠ [] ↔ NonAscii l) ∧ (Owes 0 rest ↔ Owes 0 l) := by
  induction l generalizing i with
  | nil =>
    refine ⟨i, [], rfl, hnul, iff_of_false (fun h => h rfl) ?_, Iff.rfl⟩
    rintro ⟨z, hz, -⟩
    exact absurd hz List.not_mem_nil
  | cons z l ih =>
    obtain ⟨hz, hl⟩ := not_or.mp (mt List.mem_cons.mpr hnul)
    obtain ⟨htop, -⟩ := bits z
    rw [asciiLoop, if_neg (Ne.symm hz)]
    by_cases hascii : z.toNat < 0x80
    · obtain ⟨j, rest, hloop, hrest, hnon, howes⟩ := ih hl (i + 1)
      rw [if_neg (not_not.mpr (htop.mpr hascii))]
      refine ⟨j, rest, hloop, hrest, hnon.trans ?_, howes.trans ?_⟩
      · simp [NonAscii, Nat.not_le.mpr hascii]
      · rw [owes_zero_cons]
        simp [need, hascii]
    · rw [if_pos (mt htop.mp hascii)]
      refine ⟨i, z :: l, rfl, hnul, iff_of_true (List.cons_ne_nil z l) ?_, Iff.rfl⟩
      exact ⟨z, List.mem_cons_self, Nat.le_of_not_lt hascii⟩

/-! ### Detection -/

theorem hasZeroDword_eq_false {buffer : List UInt8} (hnul : 0 ∉ buffer) :
    hasZeroDword buffer = false := by
  fun_induction hasZeroDword buffer with
  | case1 a b c d rest ih =>
    simp only [List.mem_cons, not_or] at hnul
    obtain ⟨ha, -, -, -, hrest⟩ := hnul
    rw [ih hrest, Bool.or_false, decide_eq_false_iff_not]
    exact fun h => ha h.1.symm
  | case2 buffer => rfl

/-- No byte order mark of UTF-8 or UTF-16. -/
def NoBom (buffer : List UInt8) : Prop :=
  buffer.take 3 ≠ [0xEF, 0xBB, 0xBF] ∧ buffer.take 2 ≠ [0xFF, 0xFE] ∧ buffer.take 2 ≠ [0xFE, 0xFF]

section Detection

variable {buffer : List UInt8}

/-- Any bytes that fall into patterns are taken for UTF-8. -/
theorem checkUnicodeType_spec (hcb : 3 ≤ buffer.length) (hnul : 0 ∉ buffer) (hbom : NoBom buffer) :
    (CheckUnicodeType false buffer = .utf8 ↔ (∃ ps, Falls ps buffer) ∧ NonAscii buffer) ∧
      (CheckUnicodeType false buffer ≠ .utf8 → CheckUnicodeType false buffer = .ascii) := by
  obtain ⟨hutf8, hle, hbe⟩ := hbom
  have hnotake : ∀ bom : List UInt8, 0 ∈ bom → buffer.take 4 ≠ bom := by
    rintro bom hzero rfl
    exact hnul (List.mem_of_mem_take hzero)
  obtain ⟨j, rest, hloop, hrest, hnon, howes⟩ := asciiLoop_spec buffer.length hnul 0 0
  obtain ⟨hok, herror⟩ := validityLoop_spec buffer.length hrest j 0 0
  have heq : CheckUnicodeType false buffer =
      match validityLoop buffer.length j 0 0 rest with
      | .error type => type
      | .ok nNeedData => if rest ≠ [] ∧ nNeedData = 0 then .utf8 else .ascii := by
    unfold CheckUnicodeType
    simp only [hasZeroDword_eq_false hnul, hloop, if_neg hutf8, if_neg hle, if_neg hbe,
      if_neg (hnotake [0xFF, 0xFE, 0, 0] (by simp)), if_neg (hnotake [0, 0, 0xFE, 0xFF] (by simp)),
      if_neg (show ¬ buffer.length < 2 by omega), if_neg (show ¬ buffer.length < 3 by omega),
      Bool.false_eq_true, and_false, if_false]
  rw [heq, ← owes_zero, ← howes, ← hok, ← hnon]
  rcases hresult : validityLoop buffer.length j 0 0 rest with type | nNeedData
  · rw [herror type hresult]
    exact ⟨iff_of_false nofun (fun h => nomatch h.1), fun _ => rfl⟩
  · dsimp only
    split_ifs with hvalid
    · refine ⟨iff_of_true rfl ⟨?_, hvalid.1⟩, fun h => absurd rfl h⟩
      rw [hvalid.2]
    · refine ⟨iff_of_false nofun fun h => hvalid ⟨h.2, ?_⟩, fun _ => rfl⟩
      exact Except.ok.inj h.1

/-- A second byte out of range is not ASCII, nor is the byte in front of it. -/
theorem IllFormed.nonAscii (h : IllFormed buffer) : NonAscii buffer := by
  obtain ⟨ps, ⟨-, rfl⟩, p, hp, a, b, rest, rfl, hrange⟩ := h
  refine ⟨a, List.mem_flatten.mpr ⟨_, hp, List.mem_cons_self⟩, ?_⟩
  rcases hrange with ⟨rfl, -⟩ | ⟨rfl, -⟩ | ⟨rfl, -⟩ | ⟨rfl, -⟩
  all_goals decide

/-- **UTF-8 is detected exactly iff no second byte of a pattern is out of range** in a file whose bytes
all fall into patterns. -/
theorem detectsUtf8_iff (hcb : 3 ≤ buffer.length) (hnul : 0 ∉ buffer) (hbom : NoBom buffer) :
    DetectsUtf8 buffer ↔ ¬ IllFormed buffer := by
  obtain ⟨hcheck, hother⟩ := checkUnicodeType_spec hcb hnul hbom
  constructor
  · rintro ⟨hdetects, -, -⟩ hill
    have hfalls : ∃ ps, Falls ps buffer := hill.imp fun ps h => h.1
    have hwell := (hdetects.mp (hcheck.mpr ⟨hfalls, hill.nonAscii⟩)).1
    exact ((wellFormedUtf8_iff buffer).mp hwell).2 hill
  · intro hlegal
    have hdetects : CheckUnicodeType false buffer = .utf8 ↔
        WellFormedUtf8 buffer ∧ NonAscii buffer := by
      rw [hcheck, wellFormedUtf8_iff, and_iff_left hlegal]
    refine ⟨hdetects, hother, fun decode hdecode hutf8 => ?_⟩
    obtain ⟨cs, rfl⟩ := (hdetects.mp hutf8).1
    rw [hdecode]

/-- The letters `aé`, in three bytes. -/
theorem detectsUtf8_two_letters :
    DetectsUtf8 [0x61, 0xC3, 0xA9] ↔ ¬ IllFormed [0x61, 0xC3, 0xA9] :=
  detectsUtf8_iff (by decide) (by decide) ⟨by decide, by decide, by decide⟩

/-- A NUL character in three bytes is an overlong form, and is detected as UTF-8. -/
theorem detectsUtf8_overlong : ¬ ∀ buffer : List UInt8, 3 ≤ buffer.length → 0 ∉ buffer →
    NoBom buffer → DetectsUtf8 buffer := by
  intro h
  obtain ⟨hdetects, -, -⟩ := h [0xE0, 0x80, 0x80] (by decide) (by decide)
    ⟨by decide, by decide, by decide⟩
  have hfalls : Falls [[0xE0, 0x80, 0x80]] [0xE0, 0x80, 0x80] := by
    refine ⟨fun p hp => ?_, rfl⟩
    rw [List.mem_singleton.mp hp]
    refine ⟨0xE0, [0x80, 0x80], rfl, rfl, fun b hb => ?_⟩
    obtain rfl : b = 0x80 := by simpa using hb
    exact ⟨by decide, by decide⟩
  have hill : IllFormed [0xE0, 0x80, 0x80] :=
    ⟨_, hfalls, _, List.mem_singleton_self _, 0xE0, 0x80, [0x80], rfl, Or.inl ⟨rfl, by decide⟩⟩
  have hwell := (hdetects.mp (by decide)).1
  exact ((wellFormedUtf8_iff _).mp hwell).2 hill

end Detection

end FileText

end TortoiseSvn.Merge
