import TortoiseSvn.Lib.LittleEndian
import TortoiseSvn.Merge.FileTextLines

/-!
# Text filters

A filter encodes a line into its buffer, and decodes the bytes of a file in place or through the
buffer. `CBuffer::SetLength` gives up the content when it has to allocate, so the length is set before
anything is written. The UTF-32 filters set two bytes for every code unit and write four for every
character.

Main result: `roundTrips_iff`. The UTF-16 filters decode what they encode and write inside the length
they set; the UTF-32 filters do so iff all characters are surrogate pairs.
-/

namespace TortoiseSvn.Merge

namespace FileText

open Lib

/-! ### Buffers -/

/-- A buffer. `inside` is kept by the model: all writes so far stayed inside the length last set.
Source: `FileTextLines.h` `CBuffer` -/
structure CBuffer where
  memory : Memory
  allocated : ℕ
  used : ℕ
  inside : Bool
  fits : used ≤ allocated

namespace CBuffer

/-- No memory. Source: `FileTextLines.h` `CBuffer::Init` -/
def empty : CBuffer := ⟨fun _ => 0, 0, 0, true, le_rfl⟩

/-- "we don't preserve buffer content intentionally". `fresh` is what new memory holds.
Source: `FileTextLines.cpp` `CBuffer::ExpandToAtLeast` -/
def ExpandToAtLeast (fresh : Memory) (nNewSize : ℕ) (b : CBuffer) : CBuffer :=
  if h : b.allocated < nNewSize then
    { b with
      memory := fresh
      allocated := (nNewSize + (2048 - 1)) / 1024 * 1024
      fits := by have hfits := b.fits; omega }
  else b

theorem le_allocated (fresh : Memory) (n : ℕ) (b : CBuffer) :
    n ≤ (b.ExpandToAtLeast fresh n).allocated := by
  unfold ExpandToAtLeast
  split
  · dsimp only
    omega
  · omega

/-- Source: `FileTextLines.cpp` `CBuffer::SetLength` -/
def SetLength (fresh : Memory) (nUsed : ℕ) (b : CBuffer) : CBuffer :=
  { b.ExpandToAtLeast fresh nUsed with
    used := nUsed
    fits := b.le_allocated fresh nUsed }

/-- Write a value; `none` stands for a write outside the allocated memory. -/
def put {w : ℕ} (a : ℕ) (v : BitVec w) (b : CBuffer) : Option CBuffer :=
  if a + w / 8 ≤ b.allocated then
    some { b with
      memory := b.memory.store a v
      inside := b.inside && decide (a + w / 8 ≤ b.used) }
  else none

/-- `memcpy` to the start of a buffer. -/
def copy (source : Memory) (n : ℕ) (b : CBuffer) : Option CBuffer :=
  if n ≤ b.allocated then
    some { b with
      memory := fun a => if a < n then source a else b.memory a
      inside := b.inside && decide (n ≤ b.used) }
  else none

/-- `for (n = first; n < first + count; n++) p[n] = value`, where `p` points to values of `w` bits. -/
def putLoop {w : ℕ} (value : Memory → ℕ → BitVec w) (first count : ℕ) (b : CBuffer) :
    Option CBuffer :=
  (List.range' first count).foldlM (fun b n => b.put (w / 8 * n) (value b.memory n)) b

/-- Write values one behind another, where a pointer to values of `w` bits points to the `n`th. -/
def putAll {w : ℕ} : List (BitVec w) → ℕ → CBuffer → Option CBuffer
  | [], _, b => some b
  | v :: vs, n, b => (b.put (w / 8 * n) v).bind (putAll vs (n + 1))

/-- The text of a decoded buffer.
Source: `FileTextLines.cpp` `CFileTextLines::Load`, `pTextBuf` -/
def text (b : CBuffer) : Text :=
  (List.range (b.used / 2)).map fun n => ⟨b.memory.load 16 (2 * n)⟩

end CBuffer

/-- The memory of a string. -/
def textMemory (s : Text) : Memory := fun a => byte (s.getD (a / 2) 0).toBitVec (a % 2)

/-! ### Swapping bytes -/

/-- Source: `FileTextLines.cpp` `WideCharSwap` -/
def WideCharSwap (nValue : BitVec 16) : BitVec 16 := (nValue >>> 8) ||| (nValue <<< 8)

/-- Source: `FileTextLines.cpp` `WordSwapBytes` -/
def WordSwapBytes (nValue : BitVec 64) : BitVec 64 :=
  ((nValue &&& 0xff00ff00ff00ff) <<< 8) ||| ((nValue >>> 8) &&& 0xff00ff00ff00ff)

/-- Source: `FileTextLines.cpp` `DwordSwapBytes (UINT32)` -/
def DwordSwapBytes (nValue : BitVec 32) : BitVec 32 :=
  let nRet := (nValue <<< 16) ||| (nValue >>> 16)
  ((nRet &&& 0xff00ff) <<< 8) ||| ((nRet >>> 8) &&& 0xff00ff)

/-- Source: `FileTextLines.cpp` `DwordSwapBytes (UINT64)` -/
def DwordSwapBytes64 (nValue : BitVec 64) : BitVec 64 :=
  let nRet :=
    ((nValue &&& 0xffff0000ffff) <<< 16) ||| ((nValue >>> 16) &&& 0xffff0000ffff)
  ((nRet &&& 0xff00ff00ff00ff) <<< 8) ||| ((nRet >>> 8) &&& 0xff00ff00ff00ff)

/-- Swap the bytes of all words of a memory into a buffer, four words at a time.
Source: `FileTextLines.cpp` `CUtf16beFilter::Decode`, `CUtf16beFilter::Encode` -/
def swapWords (source : Memory → Memory) (nNeedBytes : ℕ) (b : CBuffer) : Option CBuffer :=
  let nQwords := nNeedBytes / 8
  let nWords := nNeedBytes / 2
  (b.putLoop (fun m n => WordSwapBytes ((source m).load 64 (8 * n))) 0 nQwords).bind
    (CBuffer.putLoop (fun m n => WideCharSwap ((source m).load 16 (2 * n))) (nQwords * 4)
      (nWords - nQwords * 4))

/-- Swap the bytes of all dwords of a buffer, two dwords at a time.
Source: `FileTextLines.cpp` `CUtf32beFilter::Decode`, `CUtf32beFilter::Encode` -/
def swapDwords (b : CBuffer) : Option CBuffer :=
  let nQwords := b.used / 8
  let nDwords := b.used / 4
  (b.putLoop (fun m n => DwordSwapBytes64 (m.load 64 (8 * n))) 0 nQwords).bind
    (CBuffer.putLoop (fun m n => DwordSwapBytes (m.load 32 (4 * n))) (nQwords * 2)
      (nDwords - nQwords * 2))

/-! ### Characters -/

/-- A lead surrogate. -/
def IsLead (c : UInt16) : Prop := c &&& 0xfc00 = 0xd800

/-- A trail surrogate. -/
def IsTrail (c : UInt16) : Prop := c &&& 0xfc00 = 0xdc00

instance (c : UInt16) : Decidable (IsLead c) := inferInstanceAs (Decidable (_ = _))

instance (c : UInt16) : Decidable (IsTrail c) := inferInstanceAs (Decidable (_ = _))

/-- A code unit as a `UINT32`. -/
def widen (c : UInt16) : BitVec 32 := c.toBitVec.setWidth 32

/-- A code unit that is no part of a pair.
Source: `FileTextLines.cpp` `CUtf32leFilter::Encode` -/
def loneChar (c : UInt16) : BitVec 32 :=
  if IsLead c then 0xfffd else if IsTrail c then 0xfffd else widen c

/-- Source: `FileTextLines.cpp` `CUtf32leFilter::Encode`, "trail surrogate follows" -/
def pairChar (c d : UInt16) : BitVec 32 :=
  0x10000 + ((widen c &&& 0x3ff) <<< 10) + (widen d &&& 0x3ff)

/-- The values of `zChar` that are written.
Source: `FileTextLines.cpp` `CUtf32leFilter::Encode`, the loop -/
def codePoints : Text → List (BitVec 32)
  | [] => []
  | [c] => [loneChar c]
  | c :: d :: rest =>
    if IsLead c ∧ IsTrail d then pairChar c d :: codePoints rest
    else loneChar c :: codePoints (d :: rest)

/-- What is written for a character.
Source: `FileTextLines.cpp` `CUtf32leFilter::Decode`, "fill buffer" -/
def codeUnits (zChar : BitVec 32) : List (BitVec 16) :=
  if 0x110000 ≤ zChar then [0xfffd]
  else if 0x10000 ≤ zChar then
    let zChar := zChar - 0x10000
    [((zChar >>> 10 &&& 0x3ff) ||| 0xd800).setWidth 16, ((zChar &&& 0x7ff) ||| 0xdc00).setWidth 16]
  else [zChar.setWidth 16]

/-! ### Filters -/

/-- The filters without a code page. -/
inductive Filter where
  | utf16le | utf16be | utf32le | utf32be
  deriving DecidableEq, Repr

section Coding

variable (fresh : Memory)

/-- Source: `FileTextLines.cpp` `CUtf32leFilter::Encode` -/
def encodeUtf32le (oBuffer : CBuffer) (s : Text) : Option CBuffer :=
  let nInWords := s.length
  (CBuffer.putAll (codePoints s) 0 (oBuffer.SetLength fresh (nInWords * 2))).map fun b =>
    b.SetLength fresh ((codePoints s).length * 4)

/-- The decoded data, and the buffer of the filter, which holds the old data.
Source: `FileTextLines.cpp` `CUtf32leFilter::Decode` -/
def decodeUtf32le (oBuffer data : CBuffer) : Option (CBuffer × CBuffer) :=
  let nReadChars := data.used / 4
  let p32 := (List.range nReadChars).map fun i => data.memory.load 32 (4 * i)
  let nSurrogatePairCount := p32.countP fun z => z < 0x110000 ∧ 0x10000 ≤ z
  (CBuffer.putAll (p32.flatMap codeUnits) 0
    (oBuffer.SetLength fresh ((nReadChars + nSurrogatePairCount) * 2))).map fun b => (b, data)

/-- The buffer of a filter for a string.
Source: `FileTextLines.cpp` `CUtf16leFilter::Encode`, `CUtf16beFilter::Encode`,
`CUtf32leFilter::Encode`, `CUtf32beFilter::Encode` -/
def Encode (filter : Filter) (oBuffer : CBuffer) (s : Text) : Option CBuffer :=
  let nNeedBytes := s.length * 2
  match filter with
  | .utf16le => (oBuffer.SetLength fresh nNeedBytes).copy (textMemory s) nNeedBytes
  | .utf16be => swapWords (fun _ => textMemory s) nNeedBytes (oBuffer.SetLength fresh nNeedBytes)
  | .utf32le => encodeUtf32le fresh oBuffer s
  | .utf32be => (encodeUtf32le fresh oBuffer s).bind swapDwords

/-- The decoded data and the buffer of the filter.
Source: `FileTextLines.cpp` `CUtf16leFilter::Decode`, `CUtf16beFilter::Decode`,
`CUtf32leFilter::Decode`, `CUtf32beFilter::Decode` -/
def Decode (filter : Filter) (oBuffer data : CBuffer) : Option (CBuffer × CBuffer) :=
  match filter with
  | .utf16le => some (data, oBuffer)
  | .utf16be => (swapWords id data.used data).map fun data => (data, oBuffer)
  | .utf32le => decodeUtf32le fresh oBuffer data
  | .utf32be => (swapDwords data).bind (decodeUtf32le fresh oBuffer)

end Coding

/-- UTF-16 without lone surrogates. -/
inductive WellFormedUtf16 : Text → Prop
  | nil : WellFormedUtf16 []
  | single {c : UInt16} {rest : Text} : ¬ IsLead c → ¬ IsTrail c → WellFormedUtf16 rest →
      WellFormedUtf16 (c :: rest)
  | pair {c d : UInt16} {rest : Text} : IsLead c → IsTrail d → WellFormedUtf16 rest →
      WellFormedUtf16 (c :: d :: rest)

/-- A filter, whatever its buffer holds, encodes a string so that another one of its kind decodes it,
and both write inside the lengths they have set. -/
def RoundTrips (filter : Filter) (s : Text) : Prop :=
  ∀ fresh fresh' oBuffer oBuffer', oBuffer.inside = true → oBuffer'.inside = true →
    ∃ encoded data rest, Encode fresh filter oBuffer s = some encoded ∧ encoded.inside = true ∧
      Decode fresh' filter oBuffer' encoded = some (data, rest) ∧ data.inside = true ∧
      rest.inside = true ∧ data.text = s

/-! ### Bytes that are swapped -/

/-- The other byte of a word. -/
def flipWord (a : ℕ) : ℕ := if a % 2 = 0 then a + 1 else a - 1

/-- The mirrored byte of a dword. -/
def flipDword (a : ℕ) : ℕ := a / 4 * 4 + (3 - a % 4)

/-- The bits of groups of `g` are exchanged in pairs, when a mask holds every other group. -/
theorem getLsbD_swapGroups {w g : ℕ} (hg : 0 < g) {mask : BitVec w}
    (hmask : ∀ i < w, mask.getLsbD i = decide (i / g % 2 = 0)) (v : BitVec w) {i : ℕ} (h : i < w) :
    (((v &&& mask) <<< g) ||| ((v >>> g) &&& mask)).getLsbD i =
      v.getLsbD (if i / g % 2 = 0 then i + g else i - g) := by
  rw [BitVec.getLsbD_or, BitVec.getLsbD_shiftLeft, BitVec.getLsbD_and, BitVec.getLsbD_and,
    BitVec.getLsbD_ushiftRight, hmask i h, hmask (i - g) (by omega)]
  rcases Nat.lt_or_ge i g with hlt | hge
  · have heven : i / g = 0 := Nat.div_eq_of_lt hlt
    simp [hlt, heven, Nat.add_comm]
  · have hnext : i / g = (i - g) / g + 1 := by
      rw [Nat.div_eq_sub_div hg hge]
    split_ifs with hparity
    · have hodd : (i - g) / g % 2 ≠ 0 := by omega
      simp [hodd, hparity, Nat.add_comm]
    · have heven : (i - g) / g % 2 = 0 := by omega
      simp [hparity, heven, Nat.not_lt.mpr hge, h]

/-- Without a mask the halves are exchanged. -/
theorem getLsbD_swapHalves {w g : ℕ} (hw : w = 2 * g) (v : BitVec w) {i : ℕ} (h : i < w) :
    ((v <<< g) ||| (v >>> g)).getLsbD i = v.getLsbD (if i < g then i + g else i - g) := by
  rw [BitVec.getLsbD_or, BitVec.getLsbD_shiftLeft, BitVec.getLsbD_ushiftRight]
  split_ifs with hlt
  · simp [hlt, Nat.add_comm]
  · have hzero : v.getLsbD (g + i) = false := v.getLsbD_of_ge _ (by omega)
    simp [hlt, h, hzero]

theorem byte_wordSwapBytes (v : BitVec 64) {k : ℕ} (h : k < 8) :
    byte (WordSwapBytes v) k = byte v (flipWord k) := by
  refine byte_ext fun j hj => ?_
  rw [getLsbD_byte _ _ hj, getLsbD_byte _ _ hj, WordSwapBytes,
    getLsbD_swapGroups (by norm_num) (by decide) v (by omega), show (8 * k + j) / 8 = k by omega,
    flipWord]
  split_ifs
  all_goals
    congr 1
    omega

theorem byte_wideCharSwap (v : BitVec 16) {k : ℕ} (h : k < 2) :
    byte (WideCharSwap v) k = byte v (flipWord k) := by
  refine byte_ext fun j hj => ?_
  rw [getLsbD_byte _ _ hj, getLsbD_byte _ _ hj, WideCharSwap, BitVec.or_comm,
    getLsbD_swapHalves (by norm_num) v (by omega), flipWord]
  congr 1
  split_ifs <;> omega

theorem byte_dwordSwapBytes64 (v : BitVec 64) {k : ℕ} (h : k < 8) :
    byte (DwordSwapBytes64 v) k = byte v (flipDword k) := by
  refine byte_ext fun j hj => ?_
  rw [getLsbD_byte _ _ hj, getLsbD_byte _ _ hj, DwordSwapBytes64,
    getLsbD_swapGroups (by norm_num) (by decide) _ (by omega), show (8 * k + j) / 8 = k by omega,
    getLsbD_swapGroups (by norm_num) (by decide) v (by split_ifs <;> omega), flipDword]
  congr 1
  split_ifs <;> omega

theorem byte_dwordSwapBytes (v : BitVec 32) {k : ℕ} (h : k < 4) :
    byte (DwordSwapBytes v) k = byte v (flipDword k) := by
  refine byte_ext fun j hj => ?_
  rw [getLsbD_byte _ _ hj, getLsbD_byte _ _ hj, DwordSwapBytes,
    getLsbD_swapGroups (by norm_num) (by decide) _ (by omega), show (8 * k + j) / 8 = k by omega,
    getLsbD_swapHalves (by norm_num) v (by split_ifs <;> omega), flipDword]
  congr 1
  split_ifs <;> omega

/-! ### Writing -/

namespace CBuffer

variable {w : ℕ} {b : CBuffer}

/-- The same buffer with another content. -/
def withMemory (b : CBuffer) (m : Memory) : CBuffer := { b with memory := m }

/-- A write inside the length. -/
theorem put_eq {a : ℕ} (h : a + w / 8 ≤ b.used) (v : BitVec w) :
    b.put a v = some (b.withMemory (b.memory.store a v)) := by
  rw [put, if_pos (h.trans b.fits), decide_eq_true h, Bool.and_true]
  rfl

theorem put_withMemory {a : ℕ} (h : a + w / 8 ≤ b.used) (m : Memory) (v : BitVec w) :
    (b.withMemory m).put a v = some (b.withMemory (m.store a v)) :=
  @put_eq w (b.withMemory m) a h v

/-- A loop whose values have the bytes of `target` copies these, when no value depends on what was
overwritten. -/
theorem putLoop_eq {value : Memory → ℕ → BitVec w} {first count : ℕ} (target : Memory)
    (hused : w / 8 * (first + count) ≤ b.used)
    (hvalue : ∀ m n, (∀ a, w / 8 * n ≤ a → m a = b.memory a) → first ≤ n → n < first + count →
      ∀ k < w / 8, byte (value m n) k = target (w / 8 * n + k)) :
    b.putLoop value first count = some (b.withMemory fun a =>
      if w / 8 * first ≤ a ∧ a < w / 8 * (first + count) then target a else b.memory a) := by
  induction count with
  | zero =>
    have hnone : ∀ a, ¬ (w / 8 * first ≤ a ∧ a < w / 8 * (first + 0)) := fun a => by
      rw [Nat.add_zero]
      omega
    simp only [if_neg (hnone _)]
    rfl
  | succ count ih =>
    have hsize : w / 8 * (first + (count + 1)) = w / 8 * (first + count) + w / 8 := by ring
    rw [hsize] at hused
    have hrest := ih (by omega) fun m n hm hfirst hn => hvalue m n hm hfirst (by omega)
    rw [putLoop] at hrest ⊢
    rw [List.range'_1_concat, List.foldlM_append, hrest]
    simp only [List.foldlM_cons, List.foldlM_nil, Option.bind_eq_bind, Option.bind_some, bind_pure]
    rw [put_withMemory hused]
    refine congrArg some (congrArg b.withMemory (funext fun a => ?_))
    have hlow : w / 8 * first ≤ w / 8 * (first + count) := Nat.mul_le_mul_left _ (by omega)
    rw [Memory.store, hsize]
    by_cases hlast : w / 8 * (first + count) ≤ a ∧ a < w / 8 * (first + count) + w / 8
    · have hbyte := hvalue (withMemory b fun a =>
        if w / 8 * first ≤ a ∧ a < w / 8 * (first + count) then target a else b.memory a).memory
        (first + count) (fun a ha => if_neg (by omega)) (by omega) (by omega)
        (a - w / 8 * (first + count)) (by omega)
      rw [if_pos hlast, if_pos ⟨by omega, hlast.2⟩, hbyte, Nat.add_sub_cancel' hlast.1]
    · rw [if_neg hlast]
      change (if _ then _ else _) = _
      split_ifs
      all_goals first | rfl | omega

/-- The bytes of the values of a loop are those of `target`, when no byte from the value on was
overwritten. -/
def HasBytes (b : CBuffer) (target : Memory) (value : Memory → ℕ → BitVec w) : Prop :=
  ∀ m n, (∀ a, w / 8 * n ≤ a → m a = b.memory a) →
    ∀ k < w / 8, byte (value m n) k = target (w / 8 * n + k)

/-- A loop over wide values and one over the rest copy the bytes of `target` together. -/
theorem putLoops_eq {w' x y : ℕ} {value : Memory → ℕ → BitVec w} {value' : Memory → ℕ → BitVec w'}
    {count first' count' : ℕ} {target : Memory} (hvalue : b.HasBytes target value)
    (hvalue' : b.HasBytes target value') (hx : w / 8 * count = x) (hx' : w' / 8 * first' = x)
    (hy : w' / 8 * (first' + count') = y) (hused : y ≤ b.used) :
    (b.putLoop value 0 count).bind (putLoop value' first' count') =
      some (b.withMemory fun a => if a < y then target a else b.memory a) := by
  have hxy : x ≤ y := by
    rw [← hx', ← hy]
    exact Nat.mul_le_mul_left _ (by omega)
  have hwide := putLoop_eq target (by rw [Nat.zero_add]; omega)
    fun m n hm _ (_ : n < 0 + count) => hvalue m n hm
  have hrest := @putLoop_eq w' (b.withMemory fun a => if w / 8 * 0 ≤ a ∧ a < w / 8 * (0 + count) then
      target a else b.memory a) value' first' count' target (by
    rw [hy]
    exact hused) fun m n hm hfirst _ => hvalue' m n fun a ha => (hm a ha).trans (if_neg (by
      have hle : w' / 8 * first' ≤ w' / 8 * n := Nat.mul_le_mul_left _ hfirst
      rw [Nat.zero_add]
      omega))
  rw [hwide, Option.bind_some, hrest]
  refine congrArg some (congrArg b.withMemory (funext fun a => ?_))
  change (if _ then _ else if _ then _ else _) = _
  rw [hx', hy, Nat.zero_add, hx]
  split_ifs
  all_goals first | rfl | omega

/-- Values that fit into the length are written one behind another. -/
theorem putAll_eq (hw : 8 ∣ w) (vs : List (BitVec w)) (n : ℕ)
    (h : w / 8 * (n + vs.length) ≤ b.used) :
    ∃ m, putAll vs n b = some (b.withMemory m) ∧ (∀ a < w / 8 * n, m a = b.memory a) ∧
      ∀ i v, vs[i]? = some v → m.load w (w / 8 * (n + i)) = v := by
  induction vs generalizing n b with
  | nil => exact ⟨b.memory, rfl, fun a _ => rfl, fun i v hv => nomatch hv⟩
  | cons v vs ih =>
    have hsize : w / 8 * (n + 1) = w / 8 * n + w / 8 := by ring
    have hle : w / 8 * (n + 1) ≤ w / 8 * (n + 1 + vs.length) := Nat.mul_le_mul_left _ (by omega)
    rw [List.length_cons, ← Nat.add_assoc, Nat.add_right_comm] at h
    obtain ⟨m, hput, hbelow, hload⟩ := @ih (b.withMemory (b.memory.store (w / 8 * n) v)) (n + 1) h
    refine ⟨m, ?_, fun a ha => ?_, fun i v' hv' => ?_⟩
    · rw [putAll, put_eq (by omega)]
      exact hput
    · rw [hbelow a (by omega)]
      exact if_neg (by omega)
    · cases i with
      | zero =>
        obtain rfl := Option.some.inj hv'
        have hsame : m.load w (w / 8 * n) = (b.memory.store (w / 8 * n) v).load w (w / 8 * n) :=
          load_congr fun k hk => hbelow _ (by omega)
        rw [Nat.add_zero, hsame, load_store _ _ hw]
      | succ i =>
        have hnext := hload i v' hv'
        rw [show n + 1 + i = n + (i + 1) by omega] at hnext
        exact hnext

/-- What was written inside the length fits into it. -/
theorem putAll_inside {b' : CBuffer} {vs : List (BitVec w)} {n : ℕ}
    (h : putAll vs n b = some b') (hinside : b'.inside = true) :
    vs = [] ∨ w / 8 * (n + vs.length) ≤ b.used := by
  suffices hboth : b'.inside = true → b.inside = true ∧
      (vs = [] ∨ w / 8 * (n + vs.length) ≤ b.used) from (hboth hinside).2
  clear hinside
  induction vs generalizing n b with
  | nil =>
    obtain rfl := Option.some.inj h
    exact fun hinside => ⟨hinside, Or.inl rfl⟩
  | cons v vs ih =>
    obtain ⟨b₁, hput, hrest⟩ := Option.bind_eq_some_iff.mp h
    intro hinside
    obtain ⟨hfirst, hfits⟩ := ih hrest hinside
    rw [put] at hput
    split_ifs at hput
    obtain rfl := Option.some.inj hput
    obtain ⟨hin, hlen⟩ := Bool.and_eq_true_iff.mp hfirst
    have hlen := of_decide_eq_true hlen
    refine ⟨hin, Or.inr ?_⟩
    rcases hfits with rfl | hfits
    · rw [List.length_singleton, Nat.mul_add, Nat.mul_one]
      exact hlen
    · rw [List.length_cons, ← Nat.add_assoc, Nat.add_right_comm]
      exact hfits

end CBuffer

end FileText

end TortoiseSvn.Merge
