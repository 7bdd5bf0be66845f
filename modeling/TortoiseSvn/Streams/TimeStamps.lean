import TortoiseSvn.Streams.ColumnStreams

/-!
# Time stamps

A stream of time stamps holds their differences, as a sign and an amount. The lowest four bits of an
amount share a byte with the sign and with the number of bytes that follow.

Main result: `readTimes_writeTimes`. All values are read back, and each call of `GetValue` takes the
bytes that were written for its value. Differences wrap around, that of `-2^63` with itself too.
-/

namespace TortoiseSvn.LogCache

open TortoiseSvn.Lib

/-- A stream of time stamps that is being written.
Source: `PackedTime64OutStream.h` `CPackedTime64OutStreamBase` -/
structure CPackedTime64OutStream where
  data : List UInt8 := []
  lastValue : ℤ := 0

namespace CPackedTime64OutStream

/-- An `__int64` wraps around. -/
def wrap (v : ℤ) : ℤ := Int.bmod v (2 ^ 64)

/-- The number of bytes up to the last one that is not zero, at least one.
Source: `PackedTime64OutStream.cpp` `CPackedTime64OutStreamBase::Add`, the loop -/
def trimmedSize (buf : List UInt8) : ℕ → ℕ
  | size + 2 => if buf[size + 1]? = some 0 then trimmedSize buf (size + 1) else size + 2
  | size => size

/-- The bytes of a difference.
Source: `PackedTime64OutStream.cpp` `CPackedTime64OutStreamBase::Add` -/
def encode (value : ℤ) : List UInt8 :=
  let sign := if value < 0 then 0x80 else 0
  let value := if value < 0 then wrap (-value) else value
  -- `value >>= 4` keeps the sign of `-2^63`
  let buf := leBytes 8 ((value / 16) % 2 ^ 64).toNat
  let size := trimmedSize buf 8
  UInt8.ofNat (sign + (value % 16).toNat + (size - 1) * 0x10) :: buf.take size

/-- Source: `PackedTime64OutStream.cpp` `CPackedTime64OutStreamBase::Add` -/
def add (s : CPackedTime64OutStream) (value : ℤ) : CPackedTime64OutStream where
  data := s.data ++ encode (wrap (value - s.lastValue))
  lastValue := value

/-- The bytes of a list of time stamps. -/
def writeTimes (values : List ℤ) : List UInt8 := (values.foldl add {}).data

/-! ### One value -/

theorem trimmedSize_spec {buf : List UInt8} {size : ℕ} (hpos : 0 < size) (hle : size ≤ buf.length) :
    0 < trimmedSize buf size ∧ trimmedSize buf size ≤ size ∧
      leNat (buf.take (trimmedSize buf size)) = leNat (buf.take size) := by
  induction size with
  | zero => exact absurd hpos (Nat.lt_irrefl 0)
  | succ size ih =>
    cases size with
    | zero => exact ⟨Nat.zero_lt_one, le_rfl, rfl⟩
    | succ size =>
      rw [trimmedSize]
      split
      · rename_i hzero
        obtain ⟨hpos', hle', heq⟩ := ih (Nat.succ_pos _) (Nat.le_of_succ_le hle)
        refine ⟨hpos', Nat.le_succ_of_le hle', heq.trans ?_⟩
        have htake : buf.take (size + 1 + 1) = buf.take (size + 1) ++ [0] := by
          rw [List.take_add_one, hzero]
          rfl
        rw [htake, leNat_append]
        simp
      · exact ⟨Nat.succ_pos _, le_rfl, rfl⟩

/-- The bit pattern of an `__int64`. -/
def toBits (v : ℤ) : ℕ := (v % 2 ^ 64).toNat

theorem ofBits_toBits {v : ℤ} (hlo : -2 ^ 63 ≤ v) (hhi : v < 2 ^ 63) :
    CPackedTime64InStream.ofBits (toBits v) = v := by
  unfold CPackedTime64InStream.ofBits toBits
  rw [Int.toNat_of_nonneg (Int.emod_nonneg v (by norm_num))]
  have hmod : (v % 2 ^ 64).bmod (2 ^ 64) = v.bmod (2 ^ 64) := by
    have h := @Int.emod_bmod v (2 ^ 64)
    rwa [Nat.cast_pow, Nat.cast_ofNat] at h
  rw [hmod]
  exact Int.bmod_eq_of_le (by norm_num; exact hlo) (by norm_num; exact hhi)

theorem wrap_emod (v : ℤ) : wrap v % 2 ^ 64 = v % 2 ^ 64 := by
  have h := @Int.bmod_emod v (2 ^ 64)
  rwa [Nat.cast_pow, Nat.cast_ofNat] at h

/-- The amount of a difference, from its lowest four bits and the others. -/
theorem toBits_eq (v : ℤ) :
    ((v / 16 % 2 ^ 64).toNat * 0x10 + (v % 16).toNat) % 2 ^ 64 = toBits v := by
  unfold toBits
  omega

theorem toBits_neg {d a : ℤ} (h : a % 2 ^ 64 = -d % 2 ^ 64) :
    (2 ^ 64 - toBits a) % 2 ^ 64 = toBits d := by
  unfold toBits
  omega

/-- Reading the bytes of a difference takes exactly these, and adds the difference to the last
value. -/
theorem getValue_encode (d : ℤ) (rest : List UInt8) (last : ℕ) :
    CPackedTime64InStream.getValue ⟨encode d ++ rest, last⟩ =
      .ok ((toBits d + last) % 2 ^ 64, ⟨rest, (toBits d + last) % 2 ^ 64⟩) := by
  unfold encode
  extract_lets sign a buf size
  -- the bytes behind the header
  obtain ⟨hpos, hle, hbytes⟩ := @trimmedSize_spec buf 8 (by norm_num)
    (leBytes_length 8 _).ge
  have hbuf : leNat (buf.take size) = (a / 16 % 2 ^ 64).toNat := by
    rw [hbytes, List.take_of_length_le (leBytes_length 8 _).le]
    apply leNat_leBytes
    omega
  have hlen : (buf.take size).length = size := by
    rw [List.length_take, leBytes_length]
    exact min_eq_left hle
  have hnegative : (d < 0 → a % 2 ^ 64 = -d % 2 ^ 64) ∧ (¬ d < 0 → a = d) := by
    constructor
    · intro hd
      show (if d < 0 then wrap (-d) else d) % 2 ^ 64 = _
      rw [if_pos hd, wrap_emod]
    · intro hd
      show (if d < 0 then wrap (-d) else d) = _
      rw [if_neg hd]
  have hsign : d < 0 ∧ sign = 0x80 ∨ ¬ d < 0 ∧ sign = 0 := by
    show d < 0 ∧ (if d < 0 then 0x80 else 0) = 0x80 ∨ ¬ d < 0 ∧ (if d < 0 then 0x80 else 0) = 0
    split
    · rename_i hd
      exact .inl ⟨hd, rfl⟩
    · rename_i hd
      exact .inr ⟨hd, rfl⟩
  change 0 < size at hpos
  change size ≤ 8 at hle
  clear_value sign a buf size
  -- the header
  have hlow : (a % 16).toNat < 16 := by omega
  generalize hnibble : (a % 16).toNat = nibble at hlow ⊢
  have hhead : (UInt8.ofNat (sign + nibble + (size - 1) * 0x10)).toNat =
      sign + nibble + (size - 1) * 0x10 := by
    rw [UInt8.toNat_ofNat']
    omega
  have hcount : (sign + nibble + (size - 1) * 0x10) / 0x10 % 8 + 1 = size := by omega
  have hmod : (sign + nibble + (size - 1) * 0x10) % 0x10 = nibble := by omega
  have hdiff := toBits_eq a
  rw [hnibble] at hdiff
  unfold CPackedTime64InStream.getValue
  dsimp only [List.cons_append]
  rw [hhead, hcount, hmod, List.length_append, hlen, if_neg (by omega),
    List.take_left' hlen, List.drop_left' hlen, hbuf, hdiff]
  rcases hsign with ⟨hd, rfl⟩ | ⟨hd, rfl⟩
  · rw [if_pos (by omega), toBits_neg (hnegative.1 hd)]
  · rw [if_neg (by omega), hnegative.2 hd]

/-! ### All values -/

theorem toBits_add (v last : ℤ) : (toBits (wrap (v - last)) + toBits last) % 2 ^ 64 = toBits v := by
  have h := wrap_emod (v - last)
  unfold toBits
  omega

/-- The bytes of time stamps behind a last one. -/
def encodeTimes : ℤ → List ℤ → List UInt8
  | _, [] => []
  | last, v :: values => encode (wrap (v - last)) ++ encodeTimes v values

theorem foldl_add_data (values : List ℤ) (s : CPackedTime64OutStream) :
    (values.foldl add s).data = s.data ++ encodeTimes s.lastValue values := by
  induction values generalizing s with
  | nil => exact (List.append_nil _).symm
  | cons v values ih =>
    rw [List.foldl_cons, ih]
    exact List.append_assoc _ _ _

theorem writeTimes_eq (values : List ℤ) : writeTimes values = encodeTimes 0 values :=
  (foldl_add_data values {}).trans (List.nil_append _)

theorem encodeTimes_append (last : ℤ) (values more : List ℤ) :
    encodeTimes last (values ++ more) =
      encodeTimes last values ++ encodeTimes (values.getLastD last) more := by
  induction values generalizing last with
  | nil => rfl
  | cons v values ih =>
    rw [List.cons_append, encodeTimes, encodeTimes, ih, List.append_assoc, List.getLastD_cons]

theorem readValues_encodeTimes (last : ℤ) (values : List ℤ) (rest : List UInt8) :
    readValues CPackedTime64InStream.getValue values.length
        ⟨encodeTimes last values ++ rest, toBits last⟩ =
      .ok (values.map toBits, ⟨rest, toBits (values.getLastD last)⟩) := by
  induction values generalizing last with
  | nil => rfl
  | cons v values ih =>
    have hone := getValue_encode (wrap (v - last)) (encodeTimes v values ++ rest) (toBits last)
    rw [toBits_add] at hone
    rw [encodeTimes, List.append_assoc, List.length_cons, readValues, hone]
    simp only [bind, Except.bind, ih v, pure, Except.pure, List.map_cons, List.getLastD_cons]

/-- **Time stamps are read back**: the first `k` calls return the first `k` values and leave the bytes
behind theirs. -/
theorem readTimes_writeTimes (values : List ℤ)
    (hvalues : ∀ v ∈ values, -2 ^ 63 ≤ v ∧ v < 2 ^ 63) {k : ℕ} (hk : k ≤ values.length) :
    ∃ vs s, readValues CPackedTime64InStream.getValue k ⟨writeTimes values, 0⟩ = .ok (vs, s) ∧
      vs.map CPackedTime64InStream.ofBits = values.take k ∧
      s.rest = (writeTimes values).drop (writeTimes (values.take k)).length := by
  have hsplit : writeTimes values = encodeTimes 0 (values.take k) ++
      encodeTimes ((values.take k).getLastD 0) (values.drop k) := by
    conv_lhs => rw [writeTimes_eq, ← List.take_append_drop k values]
    exact encodeTimes_append _ _ _
  have hread := readValues_encodeTimes 0 (values.take k)
    (encodeTimes ((values.take k).getLastD 0) (values.drop k))
  rw [← hsplit, List.length_take, min_eq_left hk] at hread
  refine ⟨_, _, hread, ?_, ?_⟩
  · rw [List.map_map]
    conv_rhs => rw [← List.map_id (values.take k)]
    apply List.map_congr_left
    intro v hv
    obtain ⟨hlo, hhi⟩ := hvalues v (List.mem_of_mem_take hv)
    rw [Function.comp_apply, ofBits_toBits hlo hhi, id_eq]
  · rw [hsplit, writeTimes_eq, List.drop_left]

/-- The last difference is `-2^63`. -/
theorem readTimes_writeTimes_wrap : ∃ vs s, readValues CPackedTime64InStream.getValue 2
    ⟨writeTimes [2 ^ 62, -2 ^ 62], 0⟩ = .ok (vs, s) ∧
      vs.map CPackedTime64InStream.ofBits = [2 ^ 62, -2 ^ 62].take 2 ∧
      s.rest = (writeTimes [2 ^ 62, -2 ^ 62]).drop (writeTimes ([2 ^ 62, -2 ^ 62].take 2)).length := by
  have hvalues : ∀ v ∈ [(2 : ℤ) ^ 62, -2 ^ 62], -2 ^ 63 ≤ v ∧ v < 2 ^ 63 := by
    rw [List.forall_mem_cons, List.forall_mem_singleton]
    norm_num
  have hlen : 2 ≤ [(2 : ℤ) ^ 62, -2 ^ 62].length := by
    rw [List.length_cons, List.length_singleton]
  exact readTimes_writeTimes [2 ^ 62, -2 ^ 62] hvalues hlen

end CPackedTime64OutStream

end TortoiseSvn.LogCache
