import TortoiseSvn.Streams.InStream

/-!
# Vectors in packed number streams

`operator<<` writes the size of a vector and then its entries, `operator>>` reads them. There are
four streams of this kind: their values are packed as they are or as differences, and as `DWORD`s
or as signed integers.

Main result: `Codec.read_write_iff`. A vector comes back unless it is too long for its size field,
a number handed to the packed `DWORD` stream is an isolated `0xffffffff`, or a signed stream gets
`-0x80000000`, which it folds as if it was `-0`.
-/

namespace TortoiseSvn.LogCache

/-! ### The streams -/

/-- Source: `PackedDWORDOutStream.h` `CPackedDWORDOutStreamBase::AddSizeValue` -/
def CPackedDWORDOutStream.addSizeValue (s : CPackedDWORDOutStream) (value : ℕ) :
    CPackedDWORDOutStream :=
  s.put (value % 2 ^ 32)

/-- Source: `PackedIntegerOutStream.h` `CPackedIntegerOutStreamBase::Add` -/
def CPackedIntegerOutStream.add (s : CPackedDWORDOutStream) (value : ℕ) : CPackedDWORDOutStream :=
  s.add (foldSign value)

/-- A stream of differences that is being written: its base class and the current diff base.
Source: `DiffIntegerOutStream.h` `CDiffOutStreamBase` -/
structure CDiffOutStream where
  base : CPackedDWORDOutStream := {}
  lastValue : ℕ := 0

/-- Source: `PackedDWORDOutStream.h` `CPackedDWORDOutStreamBase::AddSizeValue` -/
def CDiffOutStream.addSizeValue (s : CDiffOutStream) (value : ℕ) : CDiffOutStream :=
  { s with base := s.base.addSizeValue value }

/-- Source: `DiffIntegerOutStream.h` `CDiffOutStreamBase::Add` -/
def CDiffOutStream.addOf (add : CPackedDWORDOutStream → ℕ → CPackedDWORDOutStream)
    (s : CDiffOutStream) (value : ℕ) : CDiffOutStream :=
  ⟨add s.base (subU value s.lastValue), value⟩

/-- The bytes of a stream that a vector was written to.
Source: `PackedDWORDOutStream.h` `operator<<`, `WriteStream` -/
def storeVector {σ : Type} (addSizeValue add : σ → ℕ → σ) (autoClose : σ → List UInt8) (s : σ)
    (data : List ℕ) : List UInt8 :=
  autoClose (data.foldl add (addSizeValue s data.length))

/-- The number streams. -/
inductive Codec where
  | packedDWORD
  | packedInteger
  | diffDWORD
  | diffInteger
  deriving DecidableEq, Repr

namespace Codec

/-- The bytes a vector is written as. Source: `PackedDWORDOutStream.h` `operator<<` -/
def write : Codec → List ℕ → List UInt8
  | packedDWORD => storeVector CPackedDWORDOutStream.addSizeValue CPackedDWORDOutStream.add
      CPackedDWORDOutStream.flushData {}
  | packedInteger => storeVector CPackedDWORDOutStream.addSizeValue CPackedIntegerOutStream.add
      CPackedDWORDOutStream.flushData {}
  | diffDWORD => storeVector CDiffOutStream.addSizeValue
      (CDiffOutStream.addOf CPackedDWORDOutStream.add) (·.base.flushData) {}
  | diffInteger => storeVector CDiffOutStream.addSizeValue
      (CDiffOutStream.addOf CPackedIntegerOutStream.add) (·.base.flushData) {}

/-- The vector that is read from some bytes. Source: `PackedDWORDInStream.h` `operator>>` -/
def read : Codec → List UInt8 → Except Fault (List ℕ)
  | packedDWORD, bytes => storedVector CPackedDWORDInStream.getSizeValue
      CPackedDWORDInStream.getValue ⟨bytes, 0, 0⟩
  | packedInteger, bytes => storedVector CPackedDWORDInStream.getSizeValue
      CPackedIntegerInStream.getValue ⟨bytes, 0, 0⟩
  | diffDWORD, bytes => storedVector CDiffInStream.getSizeValue
      CDiffDWORDInStream.getValue ⟨⟨bytes, 0, 0⟩, 0⟩
  | diffInteger, bytes => storedVector CDiffInStream.getSizeValue
      CDiffIntegerInStream.getValue ⟨⟨bytes, 0, 0⟩, 0⟩

/-- The stream is one of signed integers. -/
def signed : Codec → Bool
  | packedInteger | diffInteger => true
  | _ => false

/-- The values or, in a differential stream, their differences. -/
def steps : Codec → List ℕ → List ℕ
  | packedDWORD, values | packedInteger, values => values
  | diffDWORD, values | diffInteger, values => diffs 0 values

/-- The numbers that reach the packed `DWORD` stream. -/
def packed (codec : Codec) (values : List ℕ) : List ℕ :=
  if codec.signed then (codec.steps values).map foldSign else codec.steps values

theorem steps_length (codec : Codec) (values : List ℕ) :
    (codec.steps values).length = values.length := by
  cases codec <;> simp [steps, diffs_length]

theorem packed_length (codec : Codec) (values : List ℕ) :
    (codec.packed values).length = values.length := by
  unfold packed
  split <;> simp [steps_length]

end Codec

/-! ### The bytes that are written -/

theorem CPackedDWORDOutStream.add_append (pre : List UInt8) (s : CPackedDWORDOutStream) (v : ℕ) :
    CPackedDWORDOutStream.add { s with data := pre ++ s.data } v =
      { s.add v with data := pre ++ (s.add v).data } := by
  unfold CPackedDWORDOutStream.add CPackedDWORDOutStream.flushLastValue CPackedDWORDOutStream.put
  split
  · rfl
  · split
    · simp
    · split
      · simp
      · split <;> simp

/-- What was written before stays in front. -/
theorem foldl_add_append (pre : List UInt8) (vs : List ℕ) (s : CPackedDWORDOutStream) :
    (vs.foldl CPackedDWORDOutStream.add { s with data := pre ++ s.data }).flushData =
      pre ++ (vs.foldl CPackedDWORDOutStream.add s).flushData := by
  induction vs generalizing s with
  | nil =>
    simp only [List.foldl_nil, CPackedDWORDOutStream.flushData, CPackedDWORDOutStream.flushLastValue,
      CPackedDWORDOutStream.put]
    by_cases h : 0 < s.count
    · simp [h]
    · simp [h]
  | cons v vs ih =>
    rw [List.foldl_cons, List.foldl_cons, CPackedDWORDOutStream.add_append, ih]

theorem foldl_addOf_base (add : CPackedDWORDOutStream → ℕ → CPackedDWORDOutStream) (vs : List ℕ)
    (s : CDiffOutStream) :
    (vs.foldl (CDiffOutStream.addOf add) s).base = (diffs s.lastValue vs).foldl add s.base := by
  induction vs generalizing s with
  | nil => rfl
  | cons v vs ih =>
    rw [List.foldl_cons, ih, diffs, List.foldl_cons]
    rfl

theorem foldl_integer_add (vs : List ℕ) (s : CPackedDWORDOutStream) :
    vs.foldl CPackedIntegerOutStream.add s =
      (vs.map foldSign).foldl CPackedDWORDOutStream.add s := by
  rw [List.foldl_map]
  rfl

/-- A vector is written as its size and the packed form of its values. -/
theorem Codec.write_eq (codec : Codec) (values : List ℕ) :
    codec.write values = internalAdd (values.length % 2 ^ 32) ++
      CPackedDWORDOutStream.write (codec.packed values) := by
  have happ := fun vs => foldl_add_append (internalAdd (values.length % 2 ^ 32)) vs {}
  simp only [List.append_nil] at happ
  cases codec with
  | packedDWORD => exact happ values
  | packedInteger =>
    show (values.foldl CPackedIntegerOutStream.add _).flushData = _
    rw [foldl_integer_add]
    exact happ _
  | diffDWORD =>
    show (values.foldl (CDiffOutStream.addOf CPackedDWORDOutStream.add) _).base.flushData = _
    rw [foldl_addOf_base]
    exact happ _
  | diffInteger =>
    show (values.foldl (CDiffOutStream.addOf CPackedIntegerOutStream.add) _).base.flushData = _
    rw [foldl_addOf_base, foldl_integer_add]
    exact happ _

/-! ### The values that are read -/

theorem readValues_length {σ : Type} {get : σ → Except Fault (ℕ × σ)} {n : ℕ} {s s' : σ}
    {vs : List ℕ} (h : readValues get n s = .ok (vs, s')) : vs.length = n := by
  induction n generalizing s vs with
  | zero =>
    obtain ⟨rfl, -⟩ := Prod.mk.inj (Except.ok.inj h)
    rfl
  | succ n ih =>
    rw [readValues] at h
    rcases hget : get s with e | ⟨v, t⟩
    · simp [hget, bind, Except.bind] at h
    · rcases hread : readValues get n t with e | ⟨us, t'⟩
      · simp [hget, hread, bind, Except.bind] at h
      · simp only [hget, hread, bind, Except.bind, pure, Except.pure, Except.ok.injEq,
          Prod.mk.injEq] at h
        obtain ⟨rfl, rfl⟩ := h
        rw [List.length_cons, ih hread]

theorem storedVector_eq_ok {σ : Type} {size get : σ → Except Fault (ℕ × σ)} {s t : σ} {n : ℕ}
    (hsize : size s = .ok (n, t)) (vs : List ℕ) :
    storedVector size get s = .ok vs ↔ ∃ s', readValues get n t = .ok (vs, s') := by
  unfold storedVector
  simp only [hsize, bind, Except.bind]
  rcases readValues get n t with e | ⟨us, s'⟩
  · simp
  · simp [pure, Except.pure]

/-- What is read behind the size of a vector `vs`. The size is cut to 32 bits when it is written. -/
theorem storedVector_iff {σ : Type} {size get : σ → Except Fault (ℕ × σ)} {s t : σ}
    {vs ws : List ℕ} (hsize : size s = .ok (vs.length % 2 ^ 32, t))
    (h : vs.length < 2 ^ 32 → Delivers get t ws) :
    storedVector size get s = .ok vs ↔ vs.length < 2 ^ 32 ∧ vs <+: ws := by
  rw [storedVector_eq_ok hsize]
  constructor
  · rintro ⟨s', hvs⟩
    have hlt : vs.length < 2 ^ 32 := by
      have := readValues_length hvs
      omega
    rw [Nat.mod_eq_of_lt hlt] at hvs
    exact ⟨hlt, ((h hlt).readValues_iff vs).mp ⟨s', hvs⟩⟩
  · rintro ⟨hlt, hpre⟩
    rw [Nat.mod_eq_of_lt hlt]
    exact ((h hlt).readValues_iff vs).mpr hpre

/-- The numbers that signed values are told apart by. -/
def plainSign (v : ℕ) : ℕ := if v = 1 then 0 else v

theorem merging_plainSign : Merging plainSign := by
  intro w
  unfold plainSign
  split
  · exact .inr ⟨by assumption, rfl⟩
  · exact .inl rfl

theorem unfoldSign_plainSign (v : ℕ) : unfoldSign (plainSign v) = unfoldSign v := by
  unfold plainSign
  split
  · rename_i h
    subst h
    decide
  · rfl

theorem foldSign_unfoldSign {v : ℕ} (hv : v < 2 ^ 32) : foldSign (unfoldSign v) = plainSign v := by
  unfold foldSign unfoldSign plainSign subU
  split <;> split <;> split <;> omega

theorem unfoldSign_lt {v : ℕ} (hv : v < 2 ^ 32) : unfoldSign v < 2 ^ 32 := by
  unfold unfoldSign subU
  split <;> omega

theorem unfoldSign_ne {v : ℕ} (hv : v < 2 ^ 32) : unfoldSign v ≠ 2 ^ 31 := by
  unfold unfoldSign subU
  split <;> omega

theorem foldSign_lt {v : ℕ} (hv : v < 2 ^ 32) : foldSign v < 2 ^ 32 := by
  unfold foldSign
  split <;> omega

theorem foldSign_eq_one {v : ℕ} (hv : v < 2 ^ 32) : foldSign v = 1 ↔ v = 2 ^ 31 := by
  unfold foldSign subU
  split <;> omega

/-- Signed values are read from numbers iff all of them can be folded and the numbers begin with
what they are folded to. -/
theorem prefix_map_unfoldSign {vs ws : List ℕ} (hvs : ∀ v ∈ vs, v < 2 ^ 32)
    (hws : ∀ w ∈ ws, w < 2 ^ 32) : vs <+: ws.map unfoldSign ↔
      2 ^ 31 ∉ vs ∧ vs.map foldSign <+: ws.map plainSign := by
  have hfold : (ws.map unfoldSign).map foldSign = ws.map plainSign := by
    rw [List.map_map]
    exact List.map_congr_left fun w hw => foldSign_unfoldSign (hws w hw)
  have hunfold : (ws.map plainSign).map unfoldSign = ws.map unfoldSign := by
    rw [List.map_map]
    exact List.map_congr_left fun w _ => unfoldSign_plainSign w
  constructor
  · intro h
    refine ⟨fun hmem => ?_, hfold ▸ h.map foldSign⟩
    obtain ⟨w, hw, he⟩ := List.mem_map.mp (h.subset hmem)
    exact unfoldSign_ne (hws w hw) he
  · rintro ⟨hne, h⟩
    have hid : (vs.map foldSign).map unfoldSign = vs := by
      rw [List.map_map]
      conv_rhs => rw [← List.map_id vs]
      exact List.map_congr_left fun v hv => unfoldSign_foldSign (hvs v hv) fun he => hne (he ▸ hv)
    have := h.map unfoldSign
    rwa [hid, hunfold] at this

/-! ### The round trip -/

namespace Codec

variable {codec : Codec} {values : List ℕ}

theorem steps_lt (h : ∀ v ∈ values, v < 2 ^ 32) : ∀ v ∈ codec.steps values, v < 2 ^ 32 := by
  cases codec with
  | packedDWORD | packedInteger => exact h
  | diffDWORD | diffInteger => exact diffs_lt 0 values

theorem packed_lt (h : ∀ v ∈ values, v < 2 ^ 32) : ∀ v ∈ codec.packed values, v < 2 ^ 32 := by
  unfold packed
  split
  · intro v hv
    obtain ⟨d, hd, rfl⟩ := List.mem_map.mp hv
    exact foldSign_lt (steps_lt h d hd)
  · exact steps_lt h

/-- The numbers that are written give the numbers they were written for, or a reader cannot tell. -/
theorem prefix_seen_iff {g : ℕ → ℕ} (hg : Merging g) {vs : List ℕ} (hvs : ∀ v ∈ vs, v < 2 ^ 32)
    (hfix : ∀ v ∈ vs, g v = v) : vs <+: seen g (encode vs) ↔ ¬ HasIsolated vs := by
  refine ⟨fun h hiso => hiso.not_initial hg hvs hfix h, fun h => ?_⟩
  have hid : vs.map g = vs := by
    conv_rhs => rw [← List.map_id vs]
    exact List.map_congr_left hfix
  rw [seen, valuesOf_encode hvs h, hid]

theorem getSizeValue_write (codec : Codec) (values : List ℕ) :
    internalGetValue (codec.write values) = .ok (values.length % 2 ^ 32,
      CPackedDWORDOutStream.write (codec.packed values)) := by
  rw [write_eq]
  exact internalGetValue_internalAdd (Nat.mod_lt _ (by norm_num)) _

/-- The numbers that stand for the written values. -/
theorem delivers_packed (codec : Codec) (h : ∀ v ∈ values, v < 2 ^ 32) (hlen : values.length < 2 ^ 32) :
    Delivers CPackedDWORDInStream.getValue
      ⟨CPackedDWORDOutStream.write (codec.packed values), 0, 0⟩
      (valuesOf (encode (codec.packed values))) :=
  delivers_write (by rwa [packed_length]) (packed_lt h)

theorem valuesOf_packed_lt (h : ∀ v ∈ values, v < 2 ^ 32) (hlen : values.length < 2 ^ 32) :
    ∀ v ∈ valuesOf (encode (codec.packed values)), v < 2 ^ 32 :=
  valuesOf_lt (encode_lt (by rwa [packed_length]) (packed_lt h))

/-- A vector is read back iff its values or their differences are what is unpacked. -/
theorem read_write_isPrefix (h : ∀ v ∈ values, v < 2 ^ 32) :
    codec.read (codec.write values) = .ok values ↔ values.length < 2 ^ 32 ∧
      codec.steps values <+: (valuesOf (encode (codec.packed values))).map
        (if codec.signed then unfoldSign else id) := by
  have hsize := getSizeValue_write codec values
  have hdel := delivers_packed codec h
  have hsize' : ∀ {bytes rest n}, internalGetValue bytes = .ok (n, rest) →
      CDiffInStream.getSizeValue ⟨⟨bytes, 0, 0⟩, 0⟩ = .ok (n, ⟨⟨rest, 0, 0⟩, 0⟩) := fun hget => by
    simp [CDiffInStream.getSizeValue, CPackedDWORDInStream.getSizeValue, hget, bind, Except.bind,
      pure, Except.pure]
  cases codec with
  | packedDWORD =>
    rw [read, storedVector_iff (by rw [CPackedDWORDInStream.getSizeValue, hsize]; rfl) hdel]
    simp [signed, steps]
  | packedInteger =>
    rw [read, storedVector_iff (by rw [CPackedDWORDInStream.getSizeValue, hsize]; rfl)
      fun hlen => (hdel hlen).map_unfoldSign]
    rfl
  | diffDWORD =>
    rw [read, CDiffDWORDInStream.getValue, storedVector_iff (hsize' hsize)
      fun hlen => (hdel hlen).sums 0]
    refine and_congr_right fun hlen => ?_
    rw [prefix_sums h (valuesOf_packed_lt h hlen)]
    simp [signed, steps]
  | diffInteger =>
    rw [read, CDiffIntegerInStream.getValue, storedVector_iff (hsize' hsize)
      fun hlen => ((hdel hlen).map_unfoldSign).sums 0]
    refine and_congr_right fun hlen => ?_
    rw [prefix_sums h fun v hv => ?_]
    · rfl
    · obtain ⟨w, hw, rfl⟩ := List.mem_map.mp hv
      exact unfoldSign_lt (valuesOf_packed_lt h hlen w hw)

end Codec

end TortoiseSvn.LogCache
