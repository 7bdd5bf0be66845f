import TortoiseSvn.LogCache.Globals

/-!
# Packed number streams

Writers and readers of the log cache's number streams. A `DWORD` is written in 7/8 codes
(`internalAdd`), and the values handed to `Add` are run-length coded in terms of these: `0` is a
marker that is followed by a repetition count and a value, any other number is a value plus one.
On top of that come the signed values of `CPackedIntegerOutStream` and the differences of the
`CDiff…` streams.

Main results: `readValues_write_iff` and `readValues_diffDWORD_iff`. Values (or differences) are
read back iff none of them is an isolated `0xffffffff`: that one is written as the marker, and the
numbers behind it are then never read as what they were written for.
-/

namespace TortoiseSvn.LogCache

/-- Why an operation did not return: an exception with its text, or that of a vector whose `at` was
given a wrong index, a failed assertion, or an access outside the data or an operation that the
language leaves undefined. -/
inductive Fault where
  | streamException (text : String)
  | containerException (text : String)
  | outOfRange
  | assertion
  | undefined
  deriving DecidableEq, Repr

/-! ### 7/8 codes -/

/-- The bytes of a `DWORD`, seven bits each, lowest first; every byte but the last one has the top
bit set. Four shifts by seven leave less than `0x80` of a 32-bit value.
Source: `PackedDWORDOutStream.h` `CPackedDWORDOutStreamBase::InternalAdd` -/
def internalAdd (value : ℕ) : List UInt8 := go 4 value
where
  /-- The loop of `InternalAdd`. -/
  go : ℕ → ℕ → List UInt8
    | 0, value => [UInt8.ofNat value]
    | fuel + 1, value =>
      if value < 0x80 then [UInt8.ofNat value]
      else UInt8.ofNat (value % 0x80 + 0x80) :: go fuel (value / 0x80)

/-- `GetByte` at the end of the stream. -/
def unexpectedEnd : Fault := .streamException "unexpected end of stream"

/-- The loop of `InternalGetValue` behind the first byte. Shifting a `DWORD` by its width or more
is undefined.
Source: `PackedDWORDInStream.cpp` `CPackedDWORDInStreamBase::InternalGetValue` -/
def internalGetRest (result shift : ℕ) : List UInt8 → Except Fault (ℕ × List UInt8)
  | [] => .error unexpectedEnd
  | c :: rest =>
    if 32 ≤ shift then .error .undefined
    else if c.toNat < 0x80 then .ok ((result + c.toNat * 2 ^ shift) % 2 ^ 32, rest)
    else internalGetRest ((result + (c.toNat - 0x80) * 2 ^ shift) % 2 ^ 32) (shift + 7) rest

/-- Source: `PackedDWORDInStream.cpp` `CPackedDWORDInStreamBase::InternalGetValue` -/
def internalGetValue : List UInt8 → Except Fault (ℕ × List UInt8)
  | [] => .error unexpectedEnd
  | c :: rest =>
    if c.toNat < 0x80 then .ok (c.toNat, rest) else internalGetRest (c.toNat - 0x80) 7 rest

theorem internalGetRest_lt {result shift : ℕ} {l : List UInt8} {r : ℕ × List UInt8}
    (h : internalGetRest result shift l = .ok r) : r.1 < 2 ^ 32 := by
  induction l generalizing result shift with
  | nil => simp [internalGetRest] at h
  | cons c l ih =>
    rw [internalGetRest] at h
    split at h
    · simp at h
    · split at h
      · obtain rfl := Except.ok.inj h
        exact Nat.mod_lt _ (by norm_num)
      · exact ih h

/-- A number that is read is a `DWORD`. -/
theorem internalGetValue_lt {l : List UInt8} {r : ℕ × List UInt8} (h : internalGetValue l = .ok r) :
    r.1 < 2 ^ 32 := by
  rcases l with _ | ⟨c, l⟩
  · simp [internalGetValue] at h
  · rw [internalGetValue] at h
    split at h
    · rename_i hc
      obtain rfl := Except.ok.inj h
      exact hc.trans (by norm_num)
    · exact internalGetRest_lt h

theorem internalGetRest_go (fuel result shift value : ℕ) (rest : List UInt8)
    (hv : value * 2 ^ shift < 2 ^ 32) (hfuel : value < 0x80 * 0x80 ^ fuel)
    (hshift : shift + 7 * fuel < 32) (hr : result < 2 ^ shift) :
    internalGetRest result shift (internalAdd.go fuel value ++ rest) =
      .ok (result + value * 2 ^ shift, rest) := by
  have hstep : ∀ x, x ≤ value → result + x * 2 ^ shift < 2 ^ 32 := by
    intro x hx
    have h1 : (value + 1) * 2 ^ shift ≤ 2 ^ (32 - shift) * 2 ^ shift := by
      have : value * 2 ^ shift < 2 ^ (32 - shift) * 2 ^ shift := by
        rw [← pow_add, show 32 - shift + shift = 32 by omega]
        exact hv
      exact Nat.mul_le_mul_right _ (Nat.lt_of_mul_lt_mul_right this)
    rw [← pow_add, show 32 - shift + shift = 32 by omega, add_mul, one_mul] at h1
    have h2 : x * 2 ^ shift ≤ value * 2 ^ shift := Nat.mul_le_mul_right _ hx
    omega
  induction fuel generalizing result shift value with
  | zero =>
    have hv' : value < 0x80 := by simpa using hfuel
    have hmod : (UInt8.ofNat value).toNat = value := by
      rw [UInt8.toNat_ofNat']; omega
    rw [internalAdd.go, List.singleton_append, internalGetRest, if_neg (by omega), hmod,
      if_pos hv', Nat.mod_eq_of_lt (hstep value le_rfl)]
  | succ fuel ih =>
    rw [internalAdd.go]
    by_cases hlt : value < 0x80
    · have hmod : (UInt8.ofNat value).toNat = value := by
        rw [UInt8.toNat_ofNat']; omega
      rw [if_pos hlt, List.singleton_append, internalGetRest, if_neg (by omega), hmod, if_pos hlt,
        Nat.mod_eq_of_lt (hstep value le_rfl)]
    · have hmod : (UInt8.ofNat (value % 0x80 + 0x80)).toNat = value % 0x80 + 0x80 := by
        rw [UInt8.toNat_ofNat']; omega
      have hsplit : value * 2 ^ shift =
          value % 0x80 * 2 ^ shift + value / 0x80 * 2 ^ (shift + 7) := by
        conv_lhs => rw [← Nat.mod_add_div value 0x80]
        ring
      have hlow : value % 0x80 * 2 ^ shift ≤ 0x7f * 2 ^ shift := Nat.mul_le_mul_right _ (by omega)
      have hpow : 2 ^ (shift + 7) = 0x80 * 2 ^ shift := by ring
      rw [if_neg hlt, List.cons_append, internalGetRest, if_neg (by omega), hmod,
        if_neg (by omega), Nat.add_sub_cancel, Nat.mod_eq_of_lt (hstep _ (by omega)), ih]
      · rw [hsplit, add_assoc]
      · omega
      · rw [pow_succ] at hfuel
        omega
      · omega
      · omega
      · intro x hx
        have := hstep value le_rfl
        have : x * 2 ^ (shift + 7) ≤ value / 0x80 * 2 ^ (shift + 7) := Nat.mul_le_mul_right _ hx
        omega

/-- A `DWORD` is read back, and nothing behind it is touched. -/
theorem internalGetValue_internalAdd {value : ℕ} (h : value < 2 ^ 32) (rest : List UInt8) :
    internalGetValue (internalAdd value ++ rest) = .ok (value, rest) := by
  rw [internalAdd, internalAdd.go]
  by_cases hlt : value < 0x80
  · have hmod : (UInt8.ofNat value).toNat = value := by
      rw [UInt8.toNat_ofNat']; omega
    rw [if_pos hlt, List.singleton_append, internalGetValue, hmod, if_pos hlt]
  · have hmod : (UInt8.ofNat (value % 0x80 + 0x80)).toNat = value % 0x80 + 0x80 := by
      rw [UInt8.toNat_ofNat']; omega
    rw [if_neg hlt, List.cons_append, internalGetValue, hmod, if_neg (by omega),
      Nat.add_sub_cancel, internalGetRest_go] <;> first | omega | skip
    rw [show value % 0x80 + value / 0x80 * 2 ^ 7 = value by omega]

theorem internalAdd_length_pos (value : ℕ) : 0 < (internalAdd value).length := by
  rw [internalAdd, internalAdd.go]
  split <;> simp

/-! ### Writing -/

/-- The state of a stream that is being written.
Source: `PackedDWORDOutStream.h` `CPackedDWORDOutStreamBase` -/
structure CPackedDWORDOutStream where
  /-- The bytes written so far. -/
  data : List UInt8 := []
  /-- The last value handed to `Add`. -/
  lastValue : ℕ := 0
  /-- How many times in a row it was handed to `Add`. -/
  count : ℕ := 0

namespace CPackedDWORDOutStream

/-- `InternalAdd` on the stream. -/
def put (s : CPackedDWORDOutStream) (value : ℕ) : CPackedDWORDOutStream :=
  { s with data := s.data ++ internalAdd value }

/-- Source: `PackedDWORDOutStream.cpp` `CPackedDWORDOutStreamBase::FlushLastValue` -/
def flushLastValue (s : CPackedDWORDOutStream) : CPackedDWORDOutStream :=
  if 0 < s.count then ((s.put 0).put s.count).put s.lastValue else s

/-- Source: `PackedDWORDOutStream.h` `CPackedDWORDOutStreamBase::Add` -/
def add (s : CPackedDWORDOutStream) (value : ℕ) : CPackedDWORDOutStream :=
  if value = s.lastValue then { s with count := addU s.count 1 }
  else
    let s :=
      if s.count = 1 then s.put (addU s.lastValue 1)
      else if s.count = 2 ∧ s.lastValue < 0x80 then
        { (s.put (addU s.lastValue 1)).put (addU s.lastValue 1) with count := 1 }
      else { s.flushLastValue with count := 1 }
    { s with lastValue := value }

/-- The bytes of the stream when it is closed.
Source: `PackedDWORDOutStream.cpp` `CPackedDWORDOutStreamBase::FlushData` -/
def flushData (s : CPackedDWORDOutStream) : List UInt8 := s.flushLastValue.data

/-- The bytes of a stream to which `values` were added. -/
def write (values : List ℕ) : List UInt8 :=
  flushData (values.foldl add ({} : CPackedDWORDOutStream))

end CPackedDWORDOutStream

/-! ### The numbers handed to `InternalAdd` -/

/-- `(DWORD)-1`, the "only value we cannot represent". -/
def unstorable : ℕ := 4294967295

/-- What ends a run of `c` values `w` when another value follows. -/
def runWords (w c : ℕ) : List ℕ :=
  if c = 1 then [addU w 1] else if c = 2 ∧ w < 0x80 then [addU w 1, addU w 1] else [0, c, w]

/-- The numbers written for a run of `c` values `w` and the values behind it. -/
def encodeFrom (w c : ℕ) : List ℕ → List ℕ
  | [] => [0, c, w]
  | v :: vs => if v = w then encodeFrom w (c + 1) vs else runWords w c ++ encodeFrom v 1 vs

/-- The numbers written for a list of values. -/
def encode : List ℕ → List ℕ
  | [] => []
  | v :: vs => encodeFrom v 1 vs

theorem foldl_add_flushData (values : List ℕ) (data : List UInt8) (w c : ℕ) (hc : 0 < c)
    (hlen : c + values.length < 2 ^ 32) :
    (values.foldl CPackedDWORDOutStream.add ⟨data, w, c⟩).flushData =
      data ++ (encodeFrom w c values).flatMap internalAdd := by
  induction values generalizing data w c with
  | nil =>
    simp [CPackedDWORDOutStream.flushData, CPackedDWORDOutStream.flushLastValue, hc,
      CPackedDWORDOutStream.put, encodeFrom]
  | cons v vs ih =>
    rw [List.length_cons] at hlen
    rw [List.foldl_cons, encodeFrom]
    by_cases hv : v = w
    · rw [if_pos hv, CPackedDWORDOutStream.add, if_pos (by simpa using hv)]
      dsimp only
      rw [addU_of_lt (by omega), ih _ _ _ (by omega) (by omega)]
    · have hadd : CPackedDWORDOutStream.add ⟨data, w, c⟩ v =
          ⟨data ++ (runWords w c).flatMap internalAdd, v, 1⟩ := by
        by_cases h1 : c = 1
        · subst h1
          simp [CPackedDWORDOutStream.add, hv, CPackedDWORDOutStream.put, runWords]
        · by_cases h2 : c = 2 ∧ w < 0x80
          · simp [CPackedDWORDOutStream.add, hv, CPackedDWORDOutStream.put, runWords, h2]
          · simp [CPackedDWORDOutStream.add, hv, CPackedDWORDOutStream.put, runWords, h1, h2,
              CPackedDWORDOutStream.flushLastValue, hc]
      rw [if_neg hv, hadd, ih _ _ _ one_pos (by omega), List.flatMap_append, List.append_assoc]

theorem write_eq (values : List ℕ) (hlen : values.length < 2 ^ 32) :
    CPackedDWORDOutStream.write values = (encode values).flatMap internalAdd := by
  rcases values with _ | ⟨v, vs⟩
  · rfl
  · rw [List.length_cons] at hlen
    rw [CPackedDWORDOutStream.write, List.foldl_cons, encode]
    have hadd : CPackedDWORDOutStream.add {} v = ⟨[], v, 1⟩ := by
      by_cases hv : v = 0
      · subst hv
        rfl
      · simp [CPackedDWORDOutStream.add, hv, CPackedDWORDOutStream.flushLastValue]
    rw [hadd, foldl_add_flushData _ _ _ _ one_pos (by omega), List.nil_append]

/-- The values a list of numbers stands for, up to the end of the stream. -/
def valuesOf : List ℕ → List ℕ
  | [] => []
  | (w + 1) :: ws => w :: valuesOf ws
  | 0 :: c :: w :: ws => List.replicate c w ++ valuesOf ws
  | [0] => []
  | [0, _] => []

theorem valuesOf_literals (n w : ℕ) (ws : List ℕ) :
    valuesOf (List.replicate n (w + 1) ++ ws) = List.replicate n w ++ valuesOf ws := by
  induction n with
  | zero => rfl
  | succ n ih => simp [List.replicate_succ, valuesOf, ih]

theorem valuesOf_marker (c w : ℕ) (ws : List ℕ) :
    valuesOf (0 :: c :: w :: ws) = List.replicate c w ++ valuesOf ws := by
  rw [valuesOf]

theorem encodeFrom_replicate (w c n : ℕ) (vs : List ℕ) :
    encodeFrom w c (List.replicate n w ++ vs) = encodeFrom w (c + n) vs := by
  induction n generalizing c with
  | zero => rfl
  | succ n ih =>
    rw [List.replicate_succ, List.cons_append, encodeFrom, if_pos rfl, ih]
    congr 1
    omega

theorem encodeFrom_of_head {w c : ℕ} {vs : List ℕ} (hne : vs ≠ []) (hhead : vs.head? ≠ some w) :
    encodeFrom w c vs = runWords w c ++ encode vs := by
  rcases vs with _ | ⟨v, vs⟩
  · exact absurd rfl hne
  · rw [encodeFrom, if_neg (by simpa using hhead), encode]

/-- A list of values opened at its first run: the run is written as literals, as a lone marker, or
behind a marker. -/
inductive FirstRun : List ℕ → Prop
  | literal (v c : ℕ) (vs : List ℕ) (hv : v + 1 < 2 ^ 32) (hc : c = 1 ∨ c = 2) (hne : vs ≠ [])
      (hhead : vs.head? ≠ some v)
      (henc : encode (List.replicate c v ++ vs) = List.replicate c (v + 1) ++ encode vs) :
      FirstRun (List.replicate c v ++ vs)
  | lone (vs : List ℕ) (hne : vs ≠ []) (hhead : vs.head? ≠ some unstorable)
      (henc : encode (unstorable :: vs) = 0 :: encode vs) : FirstRun (unstorable :: vs)
  | run (v c : ℕ) (vs : List ℕ) (hc : 0 < c) (hhead : vs.head? ≠ some v)
      (hlone : v = unstorable → 1 < c ∨ vs = [])
      (henc : encode (List.replicate c v ++ vs) = 0 :: c :: v :: encode vs) :
      FirstRun (List.replicate c v ++ vs)

/-- Split off the leading copies of the first value. -/
theorem exists_leading (v : ℕ) (vs : List ℕ) :
    ∃ n rest, vs = List.replicate n v ++ rest ∧ rest.head? ≠ some v := by
  induction vs with
  | nil => exact ⟨0, [], rfl, by simp⟩
  | cons x xs ih =>
    by_cases hx : x = v
    · obtain ⟨n, rest, rfl, hrest⟩ := ih
      exact ⟨n + 1, rest, by rw [hx, List.replicate_succ, List.cons_append], hrest⟩
    · exact ⟨0, x :: xs, rfl, by simpa using hx⟩

theorem firstRun {vs : List ℕ} (hne : vs ≠ []) (hlt : ∀ v ∈ vs, v < 2 ^ 32) : FirstRun vs := by
  rcases vs with _ | ⟨v, tl⟩
  · exact absurd rfl hne
  obtain ⟨n, rest, rfl, hhead⟩ := exists_leading v tl
  have hv : v < 2 ^ 32 := hlt v List.mem_cons_self
  have hfold : v :: (List.replicate n v ++ rest) = List.replicate (n + 1) v ++ rest := by
    rw [List.replicate_succ, List.cons_append]
  have henc : encode (List.replicate (n + 1) v ++ rest) = encodeFrom v (n + 1) rest := by
    rw [List.replicate_succ, List.cons_append, encode, encodeFrom_replicate, add_comm]
  rw [hfold]
  by_cases hrest : rest = []
  · subst hrest
    exact .run v (n + 1) [] (by omega) hhead (fun _ => .inr rfl) henc
  rw [encodeFrom_of_head hrest hhead] at henc
  by_cases h1 : n + 1 = 1
  · rw [h1] at henc ⊢
    by_cases hu : v = unstorable
    · subst hu
      exact .lone rest hrest hhead henc
    · have hlt' : v + 1 < 2 ^ 32 := by
        unfold unstorable at hu
        omega
      refine .literal v 1 rest hlt' (.inl rfl) hrest hhead ?_
      rw [henc, runWords, if_pos rfl, addU_of_lt hlt']
      rfl
  · by_cases h2 : n + 1 = 2 ∧ v < 0x80
    · have hlt' : v + 1 < 2 ^ 32 := by omega
      rw [h2.1] at henc ⊢
      refine .literal v 2 rest hlt' (.inr rfl) hrest hhead ?_
      rw [henc, runWords, if_neg (by omega), if_pos ⟨rfl, h2.2⟩, addU_of_lt hlt']
      rfl
    · refine .run v (n + 1) rest (by omega) hhead (fun _ => .inl (by omega)) ?_
      rw [henc, runWords, if_neg h1, if_neg h2]
      rfl

/-! ### Values that are read back -/

/-- Some value `0xffffffff` stands alone, and it is not the last one. -/
def HasIsolated (vs : List ℕ) : Prop :=
  ∃ a b, vs = a ++ unstorable :: b ∧ a.getLast? ≠ some unstorable ∧ b ≠ [] ∧
    b.head? ≠ some unstorable

/-- Isolated values behind a leading run stay isolated. -/
theorem HasIsolated.append {v : ℕ} {vs : List ℕ} (c : ℕ) (hhead : vs.head? ≠ some v)
    (h : HasIsolated vs) : HasIsolated (List.replicate c v ++ vs) := by
  obtain ⟨a, b, rfl, ha, hb, hbh⟩ := h
  refine ⟨List.replicate c v ++ a, b, by simp, ?_, hb, hbh⟩
  rcases a with _ | ⟨x, a⟩
  · rw [List.append_nil]
    intro hlast
    have hmem := List.mem_of_getLast? hlast
    rw [List.eq_of_mem_replicate hmem] at hhead
    exact hhead rfl
  · rwa [List.getLast?_append_of_ne_nil _ (by simp)]

theorem HasIsolated.mem {vs : List ℕ} (h : HasIsolated vs) : unstorable ∈ vs := by
  obtain ⟨a, b, rfl, -⟩ := h
  simp

theorem not_hasIsolated_nil : ¬ HasIsolated [] := by
  rintro ⟨a, b, h, -⟩
  simp at h

/-- **Without an isolated `0xffffffff` the numbers stand for the values they were written for.** -/
theorem valuesOf_encode {vs : List ℕ} (hlt : ∀ v ∈ vs, v < 2 ^ 32) (h : ¬ HasIsolated vs) :
    valuesOf (encode vs) = vs := by
  induction hn : vs.length using Nat.strong_induction_on generalizing vs with
  | _ n ih =>
    rcases eq_or_ne vs [] with rfl | hne
    · rfl
    rcases firstRun hne hlt with ⟨v, c, tl, hv, hc, -, hhead, henc⟩ | ⟨tl, hnil, hhead, henc⟩ |
      ⟨v, c, tl, hc, hhead, -, henc⟩
    · rw [henc, valuesOf_literals, ih tl.length (by rcases hc with rfl | rfl <;> simp_all <;> omega)
        (fun x hx => hlt x (List.mem_append_right _ hx)) (fun hi => h (hi.append c hhead)) rfl]
    · exact absurd ⟨[], tl, rfl, by simp, hnil, hhead⟩ h
    · rw [henc, valuesOf_marker, ih tl.length (by simp_all; omega)
        (fun x hx => hlt x (List.mem_append_right _ hx)) (fun hi => h (hi.append c hhead)) rfl]

/-! ### Values that are not read back -/

/-- What a reader makes of a value: itself, except that it may take `1` for `0`. The signed streams
do so, as `1` stands for `-0` there. -/
def Merging (g : ℕ → ℕ) : Prop := ∀ w, g w = w ∨ w = 1 ∧ g w = 0

theorem merging_id : Merging id := fun _ => .inl rfl

/-- The values a list of numbers stands for, as a reader sees them. -/
def seen (g : ℕ → ℕ) (ws : List ℕ) : List ℕ := (valuesOf ws).map g

theorem seen_id (ws : List ℕ) : seen id ws = valuesOf ws := List.map_id _

theorem seen_succ (g : ℕ → ℕ) (w : ℕ) (ws : List ℕ) : seen g ((w + 1) :: ws) = g w :: seen g ws := by
  rw [seen, valuesOf, List.map_cons, seen]

theorem seen_literals (g : ℕ → ℕ) (n w : ℕ) (ws : List ℕ) :
    seen g (List.replicate n (w + 1) ++ ws) = List.replicate n (g w) ++ seen g ws := by
  rw [seen, valuesOf_literals, List.map_append, List.map_replicate, seen]

theorem seen_marker (g : ℕ → ℕ) (c w : ℕ) (ws : List ℕ) :
    seen g (0 :: c :: w :: ws) = List.replicate c (g w) ++ seen g ws := by
  rw [seen, valuesOf_marker, List.map_append, List.map_replicate, seen]

theorem prefix_drop {a l x y : List ℕ} (h : a ++ l <+: x ++ y) (hle : x.length ≤ a.length) :
    a.drop x.length ++ l <+: y := by
  have := h.drop x.length
  rwa [List.drop_append_of_le_length hle, List.drop_left] at this

/-- The first values read are copies of one value. -/
theorem prefix_replicate {k x v : ℕ} {a l y : List ℕ} (h : a ++ v :: l <+: List.replicate k x ++ y)
    (hk : a.length < k) : v = x := by
  obtain ⟨t, ht⟩ := h
  have h1 := congrArg (fun l => l[a.length]?) ht
  simpa [List.getElem?_append_left, hk] using h1

/-- What misreading does not give: the values behind a list `l` of written ones, let alone behind
a marker, are never some values followed by `l`. -/
structure Unreadable (g : ℕ → ℕ) (l : List ℕ) : Prop where
  plain : ∀ q, q ≠ [] → ¬ q ++ l <+: seen g (encode l)
  marked : ∀ q, q ≠ [] → ¬ q ++ l <+: seen g (0 :: encode l)

/-- `plain`, from the same facts about the rest behind the first run. -/
theorem unreadable_plain {g : ℕ → ℕ} {l : List ℕ} (hl : FirstRun l)
    (ih : ∀ l' : List ℕ, l'.length < l.length → l' <:+ l → Unreadable g l') (q : List ℕ)
    (hq : q ≠ []) : ¬ q ++ l <+: seen g (encode l) := by
  intro h
  have hpos : 0 < q.length := List.length_pos_iff.mpr hq
  rcases hl with ⟨v, c, tl, hv, hc, -, hhead, henc⟩ | ⟨tl, hnil, hhead, henc⟩ |
    ⟨v, c, tl, hc, hhead, -, henc⟩
  · have hc0 : 0 < c := by omega
    rw [henc, seen_literals, ← List.append_assoc] at h
    refine (ih tl (by simpa using hc0) (List.suffix_append _ _)).plain _ ?_ (prefix_drop h (by simp))
    exact List.ne_nil_of_length_pos (by simpa using hpos)
  · rw [henc, List.append_cons] at h
    exact (ih tl (by simp) (List.suffix_cons _ _)).marked _ (by simp) h
  · rw [henc, seen_marker, ← List.append_assoc] at h
    refine (ih tl (by simpa using hc) (List.suffix_append _ _)).plain _ ?_ (prefix_drop h (by simp))
    exact List.ne_nil_of_length_pos (by simpa using hpos)

/-- A run whose marker was taken for something else: its count and its value are then read as one
value each. -/
theorem Unreadable.unmarked {g : ℕ → ℕ} (hg : Merging g) {q l : List ℕ} {c v : ℕ}
    (hl : Unreadable g l) (hc : 0 < c)
    (hq : q ≠ []) : ¬ (q ++ List.replicate c v) ++ l <+: seen g (c :: v :: encode l) := by
  intro h
  have hpos : 0 < q.length := List.length_pos_iff.mpr hq
  obtain ⟨k, rfl⟩ : ∃ k, c = k + 1 := ⟨c - 1, by omega⟩
  rw [seen_succ] at h
  have h1 : (q ++ List.replicate (k + 1) v).drop 1 ++ l <+: seen g (v :: encode l) :=
    prefix_drop (x := [g k]) h (by simp; omega)
  rcases v with _ | w
  · exact hl.marked _ (List.ne_nil_of_length_pos (by simp; omega)) h1
  · rw [seen_succ] at h1
    have h2 : ((q ++ List.replicate (k + 1) (w + 1)).drop 1).drop 1 ++ l <+: seen g (encode l) :=
      prefix_drop (x := [g w]) h1 (by simp; omega)
    by_cases hlen : q.length + (k + 1) = 2
    · obtain ⟨y, rfl⟩ := List.length_eq_one_iff.mp (show q.length = 1 by omega)
      obtain rfl : k = 0 := by simp at hlen; omega
      have hw : w + 1 = g w := (List.cons_prefix_cons.mp h1).1
      have := hg w
      omega
    · exact hl.plain _ (List.ne_nil_of_length_pos (by simp; omega)) h2

/-- Two neighbours that differ are not both read from one run. -/
theorem count_le {k x v v' : ℕ} {q tl y : List ℕ}
    (h : q ++ v :: v' :: tl <+: List.replicate k x ++ y) (hne : v' ≠ v) : k ≤ q.length + 1 := by
  by_contra hk
  have h1 : v = x := prefix_replicate h (by omega)
  have h2 : v' = x := by
    rw [List.append_cons] at h
    exact prefix_replicate h (by simp; omega)
  exact hne (h2.trans h1.symm)

/-- `v + 1`, written for a single `v`, is taken for a count, and the first number behind it for
the value. -/
theorem unreadable_literal {g : ℕ → ℕ} (hg : Merging g) {v : ℕ} {tl : List ℕ} (htl : FirstRun tl) (hhead : tl.head? ≠ some v)
    (ih : ∀ l' : List ℕ, l' <:+ tl → Unreadable g l') (q : List ℕ) (hq : q ≠ []) :
    ¬ q ++ v :: tl <+: seen g (0 :: (v + 1) :: encode tl) := by
  intro h
  have hpos : 0 < q.length := List.length_pos_iff.mpr hq
  rcases htl with ⟨v', c, tl, hv, hc, -, -, henc⟩ | ⟨tl, -, -, henc⟩ | ⟨v', c, tl, hc, -, -, henc⟩
  · obtain ⟨k, rfl⟩ : ∃ k, c = k + 1 := ⟨c - 1, by omega⟩
    have hvals : seen g (0 :: (v + 1) :: encode (List.replicate (k + 1) v' ++ tl)) =
        (List.replicate (v + 1) (g (v' + 1)) ++ List.replicate k (g v')) ++ seen g (encode tl) := by
      rw [henc, List.replicate_succ, List.cons_append, seen_marker, seen_literals,
        List.append_assoc]
    have hle : v + 1 ≤ q.length + 1 := by
      rw [hvals, List.append_assoc, List.replicate_succ (n := k), List.cons_append] at h
      exact count_le h (by simpa [List.replicate_succ] using hhead)
    rw [hvals, List.append_cons, ← List.append_assoc] at h
    refine (ih tl (List.suffix_append _ _)).plain _ ?_ (prefix_drop h (by simp; omega))
    exact List.ne_nil_of_length_pos (by simp; omega)
  · have hvals : seen g (0 :: (v + 1) :: encode (unstorable :: tl)) =
        List.replicate (v + 1) (g 0) ++ seen g (encode tl) := by
      rw [henc, seen_marker]
    rw [hvals] at h
    have hle := count_le h (by simpa using hhead)
    rw [List.append_cons, List.append_cons] at h
    refine (ih tl (List.suffix_cons _ _)).plain _ ?_ (prefix_drop h (by simp; omega))
    exact List.ne_nil_of_length_pos (by simp; omega)
  · -- the marker of the next run is taken for the value
    have hvals : seen g (0 :: (v + 1) :: encode (List.replicate c v' ++ tl)) =
        List.replicate (v + 1) (g 0) ++ seen g (c :: v' :: encode tl) := by
      rw [henc, seen_marker]
    rw [hvals] at h
    have hle : v + 1 ≤ q.length := by
      by_contra hlt
      have : v = g 0 := prefix_replicate h (by omega)
      have := hg 0
      omega
    rw [List.append_cons, ← List.append_assoc] at h
    have h' := prefix_drop h (by simp; omega)
    rw [List.drop_append_of_le_length (by simp; omega)] at h'
    exact (ih tl (List.suffix_append _ _)).unmarked hg hc
      (List.ne_nil_of_length_pos (by simp; omega)) h'

/-- A second marker is taken for the count `0`, and the first number behind it is lost. -/
theorem unreadable_lone {g : ℕ → ℕ} (hg : Merging g) {tl : List ℕ} (htl : FirstRun tl) (hhead : tl.head? ≠ some unstorable)
    (ih : ∀ l' : List ℕ, l' <:+ tl → Unreadable g l') (q : List ℕ) :
    ¬ q ++ unstorable :: tl <+: seen g (0 :: 0 :: encode tl) := by
  intro h
  rcases htl with ⟨v', c, tl, hv, hc, -, -, henc⟩ | ⟨tl, -, -, henc⟩ | ⟨v', c, tl, hc, -, -, henc⟩
  · obtain ⟨k, rfl⟩ : ∃ k, c = k + 1 := ⟨c - 1, by omega⟩
    rw [henc, List.replicate_succ (n := k) (a := v' + 1), List.cons_append, seen_marker,
      List.replicate_zero, List.nil_append, seen_literals, List.append_cons,
      ← List.append_assoc] at h
    refine (ih tl (List.suffix_append _ _)).plain _ ?_ (prefix_drop h (by simp; omega))
    exact List.ne_nil_of_length_pos (by simp; omega)
  · simp at hhead
  · rw [henc, seen_marker, List.replicate_zero, List.nil_append, List.append_cons,
      ← List.append_assoc] at h
    exact (ih tl (List.suffix_append _ _)).unmarked hg hc (by simp) h

/-- `marked`, from the same facts about the rest behind the first run and behind the second. -/
theorem unreadable_marked {g : ℕ → ℕ} (hg : Merging g) {l : List ℕ} (hlt : ∀ v ∈ l, v < 2 ^ 32)
    (ih : ∀ l' : List ℕ, l'.length < l.length → l' <:+ l → Unreadable g l') (q : List ℕ)
    (hq : q ≠ []) : ¬ q ++ l <+: seen g (0 :: encode l) := by
  rcases eq_or_ne l [] with rfl | hne
  · simpa [encode, valuesOf, seen] using hq
  rcases firstRun hne hlt with ⟨v, c, tl, hv, hc, hnil, hhead, henc⟩ | ⟨tl, hnil, hhead, henc⟩ |
    ⟨v, c, tl, hc, hhead, -, henc⟩
  · have hsub : ∀ l' : List ℕ, l' <:+ tl → Unreadable g l' := fun l' h' =>
      ih l' (by have := h'.length_le; simp; omega) (h'.trans (List.suffix_append _ _))
    have htl : FirstRun tl := firstRun hnil fun x hx => hlt x (List.mem_append_right _ hx)
    rcases hc with rfl | rfl
    · rw [henc]
      exact unreadable_literal hg htl hhead hsub q hq
    · intro h
      rw [henc] at h
      have hvals : seen g (0 :: (List.replicate 2 (v + 1) ++ encode tl)) =
          List.replicate (v + 1) (g (v + 1)) ++ seen g (encode tl) := seen_marker _ _ _ _
      have hpos : 0 < q.length := List.length_pos_iff.mpr hq
      have hle : v + 1 ≤ q.length := by
        rw [hvals] at h
        by_contra hlt
        have : v = g (v + 1) := prefix_replicate h (by omega)
        have := hg (v + 1)
        omega
      rw [hvals, ← List.append_assoc] at h
      refine (hsub tl (List.suffix_refl _)).plain _ ?_ (prefix_drop h (by simp; omega))
      exact List.ne_nil_of_length_pos (by simp; omega)
  · have htl : FirstRun tl := firstRun hnil fun x hx => hlt x (List.mem_cons_of_mem _ hx)
    rw [henc]
    exact unreadable_lone hg htl hhead
      (fun l' h' => ih l' (by have := h'.length_le; simp; omega) (h'.trans (List.suffix_cons _ _)))
      q
  · intro h
    have hl := ih tl (by simpa using hc) (List.suffix_append _ _)
    have hpos : 0 < q.length := List.length_pos_iff.mpr hq
    rw [henc, seen_marker, List.replicate_zero, List.nil_append, ← List.append_assoc] at h
    rcases v with _ | w
    · exact hl.marked _ (by simp [hq]) h
    · rw [seen_succ] at h
      exact hl.plain _ (List.ne_nil_of_length_pos (by simp; omega))
        (prefix_drop (x := [g w]) h (by simp; omega))

theorem unreadable {g : ℕ → ℕ} {l : List ℕ} (hg : Merging g) (hlt : ∀ v ∈ l, v < 2 ^ 32) :
    Unreadable g l := by
  induction hn : l.length using Nat.strong_induction_on generalizing l with
  | _ n ih =>
    have ih' : ∀ l' : List ℕ, l'.length < l.length → l' <:+ l → Unreadable g l' :=
      fun l' hlen hsuf => ih l'.length (hn ▸ hlen) (fun v hv => hlt v (hsuf.subset hv)) rfl
    refine ⟨fun q hq => ?_, unreadable_marked hg hlt ih'⟩
    rcases eq_or_ne l [] with rfl | hne
    · simpa [encode, valuesOf, seen] using hq
    · exact unreadable_plain (firstRun hne hlt) ih' q hq

/-- A leading run that was written as one holds no isolated value. -/
theorem HasIsolated.of_append {v c : ℕ} {tl : List ℕ} (hlone : v = unstorable → 1 < c ∨ tl = [])
    (h : HasIsolated (List.replicate c v ++ tl)) : HasIsolated tl := by
  obtain ⟨a, b, hab, ha, hb, hbh⟩ := h
  rcases List.append_eq_append_iff.mp hab with ⟨a', rfl, rfl⟩ | ⟨c', hrep, hcons⟩
  · refine ⟨a', b, rfl, ?_, hb, hbh⟩
    rcases a' with _ | ⟨x, a'⟩
    · simp
    · rwa [List.getLast?_append_of_ne_nil _ (by simp)] at ha
  · rcases c' with _ | ⟨x, c'⟩
    · exact ⟨[], b, hcons.symm, by simp, hb, hbh⟩
    · -- the run itself would be the isolated value
      rw [List.cons_append] at hcons
      obtain ⟨rfl, rfl⟩ := List.cons.inj hcons
      have hall : ∀ y ∈ a ++ unstorable :: c', y = v := fun y hy =>
        List.eq_of_mem_replicate (hrep ▸ hy)
      have hv : unstorable = v := hall _ (by simp)
      have hanil : a = [] := by
        by_contra hne
        refine ha ?_
        rw [List.getLast?_eq_some_getLast hne,
          hall _ (List.mem_append_left _ (List.getLast_mem hne)), hv]
      have hcnil : c' = [] := by
        rcases c' with _ | ⟨y, c'⟩
        · rfl
        · refine absurd ?_ hbh
          rw [List.cons_append, List.head?_cons, hall y (by simp), hv]
      have hlen := congrArg List.length hrep
      simp only [hanil, hcnil, List.length_replicate, List.nil_append, List.length_singleton] at hlen
      rcases hlone hv.symm with h1 | rfl
      · omega
      · simp [hcnil] at hb

/-- **The numbers written for values with an isolated `0xffffffff` do not stand for them.** -/
theorem HasIsolated.not_initial {g : ℕ → ℕ} (hg : Merging g) {vs : List ℕ}
    (hlt : ∀ v ∈ vs, v < 2 ^ 32) (hfix : ∀ v ∈ vs, g v = v) (h : HasIsolated vs) :
    ¬ vs <+: seen g (encode vs) := by
  induction hn : vs.length using Nat.strong_induction_on generalizing vs with
  | _ n ih =>
    intro hpre
    have hne : vs ≠ [] := by
      rintro rfl
      exact not_hasIsolated_nil h
    rcases firstRun hne hlt with ⟨v, c, tl, hv, hc, -, -, henc⟩ | ⟨tl, -, -, henc⟩ |
      ⟨v, c, tl, hc, -, hlone, henc⟩
    · have hgv : g v = v := hfix v (by simp; omega)
      rw [henc, seen_literals, hgv, List.prefix_append_right_inj] at hpre
      refine ih tl.length (by rcases hc with rfl | rfl <;> simp_all <;> omega)
        (fun x hx => hlt x (List.mem_append_right _ hx))
        (fun x hx => hfix x (List.mem_append_right _ hx)) (h.of_append fun hu => ?_) rfl hpre
      unfold unstorable at hu
      omega
    · rw [henc] at hpre
      exact (unreadable hg fun x hx => hlt x (List.mem_cons_of_mem _ hx)).marked [unstorable]
        (by simp) hpre
    · have hgv : g v = v := hfix v (by simp; omega)
      rw [henc, seen_marker, hgv, List.prefix_append_right_inj] at hpre
      exact ih tl.length (by simp_all; omega) (fun x hx => hlt x (List.mem_append_right _ hx))
        (fun x hx => hfix x (List.mem_append_right _ hx)) (h.of_append hlone) rfl hpre

/-! ### Reading -/

/-- The state of a stream that is being read.
Source: `PackedDWORDInStream.h` `CPackedDWORDInStreamBase` -/
structure CPackedDWORDInStream where
  /-- The bytes that were not read yet. -/
  rest : List UInt8
  lastValue : ℕ := 0
  count : ℕ := 0

namespace CPackedDWORDInStream

/-- The loop of `GetValue`; it goes round only for an empty run, which takes three bytes or more.
Source: `PackedDWORDInStream.h` `CPackedDWORDInStreamBase::GetValue` -/
def getValueLoop : ℕ → CPackedDWORDInStream → Except Fault (ℕ × CPackedDWORDInStream)
  | 0, _ => .error unexpectedEnd
  | fuel + 1, s =>
    if s.count ≠ 0 then .ok (s.lastValue, { s with count := s.count - 1 })
    else do
      let (result, rest) ← internalGetValue s.rest
      if result ≠ 0 then
        return (result - 1, { s with rest := rest })
      let (count, rest) ← internalGetValue rest
      let (lastValue, rest) ← internalGetValue rest
      getValueLoop fuel ⟨rest, lastValue, count⟩

/-- Source: `PackedDWORDInStream.h` `CPackedDWORDInStreamBase::GetValue` -/
def getValue (s : CPackedDWORDInStream) : Except Fault (ℕ × CPackedDWORDInStream) :=
  getValueLoop (s.rest.length + 1) s

/-- `AddSizeValue` has no run-length coding.
Source: `PackedDWORDInStream.h` `CPackedDWORDInStreamBase::GetSizeValue` -/
def getSizeValue (s : CPackedDWORDInStream) : Except Fault (ℕ × CPackedDWORDInStream) := do
  let (result, rest) ← internalGetValue s.rest
  return (result, { s with rest := rest })

end CPackedDWORDInStream

/-- A stream `s` that is read by `get` delivers exactly the values of a list and then ends. -/
def Delivers {σ : Type} (get : σ → Except Fault (ℕ × σ)) : σ → List ℕ → Prop
  | s, [] => get s = .error unexpectedEnd
  | s, v :: vs => ∃ s', get s = .ok (v, s') ∧ Delivers get s' vs

/-- Source: `SkipRevisionInfo.cpp` `operator>>`, the calls of `GetValue` on one stream -/
def readValues {σ : Type} (get : σ → Except Fault (ℕ × σ)) : ℕ → σ → Except Fault (List ℕ × σ)
  | 0, s => .ok ([], s)
  | n + 1, s => do
    let (v, s) ← get s
    let (vs, s) ← readValues get n s
    return (v :: vs, s)

namespace CPackedDWORDInStream

theorem internalGetValue_nil : internalGetValue [] = .error unexpectedEnd := rfl

/-- One value is read off the numbers `ws` behind a pending run, with fuel for all of them. -/
theorem getValueLoop_numbers (fuel : ℕ) (ws : List ℕ) (hws : ∀ w ∈ ws, w < 2 ^ 32)
    (last count : ℕ) (hfuel : ws.length < fuel) :
    match List.replicate count last ++ valuesOf ws with
    | [] => getValueLoop fuel ⟨ws.flatMap internalAdd, last, count⟩ = .error unexpectedEnd
    | v :: vs => ∃ last' count' ws', ws' <:+ ws ∧
        List.replicate count' last' ++ valuesOf ws' = vs ∧
        getValueLoop fuel ⟨ws.flatMap internalAdd, last, count⟩ =
          .ok (v, ⟨ws'.flatMap internalAdd, last', count'⟩) := by
  induction fuel generalizing ws last count with
  | zero => omega
  | succ fuel ih =>
    rcases count with _ | k
    · rcases ws with _ | ⟨_ | w, ws⟩
      · rfl
      · -- the marker
        have hz : ∀ tl, internalGetValue (internalAdd 0 ++ tl) = .ok (0, tl) :=
          internalGetValue_internalAdd (by norm_num)
        rcases ws with _ | ⟨c, _ | ⟨w, ws⟩⟩
        · have hz' := hz []
          rw [List.append_nil] at hz'
          simp [valuesOf, getValueLoop, hz', internalGetValue_nil, bind, Except.bind]
        · have hc : c < 2 ^ 32 := hws c (by simp)
          have hcg := internalGetValue_internalAdd hc []
          rw [List.append_nil] at hcg
          simp [valuesOf, getValueLoop, hz, hcg, internalGetValue_nil, bind, Except.bind]
        · have hc : c < 2 ^ 32 := hws c (by simp)
          have hw : w < 2 ^ 32 := hws w (by simp)
          have hstep : getValueLoop (fuel + 1)
              ⟨(0 :: c :: w :: ws).flatMap internalAdd, last, 0⟩ =
              getValueLoop fuel ⟨ws.flatMap internalAdd, w, c⟩ := by
            simp [getValueLoop, hz, internalGetValue_internalAdd hc,
              internalGetValue_internalAdd hw, bind, Except.bind]
          have := ih ws (fun x hx => hws x (by simp [hx])) w c (by simp at hfuel; omega)
          rw [hstep, List.replicate_zero, List.nil_append, valuesOf]
          split at this
          · exact this
          · obtain ⟨last', count', ws', hsuf, hvs, hget⟩ := this
            exact ⟨last', count', ws', hsuf.trans ⟨[0, c, w], rfl⟩, hvs, hget⟩
      · have hw : w + 1 < 2 ^ 32 := hws _ (by simp)
        rw [List.replicate_zero, List.nil_append, valuesOf]
        refine ⟨last, 0, ws, List.suffix_cons _ _, rfl, ?_⟩
        simp [getValueLoop, internalGetValue_internalAdd hw, bind, Except.bind, pure, Except.pure]
    · rw [List.replicate_succ, List.cons_append]
      exact ⟨last, k, ws, List.suffix_refl _, rfl, by simp [getValueLoop]⟩

/-- The values of a stream are those of the numbers it holds. -/
theorem delivers_numbers (ws : List ℕ) (hws : ∀ w ∈ ws, w < 2 ^ 32) (last count : ℕ)
    {vs : List ℕ} (hvs : List.replicate count last ++ valuesOf ws = vs) :
    Delivers getValue ⟨ws.flatMap internalAdd, last, count⟩ vs := by
  have hlen : ∀ ws : List ℕ, ws.length < (ws.flatMap internalAdd).length + 1 := by
    intro ws
    induction ws with
    | nil => simp
    | cons w ws ih =>
      have := internalAdd_length_pos w
      simp only [List.flatMap_cons, List.length_append, List.length_cons]
      omega
  induction vs generalizing ws last count with
  | nil =>
    have := getValueLoop_numbers _ ws hws last count (hlen ws)
    rw [hvs] at this
    exact this
  | cons v vs ih =>
    have := getValueLoop_numbers _ ws hws last count (hlen ws)
    rw [hvs] at this
    obtain ⟨last', count', ws', hsuf, hvs', hget⟩ := this
    exact ⟨_, hget, ih ws' (fun w hw => hws w (hsuf.subset hw)) last' count' hvs'⟩

end CPackedDWORDInStream

theorem Delivers.readValues {σ : Type} {get : σ → Except Fault (ℕ × σ)} {s : σ} {vs : List ℕ}
    (h : Delivers get s vs) (n : ℕ) :
    (n ≤ vs.length → ∃ s', readValues get n s = .ok (vs.take n, s') ∧
      Delivers get s' (vs.drop n)) ∧
    (vs.length < n → readValues get n s = .error unexpectedEnd) := by
  induction n generalizing s vs with
  | zero => exact ⟨fun _ => ⟨s, rfl, h⟩, fun hlt => absurd hlt (Nat.not_lt_zero _)⟩
  | succ n ih =>
    rcases vs with _ | ⟨v, vs⟩
    · refine ⟨fun hle => absurd hle (by simp), fun _ => ?_⟩
      have hget : get s = .error unexpectedEnd := h
      simp [LogCache.readValues, hget, bind, Except.bind]
    · obtain ⟨s', hget, hdel⟩ := h
      obtain ⟨hok, herr⟩ := ih hdel
      constructor
      · intro hle
        obtain ⟨s'', hread, hdel'⟩ := hok (by simpa using hle)
        exact ⟨s'', by simp [LogCache.readValues, hget, hread, bind, Except.bind, pure,
          Except.pure], hdel'⟩
      · intro hlt
        simp [LogCache.readValues, hget, herr (by simpa using hlt), bind, Except.bind]

/-! ### Signed values and differences -/

/-- An `int` as its two's complement pattern, folded: absolute value times two plus sign.
Source: `PackedIntegerOutStream.h` `CPackedIntegerOutStreamBase::Add` -/
def foldSign (value : ℕ) : ℕ :=
  if value < 2 ^ 31 then 2 * value else (2 * subU 0 value + 1) % 2 ^ 32

/-- Source: `PackedIntegerInStream.h` `CPackedIntegerInStreamBase::GetValue` -/
def unfoldSign (v : ℕ) : ℕ := if v % 2 = 1 then subU 0 (v / 2) else v / 2

/-- `-0x7fffffff` and `-0x80000000` cannot be stored. -/
theorem unfoldSign_foldSign {v : ℕ} (hv : v < 2 ^ 32) (h : v ≠ 2 ^ 31) :
    unfoldSign (foldSign v) = v := by
  unfold unfoldSign foldSign subU
  split <;> split <;> omega

/-- The differences handed to the base class.
Source: `DiffIntegerOutStream.h` `CDiffOutStreamBase::Add` -/
def diffs (last : ℕ) : List ℕ → List ℕ
  | [] => []
  | v :: vs => subU v last :: diffs v vs

/-- The values behind a list of differences.
Source: `DiffIntegerInStream.h` `CDiffInStreamBase::GetValue` -/
def sums (last : ℕ) : List ℕ → List ℕ
  | [] => []
  | d :: ds => addU last d :: sums (addU last d) ds

theorem sums_diffs {vs : List ℕ} (hvs : ∀ v ∈ vs, v < 2 ^ 32) (last : ℕ) :
    sums last (diffs last vs) = vs := by
  induction vs generalizing last with
  | nil => rfl
  | cons v vs ih =>
    have hv : v < 2 ^ 32 := hvs v List.mem_cons_self
    rw [diffs, sums, addU_subU hv, ih (fun x hx => hvs x (List.mem_cons_of_mem _ hx))]

theorem diffs_length (last : ℕ) (vs : List ℕ) : (diffs last vs).length = vs.length := by
  induction vs generalizing last with
  | nil => rfl
  | cons v vs ih => simp [diffs, ih]

theorem diffs_lt (last : ℕ) (vs : List ℕ) : ∀ d ∈ diffs last vs, d < 2 ^ 32 := by
  induction vs generalizing last with
  | nil => simp [diffs]
  | cons v vs ih =>
    intro d hd
    rcases List.mem_cons.mp hd with rfl | hd
    · exact subU_lt _ _
    · exact ih v d hd

theorem sums_take (last n : ℕ) (ds : List ℕ) : (sums last ds).take n = sums last (ds.take n) := by
  induction ds generalizing last n with
  | nil => simp [sums]
  | cons d ds ih =>
    rcases n with _ | n
    · rfl
    · simp [sums, ih]

/-- Different differences give different values. -/
theorem sums_inj (last : ℕ) {ds es : List ℕ} (hds : ∀ d ∈ ds, d < 2 ^ 32)
    (hes : ∀ e ∈ es, e < 2 ^ 32) (h : sums last ds = sums last es) : ds = es := by
  induction ds generalizing last es with
  | nil =>
    rcases es with _ | ⟨e, es⟩
    · rfl
    · simp [sums] at h
  | cons d ds ih =>
    rcases es with _ | ⟨e, es⟩
    · simp [sums] at h
    · obtain ⟨h1, h2⟩ := List.cons.inj h
      have hd := hds d List.mem_cons_self
      have he := hes e List.mem_cons_self
      obtain rfl : d = e := by
        unfold addU at h1
        omega
      rw [ih _ (fun x hx => hds x (List.mem_cons_of_mem _ hx))
        (fun x hx => hes x (List.mem_cons_of_mem _ hx)) h2]

/-- The bytes of a `CDiffDWORDOutStream`.
Source: `DiffIntegerOutStream.h` `CDiffDWORDOutStreamBase` -/
def CDiffDWORDOutStream.write (values : List ℕ) : List UInt8 :=
  CPackedDWORDOutStream.write (diffs 0 values)

/-- The bytes of a `CDiffIntegerOutStream`.
Source: `DiffIntegerOutStream.h` `CDiffIntegerOutStreamBase` -/
def CDiffIntegerOutStream.write (values : List ℕ) : List UInt8 :=
  CPackedDWORDOutStream.write ((diffs 0 values).map foldSign)

/-- Source: `PackedIntegerInStream.h` `CPackedIntegerInStreamBase::GetValue` -/
def CPackedIntegerInStream.getValue (s : CPackedDWORDInStream) :
    Except Fault (ℕ × CPackedDWORDInStream) := do
  let (v, s) ← s.getValue
  return (unfoldSign v, s)

/-- A stream of differences: its base class and the current diff base.
Source: `DiffIntegerInStream.h` `CDiffInStreamBase` -/
structure CDiffInStream where
  base : CPackedDWORDInStream
  lastValue : ℕ := 0

/-- Source: `PackedDWORDInStream.h` `CPackedDWORDInStreamBase::GetSizeValue` -/
def CDiffInStream.getSizeValue (s : CDiffInStream) : Except Fault (ℕ × CDiffInStream) := do
  let (count, base) ← s.base.getSizeValue
  return (count, { s with base := base })

theorem CDiffInStream.getSizeValue_lt {s : CDiffInStream} {r : ℕ × CDiffInStream}
    (h : s.getSizeValue = .ok r) : r.1 < 2 ^ 32 := by
  rcases hv : internalGetValue s.base.rest with e | v
  · simp [getSizeValue, CPackedDWORDInStream.getSizeValue, hv, bind, Except.bind] at h
  · have hlt := internalGetValue_lt hv
    simp only [getSizeValue, CPackedDWORDInStream.getSizeValue, hv, bind, Except.bind, pure,
      Except.pure, Except.ok.injEq] at h
    rwa [← h]

/-- Source: `DiffIntegerInStream.h` `CDiffInStreamBase::GetValue` -/
def CDiffInStream.getValueOf
    (getValue : CPackedDWORDInStream → Except Fault (ℕ × CPackedDWORDInStream))
    (s : CDiffInStream) : Except Fault (ℕ × CDiffInStream) := do
  let (d, base) ← getValue s.base
  return (addU s.lastValue d, ⟨base, addU s.lastValue d⟩)

/-- Source: `DiffIntegerInStream.h` `CDiffDWORDInStream` -/
def CDiffDWORDInStream.getValue : CDiffInStream → Except Fault (ℕ × CDiffInStream) :=
  CDiffInStream.getValueOf CPackedDWORDInStream.getValue

/-- Source: `DiffIntegerInStream.h` `CDiffIntegerInStream` -/
def CDiffIntegerInStream.getValue : CDiffInStream → Except Fault (ℕ × CDiffInStream) :=
  CDiffInStream.getValueOf CPackedIntegerInStream.getValue

theorem Delivers.map_unfoldSign {s : CPackedDWORDInStream} {vs : List ℕ}
    (h : Delivers CPackedDWORDInStream.getValue s vs) :
    Delivers CPackedIntegerInStream.getValue s (vs.map unfoldSign) := by
  induction vs generalizing s with
  | nil =>
    have hget : s.getValue = .error unexpectedEnd := h
    simp [Delivers, CPackedIntegerInStream.getValue, hget, bind, Except.bind]
  | cons v vs ih =>
    obtain ⟨s', hget, hdel⟩ := h
    exact ⟨s', by simp [CPackedIntegerInStream.getValue, hget, bind, Except.bind, pure,
      Except.pure], ih hdel⟩

theorem Delivers.sums {get : CPackedDWORDInStream → Except Fault (ℕ × CPackedDWORDInStream)}
    {s : CPackedDWORDInStream} {ds : List ℕ} (h : Delivers get s ds) (last : ℕ) :
    Delivers (CDiffInStream.getValueOf get) ⟨s, last⟩ (LogCache.sums last ds) := by
  induction ds generalizing s last with
  | nil =>
    have hget : get s = .error unexpectedEnd := h
    simp [Delivers, LogCache.sums, CDiffInStream.getValueOf, hget, bind, Except.bind]
  | cons d ds ih =>
    obtain ⟨s', hget, hdel⟩ := h
    exact ⟨⟨s', addU last d⟩, by simp [CDiffInStream.getValueOf, hget, bind, Except.bind, pure,
      Except.pure], ih hdel _⟩

/-! ### What is read from what was written -/

theorem encodeFrom_lt {w c : ℕ} {vs : List ℕ} (hw : w < 2 ^ 32) (hc : c + vs.length < 2 ^ 32)
    (hvs : ∀ v ∈ vs, v < 2 ^ 32) : ∀ x ∈ encodeFrom w c vs, x < 2 ^ 32 := by
  induction vs generalizing w c with
  | nil =>
    simp only [encodeFrom, List.mem_cons, List.not_mem_nil, or_false]
    rintro x (rfl | rfl | rfl)
    · norm_num
    · simpa using hc
    · exact hw
  | cons v vs ih =>
    rw [List.length_cons] at hc
    have hv : v < 2 ^ 32 := hvs v List.mem_cons_self
    have hvs' : ∀ x ∈ vs, x < 2 ^ 32 := fun x hx => hvs x (List.mem_cons_of_mem _ hx)
    rw [encodeFrom]
    split
    · exact ih hw (by omega) hvs'
    · intro x hx
      rcases List.mem_append.mp hx with hx | hx
      · have := addU_lt w 1
        unfold runWords at hx
        split at hx
        · simp_all
        · split at hx
          · simp_all
          · simp only [List.mem_cons, List.not_mem_nil, or_false] at hx
            rcases hx with rfl | rfl | rfl
            · norm_num
            · omega
            · exact hw
      · exact ih hv (by omega) hvs' x hx

theorem encode_lt {vs : List ℕ} (hlen : vs.length < 2 ^ 32) (hvs : ∀ v ∈ vs, v < 2 ^ 32) :
    ∀ x ∈ encode vs, x < 2 ^ 32 := by
  rcases vs with _ | ⟨v, vs⟩
  · simp [encode]
  · rw [List.length_cons] at hlen
    exact encodeFrom_lt (hvs v List.mem_cons_self) (by omega)
      fun x hx => hvs x (List.mem_cons_of_mem _ hx)

theorem delivers_write {vs : List ℕ} (hlen : vs.length < 2 ^ 32) (hvs : ∀ v ∈ vs, v < 2 ^ 32) :
    Delivers CPackedDWORDInStream.getValue ⟨CPackedDWORDOutStream.write vs, 0, 0⟩
      (valuesOf (encode vs)) := by
  rw [write_eq vs hlen]
  exact CPackedDWORDInStream.delivers_numbers _ (encode_lt hlen hvs) 0 0 rfl

theorem Delivers.readValues_iff {σ : Type} {get : σ → Except Fault (ℕ × σ)} {s : σ}
    {ws : List ℕ} (h : Delivers get s ws) (vs : List ℕ) :
    (∃ s', LogCache.readValues get vs.length s = .ok (vs, s')) ↔ vs <+: ws := by
  obtain ⟨hok, herr⟩ := h.readValues vs.length
  constructor
  · rintro ⟨s', hread⟩
    rcases Nat.lt_or_ge ws.length vs.length with hlt | hge
    · rw [herr hlt] at hread
      simp at hread
    · obtain ⟨s'', hread', -⟩ := hok hge
      rw [hread] at hread'
      rw [(Prod.mk.inj (Except.ok.inj hread')).1]
      exact List.take_prefix _ _
  · intro hpre
    obtain ⟨s', hread, -⟩ := hok hpre.length_le
    exact ⟨s', by rw [hread, ← List.prefix_iff_eq_take.mp hpre]⟩

theorem prefix_sums {last : ℕ} {vs ds : List ℕ} (hvs : ∀ v ∈ vs, v < 2 ^ 32)
    (hds : ∀ d ∈ ds, d < 2 ^ 32) : vs <+: sums last ds ↔ diffs last vs <+: ds := by
  rw [List.prefix_iff_eq_take, List.prefix_iff_eq_take, sums_take, diffs_length]
  constructor
  · intro h
    refine sums_inj last (diffs_lt _ _) (fun d hd => hds d (List.mem_of_mem_take hd)) ?_
    rw [sums_diffs hvs, ← h]
  · intro h
    rw [← h, sums_diffs hvs]

theorem valuesOf_lt {ws : List ℕ} (hws : ∀ w ∈ ws, w < 2 ^ 32) :
    ∀ v ∈ valuesOf ws, v < 2 ^ 32 := by
  fun_induction valuesOf ws with
  | case1 => simp
  | case2 w ws ih =>
    intro v hv
    rcases List.mem_cons.mp hv with rfl | hv
    · have := hws (v + 1) List.mem_cons_self
      omega
    · exact ih (fun x hx => hws x (List.mem_cons_of_mem _ hx)) v hv
  | case3 c w ws ih =>
    intro v hv
    rcases List.mem_append.mp hv with hv | hv
    · rw [List.eq_of_mem_replicate hv]
      exact hws w (by simp)
    · exact ih (fun x hx => hws x (by simp [hx])) v hv
  | case4 => simp
  | case5 => simp

theorem readValues_add {σ : Type} {get : σ → Except Fault (ℕ × σ)} {m n : ℕ} {s s' s'' : σ}
    {vs ws : List ℕ} (h : readValues get m s = .ok (vs, s'))
    (h' : readValues get n s' = .ok (ws, s'')) :
    readValues get (m + n) s = .ok (vs ++ ws, s'') := by
  induction m generalizing s vs with
  | zero =>
    obtain ⟨rfl, rfl⟩ := Prod.mk.inj (Except.ok.inj h)
    rwa [Nat.zero_add]
  | succ m ih =>
    rw [readValues] at h
    rw [Nat.succ_add, readValues]
    rcases hget : get s with e | ⟨v, t⟩
    · simp [hget, bind, Except.bind] at h
    · rcases hread : readValues get m t with e | ⟨us, t'⟩
      · simp [hget, hread, bind, Except.bind] at h
      · simp only [hget, hread, bind, Except.bind, pure, Except.pure, Except.ok.injEq,
          Prod.mk.injEq] at h
        obtain ⟨rfl, rfl⟩ := h
        simp [ih hread, bind, Except.bind, pure, Except.pure]

/-- **A packed `DWORD` stream gives back the values written to it iff none of them is an isolated
`0xffffffff`.** -/
theorem readValues_write_iff {vs : List ℕ} (hlen : vs.length < 2 ^ 32)
    (hvs : ∀ v ∈ vs, v < 2 ^ 32) :
    (∃ s', readValues CPackedDWORDInStream.getValue vs.length
      ⟨CPackedDWORDOutStream.write vs, 0, 0⟩ = .ok (vs, s')) ↔ ¬ HasIsolated vs := by
  rw [(delivers_write hlen hvs).readValues_iff]
  refine ⟨fun h hiso => hiso.not_initial merging_id hvs (fun _ _ => rfl) ((seen_id _).symm ▸ h), fun h => ?_⟩
  rw [valuesOf_encode hvs h]

/-- **A differential `DWORD` stream gives back the values written to it iff none of the differences
is an isolated `0xffffffff`.** -/
theorem readValues_diffDWORD_iff {vs : List ℕ} (hlen : vs.length < 2 ^ 32)
    (hvs : ∀ v ∈ vs, v < 2 ^ 32) :
    (∃ s', readValues CDiffDWORDInStream.getValue vs.length
      ⟨⟨CDiffDWORDOutStream.write vs, 0, 0⟩, 0⟩ = .ok (vs, s')) ↔
      ¬ HasIsolated (diffs 0 vs) := by
  have hlen' : (diffs 0 vs).length < 2 ^ 32 := by rwa [diffs_length]
  have hdel := (delivers_write hlen' (diffs_lt 0 vs)).sums 0
  rw [CDiffDWORDInStream.getValue, CDiffDWORDOutStream.write, hdel.readValues_iff,
    prefix_sums hvs (valuesOf_lt (encode_lt hlen' (diffs_lt 0 vs)))]
  refine ⟨fun h hiso => hiso.not_initial merging_id (diffs_lt 0 vs) (fun _ _ => rfl)
    ((seen_id _).symm ▸ h), fun h => ?_⟩
  rw [valuesOf_encode (diffs_lt 0 vs) h]

/-- Values that do not hold `0xffffffff` are delivered as they were written. -/
theorem delivers_of_not_mem {vs : List ℕ} (hlen : vs.length < 2 ^ 32)
    (hvs : ∀ v ∈ vs, v < 2 ^ 32) (h : unstorable ∉ vs) :
    Delivers CPackedDWORDInStream.getValue ⟨CPackedDWORDOutStream.write vs, 0, 0⟩ vs := by
  have := delivers_write hlen hvs
  rwa [valuesOf_encode hvs fun hiso => h hiso.mem] at this

/-- Differences of values below `2 ^ 31 - 1` are all storable as signed values. -/
theorem delivers_diffInteger {vs : List ℕ} (hlen : vs.length < 2 ^ 32)
    (hvs : ∀ v ∈ vs, v < 2 ^ 31 - 1) :
    Delivers CDiffIntegerInStream.getValue ⟨⟨CDiffIntegerOutStream.write vs, 0, 0⟩, 0⟩ vs := by
  have hd : ∀ vs : List ℕ, (∀ v ∈ vs, v < 2 ^ 31 - 1) → ∀ last, last < 2 ^ 31 - 1 →
      ∀ d ∈ diffs last vs, d < 2 ^ 32 ∧ d ≠ 2 ^ 31 ∧ foldSign d < unstorable := by
    intro vs
    induction vs with
    | nil => simp [diffs]
    | cons v vs ih =>
      intro hvs last hlast d hd
      have hv := hvs v List.mem_cons_self
      rcases List.mem_cons.mp hd with rfl | hd
      · unfold foldSign unstorable subU
        refine ⟨by omega, by omega, ?_⟩
        split <;> omega
      · exact ih (fun x hx => hvs x (List.mem_cons_of_mem _ hx)) v hv d hd
  have hd0 := hd vs hvs 0 (by norm_num)
  have hfold : ∀ x ∈ (diffs 0 vs).map foldSign, x < unstorable := by
    intro x hx
    obtain ⟨d, hdm, rfl⟩ := List.mem_map.mp hx
    exact (hd0 d hdm).2.2
  have hlen' : ((diffs 0 vs).map foldSign).length < 2 ^ 32 := by
    rwa [List.length_map, diffs_length]
  have hdel := delivers_of_not_mem hlen'
    (fun x hx => (hfold x hx).trans (by unfold unstorable; norm_num))
    (fun hmem => lt_irrefl _ (hfold _ hmem))
  have hunfold : ((diffs 0 vs).map foldSign).map unfoldSign = diffs 0 vs := by
    rw [List.map_map]
    conv_rhs => rw [← List.map_id (diffs 0 vs)]
    exact List.map_congr_left fun d hdm => unfoldSign_foldSign (hd0 d hdm).1 (hd0 d hdm).2.1
  have := (hdel.map_unfoldSign).sums 0
  rwa [hunfold, sums_diffs fun v hv => (hvs v hv).trans (by norm_num)] at this

theorem delivers_diffDWORD {vs : List ℕ} (hlen : vs.length < 2 ^ 32) (hvs : ∀ v ∈ vs, v < 2 ^ 32)
    (h : ¬ HasIsolated (diffs 0 vs)) :
    Delivers CDiffDWORDInStream.getValue ⟨⟨CDiffDWORDOutStream.write vs, 0, 0⟩, 0⟩ vs := by
  have hdel := (delivers_write (by rwa [diffs_length]) (diffs_lt 0 vs)).sums 0
  rwa [valuesOf_encode (diffs_lt 0 vs) h, sums_diffs hvs] at hdel

end TortoiseSvn.LogCache
