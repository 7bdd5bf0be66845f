import TortoiseSvn.Lib.Probing
import TortoiseSvn.LogCache.Columns
import TortoiseSvn.LogCache.Globals

/-!
# The hash index

`quick_hash` is an array of indices with open addressing. On a collision it goes on in strides, and
it grows through a table of primes when the entries and the collisions come near to its capacity.
The last entry of that table is zero, since it has one initializer less than elements.

A valid index has an empty bucket, and the stride reaches every bucket. Main results:
`Sound.place`, `Valid.insert`, `Valid.reserve`; and `Valid.insert_of_not_shouldGrow`, an index that
need not grow keeps its array.
-/

namespace TortoiseSvn.LogCache

open TortoiseSvn.Lib

/-- What an index must know of the values.
Source: `QuickHash.h` `quick_hash`, the interface of `HF` -/
structure HashFunction (α : Type) where
  hash : α → ℕ
  value : ℕ → α
  equal : α → ℕ → Bool

namespace QuickHash

/-! ### The growth of the capacity -/

/-- Source: `QuickHash.h` `quick_hash::prime_grower::primes` -/
def primes : List ℕ :=
  [1, 3, 7, 17,
   31, 67, 127, 257,
   509, 1021, 2053, 4099,
   8191, 16381, 32771, 65537,
   131071, 262147, 524287, 1048573,
   2097143, 4194301, 8388617, 16777213,
   33554467, 67108859, 134217757, 268435459,
   536870909, 1073741827, 0]

/-- Source: `QuickHash.h` `quick_hash::statistics_t` -/
structure Statistics where
  capacity : ℕ
  used : ℕ
  collisions : ℕ
  maxPath : ℕ
  collisionPathSum : ℕ
  deriving DecidableEq

/-- Source: `QuickHash.h` `quick_hash::prime_grower` -/
structure PrimeGrower where
  statistics : Statistics
  index : ℕ
  nextStride : ℕ
  deriving DecidableEq

namespace PrimeGrower

/-- Source: `QuickHash.h` `quick_hash::prime_grower::prime_grower` -/
def init : PrimeGrower := ⟨⟨1, 0, 0, 1, 0⟩, 0, 1⟩

variable (g : PrimeGrower)

/-- Source: `QuickHash.h` `quick_hash::prime_grower::capacity` -/
def capacity : ℕ := g.statistics.capacity

/-- Source: `QuickHash.h` `quick_hash::prime_grower::size` -/
def size : ℕ := g.statistics.used

/-- Source: `QuickHash.h` `quick_hash::prime_grower::collisions` -/
def collisions : ℕ := g.statistics.collisions

/-- Source: `QuickHash.h` `quick_hash::prime_grower::inserted_cleanly` -/
def insertedCleanly : PrimeGrower :=
  { g with statistics := { g.statistics with used := g.statistics.used + 1 } }

/-- Source: `QuickHash.h` `quick_hash::prime_grower::inserted_collision` -/
def insertedCollision (pathSize : ℕ) : PrimeGrower :=
  { g with statistics := { g.statistics with
      used := g.statistics.used + 1
      collisions := g.statistics.collisions + 1
      collisionPathSum := g.statistics.collisionPathSum + pathSize
      maxPath := if g.statistics.maxPath ≤ pathSize then pathSize + 1 else g.statistics.maxPath } }

/-- One of the two, depending on the number of steps.
Source: `QuickHash.h` `quick_hash::internal_insert` -/
def inserted (pathSize : ℕ) : PrimeGrower :=
  if pathSize = 0 then g.insertedCleanly else g.insertedCollision pathSize

/-- The stride is a remainder, which is undefined for the last entry of the table.
Source: `QuickHash.h` `quick_hash::prime_grower::grow` -/
def grow : Except Fault PrimeGrower := do
  let capacity ← checked primes[g.index + 1]?
  if capacity = 0 then .error .undefined
  else pure ⟨⟨capacity, 0, 0, 1, 0⟩, g.index + 1, 46337 % capacity⟩

/-- Source: `QuickHash.h` `quick_hash::prime_grower::map` -/
def map (hashValue : ℕ) : ℕ := hashValue % g.capacity

/-- Source: `QuickHash.h` `quick_hash::prime_grower::next` -/
def next (ind : ℕ) : ℕ := strideFrom g.nextStride g.capacity ind

end PrimeGrower

end QuickHash

/-- The arrays are numbered in the order in which they were allocated.
Source: `QuickHash.h` `quick_hash` -/
structure QuickHash where
  data : List Index
  grower : QuickHash.PrimeGrower
  block : ℕ
  deriving DecidableEq

namespace QuickHash

variable {α : Type}

/-! ### Operations -/

/-- Source: `QuickHash.h` `quick_hash::create_data` -/
def createData (grower : PrimeGrower) (block : ℕ) : QuickHash :=
  ⟨List.replicate grower.capacity ⊤, grower, block + 1⟩

/-- Source: `QuickHash.h` `quick_hash::quick_hash` -/
def init : QuickHash := createData .init 0

/-- Source: `QuickHash.h` `quick_hash::should_grow` -/
def shouldGrow (h : QuickHash) : Bool :=
  h.grower.capacity ≤ h.grower.size + h.grower.collisions + 1

/-- Source: `QuickHash.h` `quick_hash::may_cause_growth` -/
def mayCauseGrowth (h : QuickHash) (toAdd : ℕ) : Bool :=
  h.grower.capacity ≤ h.grower.size + h.grower.collisions + 2 * toAdd

/-- The entry of a bucket. -/
def entry (h : QuickHash) (bucket : ℕ) : Option Index := h.data[bucket]?

/-- An empty bucket. -/
def isEmpty (h : QuickHash) (bucket : ℕ) : Bool := h.entry bucket = some ⊤

/-- The first bucket on the way from `bucket` for which `stop` holds, with the number of steps. When
it is not found in as many steps as there are buckets, the loop never ends. -/
def walk (h : QuickHash) (stop : ℕ → Bool) (bucket : ℕ) : Except Fault (ℕ × ℕ) :=
  match search h.grower.next stop h.grower.capacity bucket with
  | some r => .ok r
  | none => .error .undefined

/-- An index goes to the first empty bucket on the way. The result says how far that is.
Source: `QuickHash.h` `quick_hash::internal_insert`, `quick_hash::presorted_insert` -/
def place (h : QuickHash) (bucket index : ℕ) : Except Fault (QuickHash × ℕ) := do
  let (target, steps) ← h.walk h.isEmpty bucket
  pure ({ h with data := h.data.set target index }, steps)

/-- The first try is the bucket itself, with no step.
Source: `QuickHash.h` `quick_hash::internal_insert` -/
def internalInsert (h : QuickHash) (bucket index : ℕ) : Except Fault QuickHash := do
  let (h, collisionPathSize) ← h.place bucket index
  pure { h with grower := h.grower.inserted collisionPathSize }

/-- A bucket of the old array.
Source: `QuickHash.h` `quick_hash::rehash` -/
def rehashEntry (hf : HashFunction α) (h : QuickHash) : Index → Except Fault QuickHash
  | none => .ok h
  | some index => h.internalInsert (h.grower.map (hf.hash (hf.value index))) index

theorem rehashEntry_coe (hf : HashFunction α) (h : QuickHash) (index : ℕ) :
    h.rehashEntry hf (index : Index) =
      h.internalInsert (h.grower.map (hf.hash (hf.value index))) index := rfl

/-- Source: `QuickHash.h` `quick_hash::rehash` -/
def rehash (hf : HashFunction α) (h : QuickHash) (oldData : List Index) : Except Fault QuickHash :=
  oldData.foldlM (rehashEntry hf) h

/-- The loop ends when the table does, at the latest.
Source: `QuickHash.h` `quick_hash::reserve` -/
def growTo (minBucketCount : ℕ) : ℕ → PrimeGrower → Except Fault PrimeGrower
  | 0, _ => .error .undefined
  | n + 1, grower =>
    if grower.capacity < minBucketCount then do growTo minBucketCount n (← grower.grow)
    else .ok grower

/-- An index takes four bytes, and a size has 64 bits.
Source: `QuickHash.h` `quick_hash::reserve` -/
def bucketCount (minBucketCount : ℕ) : ℕ :=
  if minBucketCount < (2 ^ 64 - 1) / 16 then minBucketCount + minBucketCount / 2
  else minBucketCount

/-- Source: `QuickHash.h` `quick_hash::reserve` -/
def reserve (hf : HashFunction α) (h : QuickHash) (minBucketCount : ℕ) : Except Fault QuickHash := do
  let grower ← growTo (bucketCount minBucketCount) primes.length h.grower
  if grower.capacity ≠ h.grower.capacity then rehash hf (createData grower h.block) h.data
  else pure { h with grower := grower }

/-- The value must not be there yet.
Source: `QuickHash.h` `quick_hash::insert` -/
def insert (hf : HashFunction α) (h : QuickHash) (value : α) (index : ℕ) : Except Fault QuickHash := do
  let h ← if h.shouldGrow then h.reserve hf (h.grower.capacity + 1) else pure h
  h.internalInsert (h.grower.map (hf.hash value)) index

/-- Source: `QuickHash.h` `quick_hash::clear` -/
def clear (h : QuickHash) : QuickHash := if 0 < h.grower.size then createData .init h.block else h

/-! ### Valid indices -/

/-- What stands in a bucket. -/
def held : Index → Option ℕ
  | none => none
  | some index => some index

/-- All indices that are held. -/
def indices (data : List Index) : List ℕ := data.filterMap held

/-- The capacity is one of the primes. -/
structure PrimeGrower.Valid (g : PrimeGrower) : Prop where
  prime : primes[g.index]? = some g.capacity
  pos : 0 < g.capacity
  stride : g.nextStride = if g.index = 0 then 1 else 46337 % g.capacity

/-- There is an empty bucket. -/
structure Sound (h : QuickHash) : Prop where
  grower : h.grower.Valid
  length : h.data.length = h.grower.capacity
  free : (indices h.data).length < h.grower.capacity

/-- The entries are counted. -/
structure Valid (h : QuickHash) : Prop extends h.Sound where
  used : (indices h.data).length = h.grower.size

/-- The same array. -/
structure Stays (h h' : QuickHash) : Prop where
  block : h'.block = h.block
  index : h'.grower.index = h.grower.index
  nextStride : h'.grower.nextStride = h.grower.nextStride
  capacity : h'.grower.capacity = h.grower.capacity

theorem Stays.refl (h : QuickHash) : h.Stays h := ⟨rfl, rfl, rfl, rfl⟩

theorem Stays.trans {h₁ h₂ h₃ : QuickHash} (h : h₁.Stays h₂) (h' : h₂.Stays h₃) : h₁.Stays h₃ :=
  ⟨h'.block.trans h.block, h'.index.trans h.index, h'.nextStride.trans h.nextStride,
    h'.capacity.trans h.capacity⟩

/-- The walk from a bucket comes to another one before it comes to an empty one. -/
def Reaches (h : QuickHash) (bucket target : ℕ) : Prop :=
  ∃ n, h.grower.next^[n] bucket = target ∧ ∀ k < n, h.isEmpty (h.grower.next^[k] bucket) = false

/-- Every index stands where a walk for its value finds it. -/
def Placed (hf : HashFunction α) (h : QuickHash) : Prop :=
  ∀ b index : ℕ, h.entry b = some (index : Index) →
    h.Reaches (h.grower.map (hf.hash (hf.value index))) b

section Growers

variable {g g' : PrimeGrower}

/-- The stride and the capacity have no common divisor. -/
theorem coprime_of_mem : ∀ p ∈ primes, p ≠ 0 → Nat.Coprime 46337 p := by decide

theorem PrimeGrower.Valid.coprime (hg : g.Valid) : g.nextStride.Coprime g.capacity := by
  rw [hg.stride]
  split
  · exact Nat.coprime_one_left _
  · rw [Nat.Coprime, ← Nat.gcd_rec]
    exact (coprime_of_mem _ (List.mem_of_getElem? hg.prime) hg.pos.ne').symm

theorem PrimeGrower.Valid.stride_le (hg : g.Valid) : g.nextStride ≤ g.capacity := by
  rw [hg.stride]
  split
  · exact hg.pos
  · exact (Nat.mod_lt _ hg.pos).le

theorem PrimeGrower.Valid.map_lt (hg : g.Valid) (hashValue : ℕ) : g.map hashValue < g.capacity :=
  Nat.mod_lt _ hg.pos

/-- Only the statistics change. -/
theorem inserted_spec (g : PrimeGrower) (n : ℕ) :
    (g.inserted n).index = g.index ∧ (g.inserted n).nextStride = g.nextStride ∧
      (g.inserted n).capacity = g.capacity ∧ (g.inserted n).size = g.size + 1 ∧
      (g.inserted n).collisions ≤ g.collisions + 1 := by
  unfold PrimeGrower.inserted
  split
  · exact ⟨rfl, rfl, rfl, rfl, Nat.le_succ _⟩
  · exact ⟨rfl, rfl, rfl, rfl, le_rfl⟩

/-- The largest prime of the table. -/
def maxCapacity : ℕ := 1073741827

theorem primes_succ : ∀ i < 31, primes.getD (i + 1) 0 = 0 ∨
    primes.getD i 0 < primes.getD (i + 1) 0 := by decide

theorem primes_le : ∀ p ∈ primes, p ≤ maxCapacity := by decide

/-- The table ends behind the largest prime. -/
theorem primes_succ_eq_zero : ∀ i < 31, primes.getD (i + 1) 0 = 0 →
    primes.getD i 0 = 0 ∨ primes.getD i 0 = maxCapacity := by decide

theorem PrimeGrower.Valid.index_lt (hg : g.Valid) : g.index < 31 :=
  (List.getElem?_eq_some_iff.mp hg.prime).1

theorem PrimeGrower.Valid.getD (hg : g.Valid) : primes.getD g.index 0 = g.capacity := by
  rw [List.getD_eq_getElem?_getD, hg.prime, Option.getD_some]

theorem primes_succ_max : ∀ i < 31, primes.getD i 0 = maxCapacity → primes[i + 1]? = some 0 := by
  decide

/-- A larger prime is taken, if there is one. -/
theorem PrimeGrower.Valid.grow (hg : g.Valid) (hlt : g.capacity < maxCapacity) :
    ∃ g', g.grow = .ok g' ∧ g'.Valid ∧ g.capacity < g'.capacity ∧ g'.index = g.index + 1 ∧
      g'.size = 0 ∧ g'.collisions = 0 := by
  have hzero : primes.getD (g.index + 1) 0 ≠ 0 := by
    intro hzero
    rcases primes_succ_eq_zero g.index hg.index_lt hzero with h | h
    · exact hg.pos.ne' (hg.getD.symm.trans h)
    · exact hlt.ne (hg.getD.symm.trans h)
  have hnext : primes[g.index + 1]? = some (primes.getD (g.index + 1) 0) := by
    rw [List.getD_eq_getElem?_getD] at hzero ⊢
    cases h : primes[g.index + 1]? with
    | none => rw [h] at hzero; exact absurd rfl hzero
    | some p => rfl
  let p := primes.getD (g.index + 1) 0
  refine ⟨⟨⟨p, 0, 0, 1, 0⟩, g.index + 1, 46337 % p⟩, ?_, ⟨hnext, Nat.pos_of_ne_zero hzero,
    (if_neg (Nat.succ_ne_zero _)).symm⟩, ?_, rfl, rfl, rfl⟩
  · rw [PrimeGrower.grow, hnext]
    exact if_neg hzero
  · have hsucc := (primes_succ g.index hg.index_lt).resolve_left hzero
    rwa [hg.getD] at hsucc

/-- Behind the largest prime, the capacity would be zero. -/
theorem PrimeGrower.Valid.grow_of_max (hg : g.Valid) (h : g.capacity = maxCapacity) :
    g.grow = .error .undefined := by
  have hnext := primes_succ_max g.index hg.index_lt (hg.getD.trans h)
  rw [PrimeGrower.grow, hnext]
  rfl

theorem PrimeGrower.Valid.capacity_le (hg : g.Valid) : g.capacity ≤ maxCapacity :=
  primes_le _ (List.mem_of_getElem? hg.prime)

/-- The table of primes is long enough for every capacity up to the largest prime. -/
theorem growTo_ok (hg : g.Valid) {minBucketCount n : ℕ} (hmin : minBucketCount ≤ maxCapacity)
    (hn : primes.length ≤ g.index + n) :
    ∃ g', growTo minBucketCount n g = .ok g' ∧ g'.Valid ∧ minBucketCount ≤ g'.capacity ∧
      (g' = g ∨ g.capacity < g'.capacity ∧ g'.size = 0 ∧ g'.collisions = 0) := by
  induction n generalizing g with
  | zero => exact absurd hg.index_lt (not_lt.mpr hn)
  | succ n ih =>
    rw [growTo]
    by_cases hlt : g.capacity < minBucketCount
    · obtain ⟨g₁, hgrow, hg₁, hlt₁, hindex, hsize, hcollisions⟩ := hg.grow (hlt.trans_le hmin)
      rw [if_pos hlt, hgrow]
      obtain ⟨g', hrun, hg', hle, hsame⟩ := ih hg₁ (by rw [hindex]; omega)
      refine ⟨g', hrun, hg', hle, .inr ?_⟩
      rcases hsame with rfl | ⟨hlt', hempty⟩
      · exact ⟨hlt₁, hsize, hcollisions⟩
      · exact ⟨hlt₁.trans hlt', hempty⟩
    · exact ⟨g, if_neg hlt, hg, not_lt.mp hlt, .inl rfl⟩

/-- No prime is large enough. -/
theorem growTo_error (hg : g.Valid) {minBucketCount : ℕ} (hmin : maxCapacity < minBucketCount)
    (n : ℕ) : growTo minBucketCount n g = .error .undefined := by
  induction n generalizing g with
  | zero => rfl
  | succ n ih =>
    rw [growTo, if_pos (hg.capacity_le.trans_lt hmin)]
    rcases hg.capacity_le.eq_or_lt with h | h
    · rw [hg.grow_of_max h]
      rfl
    · obtain ⟨g₁, hgrow, hg₁, -⟩ := hg.grow h
      rw [hgrow]
      exact ih hg₁

end Growers

/-! ### Insertion -/

section Steps

variable {h h' : QuickHash} {bucket index : ℕ}

/-- An empty bucket is filled. -/
theorem indices_set {data : List Index} {b : ℕ} (h : data[b]? = some ⊤) (index : ℕ) :
    (indices (data.set b (index : Index))).Perm (index :: indices data) := by
  obtain ⟨hb, htop⟩ := List.getElem?_eq_some_iff.mp h
  have hsplit : data = data.take b ++ ⊤ :: data.drop (b + 1) := by
    rw [← htop, ← List.drop_eq_getElem_cons hb, List.take_append_drop]
  have hset : indices (data.set b (index : Index)) =
      indices (data.take b) ++ index :: indices (data.drop (b + 1)) := by
    rw [List.set_eq_take_append_cons_drop, if_pos hb]
    exact List.filterMap_append
  have hall : indices data = indices (data.take b) ++ indices (data.drop (b + 1)) := by
    conv_lhs => rw [hsplit]
    exact List.filterMap_append
  rw [hset, hall]
  exact List.perm_middle

/-- There is an empty bucket. -/
theorem Sound.exists_isEmpty (hs : h.Sound) : ∃ b < h.grower.capacity, h.isEmpty b = true := by
  by_contra hnone
  push Not at hnone
  have hall : ∀ e ∈ h.data, (held e).isSome = true := by
    intro e he
    obtain ⟨b, hb, rfl⟩ := List.mem_iff_getElem.mp he
    have hne := hnone b (hs.length ▸ hb)
    cases hentry : h.data[b] with
    | none => exact absurd (decide_eq_true ((List.getElem?_eq_getElem hb).trans
        (congrArg some hentry))) hne
    | some index => rfl
  have hcount := List.filterMap_length_eq_length.mpr hall
  have hfree := hs.free
  rw [indices, hcount, hs.length] at hfree
  exact lt_irrefl _ hfree

/-- The walk to a bucket that exists ends. -/
theorem Sound.walk (hs : h.Sound) {stop : ℕ → Bool} {target : ℕ} (hbucket : bucket < h.grower.capacity)
    (htarget : target < h.grower.capacity) (hstop : stop target = true) :
    ∃ r, h.walk stop bucket = .ok r ∧ Found h.grower.next stop bucket r := by
  obtain ⟨r, hr, hfound⟩ := exists_search hs.grower.coprime hs.grower.stride_le hbucket htarget hstop
  refine ⟨r, ?_, hfound⟩
  unfold QuickHash.walk
  rw [show h.grower.next = strideFrom h.grower.nextStride h.grower.capacity from rfl, hr]

theorem Stays.next_eq (hs : h.Stays h') : h'.grower.next = h.grower.next := by
  unfold PrimeGrower.next
  rw [hs.nextStride, hs.capacity]

theorem Stays.map_eq (hs : h.Stays h') : h'.grower.map = h.grower.map := by
  unfold PrimeGrower.map
  rw [hs.capacity]

/-- With more entries, there is no new empty bucket on the way. -/
theorem Reaches.mono {target : ℕ} (hr : h.Reaches bucket target) (hs : h.Stays h')
    (hempty : ∀ c, h'.isEmpty c = true → h.isEmpty c = true) : h'.Reaches bucket target := by
  obtain ⟨n, hn, hfull⟩ := hr
  refine ⟨n, hs.next_eq ▸ hn, fun k hk => ?_⟩
  rw [hs.next_eq]
  exact Bool.eq_false_iff.mpr fun hc => Bool.eq_false_iff.mp (hfull k hk) (hempty _ hc)

/-- The statistics do not matter for the place of an index. -/
theorem Placed.congr {hf : HashFunction α} (hp : h.Placed hf) (hs : h.Stays h')
    (hdata : h'.data = h.data) : h'.Placed hf := by
  have hempty : ∀ c, h'.isEmpty c = h.isEmpty c := fun c => by
    unfold isEmpty entry
    rw [hdata]
  intro b index hb
  rw [entry, hdata] at hb
  rw [hs.map_eq]
  exact (hp b index hb).mono hs fun c hc => hempty c ▸ hc

/-- **An index is placed in the first empty bucket on the way.** -/
theorem Sound.place (hs : h.Sound) (hbucket : bucket < h.grower.capacity)
    (hfree : (indices h.data).length + 1 < h.grower.capacity) (index : ℕ) :
    ∃ h' steps, h.place bucket index = .ok (h', steps) ∧ h'.Sound ∧ h'.grower = h.grower ∧
      h'.block = h.block ∧ (indices h'.data).Perm (index :: indices h.data) ∧
      ∀ {α : Type} (hf : HashFunction α), h.Placed hf →
        bucket = h.grower.map (hf.hash (hf.value index)) → h'.Placed hf := by
  obtain ⟨target, htarget, hempty⟩ := hs.exists_isEmpty
  obtain ⟨r, hr, hfound⟩ := hs.walk hbucket htarget hempty
  have hentry : h.data[r.1]? = some ⊤ := of_decide_eq_true hfound.stops
  have hperm := indices_set hentry index
  have hrun : h.place bucket index = .ok ({ h with data := h.data.set r.1 (index : Index) }, r.2) := by
    rw [QuickHash.place, hr]
    rfl
  refine ⟨_, r.2, hrun, ⟨hs.grower, ?_, ?_⟩, rfl, rfl, hperm, ?_⟩
  · rw [List.length_set]
    exact hs.length
  · rw [hperm.length_eq]
    exact hfree
  · intro α hf hplaced hmap b i hb
    have hstays : h.Stays { h with data := h.data.set r.1 (index : Index) } := ⟨rfl, rfl, rfl, rfl⟩
    -- only the bucket that is found is filled
    have hless : ∀ c, isEmpty { h with data := h.data.set r.1 (index : Index) } c = true →
        h.isEmpty c = true := by
      intro c hc
      have hc := of_decide_eq_true hc
      rw [entry, List.getElem?_set] at hc
      split at hc
      · split at hc
        · exact absurd (Option.some.inj hc) (WithTop.natCast_ne_top index)
        · exact nomatch hc
      · exact decide_eq_true hc
    rw [entry, List.getElem?_set] at hb
    split at hb
    · rename_i htarget
      subst htarget
      split at hb
      · obtain rfl := Nat.cast_injective (R := Index) (Option.some.inj hb)
        dsimp only
        rw [← hmap]
        exact Reaches.mono ⟨r.2, hfound.reached, hfound.first⟩ hstays hless
      · exact nomatch hb
    · exact (hplaced b i hb).mono hstays hless

/-- **An insertion counts as one entry and as one collision at most.** -/
theorem Valid.internalInsert (hv : h.Valid) (hbucket : bucket < h.grower.capacity)
    (hfree : h.grower.size + 1 < h.grower.capacity) (index : ℕ) :
    ∃ h', h.internalInsert bucket index = .ok h' ∧ h'.Valid ∧ h.Stays h' ∧
      h'.grower.size = h.grower.size + 1 ∧ h'.grower.collisions ≤ h.grower.collisions + 1 ∧
      (indices h'.data).Perm (index :: indices h.data) ∧
      ∀ {α : Type} (hf : HashFunction α), h.Placed hf →
        bucket = h.grower.map (hf.hash (hf.value index)) → h'.Placed hf := by
  obtain ⟨h₁, steps, hplace, hs₁, hgrower, hblock, hperm, hplaced⟩ :=
    hv.toSound.place hbucket (hv.used ▸ hfree) index
  obtain ⟨hindex, hstride, hcapacity, hsize, hcollisions⟩ := inserted_spec h₁.grower steps
  have hrun : h.internalInsert bucket index =
      .ok { h₁ with grower := h₁.grower.inserted steps } := by
    rw [QuickHash.internalInsert, hplace]
    rfl
  have hstays : h₁.Stays { h₁ with grower := h₁.grower.inserted steps } :=
    ⟨rfl, hindex, hstride, hcapacity⟩
  refine ⟨_, hrun, ⟨⟨⟨?_, ?_, ?_⟩, ?_, ?_⟩, ?_⟩, ⟨hblock, ?_, ?_, ?_⟩, ?_, ?_, hperm,
    fun hf hp hmap => (hplaced hf hp hmap).congr hstays rfl⟩
  · rw [hindex, hcapacity]
    exact hs₁.grower.prime
  · exact hs₁.grower.pos.trans_eq hcapacity.symm
  · rw [hstride, hindex, hcapacity]
    exact hs₁.grower.stride
  · exact hs₁.length.trans hcapacity.symm
  · exact hs₁.free.trans_eq hcapacity.symm
  · rw [hperm.length_eq, List.length_cons, hv.used, hsize, hgrower]
  · rw [hindex, hgrower]
  · rw [hstride, hgrower]
  · rw [hcapacity, hgrower]
  · rw [hsize, hgrower]
  · rw [← hgrower]
    exact hcollisions

/-- A new array is empty. -/
theorem indices_createData (g : PrimeGrower) (block : ℕ) :
    indices (createData g block).data = [] := by
  refine List.filterMap_eq_nil_iff.mpr fun e he => ?_
  rw [List.eq_of_mem_replicate he]
  rfl

theorem createData_valid {g : PrimeGrower} (hg : g.Valid) (hsize : g.size = 0) (block : ℕ) :
    (createData g block).Valid where
  grower := hg
  length := List.length_replicate
  free := by
    rw [indices_createData]
    exact hg.pos
  used := by
    rw [indices_createData]
    exact hsize.symm

theorem createData_placed (hf : HashFunction α) (g : PrimeGrower) (block : ℕ) :
    (createData g block).Placed hf := by
  intro b index hb
  have hmem := List.mem_of_getElem? hb
  exact absurd (List.eq_of_mem_replicate hmem) (WithTop.natCast_ne_top index)

/-- All indices of the old array are inserted. -/
theorem rehash_spec (hf : HashFunction α) (hv : h.Valid) (hplaced : h.Placed hf)
    (oldData : List Index) (hfree : h.grower.size + (indices oldData).length < h.grower.capacity) :
    ∃ h', rehash hf h oldData = .ok h' ∧ h'.Valid ∧ h.Stays h' ∧ h'.Placed hf ∧
      (indices h'.data).Perm (indices oldData ++ indices h.data) := by
  induction oldData generalizing h with
  | nil => exact ⟨h, rfl, hv, .refl h, hplaced, .refl _⟩
  | cons e rest ih =>
    obtain rfl | ⟨index, rfl⟩ := e.cases
    · exact ih hv hplaced hfree
    · have hlength : (indices ((index : Index) :: rest)).length = (indices rest).length + 1 := rfl
      rw [hlength] at hfree
      obtain ⟨h₁, hrun, hv₁, hstays, hsize, -, hperm, hplaced₁⟩ :=
        hv.internalInsert (hv.grower.map_lt (hf.hash (hf.value index))) (by omega) index
      obtain ⟨h', hrest, hv', hstays', hplaced', hperm'⟩ := ih hv₁ (hplaced₁ hf hplaced rfl)
        (by rw [hsize, hstays.capacity]; omega)
      refine ⟨h', ?_, hv', hstays.trans hstays', hplaced', ?_⟩
      · rw [rehash, List.foldlM_cons, rehashEntry_coe, hrun]
        exact hrest
      · refine hperm'.trans ((hperm.append_left _).trans List.perm_middle)

/-- **More buckets do not change what is held**, provided that there is a prime that is large
enough. -/
theorem Valid.reserve (hv : h.Valid) (hf : HashFunction α) {minBucketCount : ℕ}
    (hmin : bucketCount minBucketCount ≤ maxCapacity) :
    ∃ h', h.reserve hf minBucketCount = .ok h' ∧ h'.Valid ∧ (h.Placed hf → h'.Placed hf) ∧
      (indices h'.data).Perm (indices h.data) ∧ bucketCount minBucketCount ≤ h'.grower.capacity := by
  obtain ⟨g', hgrow, hg', hle, hsame⟩ := growTo_ok hv.grower hmin (Nat.le_add_left primes.length _)
  rcases hsame with rfl | ⟨hlt, hsize, -⟩
  · refine ⟨h, ?_, hv, id, .refl _, hle⟩
    rw [QuickHash.reserve, hgrow]
    exact if_neg (not_not.mpr rfl)
  · have hvalid := createData_valid hg' hsize h.block
    have hfree : (createData g' h.block).grower.size + (indices h.data).length <
        (createData g' h.block).grower.capacity := by
      have hzero : (createData g' h.block).grower.size = 0 := hsize
      rw [hzero, Nat.zero_add]
      exact hv.free.trans hlt
    obtain ⟨h', hrehash, hv', hstays, hplaced, hperm⟩ :=
      rehash_spec hf hvalid (createData_placed hf g' h.block) h.data hfree
    rw [indices_createData, List.append_nil] at hperm
    refine ⟨h', ?_, hv', fun _ => hplaced, hperm, hle.trans_eq hstays.capacity.symm⟩
    rw [QuickHash.reserve, hgrow]
    exact (if_pos hlt.ne').trans hrehash

/-- Otherwise, the capacity becomes zero. -/
theorem Valid.reserve_error (hv : h.Valid) (hf : HashFunction α) {minBucketCount : ℕ}
    (hmin : maxCapacity < bucketCount minBucketCount) :
    h.reserve hf minBucketCount = .error .undefined := by
  rw [QuickHash.reserve, growTo_error hv.grower hmin]
  rfl

/-- **An index that need not grow keeps its array.** -/
theorem Valid.insert_of_not_shouldGrow (hv : h.Valid) (hf : HashFunction α) (value : α)
    (hgrow : h.shouldGrow = false) (index : ℕ) :
    ∃ h', h.insert hf value index = .ok h' ∧ h'.Valid ∧ h.Stays h' ∧
      h'.grower.size = h.grower.size + 1 ∧ h'.grower.collisions ≤ h.grower.collisions + 1 ∧
      (indices h'.data).Perm (index :: indices h.data) ∧
      (hf.value index = value → h.Placed hf → h'.Placed hf) := by
  have hroom := not_le.mp (of_decide_eq_false hgrow)
  obtain ⟨h', hrun, hv', hstays, hsize, hcollisions, hperm, hplaced⟩ :=
    hv.internalInsert (hv.grower.map_lt (hf.hash value)) (by omega) index
  refine ⟨h', ?_, hv', hstays, hsize, hcollisions, hperm, ?_⟩
  · rw [QuickHash.insert, hgrow]
    exact hrun
  · rintro rfl hp
    exact hplaced hf hp rfl

/-- **An insertion adds an index**, provided that the index can grow. -/
theorem Valid.insert (hv : h.Valid) (hf : HashFunction α) (value : α)
    (hgrow : h.shouldGrow = true → bucketCount (h.grower.capacity + 1) ≤ maxCapacity) (index : ℕ) :
    ∃ h', h.insert hf value index = .ok h' ∧ h'.Valid ∧
      (indices h'.data).Perm (index :: indices h.data) ∧
      (hf.value index = value → h.Placed hf → h'.Placed hf) := by
  cases hshould : h.shouldGrow with
  | false =>
    obtain ⟨h', hrun, hv', -, -, -, hperm, hplaced⟩ :=
      hv.insert_of_not_shouldGrow hf value hshould index
    exact ⟨h', hrun, hv', hperm, hplaced⟩
  | true =>
    obtain ⟨h₁, hreserve, hv₁, hplaced₁, hperm₁, hle⟩ := hv.reserve hf (hgrow hshould)
    have hfree : h₁.grower.size + 1 < h₁.grower.capacity := by
      have hsize : h₁.grower.size = h.grower.size := by
        rw [← hv₁.used, ← hv.used, hperm₁.length_eq]
      have hfree := hv.used ▸ hv.free
      have hcount : h.grower.capacity + 1 ≤ bucketCount (h.grower.capacity + 1) := by
        unfold bucketCount
        split <;> omega
      omega
    obtain ⟨h', hrun, hv', -, -, -, hperm, hplaced⟩ :=
      hv₁.internalInsert (hv₁.grower.map_lt (hf.hash value)) hfree index
    refine ⟨h', ?_, hv', hperm.trans (hperm₁.cons index), ?_⟩
    · rw [QuickHash.insert, hshould, if_pos rfl, hreserve]
      exact hrun
    · rintro rfl hp
      exact hplaced hf (hplaced₁ hp) rfl

/-- Whatever is done to a valid index, it stays valid. -/
theorem Valid.of_reserve (hv : h.Valid) {hf : HashFunction α} {minBucketCount : ℕ}
    (hrun : h.reserve hf minBucketCount = .ok h') : h'.Valid := by
  rcases le_or_gt (bucketCount minBucketCount) maxCapacity with hmin | hmin
  · obtain ⟨h₁, hok, hv₁, -⟩ := hv.reserve hf hmin
    obtain rfl := Except.ok.inj (hok.symm.trans hrun)
    exact hv₁
  · exact nomatch (hv.reserve_error hf hmin).symm.trans hrun

@[inherit_doc Valid.of_reserve]
theorem Valid.of_insert (hv : h.Valid) {hf : HashFunction α} {value : α}
    (hrun : h.insert hf value index = .ok h') : h'.Valid := by
  by_cases hgrow : h.shouldGrow = true → bucketCount (h.grower.capacity + 1) ≤ maxCapacity
  · obtain ⟨h₁, hok, hv₁, -⟩ := hv.insert hf value hgrow index
    obtain rfl := Except.ok.inj (hok.symm.trans hrun)
    exact hv₁
  · obtain ⟨hshould, hmin⟩ := Classical.not_imp.mp hgrow
    rw [QuickHash.insert, hshould, if_pos rfl, hv.reserve_error hf (not_le.mp hmin)] at hrun
    exact nomatch hrun

theorem PrimeGrower.init_valid : PrimeGrower.init.Valid := ⟨rfl, Nat.one_pos, rfl⟩

theorem init_valid : init.Valid := createData_valid PrimeGrower.init_valid rfl 0

theorem Valid.clear (hv : h.Valid) : h.clear.Valid := by
  unfold QuickHash.clear
  split
  · exact createData_valid PrimeGrower.init_valid rfl _
  · exact hv

end Steps

end QuickHash

end TortoiseSvn.LogCache
