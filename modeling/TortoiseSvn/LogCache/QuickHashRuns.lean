import TortoiseSvn.LogCache.QuickHash

/-!
# What the hash index finds

A value is looked up on the same way on which its index was placed. This holds after any insertions,
one by one or in batches, of which the large ones are collected by ranges of buckets before they are
written. The only operations that fail are those that need more buckets than the largest prime of
the table.

Main result: `run_iff`.
-/

namespace TortoiseSvn.LogCache

open TortoiseSvn.Lib

namespace QuickHash

variable {α : Type}

/-! ### Looking up and inserting in batches -/

/-- A bucket at which the search for a value ends.
Source: `QuickHash.h` `quick_hash::find` -/
def stopsAt (hf : HashFunction α) (h : QuickHash) (value : α) (bucket : ℕ) : Bool :=
  match h.entry bucket with
  | some (some index) => hf.equal value index
  | some none => true
  | none => false

/-- Source: `QuickHash.h` `quick_hash::find` -/
def find (hf : HashFunction α) (h : QuickHash) (value : α) : Except Fault Index := do
  let (bucket, _) ← h.walk (h.stopsAt hf value) (h.grower.map (hf.hash value))
  checked (h.entry bucket)

/-- Source: `QuickHash.h` `quick_hash::should_grow` -/
def shouldGrowBy (h : QuickHash) (size : ℕ) : Bool :=
  h.grower.capacity ≤ h.grower.size + h.grower.collisions + size

/-- Source: `QuickHash.h` `quick_hash::prime_grower::batch_inserted` -/
def PrimeGrower.batchInserted (g : PrimeGrower) (count collisionsCount : ℕ) : PrimeGrower :=
  { g with statistics := { g.statistics with
      used := g.statistics.used + count
      collisions := g.statistics.collisions + collisionsCount } }

/-- Small numbers are added one by one.
Source: `QuickHash.h` `quick_hash::insert` -/
def insertEach (hf : HashFunction α) (h : QuickHash) : List α → ℕ → Except Fault QuickHash
  | [], _ => .ok h
  | value :: values, index => do
    let h ← h.internalInsert (h.grower.map (hf.hash value)) index
    insertEach hf h values (index + 1)

/-- `MAX_CLUSTERS`. Source: `QuickHash.h` `quick_hash::presorted_insert` -/
def maxClusters : ℕ := 256

/-- A shift can take at most as many rounds as a size has bits.
Source: `QuickHash.h` `quick_hash::presorted_insert` -/
def shiftFor (capacity : ℕ) : ℕ → ℕ → ℕ
  | 0, shift => shift
  | n + 1, shift =>
    if maxClusters <<< shift < capacity then shiftFor capacity n (shift + 1) else shift

/-- The entries of a cluster, which are buckets and indices, and the number of collisions.
Source: `QuickHash.h` `quick_hash::presorted_insert` -/
def writeEntries (h : QuickHash) : List (ℕ × ℕ) → Except Fault (QuickHash × ℕ)
  | [] => .ok (h, 0)
  | (bucket, index) :: cluster => do
    let (h, steps) ← h.place bucket index
    let (h, collisionsCount) ← writeEntries h cluster
    pure (h, steps + collisionsCount)

/-- Source: `QuickHash.h` `quick_hash::presorted_insert` -/
def writeCluster (h : QuickHash) (cluster : List (ℕ × ℕ)) : Except Fault QuickHash := do
  let (h, collisionsCount) ← h.writeEntries cluster
  pure { h with grower := h.grower.batchInserted cluster.length collisionsCount }

/-- The main loop: a cluster is written when it is full.
Source: `QuickHash.h` `quick_hash::presorted_insert` -/
def sortLoop (hf : HashFunction α) (clusterSize shift : ℕ) (h : QuickHash)
    (clusters : List (List (ℕ × ℕ))) :
    List α → ℕ → Except Fault (QuickHash × List (List (ℕ × ℕ)))
  | [], _ => .ok (h, clusters)
  | value :: values, index => do
    let bucket := h.grower.map (hf.hash value)
    let clusterIndex := bucket >>> shift
    let cluster ← checked clusters[clusterIndex]?
    if (cluster ++ [(bucket, index)]).length = clusterSize then do
      let h ← h.writeCluster (cluster ++ [(bucket, index)])
      sortLoop hf clusterSize shift h (clusters.set clusterIndex []) values (index + 1)
    else
      sortLoop hf clusterSize shift h (clusters.set clusterIndex (cluster ++ [(bucket, index)])) values
        (index + 1)

/-- Source: `QuickHash.h` `quick_hash::presorted_insert` -/
def presortedInsert (hf : HashFunction α) (h : QuickHash) (values : List α) (index : ℕ) :
    Except Fault QuickHash := do
  let clusterSize := max 1 (values.length / maxClusters)
  let shift := shiftFor h.grower.capacity 64 0
  let (h, clusters) ← sortLoop hf clusterSize shift h (List.replicate maxClusters []) values index
  clusters.foldlM writeCluster h

/-- Room for some more entries.
Source: `QuickHash.h` `quick_hash::insert` -/
def growBy (hf : HashFunction α) (h : QuickHash) (count : ℕ) : Except Fault QuickHash :=
  if h.shouldGrowBy count then h.reserve hf (h.grower.capacity + count) else .ok h

/-- Source: `QuickHash.h` `quick_hash::insert` -/
def insertBatch (hf : HashFunction α) (h : QuickHash) (values : List α) (index : ℕ) :
    Except Fault QuickHash := do
  let h ← h.growBy hf values.length
  if values.length < 1000 then h.insertEach hf values index else h.presortedInsert hf values index

/-! ### Looking up -/

/-- The values are what the hash function tells apart. -/
def Consistent (hf : HashFunction α) : Prop :=
  ∀ value index, hf.equal value index = true ↔ hf.value index = value

section Lookup

variable {hf : HashFunction α} {h : QuickHash} {value : α} {index : ℕ}

theorem mem_indices {data : List Index} {index : ℕ} :
    index ∈ indices data ↔ (index : Index) ∈ data := by
  unfold indices
  rw [List.mem_filterMap]
  constructor
  · rintro ⟨e, he, hheld⟩
    cases e with
    | none => exact nomatch hheld
    | some i =>
      obtain rfl := Option.some.inj hheld
      exact he
  · exact fun h => ⟨(index : Index), h, rfl⟩

theorem stopsAt_of_isEmpty {b : ℕ} (hb : h.isEmpty b = true) : h.stopsAt hf value b = true := by
  have hentry : h.entry b = some ⊤ := of_decide_eq_true hb
  rw [stopsAt, hentry]

/-- The search ends at an empty bucket or at the value. -/
theorem entry_of_stopsAt (hhf : Consistent hf) {b : ℕ} (hb : h.stopsAt hf value b = true) :
    h.entry b = some ⊤ ∨ ∃ i : ℕ, h.entry b = some (i : Index) ∧ hf.value i = value := by
  unfold stopsAt at hb
  split at hb
  · rename_i i hi
    exact .inr ⟨i, hi, (hhf value i).mp hb⟩
  · rename_i hi
    exact .inl hi
  · exact nomatch hb

theorem mem_indices_of_entry {b : ℕ} (hb : h.entry b = some (index : Index)) :
    index ∈ indices h.data := mem_indices.mpr (List.mem_of_getElem? hb)

/-- Every search ends. -/
theorem Sound.find (hs : h.Sound) (hhf : Consistent hf) (value : α) :
    ∃ r e, Found h.grower.next (h.stopsAt hf value) (h.grower.map (hf.hash value)) r ∧
      h.entry r.1 = some e ∧ h.find hf value = .ok e ∧
      (e = ⊤ ∨ ∃ i : ℕ, e = (i : Index) ∧ hf.value i = value) := by
  obtain ⟨target, htarget, hempty⟩ := hs.exists_isEmpty
  obtain ⟨r, hr, hfound⟩ := hs.walk (hs.grower.map_lt (hf.hash value)) htarget
    (@stopsAt_of_isEmpty _ hf h value target hempty)
  have hrun : h.find hf value = checked (h.entry r.1) := by
    rw [QuickHash.find, hr]
    rfl
  rw [hrun]
  rcases entry_of_stopsAt hhf hfound.stops with hentry | ⟨i, hentry, hi⟩
  · exact ⟨r, ⊤, hfound, hentry, by rw [hentry]; rfl, .inl rfl⟩
  · exact ⟨r, (i : Index), hfound, hentry, by rw [hentry]; rfl, .inr ⟨i, rfl, hi⟩⟩

/-- A value that is not held is not found. -/
theorem Sound.find_of_not_mem (hs : h.Sound) (hhf : Consistent hf)
    (hnot : ∀ i ∈ indices h.data, hf.value i ≠ value) : h.find hf value = .ok ⊤ := by
  obtain ⟨r, e, -, hentry, hrun, rfl | ⟨i, rfl, hi⟩⟩ := hs.find hhf value
  · exact hrun
  · exact absurd hi (hnot i (mem_indices_of_entry hentry))

/-- **A value that is held is found.** -/
theorem Sound.find_of_mem (hs : h.Sound) (hhf : Consistent hf) (hp : h.Placed hf)
    (hmem : index ∈ indices h.data)
    (hunique : ∀ i ∈ indices h.data, hf.value i = hf.value index → i = index) :
    h.find hf (hf.value index) = .ok (index : Index) := by
  obtain ⟨r, e, hfound, hentry, hrun, he⟩ := hs.find hhf (hf.value index)
  obtain ⟨b, hb⟩ := List.mem_iff_getElem?.mp (mem_indices.mp hmem)
  obtain ⟨n, hn, hfull⟩ := hp b index hb
  rcases he with rfl | ⟨i, rfl, hi⟩
  · -- there is no empty bucket before the one that holds the index
    have hlt : n < r.2 := by
      by_contra hle
      rcases (not_lt.mp hle).eq_or_lt with heq | hlt
      · have hsame : r.1 = b := by rw [← hfound.reached, heq, hn]
        rw [hsame] at hentry
        exact WithTop.natCast_ne_top index (Option.some.inj (hb.symm.trans hentry))
      · have hempty : h.isEmpty (h.grower.next^[r.2] (h.grower.map (hf.hash (hf.value index)))) =
            true := by
          rw [hfound.reached]
          exact decide_eq_true hentry
        exact absurd ((hfull r.2 hlt).symm.trans hempty) Bool.noConfusion
    have hstop : h.stopsAt hf (hf.value index) b = true := by
      unfold stopsAt
      rw [show h.entry b = some (some index) from hb]
      exact (hhf _ _).mpr rfl
    have hgo := hfound.first n hlt
    rw [hn] at hgo
    exact absurd (hgo.symm.trans hstop) Bool.noConfusion
  · obtain rfl := hunique i (mem_indices_of_entry hentry) hi
    exact hrun

end Lookup

/-! ### Inserting in batches -/

/-- The same array with more indices, each in its place. -/
structure Adds (hf : HashFunction α) (h : QuickHash) (new : List ℕ) (h' : QuickHash) : Prop where
  valid : h'.Valid
  placed : h'.Placed hf
  stays : h.Stays h'
  indices : (indices h'.data).Perm (new ++ indices h.data)

section Batches

variable {hf : HashFunction α} {h h' h₁ : QuickHash} {index : ℕ} {values : List α}

theorem Adds.refl (hv : h.Valid) (hp : h.Placed hf) : Adds hf h [] h := ⟨hv, hp, .refl h, .refl _⟩

theorem Adds.trans {new new' : List ℕ} (ha : Adds hf h new h₁) (ha' : Adds hf h₁ new' h') :
    Adds hf h (new ++ new') h' where
  valid := ha'.valid
  placed := ha'.placed
  stays := ha.stays.trans ha'.stays
  indices := by
    refine ha'.indices.trans ((ha.indices.append_left _).trans ?_)
    rw [← List.append_assoc]
    exact List.perm_append_comm.append_right _

theorem Adds.size {new : List ℕ} (ha : Adds hf h new h') (hv : h.Valid) :
    h'.grower.size = new.length + h.grower.size := by
  rw [← ha.valid.used, ha.indices.length_eq, List.length_append, hv.used]

/-- The values of a batch are those of the indices from the first one on. -/
abbrev Numbers (hf : HashFunction α) (values : List α) (index : ℕ) : Prop :=
  values = (List.range' index values.length).map hf.value

theorem Numbers.cons {value : α} (hn : Numbers hf (value :: values) index) :
    value = hf.value index ∧ Numbers hf values (index + 1) := by
  unfold Numbers at hn
  rw [List.length_cons, List.range'_succ, List.map_cons] at hn
  exact List.cons.inj hn

theorem adds_internalInsert (hv : h.Valid) (hp : h.Placed hf)
    (hfree : h.grower.size + 1 < h.grower.capacity) (index : ℕ) :
    ∃ h', h.internalInsert (h.grower.map (hf.hash (hf.value index))) index = .ok h' ∧
      Adds hf h [index] h' := by
  obtain ⟨h', hrun, hv', hstays, -, -, hperm, hplaced⟩ :=
    hv.internalInsert (hv.grower.map_lt (hf.hash (hf.value index))) hfree index
  exact ⟨h', hrun, hv', hplaced hf hp rfl, hstays, hperm⟩

/-- A small batch. -/
theorem adds_insertEach (hv : h.Valid) (hp : h.Placed hf) (hn : Numbers hf values index)
    (hfree : h.grower.size + values.length < h.grower.capacity) :
    ∃ h', h.insertEach hf values index = .ok h' ∧
      Adds hf h (List.range' index values.length) h' := by
  induction values generalizing h index with
  | nil => exact ⟨h, rfl, .refl hv hp⟩
  | cons value values ih =>
    obtain ⟨rfl, hrest⟩ := hn.cons
    rw [List.length_cons] at hfree ⊢
    obtain ⟨h₁, hrun, ha⟩ := adds_internalInsert hv hp (by omega) index
    have hsize := ha.size hv
    obtain ⟨h', hrest, ha'⟩ := ih ha.valid ha.placed hrest (by
      rw [hsize, ha.stays.capacity, List.length_singleton]
      omega)
    refine ⟨h', ?_, ?_⟩
    · rw [insertEach, hrun]
      exact hrest
    · rw [List.range'_succ]
      exact ha.trans ha'

/-- The entries know the buckets of their values. -/
def Mapped (hf : HashFunction α) (h : QuickHash) (cluster : List (ℕ × ℕ)) : Prop :=
  ∀ e ∈ cluster, e.1 = h.grower.map (hf.hash (hf.value e.2))

theorem Stays.of_grower (hblock : h'.block = h.block) (hgrower : h'.grower = h.grower) : h.Stays h' :=
  ⟨hblock, hgrower ▸ rfl, hgrower ▸ rfl, hgrower ▸ rfl⟩

theorem Mapped.stays {cluster : List (ℕ × ℕ)} (hm : Mapped hf h cluster) (hs : h.Stays h') :
    Mapped hf h' cluster := fun e he => hs.map_eq ▸ hm e he

theorem writeEntries_spec {cluster : List (ℕ × ℕ)} (hs : h.Sound) (hp : h.Placed hf)
    (hm : Mapped hf h cluster)
    (hfree : (indices h.data).length + cluster.length < h.grower.capacity) :
    ∃ h' n, h.writeEntries cluster = .ok (h', n) ∧ h'.Sound ∧ h'.Placed hf ∧ h'.grower = h.grower ∧
      h'.block = h.block ∧ (indices h'.data).Perm (cluster.map Prod.snd ++ indices h.data) := by
  induction cluster generalizing h with
  | nil => exact ⟨h, 0, rfl, hs, hp, rfl, rfl, .refl _⟩
  | cons e cluster ih =>
    obtain ⟨hbucket, hm⟩ := List.forall_mem_cons.mp hm
    rw [List.length_cons] at hfree
    have hlt : e.1 < h.grower.capacity := hbucket ▸ hs.grower.map_lt _
    obtain ⟨h₁, steps, hplace, hs₁, hgrower, hblock, hperm, hplaced⟩ := hs.place hlt (by omega) e.2
    obtain ⟨h', n, hrest, hs', hp', hgrower', hblock', hperm'⟩ := ih hs₁ (hplaced hf hp hbucket)
      (Mapped.stays hm (.of_grower hblock hgrower))
      (by rw [hperm.length_eq, List.length_cons, hgrower]; omega)
    refine ⟨h', steps + n, ?_, hs', hp', hgrower'.trans hgrower, hblock'.trans hblock, ?_⟩
    · rw [writeEntries, hplace]
      simp only [bind, Except.bind]
      rw [hrest]
      rfl
    · exact hperm'.trans ((hperm.append_left _).trans List.perm_middle)

/-- A cluster is written. -/
theorem adds_writeCluster {cluster : List (ℕ × ℕ)} (hv : h.Valid) (hp : h.Placed hf)
    (hm : Mapped hf h cluster) (hfree : h.grower.size + cluster.length < h.grower.capacity) :
    ∃ h', h.writeCluster cluster = .ok h' ∧ Adds hf h (cluster.map Prod.snd) h' := by
  obtain ⟨h₁, n, hrun, hs₁, hp₁, hgrower, hblock, hperm⟩ :=
    writeEntries_spec hv.toSound hp hm (hv.used ▸ hfree)
  have hrun' : h.writeCluster cluster =
      .ok { h₁ with grower := h₁.grower.batchInserted cluster.length n } := by
    rw [writeCluster, hrun]
    rfl
  have hstays : h.Stays { h₁ with grower := h₁.grower.batchInserted cluster.length n } :=
    (Stays.of_grower hblock hgrower).trans ⟨rfl, rfl, rfl, rfl⟩
  refine ⟨_, hrun', ⟨⟨⟨hs₁.grower.prime, hs₁.grower.pos, hs₁.grower.stride⟩, hs₁.length, hs₁.free⟩,
    ?_⟩, hp₁.congr ⟨rfl, rfl, rfl, rfl⟩ rfl, hstays, hperm⟩
  rw [hperm.length_eq, List.length_append, List.length_map, hv.used, Nat.add_comm, ← hgrower]
  rfl

/-- The remaining clusters are written. -/
theorem adds_writeClusters {clusters : List (List (ℕ × ℕ))} (hv : h.Valid) (hp : h.Placed hf)
    (hm : Mapped hf h clusters.flatten)
    (hfree : h.grower.size + clusters.flatten.length < h.grower.capacity) :
    ∃ h', clusters.foldlM writeCluster h = .ok h' ∧
      Adds hf h (clusters.flatten.map Prod.snd) h' := by
  induction clusters generalizing h with
  | nil => exact ⟨h, rfl, .refl hv hp⟩
  | cons cluster clusters ih =>
    rw [List.flatten_cons, List.length_append] at hfree
    rw [List.flatten_cons] at hm ⊢
    obtain ⟨h₁, hrun, ha⟩ := adds_writeCluster hv hp (fun e he => hm e (List.mem_append_left _ he))
      (by omega)
    have hsize := ha.size hv
    have hrestMapped : Mapped hf h₁ clusters.flatten :=
      Mapped.stays (fun e he => hm e (List.mem_append_right _ he)) ha.stays
    obtain ⟨h', hrest, ha'⟩ := ih ha.valid ha.placed hrestMapped (by
      rw [hsize, ha.stays.capacity, List.length_map]
      omega)
    refine ⟨h', ?_, ?_⟩
    · rw [List.foldlM_cons, hrun]
      exact hrest
    · rw [List.map_append]
      exact ha.trans ha'

/-- Another list at some position. -/
theorem flatten_set_perm {β : Type} {l : List (List β)} {i : ℕ} {c : List β} (h : l[i]? = some c)
    (c' : List β) : (c ++ (l.set i c').flatten).Perm (c' ++ l.flatten) := by
  obtain ⟨hi, hc⟩ := List.getElem?_eq_some_iff.mp h
  have hsplit : l.flatten = (l.take i).flatten ++ (c ++ (l.drop (i + 1)).flatten) := by
    conv_lhs => rw [← List.take_append_drop i l, List.drop_eq_getElem_cons hi, hc]
    rw [List.flatten_append, List.flatten_cons]
  rw [List.set_eq_take_append_cons_drop, if_pos hi, List.flatten_append, List.flatten_cons, hsplit]
  -- the parts in front change places with the two lists
  refine (List.perm_append_comm_assoc _ _ _).trans
    (List.Perm.trans ?_ (List.perm_append_comm_assoc _ _ _))
  exact (List.perm_append_comm_assoc _ _ _).append_left _

theorem shiftFor_spec {capacity n shift : ℕ} (h : capacity ≤ maxClusters <<< (shift + n)) :
    capacity ≤ maxClusters <<< shiftFor capacity n shift := by
  induction n generalizing shift with
  | zero => exact h
  | succ n ih =>
    rw [shiftFor]
    split
    · exact ih (by rwa [Nat.add_right_comm, Nat.add_assoc])
    · rename_i hle
      exact not_lt.mp hle

/-- A cluster is written, and the others are left. -/
theorem perm_of_written {written new : List ℕ} {e : ℕ × ℕ} {c l l₁ l' : List (ℕ × ℕ)}
    (hset : (c ++ l₁).Perm l) (hrest : (written ++ l'.map Prod.snd).Perm (l₁.map Prod.snd ++ new)) :
    ((c ++ [e]).map Prod.snd ++ written ++ l'.map Prod.snd).Perm
      (l.map Prod.snd ++ e.2 :: new) := by
  rw [List.append_assoc]
  refine (hrest.append_left _).trans ?_
  rw [List.map_append, List.map_singleton, List.append_assoc, List.singleton_append]
  refine List.perm_middle.trans (.trans (.cons _ ?_) List.perm_middle.symm)
  rw [← List.append_assoc, ← List.map_append]
  exact (hset.map _).append_right _

/-- The main loop writes some clusters and keeps the rest. -/
theorem adds_sortLoop {clusterSize shift : ℕ} {clusters : List (List (ℕ × ℕ))} (hv : h.Valid)
    (hp : h.Placed hf) (hn : Numbers hf values index) (hlength : clusters.length = maxClusters)
    (hshift : h.grower.capacity ≤ maxClusters <<< shift) (hm : Mapped hf h clusters.flatten)
    (hfree : h.grower.size + clusters.flatten.length + values.length < h.grower.capacity) :
    ∃ h' clusters' written, sortLoop hf clusterSize shift h clusters values index =
        .ok (h', clusters') ∧ Adds hf h written h' ∧ Mapped hf h' clusters'.flatten ∧
      (written ++ clusters'.flatten.map Prod.snd).Perm
        (clusters.flatten.map Prod.snd ++ List.range' index values.length) := by
  induction values generalizing h clusters index with
  | nil =>
    refine ⟨h, clusters, [], rfl, .refl hv hp, hm, ?_⟩
    rw [List.nil_append, List.length_nil, List.range'_zero, List.append_nil]
  | cons value values ih =>
    obtain ⟨rfl, hrest⟩ := hn.cons
    have hbucket : h.grower.map (hf.hash (hf.value index)) >>> shift < clusters.length := by
      have hlt := (hv.grower.map_lt (hf.hash (hf.value index))).trans_le hshift
      rw [Nat.shiftLeft_eq, Nat.mul_comm] at hlt
      rw [hlength, Nat.shiftRight_eq_div_pow]
      exact Nat.div_lt_of_lt_mul hlt
    have hcluster := List.getElem?_eq_getElem hbucket
    generalize clusters[h.grower.map (hf.hash (hf.value index)) >>> shift] = c at hcluster
    rw [List.length_cons] at hfree
    have hc : ∀ x ∈ c, x ∈ clusters.flatten := fun x hx =>
      List.mem_flatten_of_mem (List.mem_of_getElem? hcluster) hx
    have hnew : Mapped hf h (c ++ [(h.grower.map (hf.hash (hf.value index)), index)]) := by
      intro x hx
      rcases List.mem_append.mp hx with hx | hx
      · exact hm x (hc x hx)
      · obtain rfl := List.mem_singleton.mp hx
        rfl
    rw [sortLoop, hcluster]
    simp only [checked, bind, Except.bind]
    obtain ⟨e, he⟩ : ∃ e, e = (h.grower.map (hf.hash (hf.value index)), index) := ⟨_, rfl⟩
    have hindex : index = e.2 := by rw [he]
    rw [← he] at hnew ⊢
    generalize h.grower.map (hf.hash (hf.value index)) >>> shift = i at hcluster ⊢
    split
    · -- the cluster is full
      have hset : (c ++ (clusters.set i []).flatten).Perm clusters.flatten :=
        flatten_set_perm hcluster []
      have hcount := hset.length_eq
      rw [List.length_append] at hcount
      obtain ⟨h₁, hwrite, ha⟩ := adds_writeCluster hv hp hnew (by
        rw [List.length_append, List.length_singleton]
        omega)
      have hsize := ha.size hv
      have hleft : Mapped hf h (clusters.set i []).flatten := fun x hx =>
        hm x (hset.subset (List.mem_append_right _ hx))
      obtain ⟨h', clusters', written, hrun, ha', hm', hperm⟩ := @ih h₁ (index + 1) (clusters.set i [])
        ha.valid ha.placed hrest (by rw [List.length_set, hlength])
        (by rw [ha.stays.capacity]; exact hshift) (Mapped.stays hleft ha.stays) (by
          rw [hsize, ha.stays.capacity, List.length_map, List.length_append, List.length_singleton]
          omega)
      refine ⟨h', clusters', _, ?_, ha.trans ha', hm', ?_⟩
      · rw [hwrite]
        exact hrun
      · rw [List.length_cons, List.range'_succ, hindex]
        exact perm_of_written hset (hindex ▸ hperm)
    · -- the cluster is collected
      have hset : (clusters.set i (c ++ [e])).flatten.Perm (e :: clusters.flatten) := by
        have hboth := flatten_set_perm hcluster (c ++ [e])
        rw [List.append_assoc] at hboth
        exact (List.perm_append_left_iff c).mp hboth
      have hcount := hset.length_eq
      rw [List.length_cons] at hcount
      have hleft : Mapped hf h (clusters.set i (c ++ [e])).flatten := by
        intro x hx
        rcases List.mem_cons.mp (hset.subset hx) with rfl | hx
        · exact hnew x (List.mem_append_right _ (List.mem_singleton_self x))
        · exact hm x hx
      obtain ⟨h', clusters', written, hrun, ha', hm', hperm⟩ := @ih h (index + 1)
        (clusters.set i (c ++ [e])) hv hp hrest (by rw [List.length_set, hlength]) hshift hleft
        (by rw [hcount]; omega)
      refine ⟨h', clusters', written, hrun, ha', hm', ?_⟩
      rw [List.length_cons, List.range'_succ]
      refine hperm.trans ((hset.map _).append_right _ |>.trans ?_)
      rw [hindex, List.map_cons]
      exact List.perm_middle.symm

theorem Adds.perm {new new' : List ℕ} (ha : Adds hf h new h') (hperm : new.Perm new') :
    Adds hf h new' h' :=
  ⟨ha.valid, ha.placed, ha.stays, ha.indices.trans (hperm.append_right _)⟩

/-- A large batch. -/
theorem adds_presortedInsert (hv : h.Valid) (hp : h.Placed hf) (hn : Numbers hf values index)
    (hfree : h.grower.size + values.length < h.grower.capacity) :
    ∃ h', h.presortedInsert hf values index = .ok h' ∧
      Adds hf h (List.range' index values.length) h' := by
  have hshift : h.grower.capacity ≤ maxClusters <<< shiftFor h.grower.capacity 64 0 :=
    shiftFor_spec (hv.grower.capacity_le.trans (by decide))
  have hflatten : (List.replicate maxClusters ([] : List (ℕ × ℕ))).flatten = [] :=
    List.flatten_eq_nil_iff.mpr fun l hl => List.eq_of_mem_replicate hl
  obtain ⟨h₁, clusters, written, hrun, ha, hm, hperm⟩ := @adds_sortLoop _ hf h index values
    (max 1 (values.length / maxClusters)) _ (List.replicate maxClusters []) hv hp hn
    List.length_replicate hshift (by rw [hflatten]; exact fun x hx => absurd hx List.not_mem_nil)
    (by rw [hflatten]; exact hfree)
  rw [hflatten, List.map_nil, List.nil_append] at hperm
  have hcount := hperm.length_eq
  rw [List.length_append, List.length_map, List.length_range'] at hcount
  have hsize := ha.size hv
  obtain ⟨h', hrest, ha'⟩ := adds_writeClusters ha.valid ha.placed hm (by
    rw [hsize, ha.stays.capacity]
    omega)
  refine ⟨h', ?_, (ha.trans ha').perm hperm⟩
  rw [presortedInsert]
  dsimp only
  rw [hrun]
  exact hrest

/-- **A batch is inserted**, provided that the index can grow. -/
theorem Valid.insertBatch (hv : h.Valid) (hp : h.Placed hf) (hn : Numbers hf values index)
    (hgrow : h.shouldGrowBy values.length = true →
      bucketCount (h.grower.capacity + values.length) ≤ maxCapacity) :
    ∃ h', h.insertBatch hf values index = .ok h' ∧ h'.Valid ∧ h'.Placed hf ∧
      (indices h'.data).Perm (List.range' index values.length ++ indices h.data) := by
  -- the index has grown, if need be
  obtain ⟨h₁, hstart, hv₁, hp₁, hperm₁, hfree⟩ : ∃ h₁, h.growBy hf values.length = .ok h₁ ∧
      h₁.Valid ∧ h₁.Placed hf ∧ (indices h₁.data).Perm (indices h.data) ∧
      h₁.grower.size + values.length < h₁.grower.capacity := by
    unfold growBy
    cases hshould : h.shouldGrowBy values.length with
    | false =>
      have hroom := not_le.mp (of_decide_eq_false hshould)
      exact ⟨h, if_neg Bool.false_ne_true, hv, hp, .refl _, by omega⟩
    | true =>
      obtain ⟨h₁, hrun, hv₁, hplaced, hperm, hle⟩ := hv.reserve hf (hgrow hshould)
      refine ⟨h₁, (if_pos rfl).trans hrun, hv₁, hplaced hp, hperm, ?_⟩
      have hsize : h₁.grower.size = h.grower.size := by
        rw [← hv₁.used, ← hv.used, hperm.length_eq]
      have hfree := hv.used ▸ hv.free
      have hcount : h.grower.capacity + values.length ≤
          bucketCount (h.grower.capacity + values.length) := by
        unfold bucketCount
        split <;> omega
      omega
  obtain ⟨h', hrun, ha⟩ : ∃ h', (if values.length < 1000 then h₁.insertEach hf values index
      else h₁.presortedInsert hf values index) = .ok h' ∧
      Adds hf h₁ (List.range' index values.length) h' := by
    split
    · exact adds_insertEach hv₁ hp₁ hn hfree
    · exact adds_presortedInsert hv₁ hp₁ hn hfree
  refine ⟨h', ?_, ha.valid, ha.placed, ha.indices.trans (hperm₁.append_left _)⟩
  rw [QuickHash.insertBatch, hstart]
  exact hrun

/-- Otherwise, it cannot grow. -/
theorem Valid.insertBatch_error (hv : h.Valid) (hshould : h.shouldGrowBy values.length = true)
    (hmax : maxCapacity < bucketCount (h.grower.capacity + values.length)) :
    h.insertBatch hf values index = .error .undefined := by
  rw [QuickHash.insertBatch, growBy, if_pos hshould, hv.reserve_error hf hmax]
  rfl

end Batches

/-! ### Runs -/

/-- An operation on the first one of two indices. Both have the same hash function.
Source: `QuickHash.h` `quick_hash` -/
inductive Call (α : Type) where
  | insert (value : α) (index : ℕ)
  | insertBatch (values : List α) (index : ℕ)
  | reserve (minBucketCount : ℕ)
  | clear
  | swap

/-- Source: `QuickHash.h` `quick_hash` -/
def exec (hf : HashFunction α) : Call α → QuickHash × QuickHash → Except Fault (QuickHash × QuickHash)
  | .insert value index, (h, rhs) => (h.insert hf value index).map fun h => (h, rhs)
  | .insertBatch values index, (h, rhs) => (h.insertBatch hf values index).map fun h => (h, rhs)
  | .reserve minBucketCount, (h, rhs) => (h.reserve hf minBucketCount).map fun h => (h, rhs)
  | .clear, (h, rhs) => .ok (h.clear, rhs)
  | .swap, (h, rhs) => .ok (rhs, h)

def run (hf : HashFunction α) : List (Call α) → QuickHash × QuickHash →
    Except Fault (QuickHash × QuickHash)
  | [], s => .ok s
  | call :: calls, s => do run hf calls (← exec hf call s)

/-- The values that were inserted since the last `clear`, with their indices. -/
def record : Call α → List (α × ℕ) × List (α × ℕ) → List (α × ℕ) × List (α × ℕ)
  | .insert value index, (l, r) => ((value, index) :: l, r)
  | .insertBatch values index, (l, r) => (values.zip (List.range' index values.length) ++ l, r)
  | .reserve _, l => l
  | .clear, (_, r) => ([], r)
  | .swap, (l, r) => (r, l)

def recordAll : List (Call α) → List (α × ℕ) × List (α × ℕ) → List (α × ℕ) × List (α × ℕ)
  | [], l => l
  | call :: calls, l => recordAll calls (record call l)

/-- Only new values are inserted, with indices that stand for them. -/
def Call.Proper (hf : HashFunction α) (l : List (α × ℕ)) : Call α → Prop
  | .insert value index => index < noIndex ∧ hf.value index = value ∧ value ∉ l.map Prod.fst
  | .insertBatch values index => index + values.length ≤ noIndex ∧ Numbers hf values index ∧
      values.Nodup ∧ ∀ value ∈ values, value ∉ l.map Prod.fst
  | _ => True

def ProperRun (hf : HashFunction α) : List (Call α) → List (α × ℕ) × List (α × ℕ) → Prop
  | [], _ => True
  | call :: calls, l => call.Proper hf l.1 ∧ ProperRun hf calls (record call l)

/-- The index need not grow beyond the largest prime. -/
def Call.Fits (h : QuickHash) : Call α → Prop
  | .insert _ _ => h.shouldGrow = true → bucketCount (h.grower.capacity + 1) ≤ maxCapacity
  | .insertBatch values _ => h.shouldGrowBy values.length = true →
      bucketCount (h.grower.capacity + values.length) ≤ maxCapacity
  | .reserve minBucketCount => bucketCount minBucketCount ≤ maxCapacity
  | _ => True

def FitsRun (hf : HashFunction α) : List (Call α) → QuickHash × QuickHash → Prop
  | [], _ => True
  | call :: calls, s => call.Fits s.1 ∧ ∀ s', exec hf call s = .ok s' → FitsRun hf calls s'

/-- Every value is found with its index, and no other one is found. -/
structure Answers (hf : HashFunction α) (h : QuickHash) (l : List (α × ℕ)) : Prop where
  held : ∀ value index, (value, index) ∈ l → h.find hf value = .ok (index : Index)
  absent : ∀ value, value ∉ l.map Prod.fst → h.find hf value = .ok ⊤

/-- The index holds just these entries. -/
structure Holds (hf : HashFunction α) (h : QuickHash) (l : List (α × ℕ)) : Prop where
  valid : h.Valid
  placed : h.Placed hf
  indices : (indices h.data).Perm (l.map Prod.snd)
  unique : (l.map Prod.fst).Nodup
  values : ∀ e ∈ l, hf.value e.2 = e.1

section Runs

variable {hf : HashFunction α} {h h' : QuickHash} {l : List (α × ℕ)}

theorem Holds.value_mem (hh : Holds hf h l) {i : ℕ} (hi : i ∈ QuickHash.indices h.data) :
    (hf.value i, i) ∈ l := by
  obtain ⟨e, he, rfl⟩ := List.mem_map.mp (hh.indices.subset hi)
  rw [hh.values e he]
  exact he

/-- **What is held is what is found.** -/
theorem Holds.answers (hh : Holds hf h l) (hhf : Consistent hf) : Answers hf h l where
  held value index hmem := by
    have hstands : hf.value index = value := hh.values _ hmem
    subst hstands
    have hindex : index ∈ QuickHash.indices h.data :=
      hh.indices.symm.subset (List.mem_map_of_mem hmem)
    refine hh.valid.toSound.find_of_mem hhf hh.placed hindex fun i hi hvalue => ?_
    have hboth := List.inj_on_of_nodup_map hh.unique (hh.value_mem hi) hmem hvalue
    exact congrArg Prod.snd hboth
  absent value hnot := by
    refine hh.valid.toSound.find_of_not_mem hhf fun i hi hvalue => hnot ?_
    rw [← hvalue]
    exact List.mem_map_of_mem (hh.value_mem hi)

theorem init_holds : Holds hf init [] where
  valid := init_valid
  placed := createData_placed hf _ _
  indices := by
    rw [init, indices_createData]
    exact .refl _
  unique := List.nodup_nil
  values e he := absurd he List.not_mem_nil

theorem Holds.clear (hh : Holds hf h l) : Holds hf h.clear [] := by
  have hindices : QuickHash.indices h.clear.data = [] := by
    unfold QuickHash.clear
    split
    · exact indices_createData _ _
    · rename_i hzero
      refine List.eq_nil_of_length_eq_zero ?_
      rw [hh.valid.used]
      exact Nat.eq_zero_of_not_pos hzero
  refine ⟨hh.valid.clear, ?_, hindices ▸ .refl _, List.nodup_nil, fun e he =>
    absurd he List.not_mem_nil⟩
  intro b index hb
  have hmem : index ∈ QuickHash.indices h.clear.data := mem_indices_of_entry hb
  rw [hindices] at hmem
  exact absurd hmem List.not_mem_nil

theorem Holds.reserve (hh : Holds hf h l) {minBucketCount : ℕ}
    (hfits : bucketCount minBucketCount ≤ maxCapacity) :
    ∃ h', h.reserve hf minBucketCount = .ok h' ∧ Holds hf h' l := by
  obtain ⟨h', hrun, hv', hplaced, hperm, -⟩ := hh.valid.reserve hf hfits
  exact ⟨h', hrun, hv', hplaced hh.placed, hperm.trans hh.indices, hh.unique, hh.values⟩

theorem Holds.insert (hh : Holds hf h l) {index : ℕ} (hnew : hf.value index ∉ l.map Prod.fst)
    (hfits : h.shouldGrow = true → bucketCount (h.grower.capacity + 1) ≤ maxCapacity) :
    ∃ h', h.insert hf (hf.value index) index = .ok h' ∧ Holds hf h' ((hf.value index, index) :: l) := by
  obtain ⟨h', hrun, hv', hperm, hplaced⟩ := hh.valid.insert hf (hf.value index) hfits index
  refine ⟨h', hrun, hv', hplaced rfl hh.placed, hperm.trans (hh.indices.cons index), ?_, ?_⟩
  · exact List.nodup_cons.mpr ⟨hnew, hh.unique⟩
  · exact List.forall_mem_cons.mpr ⟨rfl, hh.values⟩

theorem Holds.insertBatch (hh : Holds hf h l) {values : List α} {index : ℕ}
    (hn : Numbers hf values index) (hnodup : values.Nodup)
    (hnew : ∀ value ∈ values, value ∉ l.map Prod.fst)
    (hfits : h.shouldGrowBy values.length = true →
      bucketCount (h.grower.capacity + values.length) ≤ maxCapacity) :
    ∃ h', h.insertBatch hf values index = .ok h' ∧
      Holds hf h' (values.zip (List.range' index values.length) ++ l) := by
  obtain ⟨h', hrun, hv', hplaced, hperm⟩ := hh.valid.insertBatch hh.placed hn hfits
  have hlength : (List.range' index values.length).length = values.length := List.length_range'
  refine ⟨h', hrun, hv', hplaced, ?_, ?_, ?_⟩
  · rw [List.map_append, List.map_snd_zip hlength.le]
    exact hperm.trans (hh.indices.append_left _)
  · rw [List.map_append, List.map_fst_zip hlength.ge]
    exact hnodup.append hh.unique fun value hvalue => hnew value hvalue
  · intro e he
    rcases List.mem_append.mp he with he | he
    · have hzip : values.zip (List.range' index values.length) =
          (List.range' index values.length).map fun i => (hf.value i, i) := by
        conv_lhs => rw [hn]
        rw [List.length_map, hlength, List.map_prod_right_eq_zip]
      rw [hzip] at he
      obtain ⟨i, -, rfl⟩ := List.mem_map.mp he
      rfl
    · exact hh.values e he

/-- An operation that fits does what it should. -/
theorem exec_holds {call : Call α} {s : QuickHash × QuickHash} {c : List (α × ℕ) × List (α × ℕ)}
    (hleft : Holds hf s.1 c.1) (hright : Holds hf s.2 c.2) (hproper : call.Proper hf c.1)
    (hfits : call.Fits s.1) :
    ∃ s', exec hf call s = .ok s' ∧ Holds hf s'.1 (record call c).1 ∧
      Holds hf s'.2 (record call c).2 := by
  obtain ⟨h, rhs⟩ := s
  obtain ⟨l, r⟩ := c
  cases call with
  | insert value index =>
    obtain ⟨-, rfl, hnew⟩ := hproper
    obtain ⟨h', hrun, hh'⟩ := hleft.insert hnew hfits
    exact ⟨(h', rhs), by rw [exec, hrun]; rfl, hh', hright⟩
  | insertBatch values index =>
    obtain ⟨-, hn, hnodup, hnew⟩ := hproper
    obtain ⟨h', hrun, hh'⟩ := hleft.insertBatch hn hnodup hnew hfits
    exact ⟨(h', rhs), by rw [exec, hrun]; rfl, hh', hright⟩
  | reserve minBucketCount =>
    obtain ⟨h', hrun, hh'⟩ := hleft.reserve hfits
    exact ⟨(h', rhs), by rw [exec, hrun]; rfl, hh', hright⟩
  | clear => exact ⟨(h.clear, rhs), rfl, hleft.clear, hright⟩
  | swap => exact ⟨(rhs, h), rfl, hright, hleft⟩

/-- An operation that does not fit divides by zero. -/
theorem exec_error {call : Call α} {s : QuickHash × QuickHash} (hv : s.1.Valid)
    (hfits : ¬ call.Fits s.1) : exec hf call s = .error .undefined := by
  obtain ⟨h, rhs⟩ := s
  cases call with
  | insert value index =>
    obtain ⟨hshould, hmax⟩ := Classical.not_imp.mp hfits
    rw [exec, QuickHash.insert, hshould, if_pos rfl, hv.reserve_error hf (not_le.mp hmax)]
    rfl
  | insertBatch values index =>
    obtain ⟨hshould, hmax⟩ := Classical.not_imp.mp hfits
    rw [exec, hv.insertBatch_error hshould (not_le.mp hmax)]
    rfl
  | reserve minBucketCount =>
    rw [exec, hv.reserve_error hf (not_le.mp hfits)]
    rfl
  | clear => exact absurd trivial hfits
  | swap => exact absurd trivial hfits

/-- A run is fine iff every operation fits. -/
theorem run_holds {calls : List (Call α)} {s : QuickHash × QuickHash}
    {c : List (α × ℕ) × List (α × ℕ)} (hleft : Holds hf s.1 c.1) (hright : Holds hf s.2 c.2)
    (hproper : ProperRun hf calls c) :
    (FitsRun hf calls s → ∃ s', run hf calls s = .ok s' ∧ Holds hf s'.1 (recordAll calls c).1 ∧
      Holds hf s'.2 (recordAll calls c).2) ∧
    (¬ FitsRun hf calls s → run hf calls s = .error .undefined) := by
  induction calls generalizing s c with
  | nil => exact ⟨fun _ => ⟨s, rfl, hleft, hright⟩, fun hnot => absurd trivial hnot⟩
  | cons call calls ih =>
    obtain ⟨hcall, hrest⟩ := hproper
    by_cases hfits : call.Fits s.1
    · obtain ⟨s₁, hexec, hleft₁, hright₁⟩ := exec_holds hleft hright hcall hfits
      obtain ⟨hgood, hbad⟩ := ih hleft₁ hright₁ hrest
      have hiff : FitsRun hf (call :: calls) s ↔ FitsRun hf calls s₁ := by
        refine ⟨fun h => h.2 s₁ hexec, fun h => ⟨hfits, fun s' hs' => ?_⟩⟩
        obtain rfl := Except.ok.inj (hexec.symm.trans hs')
        exact h
      rw [run, hexec, hiff]
      exact ⟨hgood, hbad⟩
    · refine ⟨fun h => absurd h.1 hfits, fun _ => ?_⟩
      rw [run, exec_error hleft.valid hfits]
      rfl

/-- **Every run returns, and finds what was inserted and nothing else, iff the index need not grow
beyond the largest prime.** -/
theorem run_iff (hhf : Consistent hf) {calls : List (Call α)} (hproper : ProperRun hf calls ([], [])) :
    (∃ s, run hf calls (init, init) = .ok s ∧ Answers hf s.1 (recordAll calls ([], [])).1 ∧
      Answers hf s.2 (recordAll calls ([], [])).2) ↔ FitsRun hf calls (init, init) := by
  obtain ⟨hgood, hbad⟩ := @run_holds _ hf calls (init, init) ([], []) init_holds init_holds hproper
  constructor
  · rintro ⟨s, hrun, -⟩
    by_contra hnot
    exact nomatch (hbad hnot).symm.trans hrun
  · intro hfits
    obtain ⟨s, hrun, hleft, hright⟩ := hgood hfits
    exact ⟨s, hrun, hleft.answers hhf, hright.answers hhf⟩

/-- Numbers that stand for themselves. -/
def identity : HashFunction ℕ := ⟨id, id, fun value index => value = index⟩

theorem identity_consistent : Consistent identity := fun value index => by
  rw [identity, decide_eq_true_iff]
  exact eq_comm

/-- One insertion into each of two indices. -/
theorem run_iff_two :
    (∃ s, run identity [.insert 5 5, .swap, .insert 7 7] (init, init) = .ok s ∧
      Answers identity s.1 (recordAll [.insert 5 5, .swap, .insert 7 7] ([], [])).1 ∧
      Answers identity s.2 (recordAll [.insert 5 5, .swap, .insert 7 7] ([], [])).2) ↔
        FitsRun identity [.insert 5 5, .swap, .insert 7 7] (init, init) :=
  run_iff identity_consistent
    ⟨⟨by decide, rfl, List.not_mem_nil⟩, trivial, ⟨by decide, rfl, List.not_mem_nil⟩, trivial⟩

/-- There is no prime for room for `2 ^ 30` entries. -/
theorem reserve_divides_by_zero : ¬ ∀ hf : HashFunction ℕ, Consistent hf → ∀ calls : List (Call ℕ),
    ProperRun hf calls ([], []) → (recordAll calls ([], [])).1.length < 2 ^ 29 →
      ∃ s, run hf calls (init, init) = .ok s ∧ Answers hf s.1 (recordAll calls ([], [])).1 ∧
        Answers hf s.2 (recordAll calls ([], [])).2 := by
  intro h
  obtain ⟨s, hrun, -⟩ := h identity identity_consistent [.reserve (2 ^ 30)] ⟨trivial, trivial⟩
    (by decide)
  have hfits : ¬ FitsRun identity [.reserve (2 ^ 30)] (init, init) := fun hfits =>
    absurd hfits.1 (by unfold Call.Fits; decide)
  have herror := (@run_holds _ identity [.reserve (2 ^ 30)] (init, init) ([], []) init_holds
    init_holds ⟨trivial, trivial⟩).2 hfits
  exact nomatch herror.symm.trans hrun

end Runs

end QuickHash

end TortoiseSvn.LogCache
