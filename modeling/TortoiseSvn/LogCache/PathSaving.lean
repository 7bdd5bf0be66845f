import TortoiseSvn.LogCache.DictionaryRuns
import TortoiseSvn.LogCache.PathRuns
import TortoiseSvn.Streams.SmallPieces

/-!
# Writing path dictionaries

A path dictionary is written to a composite stream: the path elements as text, and the pairs of a
parent and an element as differences of one pair to the next. Such a stream can lose pairs. It loses
none of a path dictionary, whose indices are close to each other or `NO_INDEX`.

Main result: `load_writeCacheFile`. Whatever the operations did, the streams can be written to a file,
and reading the file gives the dictionary back, whatever the reader held before.
-/

namespace TortoiseSvn.LogCache

open TortoiseSvn.Lib

/-! ### Trees of streams -/

namespace OutStream

/-- A stream that can be written as a sub-stream and read again. -/
structure Nests (s : OutStream) : Prop where
  wellFormed : s.WellFormed
  type_ne : s.type ≠ .root

/-- A stream from which a reader gets `t`, whatever it held before. -/
structure Restores {σ : Type} (s : OutStream) (load : InStream → LoadM σ Unit) (t : σ) : Prop where
  nests : s.Nests
  reads : ∀ t₀, load s.toInStream t₀ = (.ok (), t)

/-- Reading a part goes on with that part. -/
theorem Restores.zoom_bind {σ τ α : Type} {s : OutStream} {load : InStream → LoadM τ Unit} {t : τ}
    (h : s.Restores load t) (part : σ → τ) (put : σ → τ → σ) (f : Unit → LoadM σ α) (x : σ) :
    (Trial.zoom part put (load s.toInStream) >>= f) x = f () (put x t) := by
  refine Trial.bind_run_ok ?_ f
  rw [Trial.zoom_run, h.reads]

theorem nests_ofBytes {type : StreamType} (htype : type ≠ .root) {bytes : List UInt8}
    (h : bytes.length < 2 ^ 31) : (ofBytes type bytes).Nests :=
  ⟨wellFormed_ofBytes type h, htype⟩

theorem nests_blob {data : List UInt8} (h : data.length < 2 ^ 31) : (blob data).Nests :=
  ⟨.blob h, StreamType.noConfusion⟩

/-- `ids` are the IDs of the sub-streams. -/
theorem wellFormed_of_nests (type : StreamType) {subStreams : List (ℕ × OutStream)} (ids : List ℕ)
    (hids : subStreams.map Prod.fst = ids) (hlt : ∀ id ∈ ids, id < 2 ^ 32) (hnodup : ids.Nodup)
    (hcount : ids.length < 2 ^ 28) (h : ∀ s ∈ subStreams, s.2.Nests) :
    (node type [[]] subStreams).WellFormed := by
  subst hids
  refine .empty _ ?_ hnodup (fun s hs => (h s hs).type_ne) ?_ fun s hs => (h s hs).wellFormed
  · exact fun s hs => hlt _ (List.mem_map_of_mem hs)
  · rwa [List.length_map] at hcount

theorem nests_composite {subStreams : List (ℕ × OutStream)} (ids : List ℕ)
    (hids : subStreams.map Prod.fst = ids) (hlt : ∀ id ∈ ids, id < 2 ^ 32) (hnodup : ids.Nodup)
    (hcount : ids.length < 2 ^ 28) (h : ∀ s ∈ subStreams, s.2.Nests) : (composite subStreams).Nests :=
  ⟨wellFormed_of_nests _ ids hids hlt hnodup hcount h, StreamType.noConfusion⟩

/-- What is read from a file to which the stream was written, next to others. -/
theorem Restores.from_file {σ : Type} {s : OutStream} {load : InStream → LoadM σ Unit} {t : σ}
    (h : s.Restores load t) (memory : ℕ → UInt8) {id : ℕ} {others : List (ℕ × OutStream)}
    (hlt : ∀ i ∈ id :: others.map Prod.fst, i < 2 ^ 32) (hnodup : (id :: others.map Prod.fst).Nodup)
    (hothers : ∀ o ∈ others, o.2.Nests) (hlength : others.length < 2 ^ 28 - 1)
    (hcount : (root ((id, s) :: others)).count ≤ 2 ^ 31) :
    ∃ file tree stream, writeCacheFile memory ((id, s) :: others) = .ok (some file) ∧
      (∃ n, ∀ fuel ≥ n, readCacheFile fuel file = some (.ok tree)) ∧
      tree.getSubStream id = .ok stream ∧ ∀ t₀, load stream t₀ = (.ok (), t) := by
  have hroot : (root ((id, s) :: others)).WellFormed := by
    refine wellFormed_of_nests _ (id :: others.map Prod.fst) rfl hlt hnodup ?_
      (List.forall_mem_cons.mpr ⟨h.nests, hothers⟩)
    rw [List.length_cons, List.length_map]
    omega
  obtain ⟨streams, hwrite, hlen, hsizes, hstored⟩ := writeCacheFile_spec memory hroot hcount
  have hpos := (root ((id, s) :: others)).count_pos
  exact ⟨_, _, _, hwrite, readCacheFile_fileOf hroot (hlen ▸ hpos) (hlen ▸ hcount) hsizes hstored,
    getSubStream_node List.lookup_cons_self, h.reads⟩

end OutStream

/-! ### String dictionaries -/

namespace CStringDictionary

/-- Source: `StringDictonary.cpp` `operator<<` -/
def outStream (d : CStringDictionary) : OutStream :=
  .composite [(1, .blob d.packedStrings),
    (2, .ofBytes .diffDWORD (({} : CDiffOutStream).addSizeValue d.offsets.length).base.flushData)]

theorem toInStream_outStream (d : CStringDictionary) : d.outStream.toInStream = d.save := by
  rw [outStream, OutStream.toInStream_composite]
  simp only [OutStream.toInStreams, OutStream.toInStream_blob, OutStream.toInStream_ofBytes]
  rfl

theorem nests_outStream {d : CStringDictionary} (h : d.packedStrings.length < 2 ^ 31) :
    d.outStream.Nests := by
  refine OutStream.nests_composite [1, 2] rfl (by decide) (by decide) (by decide) ?_
  have hsize := internalAdd_length (d.offsets.length % 2 ^ 32)
  simp only [List.forall_mem_cons, List.not_mem_nil, IsEmpty.forall_iff, implies_true, and_true]
  refine ⟨OutStream.nests_blob h, OutStream.nests_ofBytes StreamType.noConfusion ?_⟩
  exact Nat.lt_of_le_of_lt hsize (by decide)

variable {d : CStringDictionary}

/-- The strings are read back. -/
theorem Unique.restores (h : d.Unique) (hlt : d.packedStrings.length < 2 ^ 31) :
    d.outStream.Restores load d := by
  obtain ⟨ws, rfl, hfree, -⟩ := h
  refine ⟨nests_outStream hlt, fun d₀ => ?_⟩
  rw [toInStream_outStream]
  exact load_save_pack hfree (hlt.trans (by decide)) d₀

theorem Unique.size_le (h : d.Unique) : d.size ≤ d.packedStrings.length := by
  obtain ⟨ws, rfl, -, -⟩ := h
  rw [pack_size]
  exact length_le_packedStrings ws

end CStringDictionary

/-! ### Pair dictionaries -/

namespace CIndexPairDictionary

variable {κ : Type}

/-- `toRaw` is the `index_t` that stands for an element.
Source: `IndexPairDictionary.cpp` `operator<<` -/
def outStream (toRaw : κ → ℕ) (pairs : List (κ × κ)) : OutStream :=
  .composite [
    (1, .ofBytes .diffInteger
      (CDiffIntegerOutStream.write (pairs.length % 2 ^ 32 :: pairs.map fun p => toRaw p.1))),
    (2, .ofBytes .diffInteger (CDiffIntegerOutStream.write (pairs.map fun p => toRaw p.2)))]

/-- The streams give the numbers of these pairs back; the number of pairs stands in front of the first
ones. -/
structure Kept (toRaw : κ → ℕ) (ofRaw : ℕ → κ) (pairs : List (κ × κ)) : Prop where
  lt : ∀ p ∈ pairs, toRaw p.1 < 2 ^ 32 ∧ toRaw p.2 < 2 ^ 32
  firsts : Storable (pairs.length :: pairs.map fun p => toRaw p.1)
  seconds : Storable (pairs.map fun p => toRaw p.2)
  raw : ∀ p ∈ pairs, ofRaw (toRaw p.1) = p.1 ∧ ofRaw (toRaw p.2) = p.2
  length_lt : pairs.length < 2 ^ 27

theorem Kept.restores {toRaw : κ → ℕ} {ofRaw : ℕ → κ} {pairs : List (κ × κ)}
    (h : Kept toRaw ofRaw pairs) : (outStream toRaw pairs).Restores (load ofRaw) pairs := by
  have hlt := h.length_lt
  have hmod : pairs.length % 2 ^ 32 = pairs.length := by omega
  refine ⟨OutStream.nests_composite [1, 2] rfl (by decide) (by decide) (by decide) ?_, fun l₀ => ?_⟩
  · simp only [List.forall_mem_cons, List.not_mem_nil, IsEmpty.forall_iff, implies_true, and_true]
    refine ⟨OutStream.nests_ofBytes StreamType.noConfusion ?_,
      OutStream.nests_ofBytes StreamType.noConfusion ?_⟩
    · refine write_diffInteger_length_lt ?_
      rw [List.length_cons, List.length_map]
      omega
    · refine write_diffInteger_length_lt ?_
      rw [List.length_map]
      omega
  obtain ⟨t, hfirsts⟩ := (readValues_diffInteger_iff (by rw [List.length_cons, List.length_map]; omega)
    (List.forall_mem_cons.mpr ⟨by omega, List.forall_mem_map.mpr fun p hp => (h.lt p hp).1⟩)).mpr h.firsts
  obtain ⟨t', hseconds⟩ := (readValues_diffInteger_iff (by rw [List.length_map]; omega)
    (List.forall_mem_map.mpr fun p hp => (h.lt p hp).2)).mpr h.seconds
  rw [List.length_cons, List.length_map] at hfirsts
  rw [List.length_map] at hseconds
  have hsub : (outStream toRaw pairs).toInStream.getSubStreamAs 1 .diffInteger = .ok (.leaf .diffInteger
      (CDiffIntegerOutStream.write (pairs.length :: pairs.map fun p => toRaw p.1))) := by
    rw [outStream, hmod]
    exact OutStream.getSubStreamAs_composite rfl
  exact load_of_readValues hsub hfirsts (OutStream.getSubStreamAs_composite rfl) hseconds h.raw l₀

end CIndexPairDictionary

/-! ### Differences -/

theorem foldSign_ne_unstorable {v : ℕ} (hv : v < 2 ^ 32) (h : v ≠ 2 ^ 31 + 1) :
    foldSign v ≠ unstorable := by
  unfold foldSign subU unstorable
  split <;> omega

theorem mem_diffs {last v : ℕ} {vs : List ℕ} {p : ℕ → Prop} (hlast : p last) (hvs : ∀ v ∈ vs, p v)
    (hv : v ∈ diffs last vs) : ∃ a b, p a ∧ p b ∧ v = subU b a := by
  induction vs generalizing last with
  | nil => exact absurd hv List.not_mem_nil
  | cons w vs ih =>
    obtain ⟨hw, hvs⟩ := List.forall_mem_cons.mp hvs
    rcases List.mem_cons.mp hv with rfl | hv
    · exact ⟨last, w, hlast, hw, rfl⟩
    · exact ih hw hvs hv

/-- Values between `-low` and `high`, as signed ones. -/
def Between (low high v : ℕ) : Prop := v ≤ high ∨ 2 ^ 32 - low ≤ v ∧ v < 2 ^ 32

theorem Between.mono {low high low' high' v : ℕ} (h : Between low high v) (hlow : low ≤ low')
    (hhigh : high ≤ high') : Between low' high' v := by
  unfold Between at h ⊢
  omega

/-- The differences of values that are not too far apart are not those that a stream loses. -/
theorem storable_of_between {values : List ℕ} (low high : ℕ) (hsum : low + high < 2 ^ 31 - 1)
    (h : ∀ v ∈ values, Between low high v) : Storable values := by
  have hsteps : ∀ v ∈ diffs 0 values, v < 2 ^ 32 ∧ v ≠ 2 ^ 31 ∧ v ≠ 2 ^ 31 + 1 := by
    intro v hv
    obtain ⟨a, b, ha, hb, rfl⟩ := mem_diffs (.inl (Nat.zero_le high)) h hv
    unfold Between at ha hb
    unfold subU
    omega
  refine ⟨fun hmem => (hsteps _ hmem).2.1 rfl, fun hiso => ?_⟩
  have hmem : unstorable ∈ (diffs 0 values).map foldSign := hiso.mem
  obtain ⟨v, hv, hfold⟩ := List.mem_map.mp hmem
  exact foldSign_ne_unstorable (hsteps v hv).1 (hsteps v hv).2.2 hfold

theorem Between.lt {low high v : ℕ} (h : Between low high v) (hhigh : high < 2 ^ 32) : v < 2 ^ 32 := by
  unfold Between at h
  omega

/-! ### Indices -/

/-- The `index_t` of an index. -/
def Index.toRaw (index : Index) : ℕ := index.untopD noIndex

/-- An index that is `NO_INDEX` or below `n`. -/
def Index.Below (n : ℕ) (index : Index) : Prop := ∀ i : ℕ, index = (i : Index) → i < n

section

variable {index : Index} {n : ℕ}

theorem Index.Below.toIndex_toRaw (h : Index.Below n index) (hn : n ≤ noIndex) :
    toIndex (Index.toRaw index) = index := by
  rcases Index.cases index with rfl | ⟨i, rfl⟩
  · exact toIndex_eq_top.mpr rfl
  · exact toIndex_eq_coe.mpr ⟨rfl, ((h i rfl).trans_le hn).ne⟩

theorem Index.Below.between (h : Index.Below n index) :
    Between 1 n (Index.toRaw index) := by
  rcases Index.cases index with rfl | ⟨i, rfl⟩
  · exact .inr ⟨by decide, by decide⟩
  · exact .inl (h i rfl).le

end

/-! ### Path dictionaries -/

namespace CPathDictionary

/-- Source: `PathDictionary.cpp` `operator<<` -/
def outStream (d : CPathDictionary) : OutStream :=
  .composite [(1, d.pathElements.outStream), (2, CIndexPairDictionary.outStream Index.toRaw d.paths)]

/-- A dictionary that is not too large. -/
structure Small (d : CPathDictionary) : Prop where
  elements : d.pathElements.packedStrings.length < 2 ^ 30
  paths : d.paths.length < 2 ^ 27

variable {d : CPathDictionary}

/-- Operations only add to a new dictionary. -/
theorem Run.extends_init (h : Run d) : CPathDictionary.init.Extends d := by
  induction h with
  | init => exact .refl _
  | autoInsert hrun hparent hs ih =>
    obtain ⟨ns, hns⟩ := hrun.built.exists_named hparent
    exact ih.trans (hrun.built.autoInsert hns hs).2.1
  | merge hrun hsource hmerge ih _ =>
    obtain ⟨d', mapping, hok, -, hext, -⟩ := hrun.built.merge_spec hsource.built
    obtain ⟨rfl, rfl⟩ := Prod.mk.inj (Except.ok.inj (hmerge.symm.trans hok))
    exact ih.trans hext

/-- All parents and elements are there. -/
theorem Run.entries_below (h : Run d) : ∀ p ∈ d.paths,
    Index.Below d.size p.1 ∧ Index.Below d.pathElements.size p.2 := by
  intro p hp
  obtain ⟨i, hi⟩ := List.getElem?_of_mem hp
  rcases Nat.eq_zero_or_pos i with rfl | hpos
  · -- the root is where a new dictionary has it
    obtain ⟨rest, hrest⟩ := h.extends_init.paths
    rw [← hrest] at hi
    obtain rfl : ((⊤ : Index), ((0 : ℕ) : Index)) = p := Option.some.inj hi
    refine ⟨fun k hk => absurd hk (WithTop.top_ne_natCast k), fun k hk => ?_⟩
    rw [← Nat.cast_inj.mp hk]
    exact h.extends_init.elements.size
  · have hlt := (List.getElem?_eq_some_iff.mp hi).1
    obtain ⟨j, e, hje, hj, he⟩ := h.built.entry hpos hlt
    obtain rfl := Option.some.inj (hi.symm.trans hje)
    refine ⟨fun k hk => ?_, fun k hk => ?_⟩
    · rw [← Nat.cast_inj.mp hk]
      exact hj.trans hlt
    · rw [← Nat.cast_inj.mp hk]
      exact he

/-- The dictionary of a run is read back. -/
theorem Run.restores (h : Run d) (hs : d.Small) : d.outStream.Restores load d := by
  have hbelow := h.entries_below
  have hcount : d.size < 2 ^ 27 := hs.paths
  have helements := h.built.pool.size_le.trans_lt hs.elements
  have hstrings := h.built.pool.restores (hs.elements.trans (by decide))
  have hpairs : (CIndexPairDictionary.outStream Index.toRaw d.paths).Restores
      (CIndexPairDictionary.load toIndex) d.paths := by
    have hbetween : ∀ p ∈ d.paths, Between 1 (2 ^ 30) (Index.toRaw p.1) ∧
        Between 1 (2 ^ 30) (Index.toRaw p.2) := by
      intro p hp
      obtain ⟨h1, h2⟩ := hbelow p hp
      exact ⟨h1.between.mono le_rfl (hcount.le.trans (by decide)), h2.between.mono le_rfl helements.le⟩
    refine CIndexPairDictionary.Kept.restores
      ⟨fun p hp => ⟨(hbetween p hp).1.lt (by decide), (hbetween p hp).2.lt (by decide)⟩,
        storable_of_between 1 (2 ^ 30) (by decide) (List.forall_mem_cons.mpr
          ⟨.inl (hs.paths.le.trans (by decide)), List.forall_mem_map.mpr fun p hp => (hbetween p hp).1⟩),
        storable_of_between 1 (2 ^ 30) (by decide)
          (List.forall_mem_map.mpr fun p hp => (hbetween p hp).2), ?_, hs.paths⟩
    intro p hp
    obtain ⟨h1, h2⟩ := hbelow p hp
    exact ⟨h1.toIndex_toRaw (hcount.le.trans (by decide)),
      h2.toIndex_toRaw (helements.le.trans (by decide))⟩
  refine ⟨OutStream.nests_composite [1, 2] rfl (by decide) (by decide) (by decide) ?_, fun d₀ => ?_⟩
  · simp only [List.forall_mem_cons, List.not_mem_nil, IsEmpty.forall_iff, implies_true, and_true]
    exact ⟨hstrings.nests, hpairs.nests⟩
  have hsub₁ : d.outStream.toInStream.getSubStream 1 = .ok d.pathElements.outStream.toInStream :=
    OutStream.getSubStream_node rfl
  have hsub₂ : d.outStream.toInStream.getSubStream 2 =
      .ok (CIndexPairDictionary.outStream Index.toRaw d.paths).toInStream :=
    OutStream.getSubStream_node rfl
  rw [load, hsub₁]
  refine (Trial.bind_run_ok (Trial.lift_run _ _) _).trans ?_
  refine (hstrings.zoom_bind _ _ _ _).trans ?_
  rw [hsub₂]
  refine (Trial.bind_run_ok (Trial.lift_run _ _) _).trans ?_
  refine (hpairs.zoom_bind _ _ _ _).trans ?_
  rw [validate]
  refine Prod.ext (if_pos ?_) rfl
  intro p hp
  obtain ⟨h1, h2⟩ := hbelow p hp
  constructor
  · rintro ⟨hle, hne⟩
    obtain ⟨i, hi⟩ := (Index.cases p.1).resolve_left hne
    rw [hi, Nat.cast_le] at hle
    exact absurd (h1 i hi) (Nat.not_lt.mpr hle)
  · rintro ⟨hle, hne⟩
    obtain ⟨i, hi⟩ := (Index.cases p.2).resolve_left hne
    rw [hi, Nat.cast_le] at hle
    exact absurd (h2 i hi) (Nat.not_lt.mpr hle)

/-- **The dictionary of every run is read from the file that it was written to**, next to any other
streams, if it is not too large. -/
theorem load_writeCacheFile (memory : ℕ → UInt8) (h : Run d) (hs : d.Small) {id : ℕ}
    {others : List (ℕ × OutStream)} (hlt : ∀ i ∈ id :: others.map Prod.fst, i < 2 ^ 32)
    (hnodup : (id :: others.map Prod.fst).Nodup) (hothers : ∀ o ∈ others, o.2.Nests)
    (hlength : others.length < 2 ^ 28 - 1)
    (hcount : (OutStream.root ((id, d.outStream) :: others)).count ≤ 2 ^ 31) :
    ∃ file tree stream, writeCacheFile memory ((id, d.outStream) :: others) = .ok (some file) ∧
      (∃ n, ∀ fuel ≥ n, readCacheFile fuel file = some (.ok tree)) ∧
      tree.getSubStream id = .ok stream ∧ ∀ d₀, load stream d₀ = (.ok (), d) :=
  (h.restores hs).from_file memory hlt hnodup hothers hlength hcount

/-- A path in a new dictionary. -/
theorem load_writeCacheFile_single :
    ∃ file tree stream, writeCacheFile (fun _ => 7)
        [(3, (init.autoInsert ((0 : ℕ) : Index) [97]).1.outStream)] = .ok (some file) ∧
      (∃ n, ∀ fuel ≥ n, readCacheFile fuel file = some (.ok tree)) ∧
      tree.getSubStream 3 = .ok stream ∧
      ∀ d₀, load stream d₀ = (.ok (), (init.autoInsert ((0 : ℕ) : Index) [97]).1) :=
  load_writeCacheFile _ (.autoInsert .init (by decide) (by decide)) ⟨by decide, by decide⟩ (by decide)
    (by decide) (fun _ h => absurd h List.not_mem_nil) (by decide) (by decide)

end CPathDictionary

end TortoiseSvn.LogCache
