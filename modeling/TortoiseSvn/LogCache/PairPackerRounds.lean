import TortoiseSvn.LogCache.PairPackerSteps

/-!
# The rounds of the pair packer

`Insert` and every round leave the strings folded: no two neighbouring tokens are a known pair.
A round relies on more: it looks at some of the strings only and does not count pairs that were
tried before, so the pairs it adds must not occur in the strings it leaves out. And a string whose
first token was emptied is looked at like the others, so no pair that begins there may be frequent.

`RoundInv` states what is needed. Main results: `oneRound_spec`, a round keeps it, and `rounds_spec`,
the rounds end.
-/

namespace TortoiseSvn.LogCache

open TortoiseSvn.Lib CIndexPairDictionary CTokenizedStringContainer CStringDictionary

namespace CPairPacker

/-! ### Pairs that occur -/

/-- The pairs of neighbours in some of the strings. -/
def occurrences (strs : List (List Token)) (active : List ℕ) : List (Token × Token) :=
  active.flatMap fun i => neighbours (stringAt strs i)

/-- Looking at fewer strings, in none of which a pair is more frequent. -/
theorem count_occurrences_le {strs strs' : List (List Token)} {active active' : List ℕ}
    {q q' : Token × Token} (hsub : active'.Sublist active)
    (h : ∀ i ∈ active, (neighbours (stringAt strs' i)).count q' ≤
      (neighbours (stringAt strs i)).count q) :
    (occurrences strs' active').count q' ≤ (occurrences strs active).count q := by
  unfold occurrences
  induction hsub with
  | slnil => exact le_rfl
  | @cons l₁ l₂ i _ ih =>
    have hrest := ih fun j hj => h j (List.mem_cons_of_mem _ hj)
    rw [List.flatMap_cons, List.count_append]
    exact hrest.trans (Nat.le_add_left _ _)
  | @cons_cons l₁ l₂ i _ ih =>
    have hrest := ih fun j hj => h j (List.mem_cons_of_mem _ hj)
    have hi := h i List.mem_cons_self
    rw [List.flatMap_cons, List.flatMap_cons, List.count_append, List.count_append]
    exact Nat.add_le_add hi hrest

/-- The pairs a round adds. -/
def added (m : ℕ) (strs : List (List Token)) (active : List ℕ) : List (Token × Token) :=
  ((((occurrences strs active).filter (untried m)).foldl countPair ([], [])).1).filter
    fun q => 4 < (occurrences strs active).count q

theorem mem_added {m : ℕ} {strs : List (List Token)} {active : List ℕ} {q : Token × Token} :
    q ∈ added m strs active ↔ untried m q ∧ 4 < (occurrences strs active).count q := by
  obtain ⟨-, hmem, -⟩ := countPair_spec ((occurrences strs active).filter (untried m))
  rw [added, List.mem_filter, hmem, List.mem_filter, decide_eq_true_eq]
  constructor
  · rintro ⟨⟨-, hu⟩, hc⟩
    exact ⟨hu, hc⟩
  · rintro ⟨hu, hc⟩
    exact ⟨⟨List.count_pos_iff.mp (by omega), hu⟩, hc⟩

theorem filter_zip_map {α : Type} (l : List α) (g : α → ℕ) :
    ((l.zip (l.map g)).filter (4 < ·.2)).map Prod.fst = l.filter (4 < g ·) := by
  induction l with
  | nil => rfl
  | cons a l ih =>
    by_cases h : 4 < g a
    · simp [h, ih]
    · simp [h, ih]

/-- What the counters say is what is added. -/
theorem added_eq (m : ℕ) (strs : List (List Token)) (active : List ℕ) :
    (((((occurrences strs active).filter (untried m)).foldl countPair ([], [])).1.zip
      (((occurrences strs active).filter (untried m)).foldl countPair ([], [])).2).filter
        (4 < ·.2)).map Prod.fst = added m strs active := by
  obtain ⟨-, hmem, hcounts⟩ := countPair_spec ((occurrences strs active).filter (untried m))
  rw [hcounts, filter_zip_map, added]
  refine List.filter_congr fun q hq => ?_
  rw [List.count_filter (List.mem_filter.mp ((hmem q).mp hq)).2]

theorem added_nodup (m : ℕ) (strs : List (List Token)) (active : List ℕ) :
    (added m strs active).Nodup :=
  (countPair_spec _).1.filter _

/-- Tokens that have a text are no pairs behind the table. -/
theorem older_of_expands {ws : List (List UInt8)} {pairs : List (Token × Token)} {t : Token}
    {s : List UInt8} (h : (textOf ws pairs).Expands t s) : Older pairs.length t := by
  rintro i rfl
  obtain ⟨p, -, -, hp, -⟩ := expands_pair h
  exact (List.getElem?_eq_some_iff.mp hp).1

theorem older_of_mem {ws : List (List UInt8)} {pairs : List (Token × Token)} (h : Sound ws pairs)
    {q : Token × Token} (hq : q ∈ pairs) : Older pairs.length q.1 ∧ Older pairs.length q.2 := by
  obtain ⟨i, hi⟩ := List.getElem?_of_mem hq
  obtain ⟨s, hs⟩ := h.expands i (List.getElem?_eq_some_iff.mp hi).1
  obtain ⟨p, u, v, hp, hu, hv, -⟩ := expands_pair hs
  obtain rfl : p = q := Option.some.inj (hp.symm.trans hi)
  exact ⟨older_of_expands hu, older_of_expands hv⟩

/-! ### Emptied strings -/

section Emptied

variable {f : Token × Token → Option ℕ} {ts : List Token}

theorem count_empty_eq_zero (h : .empty ∉ ts) (t : Token) : (neighbours ts).count (.empty, t) = 0 :=
  List.count_eq_zero.mpr fun hmem => h (mem_of_neighbours hmem).1

/-- A string is read as a whole unless it was emptied. -/
theorem shown_cases (hne : .empty ∉ ts.tail) : shown ts = [] ∨ shown ts = ts := by
  rcases ts with _ | ⟨a, ts⟩
  · exact .inl rfl
  by_cases ha : a = .empty
  · subst ha
    exact .inl rfl
  · refine .inr (shown_of_not_mem ?_)
    rw [List.mem_cons, not_or]
    exact ⟨fun h => ha h.symm, hne⟩

/-- Squeezing keeps the empty token of an emptied string in front. -/
theorem shown_squeeze (hf : ∀ t, f (.empty, t) = none) (hne : .empty ∉ ts.tail) :
    shown (squeeze f ts).1 = (squeeze f (shown ts)).1 := by
  rcases ts with _ | ⟨a, ts⟩
  · rfl
  by_cases ha : a = .empty
  · subst ha
    have hhead : ∃ us, (squeeze f (.empty :: ts)).1 = .empty :: us := by
      rcases ts with _ | ⟨b, ts⟩
      · exact ⟨[], rfl⟩
      · simp only [squeeze, hf]
        exact ⟨_, rfl⟩
    obtain ⟨us, hus⟩ := hhead
    rw [hus]
    rfl
  · have hall : .empty ∉ a :: ts := by
      rw [List.mem_cons, not_or]
      exact ⟨fun h => ha h.symm, hne⟩
    rw [shown_of_not_mem hall, shown_of_not_mem (squeeze_no_empty hall)]

/-- A new pair behind the first token of an emptied string is made from the token that was there. -/
theorem squeeze_count_empty {i : ℕ} {a : Token} (hf : ∀ t, f (.empty, t) = none)
    (hne : .empty ∉ ts.tail) (hnew : .pair i ∉ ts)
    (hi : ∀ q ∈ neighbours ts, f q = some i → q.1 = a) :
    (neighbours (squeeze f ts).1).count (.empty, .pair i) ≤ (neighbours ts).count (.empty, a) := by
  rcases ts with _ | ⟨x, _ | ⟨b, ts⟩⟩
  · exact Nat.zero_le _
  · exact Nat.zero_le _
  rw [List.tail_cons] at hne
  by_cases hx : x = .empty
  · subst hx
    have hus := squeeze_no_empty (f := f) hne
    have hhead : ∀ u, (squeeze f (b :: ts)).1.head? = some u → u = .pair i → b = a := by
      rintro u hu rfl
      rcases ts with _ | ⟨c, ts⟩
      · exact absurd (List.mem_cons_of_mem _ (List.mem_cons.mpr (.inl (Option.some.inj hu).symm))) hnew
      · rcases hbc : f (b, c) with _ | k
        · simp only [squeeze, hbc] at hu
          exact absurd
            (List.mem_cons_of_mem _ (List.mem_cons.mpr (.inl (Option.some.inj hu).symm))) hnew
        · simp only [squeeze, hbc] at hu
          obtain rfl := Token.pair.inj (Option.some.inj hu)
          exact hi (b, c) (List.mem_cons_of_mem _ List.mem_cons_self) hbc
    simp only [squeeze, hf]
    rcases hsq : (squeeze f (b :: ts)).1 with _ | ⟨u, us⟩
    · exact Nat.zero_le _
    rw [hsq] at hus hhead
    rw [neighbours_cons_cons, neighbours_cons_cons, List.count_cons, List.count_cons,
      count_empty_eq_zero hus, count_empty_eq_zero hne, Nat.zero_add, Nat.zero_add]
    by_cases hu : u = .pair i
    · rw [hhead u rfl hu, if_pos (beq_self_eq_true _)]
      split <;> omega
    · rw [if_neg (by simpa using hu)]
      exact Nat.zero_le _
  · have hall : .empty ∉ x :: b :: ts := by
      rw [List.mem_cons, not_or]
      exact ⟨fun h => hx h.symm, hne⟩
    rw [count_empty_eq_zero (squeeze_no_empty hall)]
    exact Nat.zero_le _

end Emptied

/-! ### The invariant of the rounds -/

/-- What holds between two rounds, for a container that holds `texts`. -/
structure RoundInv (p : CPairPacker) (ws : List (List UInt8)) (front behind : List Token)
    (segs strs : List (List Token)) (texts : List (List UInt8)) : Prop
    extends Laid p.container front behind segs strs where
  words : p.container.words = pack ws
  sound : Sound ws p.container.pairs
  nodup : p.container.pairs.Nodup
  known : ∀ t ∈ p.container.stringData, ∃ s, (textOf ws p.container.pairs).Expands t s
  folded : ∀ ts ∈ strs, Folded p.container.pairs ts
  yields : List.Forall₂ (fun ts => (textOf ws p.container.pairs).Yields (shown ts)) strs texts
  /-- No pair at the beginning of an emptied string will be added. -/
  hidden : ∀ t, (occurrences strs p.strings).count (.empty, t) ≤ 4
  active_nodup : p.strings.Nodup
  active : ∀ i ∈ p.strings, ∃ ts, strs[i]? = some ts ∧ ts ≠ []
  minimum : p.minimumToken ≤ p.container.pairs.length
  /-- A pair that the next round will add occurs in the strings it looks at only. -/
  closed : ∀ q, untried p.minimumToken q → 4 < (occurrences strs p.strings).count q →
    ∀ j ts, j ∉ p.strings → strs[j]? = some ts → q ∉ neighbours ts

namespace RoundInv

variable {p : CPairPacker} {ws : List (List UInt8)} {front behind : List Token}
  {segs strs : List (List Token)} {texts : List (List UInt8)}

theorem tail_no_empty (h : RoundInv p ws front behind segs strs texts) {j : ℕ} {ts : List Token}
    (hj : strs[j]? = some ts) : .empty ∉ ts.tail := by
  rw [← h.scanned, List.getElem?_map, Option.map_eq_some_iff] at hj
  obtain ⟨seg, -, rfl⟩ := hj
  exact empty_not_mem_scanned seg

theorem expands (h : RoundInv p ws front behind segs strs texts) {j : ℕ} {ts : List Token}
    (hj : strs[j]? = some ts) {t : Token} (ht : t ∈ ts) :
    ∃ s, (textOf ws p.container.pairs).Expands t s := by
  rw [← h.scanned, List.getElem?_map, Option.map_eq_some_iff] at hj
  obtain ⟨seg, hseg, rfl⟩ := hj
  exact h.known t (h.mem.mpr (.inr (.inl ⟨seg, List.mem_of_getElem? hseg, mem_of_scanned ht⟩)))

/-- A pair that is added consists of neighbours in a string. -/
theorem exists_of_added (h : RoundInv p ws front behind segs strs texts) {q : Token × Token}
    (hq : q ∈ added p.minimumToken strs p.strings) : ∃ (j : ℕ) (ts : List Token),
      strs[j]? = some ts ∧ q ∈ neighbours ts := by
  have hcount : 0 < (occurrences strs p.strings).count q := by
    have hmore := (mem_added.mp hq).2
    omega
  obtain ⟨i, hi, hmem⟩ := List.mem_flatMap.mp (List.count_pos_iff.mp hcount)
  obtain ⟨ts, hts, -⟩ := h.active i hi
  rw [stringAt, hts, Option.getD_some] at hmem
  exact ⟨i, ts, hts, hmem⟩

theorem parts_of_added (h : RoundInv p ws front behind segs strs texts) {q : Token × Token}
    (hq : q ∈ added p.minimumToken strs p.strings) : q.1 ≠ .empty ∧ q.2 ≠ .empty := by
  obtain ⟨j, ts, hts, hmem⟩ := h.exists_of_added hq
  constructor
  · intro hempty
    have hrare := h.hidden q.2
    rw [← hempty] at hrare
    change (occurrences strs p.strings).count q ≤ 4 at hrare
    have hmore := (mem_added.mp hq).2
    omega
  · intro hempty
    exact h.tail_no_empty hts (hempty ▸ mem_tail_of_neighbours hmem)

theorem not_mem_of_added (h : RoundInv p ws front behind segs strs texts) {q : Token × Token}
    (hq : q ∈ added p.minimumToken strs p.strings) : q ∉ p.container.pairs := by
  obtain ⟨j, ts, hts, hmem⟩ := h.exists_of_added hq
  exact folded_iff.mp (h.folded ts (List.mem_of_getElem? hts)) q hmem

theorem older_of_added (h : RoundInv p ws front behind segs strs texts) {q : Token × Token}
    (hq : q ∈ p.container.pairs ++ added p.minimumToken strs p.strings) :
    Older p.container.pairs.length q.1 ∧ Older p.container.pairs.length q.2 := by
  rcases List.mem_append.mp hq with hq | hq
  · exact older_of_mem h.sound hq
  · obtain ⟨j, ts, hts, hmem⟩ := h.exists_of_added hq
    obtain ⟨h₁, h₂⟩ := mem_of_neighbours hmem
    obtain ⟨_, hs₁⟩ := h.expands hts h₁
    obtain ⟨_, hs₂⟩ := h.expands hts h₂
    exact ⟨older_of_expands hs₁, older_of_expands hs₂⟩

theorem sound_added (h : RoundInv p ws front behind segs strs texts) :
    Sound ws (p.container.pairs ++ added p.minimumToken strs p.strings) where
  nulFree := h.sound.nulFree
  root := h.sound.root
  noEmptyPart := fun q hq => by
    rcases List.mem_append.mp hq with hq | hq
    · exact h.sound.noEmptyPart q hq
    · exact h.parts_of_added hq
  expands := fun i hi => by
    have hmono := textOf_mono_pairs ws
      (List.prefix_append p.container.pairs (added p.minimumToken strs p.strings))
    rcases Nat.lt_or_ge i p.container.pairs.length with hlt | hge
    · obtain ⟨s, hs⟩ := h.sound.expands i hlt
      exact ⟨s, hs.mono rfl hmono⟩
    · have hget := List.getElem?_eq_getElem hi
      have hq := hget
      rw [List.getElem?_append_right hge] at hq
      obtain ⟨j, ts, hts, hmem⟩ := h.exists_of_added (List.mem_of_getElem? hq)
      obtain ⟨h₁, h₂⟩ := mem_of_neighbours hmem
      obtain ⟨u, hu⟩ := h.expands hts h₁
      obtain ⟨v, hv⟩ := h.expands hts h₂
      exact ⟨_, .pair (by simp only [textOf, hget]; rfl) (hu.mono rfl hmono) (hv.mono rfl hmono)⟩

/-- How a round replaces pairs of neighbours. -/
theorem replacement_spec (h : RoundInv p ws front behind segs strs texts) {j : ℕ} {ts : List Token}
    (hj : strs[j]? = some ts) {q : Token × Token} (hq : q ∈ neighbours ts) :
    (∀ i, replacement (p.container.pairs ++ added p.minimumToken strs p.strings) p.minimumToken q =
      some i → (p.container.pairs ++ added p.minimumToken strs p.strings)[i]? = some q ∧
        p.container.pairs.length ≤ i) ∧
    (replacement (p.container.pairs ++ added p.minimumToken strs p.strings) p.minimumToken q = none →
      q ∉ p.container.pairs ++ added p.minimumToken strs p.strings) := by
  have hnot : q ∉ p.container.pairs := folded_iff.mp (h.folded ts (List.mem_of_getElem? hj)) q hq
  unfold replacement
  split
  · refine ⟨fun i hi => ?_, fun hnone => Pool.find_eq_none.mp hnone⟩
    have hget := Pool.getElem?_of_find hi
    refine ⟨hget, Nat.le_of_not_lt fun hlt => hnot ?_⟩
    rw [List.getElem?_append_left hlt] at hget
    exact List.mem_of_getElem? hget
  · rename_i hu
    refine ⟨fun i hi => by simp at hi, fun _ hmem => ?_⟩
    rcases List.mem_append.mp hmem with hmem | hmem
    · exact hnot hmem
    · exact hu (mem_added.mp hmem).1

/-- The strings behind a round are folded with respect to all pairs. -/
theorem folded_squeezed (h : RoundInv p ws front behind segs strs texts) :
    ∀ ts ∈ squeezed (replacement (p.container.pairs ++ added p.minimumToken strs p.strings)
      p.minimumToken) p.strings strs,
      Folded (p.container.pairs ++ added p.minimumToken strs p.strings) ts := by
  intro us hus
  obtain ⟨j, hj⟩ := List.getElem?_of_mem hus
  rw [squeezed_getElem?, Option.map_eq_some_iff] at hj
  obtain ⟨ts, hts, rfl⟩ := hj
  split
  · exact squeeze_folded (fun q hq i hi => ((h.replacement_spec hts hq).1 i hi).2)
      (fun q hq => (h.replacement_spec hts hq).2) fun q hq => h.older_of_added hq
  · rename_i hactive
    refine folded_iff.mpr fun q hq hmem => ?_
    rcases List.mem_append.mp hmem with hmem | hmem
    · exact folded_iff.mp (h.folded ts (List.mem_of_getElem? hts)) q hq hmem
    · obtain ⟨hu, hc⟩ := mem_added.mp hmem
      exact h.closed q hu hc j ts hactive hts hq

theorem yields_squeezed (h : RoundInv p ws front behind segs strs texts) :
    List.Forall₂ (fun ts => (textOf ws (p.container.pairs ++
        added p.minimumToken strs p.strings)).Yields (shown ts))
      (squeezed (replacement (p.container.pairs ++ added p.minimumToken strs p.strings)
        p.minimumToken) p.strings strs) texts := by
  obtain ⟨hlen, hget⟩ := List.forall₂_iff_get.mp h.yields
  refine List.forall₂_iff_get.mpr ⟨by simp [squeezed, hlen], fun j h₁ h₂ => ?_⟩
  have hj : j < strs.length := hlen ▸ h₂
  have hts := List.getElem?_eq_getElem hj
  have hold : (textOf ws (p.container.pairs ++ added p.minimumToken strs p.strings)).Yields
      (shown strs[j]) texts[j] := (hget j hj h₂).mono rfl (textOf_mono_pairs ws (List.prefix_append ..))
  simp only [squeezed, List.get_eq_getElem, List.getElem_mapIdx] at hold ⊢
  split
  · rw [shown_squeeze (replacement_empty h.sound_added.noEmptyPart _) (h.tail_no_empty hts)]
    rcases shown_cases (h.tail_no_empty hts) with hnil | hsame
    · rw [hnil] at hold ⊢
      exact hold
    · rw [hsame] at hold ⊢
      exact squeeze_yields (fun q hq i hi => ((h.replacement_spec hts hq).1 i hi).1) hold
  · exact hold

end RoundInv

theorem stringAt_squeezed {f : Token × Token → Option ℕ} {active : List ℕ}
    {strs : List (List Token)} {i : ℕ} (hi : i ∈ active) :
    stringAt (squeezed f active strs) i = (squeeze f (stringAt strs i)).1 := by
  rw [stringAt, stringAt, squeezed_getElem?]
  rcases strs[i]? with _ | ts
  · simp [squeeze]
  · simp [hi]

/-- The number of tokens goes down by the number of replacements. -/
theorem squeezed_total {f : Token × Token → Option ℕ} {active : List ℕ} (hnodup : active.Nodup)
    (strs : List (List Token)) : (squeezed f active strs).flatten.length +
      (active.map fun i => (squeeze f (stringAt strs i)).2).sum = strs.flatten.length := by
  induction active generalizing strs with
  | nil =>
    have hid : squeezed f [] strs = strs :=
      List.ext_getElem? fun j => by simp [squeezed_getElem?]
    rw [hid]
    rfl
  | cons i active ih =>
    obtain ⟨hi, hnodup⟩ := List.nodup_cons.mp hnodup
    have hother : ∀ j ∈ active,
        stringAt (strs.set i (squeeze f (stringAt strs i)).1) j = stringAt strs j := by
      intro j hj
      have hij : i ≠ j := fun h => hi (h ▸ hj)
      unfold stringAt
      rw [List.getElem?_set_ne hij]
    have hrest := ih hnodup (strs.set i (squeeze f (stringAt strs i)).1)
    rw [List.map_congr_left fun j hj => by rw [hother j hj]] at hrest
    rw [squeezed_cons hi, List.map_cons, List.sum_cons, Nat.add_left_comm, hrest]
    have hlen := squeeze_length f (stringAt strs i)
    rcases hs : strs[i]? with _ | ts
    · have hge : strs.length ≤ i := by simpa using hs
      simp [List.set_eq_of_length_le hge, stringAt, hs, squeeze]
    · obtain ⟨hlt, rfl⟩ := List.getElem?_eq_some_iff.mp hs
      rw [stringAt, hs, Option.getD_some] at hlen ⊢
      conv_rhs => rw [← List.take_append_drop i strs, List.drop_eq_getElem_cons hlt]
      rw [List.set_eq_take_append_cons_drop, if_pos hlt]
      simp only [List.flatten_append, List.flatten_cons, List.length_append] at hlen ⊢
      omega

/-! ### A round -/

namespace RoundInv

variable {p : CPairPacker} {ws : List (List UInt8)} {front behind : List Token}
  {segs strs : List (List Token)} {texts : List (List UInt8)}

/-- A string that the round did not change holds older tokens only. -/
theorem older_of_unchanged (h : RoundInv p ws front behind segs strs texts) {j : ℕ} {ts : List Token}
    (hj : strs[j]? = some ts) {q : Token × Token} (hq : q ∈ neighbours ts) :
    Older p.container.pairs.length q.1 ∧ Older p.container.pairs.length q.2 := by
  obtain ⟨h₁, h₂⟩ := mem_of_neighbours hq
  obtain ⟨_, hs₁⟩ := h.expands hj h₁
  obtain ⟨_, hs₂⟩ := h.expands hj h₂
  exact ⟨older_of_expands hs₁, older_of_expands hs₂⟩

/-- No string has more of a pair of older tokens than before. -/
theorem count_squeezed_le (h : RoundInv p ws front behind segs strs texts) {q : Token × Token}
    (hq : Older p.container.pairs.length q.1 ∧ Older p.container.pairs.length q.2) {i : ℕ}
    (hi : i ∈ p.strings) :
    (neighbours (stringAt (squeezed (replacement (p.container.pairs ++
      added p.minimumToken strs p.strings) p.minimumToken) p.strings strs) i)).count q ≤
        (neighbours (stringAt strs i)).count q := by
  obtain ⟨ts, hts, -⟩ := h.active i hi
  rw [stringAt_squeezed hi, stringAt, hts, Option.getD_some]
  exact squeeze_count (fun q hq k hk => ((h.replacement_spec hts hq).1 k hk).2) hq

theorem hidden_squeezed (h : RoundInv p ws front behind segs strs texts) {active : List ℕ}
    (hsub : active.Sublist p.strings) (t : Token) :
    (occurrences (squeezed (replacement (p.container.pairs ++
      added p.minimumToken strs p.strings) p.minimumToken) p.strings strs) active).count
        (.empty, t) ≤ 4 := by
  by_cases hold : Older p.container.pairs.length t
  · exact (count_occurrences_le hsub fun i hi =>
      h.count_squeezed_le ⟨older_empty _, hold⟩ hi).trans (h.hidden t)
  · unfold Older at hold
    push Not at hold
    obtain ⟨k, rfl, hk⟩ := hold
    -- the token that the first part of the new pair was
    let a := (((p.container.pairs ++ added p.minimumToken strs p.strings)[k]?).getD
      (.empty, .empty)).1
    refine (count_occurrences_le (q := (.empty, a)) hsub fun i hi => ?_).trans (h.hidden a)
    obtain ⟨ts, hts, -⟩ := h.active i hi
    rw [stringAt_squeezed hi, stringAt, hts, Option.getD_some]
    refine squeeze_count_empty (replacement_empty h.sound_added.noEmptyPart _) (h.tail_no_empty hts)
      (fun hmem => ?_) fun q hq hqk => ?_
    · obtain ⟨_, hs⟩ := h.expands hts hmem
      exact absurd (older_of_expands hs k rfl) (Nat.not_lt.mpr hk)
    · have hget := ((h.replacement_spec hts hq).1 k hqk).1
      show q.1 = (((p.container.pairs ++ added p.minimumToken strs p.strings)[k]?).getD
        (.empty, .empty)).1
      rw [hget]
      rfl

theorem reaches_mono {m m' : ℕ} (hle : m ≤ m') {t : Token} (h : reaches m' t = true) :
    reaches m t = true := by
  cases t with
  | pair i =>
    have hi : m' ≤ i := of_decide_eq_true h
    exact decide_eq_true (hle.trans hi)
  | empty => rfl
  | word i => rfl

/-- **A round keeps the invariant**. It saves tokens iff it replaces a pair, and it does so only if
some pair is frequent. -/
theorem oneRound_spec (h : RoundInv p ws front behind segs strs texts) :
    ∃ p' n segs' strs', p.oneRound = .ok (p', n) ∧ RoundInv p' ws front behind segs' strs' texts ∧
      p'.replacements = p.replacements + n ∧
      (0 < n → strs'.flatten.length < strs.flatten.length) ∧
      (added p.minimumToken strs p.strings = [] → n = 0) ∧
      ((∀ ts ∈ strs, ts.head? ≠ some .empty) → ∀ ts ∈ strs', ts.head? ≠ some .empty) := by
  set f := replacement (p.container.pairs ++ added p.minimumToken strs p.strings) p.minimumToken
    with hf
  -- counting and adding pairs
  have hcount := accumulateAll_eq h.toLaid (m := p.minimumToken) h.folded h.active ([], [])
  have hoccurrences : (p.strings.flatMap fun i => counted p.minimumToken (stringAt strs i)) =
      (occurrences strs p.strings).filter (untried p.minimumToken) := by
    rw [occurrences, List.filter_flatMap]
    rfl
  rw [hoccurrences] at hcount
  have hnodup : (p.container.pairs ++ added p.minimumToken strs p.strings).Nodup :=
    List.nodup_append.mpr ⟨h.nodup, added_nodup _ _ _, fun q hq q' hq' he =>
      h.not_mem_of_added hq' (he ▸ hq)⟩
  have hadd := @addCompressablePairs_eq
    ((((occurrences strs p.strings).filter (untried p.minimumToken)).foldl countPair
      ([], [])).1.zip (((occurrences strs p.strings).filter (untried p.minimumToken)).foldl countPair
        ([], [])).2) p.container.pairs (by rw [added_eq]; exact hnodup)
  rw [added_eq] at hadd
  -- writing the tokens
  have hlaid : Laid { p.container with
      pairs := p.container.pairs ++ added p.minimumToken strs p.strings } front behind segs strs :=
    ⟨h.data, h.offsets, h.scanned⟩
  obtain ⟨data, segs', n, hcompress, hlaid', hzero, husable⟩ := compressAll_eq hlaid
    h.sound_added.noEmptyPart hf.symm h.active_nodup h.active
  refine ⟨⟨{ p.container with
      pairs := p.container.pairs ++ added p.minimumToken strs p.strings, stringData := data },
    p.strings.filter fun i => 0 < (squeeze f (stringAt strs i)).2, p.container.pairs.length,
    p.replacements + n⟩, n, segs', squeezed f p.strings strs, ?_, ?_, rfl, ?_, ?_, ?_⟩
  · unfold oneRound
    simp only [bind, Except.bind, hcount, hadd, hcompress, pure, Except.pure]
  · have hmono := textOf_mono_pairs ws
      (List.prefix_append p.container.pairs (added p.minimumToken strs p.strings))
    have hsub := (List.filter_sublist (l := p.strings)
      (p := fun i => decide (0 < (squeeze f (stringAt strs i)).2)))
    constructor
    · exact ⟨hlaid'.data, hlaid'.offsets, hlaid'.scanned⟩
    · exact h.words
    · exact h.sound_added
    · exact hnodup
    · intro t ht
      rcases husable t ht with ht | rfl | ⟨i, hi, rfl⟩
      · obtain ⟨s, hs⟩ := h.known t ht
        exact ⟨s, hs.mono rfl hmono⟩
      · exact ⟨[], .value (by simp [textOf, h.sound.root, checked, Except.map])⟩
      · exact h.sound_added.expands i hi
    · exact h.folded_squeezed
    · exact h.yields_squeezed
    · exact h.hidden_squeezed hsub
    · exact h.active_nodup.filter _
    · intro i hi
      have hi' := (List.mem_filter.mp hi).1
      obtain ⟨ts, hts, hne⟩ := h.active i hi'
      refine ⟨(squeeze f ts).1, ?_, squeeze_ne_nil hne⟩
      rw [squeezed_getElem?, hts, Option.map_some, if_pos hi']
    · exact (List.prefix_append _ _).length_le
    · intro q hu hmany j us hj hus hq
      have hget := hus
      rw [squeezed_getElem?, Option.map_eq_some_iff] at hget
      obtain ⟨ts, hts, hsame⟩ := hget
      -- the string was not changed
      obtain rfl : ts = us := by
        rw [← hsame]
        split
        · rename_i hjs
          have hnone : (squeeze f ts).2 = 0 := by
            by_contra hpos
            refine hj (List.mem_filter.mpr ⟨hjs, decide_eq_true ?_⟩)
            rw [stringAt, hts, Option.getD_some]
            exact Nat.pos_of_ne_zero hpos
          exact (squeeze_zero hnone).symm
        · rfl
      have hold := h.older_of_unchanged hts hq
      have hmany' := hmany.trans_le (count_occurrences_le hsub fun i hi => h.count_squeezed_le hold hi)
      have hu' : untried p.minimumToken q = true := by
        unfold untried at hu ⊢
        rw [Bool.or_eq_true] at hu ⊢
        exact hu.imp (reaches_mono h.minimum) (reaches_mono h.minimum)
      have hadded := mem_added.mpr ⟨hu', hmany'⟩
      exact folded_iff.mp (h.folded_squeezed ts (List.mem_of_getElem? hus)) q hq
        (List.mem_append_right _ hadded)
  · intro hpos
    have htotal := squeezed_total h.active_nodup strs (f := f)
    have hne : (p.strings.map fun i => (squeeze f (stringAt strs i)).2).sum ≠ 0 := fun hs =>
      Nat.pos_iff_ne_zero.mp hpos (hzero.mpr hs)
    omega
  · intro hnone
    rw [hzero, List.sum_eq_zero_iff]
    intro k hk
    obtain ⟨i, hi, rfl⟩ := List.mem_map.mp hk
    obtain ⟨ts, hts, -⟩ := h.active i hi
    rw [stringAt, hts, Option.getD_some]
    refine squeeze_none fun q hq => ?_
    rcases hfound : f q with _ | k
    · rfl
    · have hget := ((h.replacement_spec hts hq).1 k hfound).1
      rw [hnone, List.append_nil] at hget
      exact absurd (List.mem_of_getElem? hget)
        (folded_iff.mp (h.folded ts (List.mem_of_getElem? hts)) q hq)
  · intro hheads us hus
    obtain ⟨j, hj⟩ := List.getElem?_of_mem hus
    rw [squeezed_getElem?, Option.map_eq_some_iff] at hj
    obtain ⟨ts, hts, rfl⟩ := hj
    have hhead := hheads ts (List.mem_of_getElem? hts)
    split
    · intro hempty
      rcases squeeze_head (m := p.container.pairs.length)
        (fun q hq k hk => ((h.replacement_spec hts hq).1 k hk).2) hempty with hsame | hnew
      · exact hhead hsame
      · exact hnew (older_empty _)
    · exact hhead

/-- **The rounds end** and keep the invariant. Nothing is replaced unless some pair is frequent. -/
theorem rounds_spec (h : RoundInv p ws front behind segs strs texts) :
    ∃ p' segs' strs', Returns roundsBody p p' ∧ RoundInv p' ws front behind segs' strs' texts ∧
      (added p.minimumToken strs p.strings = [] → p'.replacements = p.replacements) ∧
      ((∀ ts ∈ strs, ts.head? ≠ some .empty) → ∀ ts ∈ strs', ts.head? ≠ some .empty) := by
  induction hn : strs.flatten.length using Nat.strong_induction_on generalizing p segs strs with
  | _ len ih =>
    obtain ⟨p₁, n, segs₁, strs₁, hround, h₁, hrepl, hless, hnone, hheads⟩ := h.oneRound_spec
    rcases Nat.eq_zero_or_pos n with rfl | hpos
    · refine ⟨p₁, segs₁, strs₁, .leave ?_, h₁, fun _ => hrepl, hheads⟩
      unfold roundsBody
      rw [hround]
      rfl
    · obtain ⟨p₂, segs₂, strs₂, hreturns, h₂, -, hheads₂⟩ :=
        ih _ (hn ▸ hless hpos) h₁ rfl
      refine ⟨p₂, segs₂, strs₂, .round ?_ hreturns, h₂, fun hno => ?_, fun hh => hheads₂ (hheads hh)⟩
      · unfold roundsBody
        rw [hround]
        show Except.ok (if 0 < n then Sum.inl p₁ else Sum.inr p₁) = _
        rw [if_pos hpos]
      · exact absurd (hnone hno) (Nat.pos_iff_ne_zero.mp hpos)

end RoundInv

end CPairPacker

end TortoiseSvn.LogCache
