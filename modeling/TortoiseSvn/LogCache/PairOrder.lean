import TortoiseSvn.LogCache.PairPackerRounds

/-!
# Renumbering the pairs

`OptimizePairs` puts the pairs that are used into the order of their use: first those that stand in
the strings, then the parts of these. A pair may get a lower number than its parts then.

Main result: `Stores.optimizePairs`, renumbering returns, finds every pair once, and keeps the texts.
-/

namespace TortoiseSvn.LogCache

open TortoiseSvn.Lib CIndexPairDictionary CPairPacker

namespace CTokenizedStringContainer

/-! ### Finding the pairs in use -/

/-- The token is no pair, or one that was found. -/
def Found (found : List ℕ) (t : Token) : Prop := ∀ i, t = .pair i → i ∈ found

theorem Found.mono {found found' : List ℕ} {t : Token} (hpre : found <+: found')
    (h : Found found t) : Found found' t := fun i hi => hpre.subset (h i hi)

/-- The marks of `n` pairs tell which of them were found. -/
structure Marked (n : ℕ) (order : PairOrder) : Prop where
  nodup : order.1.Nodup
  lt : ∀ i ∈ order.1, i < n
  marks : ∀ i < n, order.2[i]? = some (decide (i ∈ order.1))
  length : order.2.length = n

namespace Marked

variable {n : ℕ} {order : PairOrder}

theorem nil (n : ℕ) : Marked n ([], List.replicate n false) where
  nodup := List.nodup_nil
  lt := fun i hi => absurd hi List.not_mem_nil
  marks := fun i hi => by simp [hi]
  length := List.length_replicate

theorem length_le (h : Marked n order) : order.1.length ≤ n := by
  have hsub := h.nodup.subperm fun i hi => List.mem_range.mpr (h.lt i hi)
  have hle := hsub.length_le
  rwa [List.length_range] at hle

theorem concat (h : Marked n order) {i : ℕ} (hi : i < n) (hnew : i ∉ order.1) :
    Marked n (order.1 ++ [i], order.2.set i true) where
  nodup := by
    refine List.nodup_append.mpr ⟨h.nodup, List.nodup_singleton i, fun j hj k hk => ?_⟩
    rw [List.mem_singleton.mp hk]
    rintro rfl
    exact hnew hj
  lt := fun j hj => by
    rcases List.mem_append.mp hj with hj | hj
    · exact h.lt j hj
    · exact List.mem_singleton.mp hj ▸ hi
  marks := fun j hj => by
    rw [List.getElem?_set]
    by_cases hij : i = j
    · subst hij
      simp [h.length, hi]
    · have hji : j ≠ i := fun he => hij he.symm
      simp [hij, hji, h.marks j hj]
  length := by rw [List.length_set, h.length]

/-- Marking a token finds it, and nothing else. -/
theorem markPair (h : Marked n order) {t : Token} (ht : Older n t) :
    ∃ order', markPair order t = .ok order' ∧ Marked n order' ∧ order.1 <+: order'.1 ∧
      Found order'.1 t := by
  cases t with
  | empty => exact ⟨order, rfl, h, List.prefix_refl _, fun _ hi => Token.noConfusion hi⟩
  | word index => exact ⟨order, rfl, h, List.prefix_refl _, fun _ hi => Token.noConfusion hi⟩
  | pair i =>
    have hi : i < n := ht i rfl
    have hmark := h.marks i hi
    by_cases hmem : i ∈ order.1
    · refine ⟨order, ?_, h, List.prefix_refl _, fun j hj => Token.pair.inj hj ▸ hmem⟩
      simp [CTokenizedStringContainer.markPair, hmark, hmem]
    · refine ⟨_, ?_, h.concat hi hmem, List.prefix_append _ _, fun j hj => ?_⟩
      · simp [CTokenizedStringContainer.markPair, hmark, hmem]
      · exact List.mem_append_right _ (List.mem_singleton.mpr (Token.pair.inj hj).symm)

theorem markTokens (h : Marked n order) {ts : List Token} (hts : ∀ t ∈ ts, Older n t) :
    ∃ order', markTokens ts order = .ok order' ∧ Marked n order' ∧ ∀ t ∈ ts, Found order'.1 t := by
  have hgo : ∃ order', CTokenizedStringContainer.markTokens ts order = .ok order' ∧
      Marked n order' ∧ order.1 <+: order'.1 ∧ ∀ t ∈ ts, Found order'.1 t := by
    induction ts generalizing order with
    | nil => exact ⟨order, rfl, h, List.prefix_refl _, fun _ ht => absurd ht List.not_mem_nil⟩
    | cons t ts ih =>
      obtain ⟨order₁, hmark, h₁, hpre₁, hfound⟩ := h.markPair (hts t List.mem_cons_self)
      obtain ⟨order₂, hrest, h₂, hpre₂, hall⟩ := ih h₁ fun u hu => hts u (List.mem_cons_of_mem _ hu)
      refine ⟨order₂, ?_, h₂, hpre₁.trans hpre₂, fun u hu => ?_⟩
      · rw [CTokenizedStringContainer.markTokens, hmark]
        exact hrest
      · rcases List.mem_cons.mp hu with rfl | hu
        · exact hfound.mono hpre₂
        · exact hall u hu
  obtain ⟨order', hmark, h', -, hall⟩ := hgo
  exact ⟨order', hmark, h', hall⟩

end Marked

/-- The parts of the pairs were found as well. -/
def Closed (pairs : List (Token × Token)) (found parents : List ℕ) : Prop :=
  ∀ old ∈ parents, ∀ p, pairs[old]? = some p → Found found p.1 ∧ Found found p.2

/-- The loop over the parts ends, with all of them found. -/
theorem markParts {c : CTokenizedStringContainer}
    (hparts : ∀ p ∈ c.pairs, Older c.pairs.length p.1 ∧ Older c.pairs.length p.2) {direct : PairOrder}
    (hdirect : Marked c.pairs.length direct) : ∃ order, Returns c.markPartsBody (0, direct) order ∧
      Marked c.pairs.length order ∧ direct.1 <+: order.1 ∧ Closed c.pairs order.1 order.1 := by
  refine Returns.of_measure c.markPartsBody
    (fun s => Marked c.pairs.length s.2 ∧ Closed c.pairs s.2.1 (s.2.1.take s.1))
    (fun s order => Marked c.pairs.length order ∧ s.2.1 <+: order.1 ∧ Closed c.pairs order.1 order.1)
    (fun s => c.pairs.length - s.1) ?_ ⟨hdirect, fun old hold => ?_⟩
  · rintro ⟨i, order⟩ ⟨hmarked, hclosed⟩
    dsimp only at hmarked hclosed ⊢
    rcases hold : order.1[i]? with _ | old
    · refine .inl ⟨order, by rw [markPartsBody, hold], hmarked, List.prefix_refl _, ?_⟩
      have hlen : order.1.length ≤ i := by simpa using hold
      rwa [List.take_of_length_le hlen] at hclosed
    · obtain ⟨hi, rfl⟩ := List.getElem?_eq_some_iff.mp hold
      have hlt := hmarked.lt _ (List.getElem_mem hi)
      have hget := List.getElem?_eq_getElem hlt
      obtain ⟨hfirst, hsecond⟩ := hparts _ (List.getElem_mem hlt)
      obtain ⟨order₁, h₁, hmarked₁, hpre₁, hfound₁⟩ := hmarked.markPair hfirst
      obtain ⟨order₂, h₂, hmarked₂, hpre₂, hfound₂⟩ := hmarked₁.markPair hsecond
      refine .inr ⟨(i + 1, order₂), ?_, ⟨hmarked₂, ?_⟩, ?_, ?_⟩
      · rw [markPartsBody, hold]
        simp only [hget, checked, bind, Except.bind, h₁, h₂, pure, Except.pure]
      · intro old hmem p hp
        have htake : order₂.1.take (i + 1) = order.1.take i ++ [order.1[i]] := by
          obtain ⟨tail, htail⟩ := hpre₁.trans hpre₂
          rw [← htail, List.take_append_of_le_length hi, List.take_succ_eq_append_getElem hi]
        rw [htake, List.mem_append, List.mem_singleton] at hmem
        rcases hmem with hmem | rfl
        · exact (hclosed old hmem p hp).imp (.mono (hpre₁.trans hpre₂)) (.mono (hpre₁.trans hpre₂))
        · obtain rfl : _ = p := Option.some.inj (hget.symm.trans hp)
          exact ⟨hfound₁.mono hpre₂, hfound₂⟩
      · have := hmarked.length_le
        show c.pairs.length - (i + 1) < c.pairs.length - i
        omega
      · rintro order' ⟨hmarked', hpre', hclosed'⟩
        exact ⟨hmarked', (hpre₁.trans hpre₂).trans hpre', hclosed'⟩
  · simp at hold

/-! ### The new numbers -/

/-- A token under the new numbering. -/
def place (found : List ℕ) : Token → Token
  | .pair i => .pair (found.idxOf i)
  | t => t

theorem place_isToken (found : List ℕ) (t : Token) : (place found t).isToken = t.isToken := by
  cases t <;> simp [place, Token.isToken]

theorem place_ne_empty {found : List ℕ} {t : Token} (h : t ≠ .empty) : place found t ≠ .empty := by
  cases t with
  | empty => exact absurd rfl h
  | word index => exact Token.noConfusion
  | pair i => exact Token.noConfusion

theorem place_inj {found : List ℕ} {t u : Token} (ht : Found found t) (hu : Found found u)
    (h : place found t = place found u) : t = u := by
  cases t with
  | empty => cases u <;> simp_all [place]
  | word index => cases u <;> simp_all [place]
  | pair i =>
    cases u with
    | empty => simp [place] at h
    | word index => simp [place] at h
    | pair j =>
      have hidx : found.idxOf i = found.idxOf j := Token.pair.inj h
      rw [(List.idxOf_inj (ht i rfl)).mp hidx]

/-- The table of new numbers, as far as it is filled. -/
theorem old2New_fill {n : ℕ} {found : List ℕ} (hnodup : found.Nodup) (hlt : ∀ i ∈ found, i < n) :
    (old2New n found).length = n ∧
      ∀ i ∈ found, (old2New n found)[i]? = some (found.idxOf i) := by
  unfold old2New
  induction found using List.reverseRecOn with
  | nil => exact ⟨by simp, fun i hi => absurd hi List.not_mem_nil⟩
  | append_singleton found k ih =>
    have hk : k ∉ found := fun hk => (List.nodup_append.mp hnodup).2.2 k hk k (by simp) rfl
    obtain ⟨hlen, hget⟩ := ih (List.nodup_append.mp hnodup).1 fun i hi =>
      hlt i (List.mem_append_left _ hi)
    rw [List.zipIdx_append, List.foldl_append]
    simp only [List.zipIdx_cons, List.zipIdx_nil, List.foldl_cons, List.foldl_nil, Nat.zero_add]
    refine ⟨by rw [List.length_set, hlen], fun i hi => ?_⟩
    rw [List.getElem?_set]
    by_cases hki : k = i
    · subst hki
      have hlt' := hlt k (by simp)
      rw [if_pos rfl, if_pos (hlen.symm ▸ hlt'), List.idxOf_append_of_notMem hk]
      simp
    · have hmem : i ∈ found := by
        rcases List.mem_append.mp hi with hi | hi
        · exact hi
        · exact absurd (List.mem_singleton.mp hi).symm hki
      rw [if_neg hki, hget i hmem, List.idxOf_append_of_mem hmem]

theorem renumber_eq {n : ℕ} {found : List ℕ} (hnodup : found.Nodup) (hlt : ∀ i ∈ found, i < n)
    {t : Token} (ht : Found found t) : renumber (old2New n found) t = .ok (place found t) := by
  cases t with
  | empty => rfl
  | word index => rfl
  | pair i =>
    rw [renumber, (old2New_fill hnodup hlt).2 i (ht i rfl)]
    rfl

/-- The pair at index `old` under the new numbering. -/
def placedPair (pairs : List (Token × Token)) (found : List ℕ) (old : ℕ) : Token × Token :=
  (place found (pairs.getD old (.empty, .empty)).1, place found (pairs.getD old (.empty, .empty)).2)

theorem placedPair_eq {pairs : List (Token × Token)} (found : List ℕ) {old : ℕ} {p : Token × Token}
    (h : pairs[old]? = some p) : placedPair pairs found old = (place found p.1, place found p.2) := by
  simp [placedPair, h]

theorem placedPair_inj {pairs : List (Token × Token)} {found : List ℕ} (hnodup : pairs.Nodup)
    (hlt : ∀ i ∈ found, i < pairs.length) (hclosed : Closed pairs found found) {i j : ℕ}
    (hi : i ∈ found) (hj : j ∈ found) (h : placedPair pairs found i = placedPair pairs found j) :
    i = j := by
  have hlti := hlt i hi
  have hltj := hlt j hj
  have hgi := List.getElem?_eq_getElem hlti
  have hgj := List.getElem?_eq_getElem hltj
  rw [placedPair_eq found hgi, placedPair_eq found hgj, Prod.mk.injEq] at h
  obtain ⟨hi₁, hi₂⟩ := hclosed i hi _ hgi
  obtain ⟨hj₁, hj₂⟩ := hclosed j hj _ hgj
  have hpair : pairs[i] = pairs[j] := Prod.ext (place_inj hi₁ hj₁ h.1) (place_inj hi₂ hj₂ h.2)
  exact hnodup.getElem_inj_iff.mp hpair

/-- Inserting the pairs one by one, none of which is there yet. -/
theorem reorderPairs_eq {n : ℕ} {pairs : List (Token × Token)} {found : List ℕ}
    (hnodup : found.Nodup) (hn : ∀ i ∈ found, i < n) (hlt : ∀ i ∈ found, i < pairs.length)
    (hclosed : Closed pairs found found) {rest : List ℕ} (hrest : ∀ i ∈ rest, i ∈ found)
    {temp : List (Token × Token)} (htemp : (temp ++ rest.map (placedPair pairs found)).Nodup) :
    reorderPairs pairs (old2New n found) rest temp =
      .ok (temp ++ rest.map (placedPair pairs found)) := by
  induction rest generalizing temp with
  | nil => simp [reorderPairs]
  | cons old rest ih =>
    have hmem := hrest old List.mem_cons_self
    have hget := List.getElem?_eq_getElem (hlt old hmem)
    obtain ⟨hfirst, hsecond⟩ := hclosed old hmem _ hget
    have hnew : placedPair pairs found old ∉ temp := fun hm =>
      (List.nodup_append.mp htemp).2.2 _ hm _ List.mem_cons_self rfl
    have hfind := Pool.find_eq_none.mpr hnew
    rw [placedPair_eq found hget] at hfind
    have htemp' : (temp ++ [placedPair pairs found old] ++
        rest.map (placedPair pairs found)).Nodup := by simpa using htemp
    rw [reorderPairs, hget]
    simp only [checked, bind, Except.bind, renumber_eq hnodup hn hfirst,
      renumber_eq hnodup hn hsecond, insertPair, findPair, hfind]
    rw [← placedPair_eq found hget, ih (fun i hi => hrest i (List.mem_cons_of_mem _ hi)) htemp']
    simp

theorem mapM_renumber {n : ℕ} {found : List ℕ} (hnodup : found.Nodup) (hn : ∀ i ∈ found, i < n)
    {ts : List Token} (hts : ∀ t ∈ ts, Found found t) :
    ts.mapM (renumber (old2New n found)) = .ok (ts.map (place found)) := by
  induction ts with
  | nil => rfl
  | cons t ts ih =>
    rw [List.mapM_cons, renumber_eq hnodup hn (hts t List.mem_cons_self),
      ih fun u hu => hts u (List.mem_cons_of_mem _ hu)]
    rfl

/-! ### The texts under the new numbering -/

theorem shown_map {f : Token → Token} (hf : ∀ t, (f t).isToken = t.isToken) (seg : List Token) :
    shown (seg.map f) = (shown seg).map f := by
  have hcomp : Token.isToken ∘ f = Token.isToken := funext hf
  rw [shown, List.takeWhile_map, hcomp, shown]

theorem scanned_map {f : Token → Token} (hf : ∀ t, (f t).isToken = t.isToken) (seg : List Token) :
    scanned (seg.map f) = (scanned seg).map f := by
  cases seg with
  | nil => rfl
  | cons t seg => rw [List.map_cons, scanned, scanned, shown_map hf, List.map_cons]

/-- A token that was found has the text it had before. -/
theorem expands_place {ws : List (List UInt8)} {pairs : List (Token × Token)} {found : List ℕ}
    (hclosed : Closed pairs found found) {t : Token} (ht : Found found t) {s : List UInt8}
    (h : (textOf ws pairs).Expands t s) :
    (textOf ws (found.map (placedPair pairs found))).Expands (place found t) s := by
  have hval : ∀ t a, Found found t → (textOf ws pairs).rule t = .ok (.inl a) →
      (textOf ws (found.map (placedPair pairs found))).rule (place found t) = .ok (.inl a) := by
    intro t a _ hrule
    cases t with
    | empty => exact hrule
    | word index => exact hrule
    | pair i => rcases hi : pairs[i]? with _ | q <;> simp [textOf, hi, checked, Except.map] at hrule
  have hpair : ∀ t t₁ t₂, Found found t → (textOf ws pairs).rule t = .ok (.inr (t₁, t₂)) →
      Found found t₁ ∧ Found found t₂ ∧
        (textOf ws (found.map (placedPair pairs found))).rule (place found t) =
          .ok (.inr (place found t₁, place found t₂)) := by
    intro t t₁ t₂ ht hrule
    cases t with
    | empty => rcases hw : ws[0]? with _ | w <;> simp [textOf, hw, checked, Except.map] at hrule
    | word index =>
      rcases hw : ws[index]? with _ | w <;> simp [textOf, hw, checked, Except.map] at hrule
    | pair i =>
      rcases hi : pairs[i]? with _ | q
      · simp [textOf, hi, checked, Except.map] at hrule
      · obtain rfl : q = (t₁, t₂) := by simpa [textOf, hi, checked, Except.map] using hrule
        obtain ⟨h₁, h₂⟩ := hclosed i (ht i rfl) _ hi
        have hget : found[found.idxOf i]? = some i := List.getElem?_idxOf (ht i rfl)
        refine ⟨h₁, h₂, ?_⟩
        simp [textOf, place, hget, placedPair_eq found hi, checked, Except.map]
  have hjoin : (textOf ws (found.map (placedPair pairs found))).join = (textOf ws pairs).join := rfl
  exact h.map hjoin hval hpair ht

theorem yields_place {ws : List (List UInt8)} {pairs : List (Token × Token)} {found : List ℕ}
    (hclosed : Closed pairs found found) {ts : List Token} (hts : ∀ t ∈ ts, Found found t)
    {s : List UInt8} (h : (textOf ws pairs).Yields ts s) :
    (textOf ws (found.map (placedPair pairs found))).Yields (ts.map (place found)) s := by
  induction ts generalizing s with
  | nil => exact PairGrammar.yields_nil.mpr (PairGrammar.yields_nil.mp h)
  | cons t ts ih =>
    obtain ⟨u, v, hu, hv, rfl⟩ := PairGrammar.yields_cons.mp h
    exact PairGrammar.yields_cons.mpr ⟨u, v, expands_place hclosed (hts t List.mem_cons_self) hu,
      ih (fun x hx => hts x (List.mem_cons_of_mem _ hx)) hv, rfl⟩

/-- Neighbours that were no pair are none under the new numbering. -/
theorem folded_place {pairs : List (Token × Token)} {found : List ℕ}
    (hlt : ∀ i ∈ found, i < pairs.length) (hclosed : Closed pairs found found) {ts : List Token}
    (hts : ∀ t ∈ ts, Found found t) (h : Folded pairs ts) :
    Folded (found.map (placedPair pairs found)) (ts.map (place found)) := by
  unfold Folded
  rw [List.isChain_map]
  refine List.IsChain.imp_of_mem_imp (fun a b ha hb hnot hmem => hnot ?_) h
  obtain ⟨i, hi, hp⟩ := List.mem_map.mp hmem
  have hget := List.getElem?_eq_getElem (hlt i hi)
  obtain ⟨h₁, h₂⟩ := hclosed i hi _ hget
  rw [placedPair_eq found hget, Prod.mk.injEq] at hp
  rw [← place_inj h₁ (hts a ha) hp.1, ← place_inj h₂ (hts b hb) hp.2]
  exact List.mem_of_getElem? hget

section

variable {c : CTokenizedStringContainer} {ws : List (List UInt8)} {front behind : List Token}
  {segs : List (List Token)} {texts : List (List UInt8)}

/-- A container under a numbering that covers the pairs in use. -/
theorem Stores.place (h : c.Stores ws front segs behind texts) {found : List ℕ}
    (hnodup : found.Nodup) (hlt : ∀ i ∈ found, i < c.pairs.length)
    (hclosed : Closed c.pairs found found) (hused : ∀ t ∈ c.stringData, Found found t) :
    ({ c with
      pairs := found.map (placedPair c.pairs found)
      stringData := c.stringData.map (place found) } : CTokenizedStringContainer).Stores ws
      (front.map (place found)) (segs.map (List.map (place found))) (behind.map (place found))
      texts := by
  have hseg : ∀ seg ∈ segs, ∀ t ∈ seg, Found found t := fun seg hseg t ht => hused t (by
    rw [h.data]
    exact List.mem_append_left _ (List.mem_append_right _ (List.mem_flatten_of_mem hseg ht)))
  constructor
  · exact h.words
  · show c.stringData.map (CTokenizedStringContainer.place found) = _
    rw [h.data, List.map_append, List.map_append, List.map_flatten]
  · show c.offsets = _
    rw [h.offsets, List.length_map]
    exact offsetsFrom_congr (by simp) _
  · refine ⟨h.sound.nulFree, h.sound.root, fun q hq => ?_, fun i hi => ?_⟩
    · obtain ⟨old, hold, rfl⟩ := List.mem_map.mp hq
      have hget := List.getElem?_eq_getElem (hlt old hold)
      obtain ⟨h₁, h₂⟩ := h.sound.noEmptyPart _ (List.mem_of_getElem? hget)
      rw [placedPair_eq found hget]
      exact ⟨place_ne_empty h₁, place_ne_empty h₂⟩
    · have hi' : i < found.length := by simpa using hi
      obtain ⟨s, hs⟩ := h.sound.expands found[i] (hlt _ (List.getElem_mem hi'))
      have hplace := expands_place hclosed
        (fun j hj => Token.pair.inj hj ▸ List.getElem_mem hi') hs
      rw [CTokenizedStringContainer.place, hnodup.idxOf_getElem] at hplace
      exact ⟨s, hplace⟩
  · exact hnodup.map_on fun i hi j hj hij => placedPair_inj h.nodup hlt hclosed hi hj hij
  · intro t ht
    obtain ⟨u, hu, rfl⟩ := List.mem_map.mp ht
    obtain ⟨s, hs⟩ := h.known u hu
    exact ⟨s, expands_place hclosed (hused u hu) hs⟩
  · intro t ht
    rw [List.head?_map, Option.mem_def, Option.map_eq_some_iff] at ht
    obtain ⟨u, hu, rfl⟩ := ht
    rw [h.hidden u hu]
    rfl
  · intro seg' hmem
    obtain ⟨seg, hsegs, rfl⟩ := List.mem_map.mp hmem
    rw [scanned_map (place_isToken found)]
    exact folded_place hlt hclosed (fun t ht => hseg seg hsegs t (mem_of_scanned ht))
      (h.folded seg hsegs)
  · obtain ⟨hlen, hget⟩ := List.forall₂_iff_get.mp h.yields
    refine List.forall₂_iff_get.mpr ⟨by rw [List.length_map, hlen], fun j h₁ h₂ => ?_⟩
    have hj : j < segs.length := hlen ▸ h₂
    have hy := hget j hj h₂
    rw [List.get_eq_getElem] at hy ⊢
    rw [List.getElem_map, shown_map (place_isToken found)]
    refine yields_place hclosed (fun t ht => hseg _ (List.getElem_mem hj) t ?_) hy
    exact (List.takeWhile_prefix _).subset ht

/-- **Renumbering returns** and keeps the texts. -/
theorem Stores.optimizePairs (h : c.Stores ws front segs behind texts) :
    ∃ c' found, c.OptimizePairs c' ∧ c'.Stores ws (front.map (CTokenizedStringContainer.place found))
      (segs.map (List.map (CTokenizedStringContainer.place found)))
      (behind.map (CTokenizedStringContainer.place found)) texts := by
  obtain ⟨direct, hdirect, hmarked, hused⟩ := (Marked.nil c.pairs.length).markTokens fun t ht => by
    obtain ⟨s, hs⟩ := h.known t ht
    exact older_of_expands hs
  obtain ⟨order, hreturns, horder, hpre, hclosed⟩ :=
    markParts (fun p hp => older_of_mem h.sound hp) hmarked
  have hused' : ∀ t ∈ c.stringData, Found order.1 t := fun t ht => (hused t ht).mono hpre
  have hpairs := @reorderPairs_eq c.pairs.length c.pairs order.1 horder.nodup horder.lt horder.lt
    hclosed order.1 (fun _ hi => hi) [] (horder.nodup.map_on fun i hi j hj hij =>
      placedPair_inj h.nodup horder.lt hclosed hi hj hij)
  refine ⟨_, order.1, ⟨direct, order, hdirect, hreturns, ?_⟩,
    h.place horder.nodup horder.lt hclosed hused'⟩
  rw [reorder]
  simp only [hpairs, mapM_renumber horder.nodup horder.lt hused', bind, Except.bind, pure,
    Except.pure, List.nil_append]

/-- Renumbering has one result. -/
theorem OptimizePairs.unique {c₁ c₂ : CTokenizedStringContainer} (h₁ : c.OptimizePairs c₁)
    (h₂ : c.OptimizePairs c₂) : c₁ = c₂ := by
  obtain ⟨direct₁, order₁, hd₁, hr₁, ho₁⟩ := h₁
  obtain ⟨direct₂, order₂, hd₂, hr₂, ho₂⟩ := h₂
  obtain rfl := Except.ok.inj (hd₁.symm.trans hd₂)
  obtain rfl := hr₁.unique hr₂
  exact Except.ok.inj (ho₁.symm.trans ho₂)

end

end CTokenizedStringContainer

end TortoiseSvn.LogCache
