import TortoiseSvn.Streams.HuffmanEncoder

/-!
# The code of the encoder

What the encoder knows before it writes: the number of every byte of the source, and for each byte
that occurs a key of at most twelve bits. The keys form a complete prefix code, for every
distribution of the bytes.

Main results: `countValues_eq`, the lanes of the counting loop agree with plain counting;
`sortByFrequency_spec`, the keys of a source; `Prepared.totalBits_eq`, no product wraps in the calculation of
the packed size if the source has less than `2 ^ 31` bytes.
-/

namespace TortoiseSvn.LogCache

open TortoiseSvn.Lib

namespace CHuffmanEncoder

/-! ### Counting -/

theorem countOdd_eq {count : UInt8 → ℕ} {source : List UInt8}
    (h : ∀ v, count v + source.count v < 2 ^ 32) (v : UInt8) :
    countOdd count source v = count v + source.count v := by
  induction source generalizing count with
  | nil => simp [countOdd]
  | cons b source ih =>
    have hb := h b
    rw [List.count_cons_self] at hb
    have hstep : ∀ w, Function.update count b ((count b + 1) % 2 ^ 32) w + source.count w =
        count w + (b :: source).count w := by
      intro w
      by_cases hw : b = w
      · subst hw
        rw [Function.update_self, List.count_cons_self, Nat.mod_eq_of_lt (by omega)]
        ring
      · rw [Function.update_of_ne (Ne.symm hw), List.count_cons_of_ne hw]
    rw [countOdd, ih, hstep]
    intro w
    rw [hstep]
    exact h w

/-- What the lanes hold of a byte, all in all. -/
def laneSum (localCount : ℕ → UInt8 → ℕ) (v : UInt8) : ℕ :=
  ∑ i ∈ Finset.range 8, localCount i v / 2

theorem laneSum_addToLane {localCount : ℕ → UInt8 → ℕ} {lane : ℕ} {b : UInt8} (hlane : lane < 8)
    (h : laneSum localCount b + 1 < 2 ^ 31) (v : UInt8) :
    laneSum (addToLane localCount lane b) v =
      laneSum localCount v + if b = v then 1 else 0 := by
  have hle : localCount lane b / 2 ≤ laneSum localCount b :=
    Finset.single_le_sum (f := fun i => localCount i b / 2) (fun i _ => Nat.zero_le _)
      (Finset.mem_range.mpr hlane)
  have hentry : ∀ i, addToLane localCount lane b i v / 2 =
      localCount i v / 2 + if i = lane then (if b = v then 1 else 0) else 0 := by
    intro i
    unfold addToLane
    by_cases hi : i = lane
    · subst hi
      rw [Function.update_self, if_pos rfl]
      by_cases hv : b = v
      · subst hv
        rw [Function.update_self, if_pos rfl, Nat.mod_eq_of_lt (by omega)]
        omega
      · rw [Function.update_of_ne (Ne.symm hv), if_neg hv, Nat.add_zero]
    · rw [Function.update_of_ne hi, if_neg hi, Nat.add_zero]
  unfold laneSum
  simp only [hentry, Finset.sum_add_distrib]
  rw [Finset.sum_ite_eq', if_pos (Finset.mem_range.mpr hlane)]

/-- A byte moves from the source to its lane. -/
theorem laneSum_step {localCount : ℕ → UInt8 → ℕ} {b : UInt8} {source : List UInt8}
    {total : UInt8 → ℕ} (hlt : ∀ v, total v < 2 ^ 31)
    (h : ∀ v, laneSum localCount v + (b :: source).count v = total v) {lane : ℕ}
    (hlane : lane < 8) (v : UInt8) :
    laneSum (addToLane localCount lane b) v + source.count v = total v := by
  have hb := h b
  have hbound := hlt b
  rw [List.count_cons_self] at hb
  rw [laneSum_addToLane hlane (by omega), ← h v, List.count_cons]
  simp only [beq_iff_eq]
  ring

/-- The lanes and what is left of the source hold as many of each byte as before. -/
theorem laneSum_countBlocks {localCount : ℕ → UInt8 → ℕ} {source : List UInt8}
    {total : UInt8 → ℕ} (hlt : ∀ v, total v < 2 ^ 31)
    (h : ∀ v, laneSum localCount v + source.count v = total v) (v : UInt8) :
    laneSum (countBlocks localCount source).1 v + (countBlocks localCount source).2.count v =
      total v := by
  fun_induction countBlocks localCount source with
  | case1 localCount b₀ b₁ b₂ b₃ b₄ b₅ b₆ b₇ source lc lc' ih =>
    have h₀ := laneSum_step hlt h (show 0 < 8 by norm_num)
    have h₁ := laneSum_step hlt h₀ (show 1 < 8 by norm_num)
    have h₂ := laneSum_step hlt h₁ (show 2 < 8 by norm_num)
    have h₃ := laneSum_step hlt h₂ (show 3 < 8 by norm_num)
    have h₄ := laneSum_step hlt h₃ (show 4 < 8 by norm_num)
    have h₅ := laneSum_step hlt h₄ (show 5 < 8 by norm_num)
    have h₆ := laneSum_step hlt h₅ (show 6 < 8 by norm_num)
    exact ih (laneSum_step hlt h₆ (show 7 < 8 by norm_num))
  | case2 localCount source _ => exact h v

theorem foldl_lanes {localCount : ℕ → UInt8 → ℕ} {v : UInt8}
    (h : laneSum localCount v < 2 ^ 32) :
    (List.range 8).foldl (fun n i => (n + localCount i v / 2) % 2 ^ 32) 0 =
      laneSum localCount v := by
  have hsum : ∀ n, (List.range n).foldl (fun n i => (n + localCount i v / 2) % 2 ^ 32) 0 =
      (∑ i ∈ Finset.range n, localCount i v / 2) % 2 ^ 32 := by
    intro n
    induction n with
    | zero => rfl
    | succ n ih =>
      rw [List.range_succ, List.foldl_append, ih, Finset.sum_range_succ]
      simp only [List.foldl_cons, List.foldl_nil, Nat.mod_add_mod]
  rw [hsum, ← laneSum, Nat.mod_eq_of_lt h]

/-- **Counting in lanes is counting.** -/
theorem countValues_eq {source : List UInt8} (h : source.length < 2 ^ 31) (v : UInt8) :
    countValues source v = source.count v := by
  have hlt : ∀ w, source.count w < 2 ^ 31 := fun w => List.count_le_length.trans_lt h
  unfold countValues
  split
  · have hzero : ∀ w, laneSum (fun _ _ => 0) w + source.count w = source.count w := by
      intro w
      simp [laneSum]
    have hcount := laneSum_countBlocks hlt hzero
    dsimp only
    rw [countOdd_eq]
    · rw [foldl_lanes]
      · exact hcount v
      · have := hcount v
        have := hlt v
        omega
    · intro w
      have := hcount w
      have := hlt w
      rw [foldl_lanes (by omega)]
      omega
  · rw [countOdd_eq]
    · simp
    · intro w
      have := hlt w
      omega

/-! ### Splitting a range -/

/-- The weight of a range. -/
def weight (count : UInt8 → ℕ) (range : List UInt8) : ℕ := (range.map count).sum

section Weight

variable {count : UInt8 → ℕ} {range : List UInt8}

@[simp] theorem weight_nil : weight count [] = 0 := rfl

@[simp] theorem weight_cons (v : UInt8) (range : List UInt8) :
    weight count (v :: range) = count v + weight count range := rfl

@[simp] theorem weight_append (l r : List UInt8) :
    weight count (l ++ r) = weight count l + weight count r := by
  simp [weight]

theorem weight_take_add_drop (n : ℕ) :
    weight count (range.take n) + weight count (range.drop n) = weight count range := by
  rw [← weight_append, List.take_append_drop]

theorem count_le_weight (count : UInt8 → ℕ) {v : UInt8} (h : v ∈ range) :
    count v ≤ weight count range :=
  List.single_le_sum (fun _ _ => Nat.zero_le _) _ (List.mem_map_of_mem h)

theorem length_le_weight (hpos : ∀ v ∈ range, 0 < count v) :
    range.length ≤ weight count range := by
  have h := List.card_nsmul_le_sum (range.map count) 1 (by
    intro n hn
    obtain ⟨v, hv, rfl⟩ := List.mem_map.mp hn
    exact hpos v hv)
  simpa [weight] using h

/-- The loop stops where half of the weight is reached first. -/
theorem findMiddle_spec (half mid halfSum : ℕ) (range : List UInt8) :
    ∃ k ≤ range.length,
      findMiddle count half range mid halfSum =
        (mid + k, halfSum + weight count (range.take k)) ∧
      (k = range.length ∨ half ≤ halfSum + weight count (range.take k)) ∧
      ∀ j < k, halfSum + weight count (range.take j) < half := by
  induction range generalizing mid halfSum with
  | nil => exact ⟨0, le_rfl, by simp [findMiddle], .inl rfl, fun j hj => absurd hj (Nat.not_lt_zero j)⟩
  | cons v range ih =>
    by_cases hlt : halfSum < half
    · obtain ⟨k, hk, hrun, hstop, hbefore⟩ := ih (mid + 1) (halfSum + count v)
      refine ⟨k + 1, Nat.succ_le_succ hk, ?_, ?_, ?_⟩
      · rw [findMiddle, if_pos hlt, hrun, List.take_succ_cons, weight_cons]
        simp only [Prod.mk.injEq]
        omega
      · rw [List.take_succ_cons, weight_cons, List.length_cons]
        rcases hstop with hstop | hstop
        · exact .inl (by omega)
        · exact .inr (by omega)
      · intro j hj
        cases j with
        | zero => simpa using hlt
        | succ j =>
          have := hbefore j (by omega)
          rw [List.take_succ_cons, weight_cons]
          omega
    · refine ⟨0, Nat.zero_le _, ?_, .inr ?_, fun j hj => absurd hj (Nat.not_lt_zero j)⟩
      · simp [findMiddle, hlt]
      · simpa using not_lt.mp hlt

/-- Two neighbouring ranges of about the same weight: what is heavier is so by no more than the
entry at the border. -/
structure Balanced (count : UInt8 → ℕ) (l r : List UInt8) : Prop where
  left : ∃ v, l.getLast? = some v ∧ weight count l ≤ weight count r + count v
  right : ∃ v, r.head? = some v ∧ weight count r ≤ weight count l + count v

/-- A range that is not too long is split into two parts of about the same weight. -/
theorem splitAt_of_le {bitCount : ℕ} (hbits : bitCount ≤ 11) (hlen : 2 ≤ range.length)
    (hroom : range.length ≤ 2 ^ (11 - bitCount)) (hpos : ∀ v ∈ range, 0 < count v) :
    ∃ mid, splitAt count range bitCount = .ok mid ∧ 0 < mid ∧ mid < range.length ∧
      Balanced count (range.take mid) (range.drop mid) := by
  have hweight := length_le_weight hpos
  obtain ⟨k, hk, hrun, hstop, hbefore⟩ :=
    @findMiddle_spec count (weight count range / 2) 0 0 range
  simp only [Nat.zero_add] at hrun hstop hbefore
  cases k with
  | zero =>
    simp at hstop
    omega
  | succ k =>
    have hlast : k < range.length := by omega
    have htake : range.take (k + 1) = range.take k ++ [range[k]] :=
      (List.take_append_getElem hlast).symm
    have hdrop : range.drop k = range[k] :: range.drop (k + 1) := List.drop_eq_getElem_cons hlast
    have hsum : weight count (range.take (k + 1)) = weight count (range.take k) + count range[k] := by
      rw [htake, weight_append, weight_cons, weight_nil, Nat.add_zero]
    have htotal := @weight_take_add_drop count range (k + 1)
    have htotal' := @weight_take_add_drop count range k
    have hlower := hbefore k (Nat.lt_succ_self k)
    unfold splitAt
    rw [if_neg (by omega), if_neg (by omega)]
    simp only [bind, Except.bind]
    rw [← weight, hrun]
    simp only [if_neg (Nat.succ_ne_zero k), Nat.add_sub_cancel, List.getElem?_eq_getElem hlast,
      checked]
    by_cases hback : weight count range - (weight count (range.take (k + 1)) - count range[k]) <
        weight count (range.take (k + 1))
    · -- the position in front is closer to the middle
      have hfront : k ≠ 0 := by
        intro h0
        subst h0
        rw [List.take_zero, weight_nil] at hsum
        omega
      refine ⟨k, if_pos hback, by omega, hlast, ?_, ?_⟩
      · have hne : range.take k ≠ [] := by
          intro h
          rcases List.take_eq_nil_iff.mp h with h | h
          · exact hfront h
          · simp [h] at hlen
        exact ⟨_, List.getLast?_eq_getLast_of_ne_nil hne, by omega⟩
      · exact ⟨range[k], by rw [hdrop]; rfl, by omega⟩
    · have hfull : k + 1 < range.length := by
        by_contra hge
        have heq : k + 1 = range.length := by omega
        have hfirst : 0 < weight count (range.take k) := by
          have h := @length_le_weight count (range.take k)
            fun v hv => hpos v (List.mem_of_mem_take hv)
          rw [List.length_take] at h
          omega
        have hwhole : weight count (range.take (k + 1)) = weight count range := by
          rw [heq, List.take_length]
        omega
      refine ⟨k + 1, if_neg hback, by omega, hfull, ?_, ?_⟩
      · refine ⟨range[k], ?_, by omega⟩
        rw [htake, List.getLast?_append]
        rfl
      · refine ⟨range[k + 1], ?_, ?_⟩
        · rw [List.head?_drop, List.getElem?_eq_getElem hfull]
        · have := hpos range[k + 1] (List.getElem_mem hfull)
          rcases hstop with h | h <;> omega

/-- A long range is cut in half. -/
theorem splitAt_of_lt {bitCount : ℕ} (hbits : bitCount ≤ 11)
    (hlong : 2 ^ (11 - bitCount) < range.length) :
    splitAt count range bitCount = .ok (range.length / 2) := by
  rw [splitAt, if_neg (by omega), if_pos hlong]

end Weight

/-! ### The keys of a range -/

theorem reverseBits_go_eq {n r : ℕ} (hn : n ≤ 16) (hr : r < 2 ^ (16 - n)) (v : ℕ) :
    reverseBits.go n v r = r * 2 ^ n + reversed n v := by
  induction n generalizing r v with
  | zero => simp [reverseBits.go, reversed]
  | succ n ih =>
    have hpow : 2 ^ (16 - n) = 2 * 2 ^ (16 - (n + 1)) := by
      rw [← pow_succ']
      congr 1
      omega
    have hlt : 2 * r + v % 2 < 2 ^ (16 - n) := by omega
    have hle : 2 ^ (16 - n) ≤ 2 ^ 16 := Nat.pow_le_pow_right (by norm_num) (Nat.sub_le 16 n)
    rw [reverseBits.go, Nat.mod_eq_of_lt (hlt.trans_le hle), ih (by omega) hlt, reversed]
    ring

theorem reverseBits_eq {v length : ℕ} (h : length ≤ 16) :
    reverseBits v length = reversed length v := by
  rw [reverseBits, reverseBits_go_eq h (by positivity), Nat.zero_mul, Nat.zero_add]

/-- The code of a value: its key with the first bit on top, and its length. -/
def code (s : CHuffmanEncoder) (v : UInt8) : ℕ × ℕ :=
  (reversed (s.keyLength v) (s.key v), s.keyLength v)

/-- How a range was split into values of some key lengths, from a depth on. Where ranges are cut in
half for their length the weights do not matter, and this happens nowhere in the first four
splits. -/
inductive SplitTree (count keyLength : UInt8 → ℕ) : ℕ → List UInt8 → Prop where
  | leaf {b : ℕ} {v : UInt8} (h : keyLength v = b) : SplitTree count keyLength b [v]
  | deep {b : ℕ} {range : List UInt8} (hb : 4 ≤ b) (hlen : 2 ≤ range.length) :
      SplitTree count keyLength b range
  | node {b : ℕ} {l r : List UInt8} (h : Balanced count l r)
      (left : SplitTree count keyLength (b + 1) l) (right : SplitTree count keyLength (b + 1) r) :
      SplitTree count keyLength b (l ++ r)

/-- What has become of the tables when a range has got its keys. -/
structure Assigned (s s' : CHuffmanEncoder) (range : List UInt8) (e b : ℕ) : Prop where
  count_eq : s'.count = s.count
  sorted_eq : s'.sorted = s.sorted
  others : ∀ v ∉ range, s'.key v = s.key v ∧ s'.keyLength v = s.keyLength v
  key_lt : ∀ v ∈ range, s'.key v < 2 ^ s'.keyLength v
  tiles : Tiles 12 (e * 2 ^ (12 - b)) ((e + 1) * 2 ^ (12 - b)) (range.map s'.code)
  tree : SplitTree s.count s'.keyLength b range

section Assign

variable {s s' s'' : CHuffmanEncoder} {range l r : List UInt8} {e b fuel : ℕ}

theorem Assigned.keyLength_le (h : Assigned s s' range e b) {v : UInt8} (hv : v ∈ range) :
    s'.keyLength v ≤ 12 :=
  h.tiles.length_le (List.mem_map_of_mem hv)

theorem assigned_setKey {v : UInt8} (hb : b ≤ 12) (he : e < 2 ^ b) :
    Assigned s (s.setKey v e b) [v] e b := by
  have hkey : (s.setKey v e b).key v = reversed b e := by
    simp only [setKey, Function.update_self, reverseBits_eq (show b ≤ 16 by omega)]
  have hlength : (s.setKey v e b).keyLength v = b := by
    simp only [setKey, Function.update_self]
  have hcode : (s.setKey v e b).code v = (e, b) := by
    rw [code, hkey, hlength, reversed_reversed, Nat.mod_eq_of_lt he]
  refine ⟨rfl, rfl, ?_, ?_, ?_, .leaf hlength⟩
  · intro w hw
    rw [List.mem_singleton] at hw
    exact ⟨Function.update_of_ne hw _ _, Function.update_of_ne hw _ _⟩
  · intro w hw
    rw [List.mem_singleton] at hw
    rw [hw, hkey, hlength]
    exact reversed_lt b e
  · rw [List.map_singleton, hcode]
    exact Tiles.single hb

/-- Either part of a range gets its keys, the second one behind the first. -/
theorem Assigned.append (hdisj : l.Disjoint r) (hb : b < 12)
    (htree : SplitTree s.count s''.keyLength (b + 1) l →
      SplitTree s.count s''.keyLength (b + 1) r → SplitTree s.count s''.keyLength b (l ++ r))
    (h : Assigned s s' l (2 * e) (b + 1)) (h' : Assigned s' s'' r (2 * e + 1) (b + 1)) :
    Assigned s s'' (l ++ r) e b := by
  have hkept : ∀ v ∈ l, s''.key v = s'.key v ∧ s''.keyLength v = s'.keyLength v := by
    intro v hv
    exact h'.others v fun hr => hdisj hv hr
  have hcodes : l.map s''.code = l.map s'.code := by
    apply List.map_congr_left
    intro v hv
    rw [code, code, (hkept v hv).1, (hkept v hv).2]
  have hleft : SplitTree s.count s''.keyLength (b + 1) l := by
    have hagree : ∀ {b : ℕ} {range : List UInt8}, SplitTree s.count s'.keyLength b range →
        (∀ v ∈ range, s''.keyLength v = s'.keyLength v) →
        SplitTree s.count s''.keyLength b range := by
      intro b range htree
      induction htree with
      | leaf hlength =>
        intro heq
        exact .leaf ((heq _ (List.mem_singleton_self _)).trans hlength)
      | deep hdepth hlen =>
        intro _
        exact .deep hdepth hlen
      | node hbal _ _ ihl ihr =>
        intro heq
        exact .node hbal (ihl fun v hv => heq v (List.mem_append_left _ hv))
          (ihr fun v hv => heq v (List.mem_append_right _ hv))
    exact hagree h.tree fun v hv => (hkept v hv).2
  refine ⟨h'.count_eq.trans h.count_eq, h'.sorted_eq.trans h.sorted_eq, ?_, ?_, ?_,
    htree hleft (h.count_eq ▸ h'.tree)⟩
  · intro v hv
    rw [List.mem_append, not_or] at hv
    have hfirst := h.others v hv.1
    have hsecond := h'.others v hv.2
    exact ⟨hsecond.1.trans hfirst.1, hsecond.2.trans hfirst.2⟩
  · intro v hv
    rcases List.mem_append.mp hv with hv | hv
    · rw [(hkept v hv).1, (hkept v hv).2]
      exact h.key_lt v hv
    · exact h'.key_lt v hv
  · rw [List.map_append, hcodes]
    exact Tiles.halves hb h.tiles h'.tiles

theorem assignEncoding_succ (h : 2 ≤ range.length) :
    assignEncoding (fuel + 1) range e b s = (do
      let mid ← splitAt s.count range b
      let s ← assignEncoding fuel (range.take mid) (2 * e % 2 ^ 16) (b + 1) s
      assignEncoding fuel (range.drop mid) ((2 * e + 1) % 2 ^ 16) (b + 1) s) := by
  cases range with
  | nil => simp at h
  | cons v range =>
    cases range with
    | nil => simp at h
    | cons w range => rfl

/-- **Every split has two parts, and every range gets keys that tile the numbers which begin with
its bits.** The induction is on the number of values; no range has more of them than the bits that
are left can tell apart. -/
theorem assignEncoding_spec (hfuel : range.length ≤ fuel) (hne : range ≠ []) (hnodup : range.Nodup)
    (hpos : ∀ v ∈ range, 0 < s.count v) (hmax : range.length ≤ 256) (hb : b ≤ 12)
    (hlen : range.length ≤ 2 ^ (12 - b)) (he : e < 2 ^ b) :
    ∃ s', assignEncoding fuel range e b s = .ok s' ∧ Assigned s s' range e b := by
  induction fuel generalizing range e b s with
  | zero => exact absurd (List.eq_nil_of_length_eq_zero (Nat.le_zero.mp hfuel)) hne
  | succ fuel ih =>
    rcases Nat.lt_or_ge range.length 2 with hone | htwo
    · obtain ⟨v, rfl⟩ := List.length_eq_one_iff.mp
        (show range.length = 1 by have := List.length_pos_iff.mpr hne; omega)
      exact ⟨_, rfl, assigned_setKey hb he⟩
    have hb' : b < 12 := by
      rcases Nat.lt_or_ge b 12 with h | h
      · exact h
      · have hzero : 12 - b = 0 := by omega
        rw [hzero] at hlen
        omega
    have hroom : 2 ^ (12 - b) = 2 * 2 ^ (11 - b) := by
      rw [← pow_succ']
      congr 1
      omega
    have hsmall : 2 ^ (b + 1) ≤ 2 ^ 12 := Nat.pow_le_pow_right (by norm_num) (by omega)
    have hdouble : 2 ^ (b + 1) = 2 * 2 ^ b := pow_succ' 2 b
    -- the two recursive calls, for any split into two parts that fit
    have hparts : ∀ mid, splitAt s.count range b = .ok mid → 0 < mid → mid < range.length →
        mid ≤ 2 ^ (11 - b) → range.length - mid ≤ 2 ^ (11 - b) →
        (∀ keyLength, SplitTree s.count keyLength (b + 1) (range.take mid) →
          SplitTree s.count keyLength (b + 1) (range.drop mid) →
          SplitTree s.count keyLength b (range.take mid ++ range.drop mid)) →
        ∃ s', assignEncoding (fuel + 1) range e b s = .ok s' ∧ Assigned s s' range e b := by
      intro mid hmid hpos₀ hlt hfirst hsecond htree
      have hltake : (range.take mid).length = mid := by
        rw [List.length_take]
        omega
      have hldrop : (range.drop mid).length = range.length - mid := List.length_drop
      have hbits : 12 - (b + 1) = 11 - b := by omega
      obtain ⟨s', hrun, hs'⟩ := @ih s (range.take mid) (2 * e) (b + 1) (by omega)
        (by intro h; rw [h] at hltake; simp at hltake; omega)
        (hnodup.sublist (List.take_sublist _ _)) (fun v hv => hpos v (List.mem_of_mem_take hv))
        (by omega) (by omega) (by rw [hltake, hbits]; exact hfirst) (by omega)
      obtain ⟨s'', hrun', hs''⟩ := @ih s' (range.drop mid) (2 * e + 1) (b + 1) (by omega)
        (by intro h; rw [h] at hldrop; simp at hldrop; omega)
        (hnodup.sublist (List.drop_sublist _ _))
        (fun v hv => by rw [hs'.count_eq]; exact hpos v (List.mem_of_mem_drop hv))
        (by omega) (by omega) (by rw [hldrop, hbits]; exact hsecond) (by omega)
      have hdisj : (range.take mid).Disjoint (range.drop mid) := by
        have h := hnodup
        rw [← List.take_append_drop mid range] at h
        exact (List.nodup_append'.mp h).2.2
      have hall : Assigned s s'' (range.take mid ++ range.drop mid) e b :=
        Assigned.append hdisj hb' (htree _) hs' hs''
      rw [List.take_append_drop] at hall
      refine ⟨s'', ?_, hall⟩
      rw [assignEncoding_succ htwo, hmid]
      simp only [bind, Except.bind]
      rw [Nat.mod_eq_of_lt (show 2 * e < 2 ^ 16 by omega), hrun]
      dsimp only
      rw [Nat.mod_eq_of_lt (show 2 * e + 1 < 2 ^ 16 by omega), hrun']
    rcases Nat.lt_or_ge (2 ^ (11 - b)) range.length with hlong | hshort
    · have hdeep : 4 ≤ b := by
        by_contra hlt
        have hpow : 2 ^ 8 ≤ 2 ^ (11 - b) := Nat.pow_le_pow_right (by norm_num) (by omega)
        omega
      apply hparts _ (splitAt_of_lt (by omega) hlong) (by omega) (by omega) (by omega) (by omega)
      intro keyLength _ _
      rw [List.take_append_drop]
      exact .deep hdeep htwo
    · obtain ⟨mid, hmid, hfirst, hlast, hbal⟩ := splitAt_of_le (by omega) htwo hshort hpos
      exact hparts mid hmid hfirst hlast (by omega) (by omega) fun _ hl hr => .node hbal hl hr

end Assign

/-! ### The weight of the keys -/

section Products

variable {count keyLength : UInt8 → ℕ} {range : List UInt8} {b : ℕ} {v : UInt8}

/-- The split of a range, as a value in it sees it: the part it is in, and the weight of the
other. -/
structure Descends (count keyLength : UInt8 → ℕ) (b : ℕ) (v : UInt8) (range part : List UInt8)
    (other : ℕ) : Prop where
  mem : v ∈ part
  sorted : part.Pairwise fun v w => count v ≤ count w
  pos : ∀ w ∈ part, 0 < count w
  tree : SplitTree count keyLength (b + 1) part
  weight_eq : weight count range = weight count part + other
  heavier : 2 ≤ part.length → count v ≤ other
  close : ∃ w ∈ part, weight count part ≤ other + count w
  elsewhere : ∀ w ∈ range, w ∈ part ∨ count w ≤ other
  length : 2 ≤ range.length

/-- A value is on its own, is deep down, or its range is split. -/
theorem SplitTree.descend (h : SplitTree count keyLength b range)
    (hsorted : range.Pairwise fun v w => count v ≤ count w) (hpos : ∀ w ∈ range, 0 < count w)
    (hv : v ∈ range) :
    keyLength v = b ∨ (4 ≤ b ∧ 2 ≤ range.length) ∨
      ∃ part other, Descends count keyLength b v range part other := by
  obtain hlength | ⟨hdeep, hlen⟩ | @⟨_, l, r, hbal, hleft, hright⟩ := h
  · rw [List.mem_singleton] at hv
    exact .inl (hv ▸ hlength)
  · exact .inr (.inl ⟨hdeep, hlen⟩)
  obtain ⟨hsl, hsr, hlr⟩ := List.pairwise_append.mp hsorted
  obtain ⟨x, hx, hleftLe⟩ := hbal.left
  obtain ⟨y, hy, hrightLe⟩ := hbal.right
  have hxl : x ∈ l := List.mem_of_getLast? hx
  have hyr : y ∈ r := List.mem_of_mem_head? hy
  have hlen : 2 ≤ (l ++ r).length := by
    have := List.length_pos_of_mem hxl
    have := List.length_pos_of_mem hyr
    rw [List.length_append]
    omega
  refine .inr (.inr ?_)
  rcases List.mem_append.mp hv with hv | hv
  · refine ⟨l, weight count r, hv, hsl, fun w hw => hpos w (List.mem_append_left _ hw), hleft,
      weight_append l r, ?_, ⟨x, hxl, hleftLe⟩, ?_, hlen⟩
    · intro _
      exact (hlr v hv y hyr).trans (count_le_weight _ hyr)
    · intro w hw
      rcases List.mem_append.mp hw with hw | hw
      · exact .inl hw
      · exact .inr (count_le_weight _ hw)
  · refine ⟨r, weight count l, hv, hsr, fun w hw => hpos w (List.mem_append_right _ hw), hright,
      (weight_append l r).trans (Nat.add_comm _ _), ?_, ⟨y, hyr, hrightLe⟩, ?_, hlen⟩
    · -- what lies behind the entry at the border weighs no less than the value
      intro htwo
      obtain ⟨rest, rfl⟩ := List.head?_eq_some_iff.mp hy
      obtain ⟨z, zs, rfl⟩ := List.exists_cons_of_length_pos
        (show 0 < rest.length by simp at htwo; omega)
      simp only [weight_cons] at hrightLe
      rcases List.mem_cons.mp hv with rfl | hv
      · have := (List.pairwise_cons.mp hsr).1 z List.mem_cons_self
        omega
      · have := count_le_weight count hv
        rw [weight_cons] at this
        omega
    · intro w hw
      rcases List.mem_append.mp hw with hw | hw
      · exact .inr (count_le_weight _ hw)
      · exact .inl hw

/-- **A value that occurs often has a short key.** After four splits the other parts weigh at least
five times as much as the value. -/
theorem SplitTree.product_le (h : SplitTree count keyLength 0 range)
    (hsorted : range.Pairwise fun v w => count v ≤ count w) (hpos : ∀ w ∈ range, 0 < count w)
    (hv : v ∈ range) (hmax : keyLength v ≤ 12) : count v * keyLength v ≤ 2 * weight count range := by
  have hmul : ∀ {n : ℕ}, keyLength v ≤ n → count v * n ≤ 2 * weight count range →
      count v * keyLength v ≤ 2 * weight count range := by
    intro n hle hbound
    exact (Nat.mul_le_mul_left _ hle).trans hbound
  rcases h.descend hsorted hpos hv with hlength | ⟨hdeep, -⟩ | ⟨r₁, s₁, d₁⟩
  · exact hmul hlength.le (by omega)
  · omega
  have w₁ := count_le_weight count d₁.mem
  have e₁ := d₁.weight_eq
  rcases d₁.tree.descend d₁.sorted d₁.pos d₁.mem with hlength | ⟨hdeep, -⟩ | ⟨r₂, s₂, d₂⟩
  · exact hmul hlength.le (by omega)
  · omega
  have h₁ := d₁.heavier d₂.length
  have w₂ := count_le_weight count d₂.mem
  have e₂ := d₂.weight_eq
  rcases d₂.tree.descend d₂.sorted d₂.pos d₂.mem with hlength | ⟨hdeep, -⟩ | ⟨r₃, s₃, d₃⟩
  · exact hmul hlength.le (by omega)
  · omega
  have h₂ := d₂.heavier d₃.length
  have w₃ := count_le_weight count d₃.mem
  have e₃ := d₃.weight_eq
  rcases d₃.tree.descend d₃.sorted d₃.pos d₃.mem with hlength | ⟨hdeep, -⟩ | ⟨r₄, s₄, d₄⟩
  · exact hmul hlength.le (by omega)
  · omega
  have h₃ := d₃.heavier d₄.length
  have w₄ := count_le_weight count d₄.mem
  have e₄ := d₄.weight_eq
  rcases Nat.lt_or_ge r₄.length 2 with hone | htwo
  · -- on its own after four splits
    rcases d₄.tree.descend d₄.sorted d₄.pos d₄.mem with hlength | ⟨-, hlen⟩ | ⟨r₅, s₅, d₅⟩
    · exact hmul hlength.le (by omega)
    · omega
    · have := d₅.length
      omega
  have h₄ := d₄.heavier htwo
  -- the second split: whatever is taken away from the weight of its part, two parts are left
  have htwice : 2 * count v ≤ s₂ := by
    obtain ⟨x, hx, hclose⟩ := d₂.close
    rcases d₃.elsewhere x hx with hx | hx
    · rcases d₄.elsewhere x hx with hx | hx
      · have := count_le_weight count hx
        omega
      · omega
    · omega
  exact hmul hmax (by omega)

end Products

/-! ### The keys of a source -/

/-- All byte values. -/
abbrev allValues : List UInt8 := (List.range 256).map UInt8.ofNat

theorem mem_allValues (v : UInt8) : v ∈ allValues :=
  List.mem_map.mpr ⟨v.toNat, List.mem_range.mpr v.toNat_lt, UInt8.ofNat_toNat⟩

theorem nodup_allValues : allValues.Nodup := by
  apply List.Nodup.map_on _ List.nodup_range
  intro x hx y hy h
  have h' := congrArg UInt8.toNat h
  rw [UInt8.toNat_ofNat', UInt8.toNat_ofNat', Nat.mod_eq_of_lt (List.mem_range.mp hx),
    Nat.mod_eq_of_lt (List.mem_range.mp hy)] at h'
  exact h'

section Frequency

variable (count : UInt8 → ℕ)

theorem frequencyOrder_perm :
    (frequencyOrder count).Perm (allValues.filter fun v => 0 < count v) :=
  List.perm_insertionSort _ _

theorem mem_frequencyOrder {v : UInt8} : v ∈ frequencyOrder count ↔ 0 < count v := by
  rw [(frequencyOrder_perm count).mem_iff, List.mem_filter]
  simp [mem_allValues]

theorem frequencyOrder_nodup : (frequencyOrder count).Nodup :=
  (frequencyOrder_perm count).nodup_iff.mpr (nodup_allValues.filter _)

theorem frequencyOrder_length_le : (frequencyOrder count).length ≤ 256 := by
  rw [(frequencyOrder_perm count).length_eq]
  exact (List.length_filter_le _ _).trans (by simp)

theorem frequencyOrder_sorted :
    (frequencyOrder count).Pairwise fun v w => count v ≤ count w := by
  have : Std.Total (RarerOrEqual count) := ⟨by
    intro v w
    unfold RarerOrEqual
    rcases Nat.lt_trichotomy (count v) (count w) with h | h | h
    · exact .inl (.inl h)
    · rcases UInt8.le_total v w with h' | h'
      · exact .inl (.inr ⟨h, h'⟩)
      · exact .inr (.inr ⟨h.symm, h'⟩)
    · exact .inr (.inl h)⟩
  have : IsTrans UInt8 (RarerOrEqual count) := ⟨by
    rintro u v w (h | ⟨h, hle⟩) (h' | ⟨h', hle'⟩)
    · exact .inl (h.trans h')
    · exact .inl (h'  ▸ h)
    · exact .inl (h ▸ h')
    · exact .inr ⟨h.trans h', UInt8.le_trans hle hle'⟩⟩
  apply (List.pairwise_insertionSort (RarerOrEqual count) _).imp
  rintro v w (h | ⟨h, -⟩)
  · exact h.le
  · exact h.le

end Frequency

/-- What the encoder has found out about a source before it writes. -/
structure Prepared (s : CHuffmanEncoder) (source : List UInt8) : Prop where
  count_eq : ∀ v, s.count v = source.count v
  mem_sorted : ∀ v, v ∈ s.sorted ↔ v ∈ source
  nodup : s.sorted.Nodup
  length_le : s.sorted.length ≤ 256
  key_lt : ∀ v ∈ source, s.key v < 2 ^ s.keyLength v
  keyLength_le : ∀ v ∈ source, s.keyLength v ≤ 12
  tiles : source ≠ [] → Tiles 12 0 (2 ^ 12) (s.sorted.map s.code)
  unused : ∀ v ∉ source, s.keyLength v = 0
  product_le : ∀ v ∈ source, source.count v * s.keyLength v ≤ 2 * source.length

/-- A sum over all values with their numbers is a sum over the source. -/
theorem sum_count_mul (f : UInt8 → ℕ) (source : List UInt8) {values : List UInt8}
    (hnodup : values.Nodup) (hmem : ∀ v ∈ source, v ∈ values) :
    (values.map fun v => source.count v * f v).sum = (source.map f).sum := by
  have h := Finset.sum_list_map_count source f
  rw [h, ← List.sum_toFinset _ hnodup]
  refine (Finset.sum_subset ?_ ?_).symm
  · intro v hv
    exact List.mem_toFinset.mpr (hmem v (List.mem_toFinset.mp hv))
  · intro v _ hv
    rw [List.count_eq_zero_of_not_mem fun h => hv (List.mem_toFinset.mpr h)]
    simp

/-- **For every source the encoder finds a complete prefix code with at most twelve bits a value.**
-/
theorem sortByFrequency_spec {source : List UInt8} (h : source.length < 2 ^ 31) :
    ∃ s, sortByFrequency (countValues source) = .ok s ∧ Prepared s source := by
  have hcount : countValues source = fun v => source.count v := funext (countValues_eq h)
  have hmem : ∀ v, v ∈ frequencyOrder (fun v => source.count v) ↔ v ∈ source := by
    intro v
    rw [mem_frequencyOrder, List.count_pos_iff]
  rw [hcount]
  unfold sortByFrequency
  dsimp only
  by_cases hempty : frequencyOrder (fun v => source.count v) = []
  · rw [if_pos hempty]
    have hnil : source = [] := by
      apply List.eq_nil_iff_forall_not_mem.mpr
      intro v hv
      rw [← hmem, hempty] at hv
      exact absurd hv List.not_mem_nil
    subst hnil
    refine ⟨_, rfl, fun v => rfl, hmem, frequencyOrder_nodup _, frequencyOrder_length_le _,
      fun v hv => absurd hv List.not_mem_nil, fun v hv => absurd hv List.not_mem_nil,
      fun h => absurd rfl h, fun v _ => rfl, fun v hv => absurd hv List.not_mem_nil⟩
  · rw [if_neg hempty]
    obtain ⟨s, hrun, hs⟩ := @assignEncoding_spec
      { count := fun v => source.count v, sorted := frequencyOrder fun v => source.count v }
      (frequencyOrder fun v => source.count v) 0 0 _ le_rfl hempty (frequencyOrder_nodup _)
      (fun v hv => (mem_frequencyOrder _).mp hv) (frequencyOrder_length_le _) (by norm_num)
      ((frequencyOrder_length_le _).trans (by norm_num)) (by norm_num)
    have hsorted : s.sorted = frequencyOrder fun v => source.count v := hs.sorted_eq
    have htotal : weight (fun v => source.count v) (frequencyOrder fun v => source.count v) =
        source.length := by
      have hsum := sum_count_mul (fun _ => 1) source
        (frequencyOrder_nodup fun v => source.count v) fun v hv => (hmem v).mpr hv
      simpa [weight] using hsum
    refine ⟨s, hrun, fun v => congrFun hs.count_eq v, ?_, ?_, ?_, ?_, ?_, ?_, ?_, ?_⟩
    · rw [hsorted]
      exact hmem
    · rw [hsorted]
      exact frequencyOrder_nodup _
    · rw [hsorted]
      exact frequencyOrder_length_le _
    · exact fun v hv => hs.key_lt v ((hmem v).mpr hv)
    · exact fun v hv => hs.keyLength_le ((hmem v).mpr hv)
    · intro _
      rw [hsorted]
      simpa using hs.tiles
    · exact fun v hv => (hs.others v fun h => hv ((hmem v).mp h)).2
    · intro v hv
      rw [← htotal]
      exact hs.tree.product_le (frequencyOrder_sorted _) (fun w hw => (mem_frequencyOrder _).mp hw)
        ((hmem v).mpr hv) (hs.keyLength_le ((hmem v).mpr hv))

/-- The bits of the keys of some bytes. -/
def bitsOf (s : CHuffmanEncoder) (source : List UInt8) : ℕ := (source.map s.keyLength).sum

/-- **The number of all bits is found, although its products are of 32 bits only.** -/
theorem Prepared.totalBits_eq {s : CHuffmanEncoder} {source : List UInt8} (hs : Prepared s source)
    (h : source.length < 2 ^ 31) : s.totalBits = s.bitsOf source := by
  have hproduct : ∀ v, s.count v * s.keyLength v % 2 ^ 32 = source.count v * s.keyLength v := by
    intro v
    rw [hs.count_eq]
    by_cases hv : v ∈ source
    · have := hs.product_le v hv
      exact Nat.mod_eq_of_lt (by omega)
    · rw [hs.unused v hv, Nat.mul_zero, Nat.zero_mod]
  unfold totalBits bitsOf
  simp only [hproduct]
  exact sum_count_mul s.keyLength source nodup_allValues fun v _ => mem_allValues v

end CHuffmanEncoder

end TortoiseSvn.LogCache
