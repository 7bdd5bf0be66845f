import TortoiseSvn.LogCache.PairPacker

/-!
# The steps of the pair packer

A round counts pairs of neighbouring tokens, adds the frequent ones to the dictionary and writes
their tokens into the strings. The strings are looked at up to the first empty token behind their
first one, as everything else is left over from strings that were removed.

Main results: `accumulateAll_eq`, `addCompressablePairs_eq` and `compressAll_eq`, what the three loops
of a round do to strings that are folded.
-/

namespace TortoiseSvn.LogCache

open TortoiseSvn.Lib CIndexPairDictionary CTokenizedStringContainer CStringDictionary

namespace CPairPacker

/-! ### Neighbours -/

/-- The pairs of neighbouring tokens of a string. -/
def neighbours (ts : List Token) : List (Token × Token) := ts.zip ts.tail

@[simp] theorem neighbours_nil : neighbours [] = [] := rfl

@[simp] theorem neighbours_singleton (t : Token) : neighbours [t] = [] := rfl

@[simp] theorem neighbours_cons_cons (a b : Token) (ts : List Token) :
    neighbours (a :: b :: ts) = (a, b) :: neighbours (b :: ts) := rfl

theorem folded_cons_cons {pairs : List (Token × Token)} {a b : Token} {ts : List Token} :
    Folded pairs (a :: b :: ts) ↔ (a, b) ∉ pairs ∧ Folded pairs (b :: ts) :=
  List.isChain_cons_cons

theorem folded_iff {pairs : List (Token × Token)} {ts : List Token} :
    Folded pairs ts ↔ ∀ p ∈ neighbours ts, p ∉ pairs := by
  induction ts with
  | nil => simp
  | cons a ts ih =>
    rcases ts with _ | ⟨b, ts⟩
    · simp
    · rw [folded_cons_cons, ih, neighbours_cons_cons, List.forall_mem_cons]

theorem mem_of_neighbours {ts : List Token} {p : Token × Token} (h : p ∈ neighbours ts) :
    p.1 ∈ ts ∧ p.2 ∈ ts :=
  ⟨(List.of_mem_zip h).1, List.mem_of_mem_tail (List.of_mem_zip h).2⟩

theorem mem_tail_of_neighbours {ts : List Token} {p : Token × Token} (h : p ∈ neighbours ts) :
    p.2 ∈ ts.tail := (List.of_mem_zip h).2

/-! ### Counting -/

/-- Counting finds every pair once, with the number of its occurrences. -/
theorem countPair_spec (ps : List (Token × Token)) :
    (ps.foldl countPair ([], [])).1.Nodup ∧ (∀ p, p ∈ (ps.foldl countPair ([], [])).1 ↔ p ∈ ps) ∧
      (ps.foldl countPair ([], [])).2 = (ps.foldl countPair ([], [])).1.map (ps.count ·) := by
  induction ps using List.reverseRecOn with
  | nil => simp
  | append_singleton ps p ih =>
    obtain ⟨hnodup, hmem, hcounts⟩ := ih
    rw [List.foldl_append, List.foldl_cons, List.foldl_nil]
    generalize ps.foldl countPair ([], []) = tally at hnodup hmem hcounts
    have hmem' : ∀ q, q ∈ (Pool.autoInsert tally.1 p).1 ↔ q ∈ ps ++ [p] := fun q => by
      rw [Pool.mem_autoInsert, hmem, List.mem_append, List.mem_singleton]
    unfold countPair
    dsimp only
    have hlen : tally.2.length = tally.1.length := by rw [hcounts, List.length_map]
    rcases hf : Pool.find tally.1 p with _ | i
    · have hnot := Pool.find_eq_none.mp hf
      have hins : Pool.autoInsert tally.1 p = (tally.1 ++ [p], tally.1.length) := by
        simp [Pool.autoInsert, hf]
      rw [hins, if_pos hlen.le]
      refine ⟨?_, fun q => by rw [← hmem', hins], ?_⟩
      · have := Pool.autoInsert_nodup hnodup p
        rwa [hins] at this
      · have hp0 : ps.count p = 0 := List.count_eq_zero.mpr fun h => hnot ((hmem p).mpr h)
        have hold : tally.1.map (ps.count ·) = tally.1.map ((ps ++ [p]).count ·) := by
          refine List.map_congr_left fun q hq => ?_
          have hqp : p ≠ q := fun h => hnot (h ▸ hq)
          simp [List.count_append, hqp]
        simp [hcounts, hold, List.count_append, hp0]
    · have hins : Pool.autoInsert tally.1 p = (tally.1, i) := by simp [Pool.autoInsert, hf]
      obtain ⟨hi, hget⟩ := List.getElem?_eq_some_iff.mp (Pool.getElem?_of_find hf)
      rw [hins, if_neg (by omega)]
      refine ⟨hnodup, fun q => by rw [← hmem', hins], ?_⟩
      refine List.ext_getElem (by simp [hcounts]) fun j h₁ h₂ => ?_
      have hj : j < tally.1.length := by simpa using h₂
      have hiff : i = j ↔ p = tally.1[j] := by
        rw [← hget, hnodup.getElem_inj_iff]
      simp only [List.getElem_modify, hcounts, List.getElem_map, List.count_append,
        List.count_singleton]
      by_cases hij : i = j
      · simp [hij, hiff.mp hij]
      · have : ¬ p = tally.1[j] := fun h => hij (hiff.mpr h)
        simp [hij, this]

/-- What is left over behind a string begins with an empty token. -/
def Ended (rest : List Token) : Prop := ∀ t ∈ rest.head?, t = .empty

theorem ended_nil : Ended [] := fun _ h => nomatch h

theorem ended_replicate (k : ℕ) : Ended (List.replicate k .empty) := fun _ h =>
  List.eq_of_mem_replicate (List.mem_of_mem_head? h)

theorem Ended.append {rest rest' : List Token} (h : Ended rest) (h' : Ended rest') :
    Ended (rest ++ rest') := by
  cases rest with
  | nil => exact h'
  | cons t rest => exact h

theorem ended_dropWhile (ts : List Token) : Ended (ts.dropWhile Token.isToken) := by
  intro t ht
  have hnot := List.head?_dropWhile_not Token.isToken ts
  rw [Option.mem_def.mp ht] at hnot
  simpa [Token.isToken] using hnot

theorem Ended.cases {rest : List Token} (h : Ended rest) :
    rest = [] ∨ ∃ rest', rest = .empty :: rest' := by
  cases rest with
  | nil => exact .inl rfl
  | cons t rest' =>
    obtain rfl := h t rfl
    exact .inr ⟨rest', rfl⟩

theorem shown_append {ts rest : List Token} (hne : .empty ∉ ts) (h : Ended rest) :
    shown (ts ++ rest) = ts := by
  rcases h.cases with rfl | ⟨rest', rfl⟩
  · rw [List.append_nil, shown_of_not_mem hne]
  · rw [shown_append_empty, shown_of_not_mem hne]

theorem scanned_append {ts rest : List Token} (hts : ts ≠ []) (hne : .empty ∉ ts.tail)
    (h : Ended rest) : scanned (ts ++ rest) = ts := by
  obtain ⟨a, ts, rfl⟩ := List.exists_cons_of_ne_nil hts
  rw [List.tail_cons] at hne
  rw [List.cons_append, scanned, shown_append hne h]

theorem empty_not_mem_scanned (seg : List Token) : .empty ∉ (scanned seg).tail := by
  cases seg with
  | nil => exact List.not_mem_nil
  | cons t ts => exact empty_not_mem_shown ts

theorem mem_of_scanned {seg : List Token} {t : Token} (h : t ∈ scanned seg) : t ∈ seg := by
  cases seg with
  | nil => exact h
  | cons a ts =>
    rcases List.mem_cons.mp h with rfl | h
    · exact List.mem_cons_self
    · exact List.mem_cons_of_mem _ (List.takeWhile_prefix _ |>.subset h)

theorem accumulatePairs_eq {pairs : List (Token × Token)} (minimumToken : ℕ) {a : Token}
    {ts rest : List Token} (hne : .empty ∉ ts) (hrest : Ended rest) (hfolded : Folded pairs (a :: ts))
    (tally : Tally) : accumulatePairs pairs minimumToken a (ts ++ rest) tally =
      .ok (((neighbours (a :: ts)).filter (untried minimumToken)).foldl countPair tally) := by
  induction ts generalizing a tally with
  | nil =>
    rcases hrest.cases with rfl | ⟨rest', rfl⟩
    · rfl
    · simp [accumulatePairs, Token.isToken]
  | cons b ts ih =>
    have hb : b ≠ .empty := fun h => hne (by simp [h])
    have hts : .empty ∉ ts := fun h => hne (List.mem_cons_of_mem _ h)
    rw [folded_cons_cons] at hfolded
    have hfind : findPair pairs (a, b) = none := Pool.find_eq_none.mpr hfolded.1
    rw [List.cons_append, accumulatePairs, neighbours_cons_cons, List.filter_cons]
    rw [if_neg (by simp [Token.isToken, hb])]
    by_cases hu : untried minimumToken (a, b)
    · simp only [hu, if_true, hfind, List.foldl_cons]
      exact ih hts hfolded.2 _
    · simp only [hu]
      exact ih hts hfolded.2 _

/-! ### Replacing pairs -/

/-- Write pair tokens for pairs of neighbours, from left to right. -/
def squeeze (f : Token × Token → Option ℕ) : List Token → List Token × ℕ
  | a :: b :: ts =>
    match f (a, b) with
    | some i => (.pair i :: (squeeze f ts).1, (squeeze f ts).2 + 1)
    | none => (a :: (squeeze f (b :: ts)).1, (squeeze f (b :: ts)).2)
  | ts => (ts, 0)

/-- The pair a round replaces two tokens by. -/
def replacement (pairs : List (Token × Token)) (minimumToken : ℕ) (p : Token × Token) : Option ℕ :=
  if untried minimumToken p then findPair pairs p else none

theorem replacement_empty {pairs : List (Token × Token)} (h : NoEmptyPart pairs) (minimumToken : ℕ)
    (t : Token) : replacement pairs minimumToken (.empty, t) = none := by
  unfold replacement
  split
  · exact findPair_empty h t
  · rfl

/-- An empty token is not combined with what is left over behind it. -/
theorem combine_empty {pairs : List (Token × Token)} (h : NoEmptyPart pairs) (minimumToken : ℕ)
    (rest : List Token) : Ended (combine pairs minimumToken .empty rest).1 := by
  intro t ht
  cases rest with
  | nil => exact (Option.some.inj ht).symm
  | cons b rest =>
    rw [combine] at ht
    split at ht
    · exact (Option.some.inj ht).symm
    · have hnone := replacement_empty h minimumToken b
      unfold replacement at hnone
      rw [hnone] at ht
      exact (Option.some.inj ht).symm

/-- Combining squeezes the tokens of the string. When it ends with a new pair, the loop goes on
behind it, with what is left over there. -/
theorem combine_eq {pairs : List (Token × Token)} (hpairs : NoEmptyPart pairs) (minimumToken : ℕ)
    {a : Token} {ts rest : List Token} (hne : .empty ∉ ts) (hrest : Ended rest) :
    ∃ tail n, combine pairs minimumToken a (ts ++ rest) =
      ((squeeze (replacement pairs minimumToken) (a :: ts)).1 ++ tail, n) ∧ Ended tail ∧
      (n = 0 ↔ (squeeze (replacement pairs minimumToken) (a :: ts)).2 = 0) := by
  induction hn : ts.length using Nat.strong_induction_on generalizing a ts with
  | _ n ih =>
    rcases ts with _ | ⟨b, ts⟩
    · refine ⟨[], 0, ?_, ended_nil, by simp [squeeze]⟩
      rcases hrest.cases with rfl | ⟨rest', rfl⟩
      · rfl
      · simp [combine, squeeze, Token.isToken]
    have hb : b ≠ .empty := fun h => hne (by simp [h])
    have hts : .empty ∉ ts := fun h => hne (List.mem_cons_of_mem _ h)
    rw [List.cons_append, combine, if_neg (by simp [Token.isToken, hb])]
    rcases hf : replacement pairs minimumToken (a, b) with _ | i
    · obtain ⟨tail, k, hk, htail, hzero⟩ := ih ts.length (by simp [← hn]) hts rfl (a := b)
      have hf' := hf
      unfold replacement at hf'
      simp only [squeeze, hf, hf', hk]
      exact ⟨tail, k, rfl, htail, hzero⟩
    · have hf' := hf
      unfold replacement at hf'
      simp only [squeeze, hf, hf']
      rcases ts with _ | ⟨c, ts⟩
      · rcases hrest.cases with rfl | ⟨rest', rfl⟩
        · exact ⟨[.empty], 1, rfl, fun t ht => (Option.some.inj ht).symm, by simp⟩
        · exact ⟨_, _, rfl, combine_empty hpairs minimumToken rest', by simp⟩
      · obtain ⟨tail, k, hk, htail, -⟩ := ih ts.length (by simp only [List.length_cons] at hn; omega)
          (fun h => hts (List.mem_cons_of_mem _ h)) rfl (a := c)
        simp only [List.cons_append, hk]
        exact ⟨tail, k + 1, rfl, htail, by simp⟩

/-- Combining writes no more tokens than there are: old ones, and tokens of known pairs. -/
theorem combine_tokens (pairs : List (Token × Token)) (minimumToken : ℕ) (a : Token)
    (ts : List Token) : (combine pairs minimumToken a ts).1.length ≤ ts.length + 1 ∧
      ∀ t ∈ (combine pairs minimumToken a ts).1,
        t ∈ a :: ts ∨ t = .empty ∨ ∃ i < pairs.length, t = .pair i := by
  induction hn : ts.length using Nat.strong_induction_on generalizing a ts with
  | _ n ih =>
    rcases ts with _ | ⟨b, ts⟩
    · exact ⟨Nat.le_add_left _ _, fun t ht => .inl ht⟩
    rw [List.length_cons] at hn
    rw [combine]
    split
    · refine ⟨Nat.le_add_left _ _, fun t ht => .inl ?_⟩
      rw [List.mem_singleton.mp ht]
      exact List.mem_cons_self
    split
    · obtain ⟨hlen, htokens⟩ := ih ts.length (by omega) b ts rfl
      refine ⟨by simp only [List.length_cons]; omega, fun t ht => ?_⟩
      rcases List.mem_cons.mp ht with rfl | ht
      · exact .inl List.mem_cons_self
      · exact (htokens t ht).imp_left (List.mem_cons_of_mem _)
    · rename_i i hfound
      have hi : i < pairs.length := by
        split at hfound
        · exact (List.getElem?_eq_some_iff.mp (Pool.getElem?_of_find hfound)).1
        · exact nomatch hfound
      split
      · refine ⟨by simp only [List.length_cons, List.length_nil] at hn ⊢; omega, fun t ht => .inr ?_⟩
        rcases List.mem_cons.mp ht with rfl | ht
        · exact .inr ⟨i, hi, rfl⟩
        · exact .inl (List.mem_singleton.mp ht)
      · rename_i next rest
        rw [List.length_cons] at hn
        obtain ⟨hlen, htokens⟩ := ih rest.length (by omega) next rest rfl
        refine ⟨by simp only [List.length_cons]; omega, fun t ht => ?_⟩
        rcases List.mem_cons.mp ht with rfl | ht
        · exact .inr (.inr ⟨i, hi, rfl⟩)
        · exact (htokens t ht).imp_left fun h =>
            List.mem_cons_of_mem _ (List.mem_cons_of_mem _ h)

/-- The token is no pair from index `m` on. -/
def Older (m : ℕ) (t : Token) : Prop := ∀ i, t = .pair i → i < m

theorem older_empty (m : ℕ) : Older m .empty := fun _ h => Token.noConfusion h

section Squeeze

variable {f : Token × Token → Option ℕ} {m : ℕ} {ts : List Token}

theorem squeeze_of_short (h : ∀ a b rest, ts = a :: b :: rest → False) :
    squeeze f ts = (ts, 0) := by
  unfold squeeze
  split
  · exact absurd rfl (h _ _ _)
  · rfl

theorem neighbours_sublist (a b : Token) (ts : List Token) :
    (neighbours ts).Sublist (neighbours (a :: b :: ts)) := by
  rcases ts with _ | ⟨c, ts⟩
  · exact List.nil_sublist _
  · exact (List.sublist_cons_self _ _).trans (List.sublist_cons_self _ _)

theorem squeeze_zero (h : (squeeze f ts).2 = 0) : (squeeze f ts).1 = ts := by
  induction ts using squeeze.induct f with
  | case1 a b ts i hf => simp [squeeze, hf] at h
  | case2 a b ts hf ih =>
    simp only [squeeze, hf] at h ⊢
    rw [ih h]
  | case3 ts hts =>
    rw [squeeze_of_short hts]

theorem squeeze_none (h : ∀ p ∈ neighbours ts, f p = none) : (squeeze f ts).2 = 0 := by
  induction ts using squeeze.induct f with
  | case1 a b ts i hf => exact absurd (h (a, b) List.mem_cons_self) (by simp [hf])
  | case2 a b ts hf ih =>
    simp only [squeeze, hf]
    exact ih fun p hp => h p (List.mem_cons_of_mem _ hp)
  | case3 ts hts => rw [squeeze_of_short hts]

theorem squeeze_length (f : Token × Token → Option ℕ) (ts : List Token) :
    (squeeze f ts).1.length + (squeeze f ts).2 = ts.length := by
  induction ts using squeeze.induct f with
  | case1 a b ts i hf ih =>
    simp only [squeeze, hf, List.length_cons]
    omega
  | case2 a b ts hf ih =>
    simp only [squeeze, hf, List.length_cons] at ih ⊢
    omega
  | case3 ts hts =>
    rw [squeeze_of_short hts, Nat.add_zero]

theorem squeeze_no_empty (h : .empty ∉ ts) : .empty ∉ (squeeze f ts).1 := by
  induction ts using squeeze.induct f with
  | case1 a b ts i hf ih =>
    simp only [squeeze, hf, List.mem_cons, not_or] at h ⊢
    exact ⟨by simp, ih h.2.2⟩
  | case2 a b ts hf ih =>
    rw [List.mem_cons, not_or] at h
    simp only [squeeze, hf, List.mem_cons, not_or]
    exact ⟨h.1, ih h.2⟩
  | case3 ts hts =>
    rwa [squeeze_of_short hts]

theorem squeeze_ne_nil (h : ts ≠ []) : (squeeze f ts).1 ≠ [] := by
  rcases ts with _ | ⟨a, _ | ⟨b, ts⟩⟩
  · exact absurd rfl h
  · simp [squeeze]
  · rcases hf : f (a, b) with _ | i <;> simp [squeeze, hf]

theorem squeeze_tail_no_empty {a : Token} (h : .empty ∉ ts) :
    .empty ∉ (squeeze f (a :: ts)).1.tail := by
  rcases ts with _ | ⟨b, ts⟩
  · exact List.not_mem_nil
  · rcases hf : f (a, b) with _ | i
    · simp only [squeeze, hf, List.tail_cons]
      exact squeeze_no_empty h
    · simp only [squeeze, hf, List.tail_cons]
      exact squeeze_no_empty fun hts => h (List.mem_cons_of_mem _ hts)

/-- The first token stays or becomes a new pair. -/
theorem squeeze_head (hnew : ∀ p ∈ neighbours ts, ∀ i, f p = some i → m ≤ i) {h : Token}
    (hh : (squeeze f ts).1.head? = some h) : ts.head? = some h ∨ ¬ Older m h := by
  rcases ts with _ | ⟨a, _ | ⟨b, ts⟩⟩
  · exact .inl hh
  · exact .inl hh
  · rcases hf : f (a, b) with _ | i
    · exact .inl (by simpa [squeeze, hf] using hh)
    · obtain rfl : .pair i = h := by simpa [squeeze, hf] using hh
      refine .inr fun hold => ?_
      have := hnew (a, b) (by simp) i hf
      have := hold i rfl
      omega

theorem folded_cons {pairs : List (Token × Token)} {a : Token} {ts : List Token}
    (h : ∀ b, ts.head? = some b → (a, b) ∉ pairs) (hts : Folded pairs ts) :
    Folded pairs (a :: ts) := by
  rcases ts with _ | ⟨b, ts⟩
  · exact List.isChain_singleton _
  · exact folded_cons_cons.mpr ⟨h b rfl, hts⟩

theorem squeeze_folded {pairs : List (Token × Token)}
    (hnew : ∀ p ∈ neighbours ts, ∀ i, f p = some i → m ≤ i)
    (hnone : ∀ p ∈ neighbours ts, f p = none → p ∉ pairs)
    (hold : ∀ p ∈ pairs, Older m p.1 ∧ Older m p.2) : Folded pairs (squeeze f ts).1 := by
  induction ts using squeeze.induct f with
  | case1 a b ts i hf ih =>
    have hsub : ∀ p ∈ neighbours ts, p ∈ neighbours (a :: b :: ts) := fun p hp =>
      (neighbours_sublist a b ts).subset hp
    simp only [squeeze, hf]
    refine folded_cons (fun h _ hmem => ?_)
      (ih (fun p hp => hnew p (hsub p hp)) fun p hp => hnone p (hsub p hp))
    have := hnew (a, b) (by simp) i hf
    have := (hold _ hmem).1 i rfl
    omega
  | case2 a b ts hf ih =>
    have hsub : ∀ p ∈ neighbours (b :: ts), p ∈ neighbours (a :: b :: ts) := fun p hp =>
      List.mem_cons_of_mem _ hp
    simp only [squeeze, hf]
    refine folded_cons (fun h hh hmem => ?_)
      (ih (fun p hp => hnew p (hsub p hp)) fun p hp => hnone p (hsub p hp))
    rcases squeeze_head (fun p hp => hnew p (hsub p hp)) hh with hb | hb
    · obtain rfl : b = h := by simpa using hb
      exact hnone (a, b) (by simp) hf hmem
    · exact hb (hold _ hmem).2
  | case3 ts hts =>
    rw [squeeze_of_short hts]
    rcases ts with _ | ⟨a, _ | ⟨b, ts⟩⟩
    · exact List.isChain_nil
    · exact List.isChain_singleton _
    · exact absurd rfl (hts _ _ _)

theorem count_neighbours_cons {a : Token} {q : Token × Token}
    (h : ∀ b, ts.head? = some b → (a, b) ≠ q) :
    (neighbours (a :: ts)).count q = (neighbours ts).count q := by
  rcases ts with _ | ⟨b, ts⟩
  · rfl
  · rw [neighbours_cons_cons, List.count_cons_of_ne (h b rfl)]

/-- A pair of older tokens occurs no more often than before. -/
theorem squeeze_count (hnew : ∀ p ∈ neighbours ts, ∀ i, f p = some i → m ≤ i) {q : Token × Token}
    (hq : Older m q.1 ∧ Older m q.2) :
    (neighbours (squeeze f ts).1).count q ≤ (neighbours ts).count q := by
  induction ts using squeeze.induct f with
  | case1 a b ts i hf ih =>
    have hsub := neighbours_sublist a b ts
    simp only [squeeze, hf]
    rw [count_neighbours_cons]
    · exact (ih fun p hp => hnew p (hsub.subset hp)).trans (hsub.count_le q)
    · rintro c - rfl
      have := hnew (a, b) (by simp) i hf
      have := hq.1 i rfl
      omega
  | case2 a b ts hf ih =>
    have hrest := ih fun p hp => hnew p (List.mem_cons_of_mem _ hp)
    simp only [squeeze, hf, neighbours_cons_cons]
    rcases hsq : (squeeze f (b :: ts)).1 with _ | ⟨h, rest⟩
    · simp
    · rw [hsq] at hrest
      rcases squeeze_head (fun p hp => hnew p (List.mem_cons_of_mem _ hp)) (by rw [hsq]; rfl) with
        hb | hb
      · obtain rfl : b = h := by simpa using hb
        rw [neighbours_cons_cons, List.count_cons, List.count_cons]
        exact Nat.add_le_add_right hrest _
      · rw [count_neighbours_cons]
        · exact hrest.trans (List.count_le_count_cons)
        · rintro c hc rfl
          obtain rfl : h = c := by simpa using hc
          exact hb hq.2
  | case3 ts hts =>
    rw [squeeze_of_short hts]

theorem squeeze_yields {ws : List (List UInt8)} {pairs : List (Token × Token)}
    (hf : ∀ p ∈ neighbours ts, ∀ i, f p = some i → pairs[i]? = some p) {s : List UInt8}
    (h : (textOf ws pairs).Yields ts s) : (textOf ws pairs).Yields (squeeze f ts).1 s := by
  induction ts using squeeze.induct f generalizing s with
  | case1 a b ts i hfi ih =>
    have hsub : ∀ p ∈ neighbours ts, p ∈ neighbours (a :: b :: ts) := fun p hp =>
      (neighbours_sublist a b ts).subset hp
    have hrule : (textOf ws pairs).rule (.pair i) = .ok (.inr (a, b)) := by
      simp [textOf, hf (a, b) (by simp) i hfi, checked, Except.map]
    have h' : (textOf ws pairs).Yields ([] ++ a :: b :: ts) s := h
    obtain ⟨u, v, hu, hv, rfl⟩ := PairGrammar.yields_cons.mp (h'.fold rfl hrule)
    simp only [squeeze, hfi]
    exact PairGrammar.yields_cons.mpr ⟨u, v, hu, ih (fun p hp => hf p (hsub p hp)) hv, rfl⟩
  | case2 a b ts hfi ih =>
    obtain ⟨u, v, hu, hv, rfl⟩ := PairGrammar.yields_cons.mp h
    simp only [squeeze, hfi]
    exact PairGrammar.yields_cons.mpr ⟨u, v, hu, ih (fun p hp => hf p (List.mem_cons_of_mem _ hp)) hv,
      rfl⟩
  | case3 ts hts =>
    rwa [squeeze_of_short hts]

end Squeeze

/-! ### The steps of a round -/

/-- The segments of a container's buffer, between what is left over in front and behind, and the
tokens `strs` that a round looks at there. -/
structure Laid (c : CTokenizedStringContainer) (front behind : List Token)
    (segs strs : List (List Token)) : Prop where
  data : c.stringData = front ++ segs.flatten ++ behind
  offsets : c.offsets = offsetsFrom front.length segs
  scanned : segs.map scanned = strs

section Steps

variable {c : CTokenizedStringContainer} {front behind : List Token} {segs strs : List (List Token)}
  {m : ℕ}

/-- A string that a round looks at, and what is left over behind its tokens. -/
theorem Laid.split (h : Laid c front behind segs strs) {i : ℕ} {ts : List Token}
    (hi : strs[i]? = some ts) (hne : ts ≠ []) : ∃ a us rest, ts = a :: us ∧ .empty ∉ us ∧
      Ended rest ∧ segs[i]? = some (a :: (us ++ rest)) := by
  rw [← h.scanned, List.getElem?_map, Option.map_eq_some_iff] at hi
  obtain ⟨seg, hseg, rfl⟩ := hi
  cases seg with
  | nil => exact absurd rfl hne
  | cons a rest =>
    refine ⟨a, shown rest, rest.dropWhile Token.isToken, rfl, empty_not_mem_shown rest,
      ended_dropWhile rest, ?_⟩
    rw [shown, List.takeWhile_append_dropWhile]
    exact hseg

theorem Laid.stringRange (h : Laid c front behind segs strs) {i : ℕ} {a : Token} {rest : List Token}
    (hi : segs[i]? = some (a :: rest)) :
    stringRange c i = .ok (front.length + offsetOf segs i, a, rest) := by
  have hlt := (List.getElem?_eq_some_iff.mp hi).1
  have hmono := offsetOf_mono segs (Nat.le_succ i)
  have hle := offsetOf_le segs (i + 1)
  have hseg : segment c.stringData (front.length + offsetOf segs i)
      (front.length + offsetOf segs (i + 1)) = a :: rest := by
    have hsegment := segment_flatten hi behind
    rw [Lib.segment] at hsegment ⊢
    rw [h.data, List.append_assoc, List.drop_length_add_append, Nat.add_sub_add_left]
    exact hsegment
  unfold CPairPacker.stringRange
  rw [h.offsets, offsetsFrom_getElem? hlt.le, offsetsFrom_getElem? hlt]
  dsimp only
  have hlast : front.length + offsetOf segs (i + 1) ≤ c.stringData.length := by
    rw [h.data, List.length_append, List.length_append]
    omega
  rw [if_pos ⟨Nat.add_le_add_left hmono _, hlast⟩, hseg]

/-- The pairs that are counted in a string. -/
def counted (m : ℕ) (ts : List Token) : List (Token × Token) := (neighbours ts).filter (untried m)

/-- The tokens of the string at an index. -/
def stringAt (strs : List (List Token)) (i : ℕ) : List Token := strs[i]?.getD []

theorem accumulateAll_eq (h : Laid c front behind segs strs)
    (hfolded : ∀ ts ∈ strs, Folded c.pairs ts) {active : List ℕ}
    (hactive : ∀ i ∈ active, ∃ ts, strs[i]? = some ts ∧ ts ≠ []) (tally : Tally) :
    accumulateAll c m active tally =
      .ok ((active.flatMap fun i => counted m (stringAt strs i)).foldl countPair tally) := by
  induction active generalizing tally with
  | nil => rfl
  | cons i active ih =>
    obtain ⟨ts, hi, hne⟩ := hactive i List.mem_cons_self
    obtain ⟨a, us, rest, rfl, hus, hended, hseg⟩ := h.split hi hne
    have hacc := accumulatePairs_eq m hus hended (hfolded _ (List.mem_of_getElem? hi)) tally
    have hrest := ih (fun j hj => hactive j (List.mem_cons_of_mem _ hj))
      ((counted m (a :: us)).foldl countPair tally)
    rw [accumulateAll, h.stringRange hseg, List.flatMap_cons, List.foldl_append, stringAt, hi,
      Option.getD_some]
    simp only [bind, Except.bind, hacc]
    exact hrest

theorem addCompressablePairs_eq {counts : List ((Token × Token) × ℕ)} {pairs : List (Token × Token)}
    (h : (pairs ++ (counts.filter (4 < ·.2)).map Prod.fst).Nodup) :
    addCompressablePairs counts pairs =
      .ok (pairs ++ (counts.filter (4 < ·.2)).map Prod.fst) := by
  induction counts generalizing pairs with
  | nil => simp [addCompressablePairs]
  | cons e counts ih =>
    obtain ⟨p, n⟩ := e
    by_cases hn : 4 < n
    · have hfilter : (((p, n) :: counts).filter (4 < ·.2)).map Prod.fst =
          p :: (counts.filter (4 < ·.2)).map Prod.fst := by simp [hn]
      rw [hfilter] at h ⊢
      have hp : p ∉ pairs := fun hm =>
        (List.nodup_append.mp h).2.2 p hm p List.mem_cons_self rfl
      have hfind : findPair pairs p = none := Pool.find_eq_none.mpr hp
      rw [addCompressablePairs, if_pos hn]
      simp only [insertPair, hfind, bind, Except.bind]
      rw [ih (by simpa using h)]
      simp
    · have hfilter : (((p, n) :: counts).filter (4 < ·.2)).map Prod.fst =
          (counts.filter (4 < ·.2)).map Prod.fst := by simp [hn]
      rw [hfilter] at h ⊢
      rw [addCompressablePairs, if_neg hn, ih h]

/-- A token that stands in the buffer, or the one of a known pair. -/
def Usable (c : CTokenizedStringContainer) (t : Token) : Prop :=
  t ∈ c.stringData ∨ t = .empty ∨ ∃ i < c.pairs.length, t = .pair i

theorem Laid.mem (h : Laid c front behind segs strs) {t : Token} :
    t ∈ c.stringData ↔ t ∈ front ∨ (∃ seg ∈ segs, t ∈ seg) ∨ t ∈ behind := by
  rw [h.data, List.mem_append, List.mem_append, List.mem_flatten, or_assoc]

theorem compressString_eq (h : Laid c front behind segs strs) (hpairs : NoEmptyPart c.pairs) {i : ℕ}
    {ts : List Token} (hi : strs[i]? = some ts) (hne : ts ≠ []) :
    ∃ seg n, compressString c m i =
        .ok ({ c with stringData := front ++ (segs.set i seg).flatten ++ behind }, n) ∧
      scanned seg = (squeeze (replacement c.pairs m) ts).1 ∧
      (segs[i]?).map List.length = some seg.length ∧
      (n = 0 ↔ (squeeze (replacement c.pairs m) ts).2 = 0) ∧ ∀ t ∈ seg, Usable c t := by
  obtain ⟨a, us, rest, rfl, hus, hended, hseg⟩ := h.split hi hne
  obtain ⟨tail, n, hcombine, htail, hzero⟩ := combine_eq hpairs m hus hended (a := a)
  obtain ⟨hlen, htokens⟩ := combine_tokens c.pairs m a (us ++ rest)
  -- the string is filled up to its former length
  let written := (combine c.pairs m a (us ++ rest)).1
  let filled := written ++ List.replicate ((us ++ rest).length + 1 - written.length) Token.empty
  have hfilled : filled.length = (a :: (us ++ rest)).length := by
    rw [List.length_append, List.length_replicate, List.length_cons]
    exact Nat.add_sub_cancel' hlen
  have hmem : a :: (us ++ rest) ∈ segs := List.mem_of_getElem? hseg
  refine ⟨filled, n, ?_, ?_, ?_, hzero, fun t ht => ?_⟩
  · have hn : (combine c.pairs m a (us ++ rest)).2 = n := by rw [hcombine]
    have hset : front ++ (segs.set i filled).flatten ++ behind =
        c.stringData.take (front.length + offsetOf segs i) ++ filled ++
          c.stringData.drop (front.length + offsetOf segs i + filled.length) := by
      have hle : offsetOf segs i + filled.length ≤ segs.flatten.length := by
        rw [hfilled, ← offsetOf_succ hseg]
        exact offsetOf_le segs (i + 1)
      rw [flatten_set hseg hfilled, h.data, List.append_assoc front segs.flatten behind,
        List.take_length_add_append, Nat.add_assoc front.length, List.drop_length_add_append,
        List.take_append_of_le_length (Nat.le_of_add_right_le hle), List.drop_append_of_le_length hle]
      simp only [List.append_assoc]
    unfold compressString
    rw [h.stringRange hseg]
    simp only [bind, Except.bind, pure, Except.pure]
    rw [hset, ← hn]
  · have heq : filled = (squeeze (replacement c.pairs m) (a :: us)).1 ++
        (tail ++ List.replicate ((us ++ rest).length + 1 - written.length) Token.empty) := by
      show (combine c.pairs m a (us ++ rest)).1 ++ _ = _
      rw [hcombine, List.append_assoc]
    rw [heq]
    exact scanned_append (squeeze_ne_nil (List.cons_ne_nil _ _)) (squeeze_tail_no_empty hus)
      (htail.append (ended_replicate _))
  · rw [hseg, Option.map_some, hfilled]
  · rcases List.mem_append.mp ht with ht | ht
    · rcases htokens t ht with ht | ht
      · exact .inl (h.mem.mpr (.inr (.inl ⟨_, hmem, ht⟩)))
      · exact .inr ht
    · exact .inr (.inl (List.eq_of_mem_replicate ht))

/-- The strings behind compressing some of them. -/
def squeezed (f : Token × Token → Option ℕ) (active : List ℕ) (strs : List (List Token)) :
    List (List Token) :=
  strs.mapIdx fun j ts => if j ∈ active then (squeeze f ts).1 else ts

theorem squeezed_getElem? (f : Token × Token → Option ℕ) (active : List ℕ)
    (strs : List (List Token)) (j : ℕ) : (squeezed f active strs)[j]? =
      (strs[j]?).map fun ts => if j ∈ active then (squeeze f ts).1 else ts := by
  rw [squeezed, List.getElem?_mapIdx]

theorem squeezed_cons {f : Token × Token → Option ℕ} {i : ℕ} {active : List ℕ} (hi : i ∉ active)
    (strs : List (List Token)) : squeezed f (i :: active) strs =
      squeezed f active (strs.set i (squeeze f (stringAt strs i)).1) := by
  refine List.ext_getElem? fun j => ?_
  rw [squeezed_getElem?, squeezed_getElem?, List.getElem?_set]
  by_cases hij : i = j
  · subst hij
    rcases hs : strs[i]? with _ | ts
    · have : ¬ i < strs.length := by simpa using hs
      simp [this]
    · obtain ⟨hlt, rfl⟩ := List.getElem?_eq_some_iff.mp hs
      simp [hlt, hi, stringAt]
  · have : j ≠ i := fun h => hij h.symm
    simp [hij, this]

theorem Laid.set (h : Laid c front behind segs strs) {i : ℕ} {seg : List Token}
    (hlen : (segs[i]?).map List.length = some seg.length) :
    Laid { c with stringData := front ++ (segs.set i seg).flatten ++ behind } front behind
      (segs.set i seg) (strs.set i (CTokenizedStringContainer.scanned seg)) where
  data := rfl
  offsets := by
    show c.offsets = _
    rw [h.offsets]
    refine offsetsFrom_congr (List.ext_getElem? fun j => ?_) _
    rw [List.getElem?_map, List.getElem?_map, List.getElem?_set]
    by_cases hij : i = j
    · subst hij
      have hlt : i < segs.length := by
        by_contra hge
        simp [List.getElem?_eq_none (Nat.not_lt.mp hge)] at hlen
      rw [if_pos rfl, if_pos hlt, hlen]
      rfl
    · simp [hij]
  scanned := by rw [List.map_set, h.scanned]

theorem compressAll_eq {f : Token × Token → Option ℕ} {active : List ℕ}
    (h : Laid c front behind segs strs) (hpairs : NoEmptyPart c.pairs)
    (hf : replacement c.pairs m = f) (hnodup : active.Nodup)
    (hactive : ∀ i ∈ active, ∃ ts, strs[i]? = some ts ∧ ts ≠ []) :
    ∃ data segs' n, compressAll m active c = .ok ({ c with stringData := data },
        active.filter (fun i => 0 < (squeeze f (stringAt strs i)).2), n) ∧
      Laid { c with stringData := data } front behind segs' (squeezed f active strs) ∧
      (n = 0 ↔ (active.map fun i => (squeeze f (stringAt strs i)).2).sum = 0) ∧
      ∀ t ∈ data, Usable c t := by
  induction active generalizing c segs strs with
  | nil =>
    refine ⟨c.stringData, segs, 0, rfl, ?_, Iff.rfl, fun t ht => .inl ht⟩
    have hid : squeezed f [] strs = strs :=
      List.ext_getElem? fun j => by simp [squeezed_getElem?]
    rw [hid]
    exact h
  | cons i active ih =>
    obtain ⟨hi, hnodup⟩ := List.nodup_cons.mp hnodup
    obtain ⟨ts, hts, hne⟩ := hactive i List.mem_cons_self
    obtain ⟨seg, n, hcompress, hscanned, hlen, hzero, husable⟩ :=
      compressString_eq h hpairs hts hne (m := m)
    rw [hf] at hscanned hzero
    have hat : stringAt strs i = ts := by rw [stringAt, hts, Option.getD_some]
    have hother : ∀ j ∈ active, stringAt (strs.set i (squeeze f ts).1) j = stringAt strs j := by
      intro j hj
      have hij : i ≠ j := fun h => hi (h ▸ hj)
      rw [stringAt, stringAt, List.getElem?_set_ne hij]
    have hrest : ∀ j ∈ active, ∃ us, (strs.set i (squeeze f ts).1)[j]? = some us ∧ us ≠ [] := by
      intro j hj
      have hij : i ≠ j := fun h => hi (h ▸ hj)
      rw [List.getElem?_set_ne hij]
      exact hactive j (List.mem_cons_of_mem _ hj)
    have hset := h.set hlen
    rw [hscanned] at hset
    obtain ⟨data, segs', total, hall, hlaid, hsum, htokens⟩ := ih hset hpairs hf hnodup hrest
    rw [List.map_congr_left fun j hj => by rw [hother j hj]] at hsum
    rw [List.filter_congr fun j hj => by rw [hother j hj]] at hall
    refine ⟨data, segs', n + total, ?_, ?_, ?_, fun t ht => ?_⟩
    · have hpos : 0 < n ↔ 0 < (squeeze f ts).2 := by omega
      rw [compressAll]
      simp only [bind, Except.bind, hcompress, hall, pure, Except.pure, List.filter_cons, hat,
        decide_eq_true_eq, hpos]
    · rw [squeezed_cons hi, hat]
      exact hlaid
    · rw [List.map_cons, List.sum_cons, hat]
      omega
    · rcases htokens t ht with hmem | hmem
      · rcases hset.mem.mp hmem with hmem | ⟨us, hus, hmem⟩ | hmem
        · exact .inl (h.mem.mpr (.inl hmem))
        · rcases List.mem_or_eq_of_mem_set hus with hus | rfl
          · exact .inl (h.mem.mpr (.inr (.inl ⟨us, hus, hmem⟩)))
          · rename_i hmem'
            exact husable t hmem'
        · exact .inl (h.mem.mpr (.inr (.inr hmem)))
      · exact .inr hmem

end Steps

end CPairPacker

end TortoiseSvn.LogCache
