import TortoiseSvn.LogCache.PairOrder

/-!
# What compressing keeps

The rounds of `Compress` start with all strings of two tokens or more. What they leave is compacted,
if something was replaced, and then renumbered.

Main result: `Stores.compress`, compressing returns and keeps the texts. It is stated for containers
from which strings were removed, too; there it needs that nothing is left over behind the strings when
a pair is replaced, and that no frequent pair begins with the empty token.
-/

namespace TortoiseSvn.LogCache

open TortoiseSvn.Lib CPairPacker CTokenizedStringContainer

namespace CTokenizedStringContainer

/-! ### The strings the rounds start with -/

theorem mem_longStrings {k start : ℕ} {segs : List (List Token)} {i : ℕ} :
    i ∈ longStrings k (offsetsFrom start segs) ↔
      ∃ j seg, i = k + j ∧ segs[j]? = some seg ∧ 2 ≤ seg.length := by
  induction segs generalizing k start with
  | nil => simp [offsetsFrom, longStrings]
  | cons seg segs ih =>
    have hstep : i ∈ longStrings k (offsetsFrom start (seg :: segs)) ↔
        (2 ≤ seg.length ∧ i = k) ∨ i ∈ longStrings (k + 1) (offsetsFrom (start + seg.length) segs) := by
      rw [offsetsFrom, offsetsFrom_eq_cons, longStrings]
      split
      · rename_i hlong
        have hlen : 2 ≤ seg.length := by omega
        rw [List.mem_cons]
        simp [hlen]
      · rename_i hshort
        have hlen : ¬ 2 ≤ seg.length := by omega
        simp [hlen]
    rw [hstep, ih]
    constructor
    · rintro (⟨hlen, rfl⟩ | ⟨j, seg', rfl, hj, hlen⟩)
      · exact ⟨0, seg, rfl, rfl, hlen⟩
      · exact ⟨j + 1, seg', by omega, hj, hlen⟩
    · rintro ⟨_ | j, seg', rfl, hj, hlen⟩
      · obtain rfl : seg = seg' := Option.some.inj hj
        exact .inl ⟨hlen, rfl⟩
      · exact .inr ⟨j, seg', by omega, hj, hlen⟩

theorem longStrings_nodup (k start : ℕ) (segs : List (List Token)) :
    (longStrings k (offsetsFrom start segs)).Nodup := by
  induction segs generalizing k start with
  | nil => exact List.nodup_nil
  | cons seg segs ih =>
    have hrest := ih (k + 1) (start + seg.length)
    rw [offsetsFrom, offsetsFrom_eq_cons, longStrings]
    split
    · refine List.nodup_cons.mpr ⟨fun hmem => ?_, by rwa [← offsetsFrom_eq_cons]⟩
      rw [← offsetsFrom_eq_cons, mem_longStrings] at hmem
      obtain ⟨j, -, hk, -⟩ := hmem
      omega
    · rwa [← offsetsFrom_eq_cons]

theorem shown_scanned (seg : List Token) : shown (scanned seg) = shown seg := by
  cases seg with
  | nil => rfl
  | cons t seg =>
    have hseg := shown_of_not_mem (empty_not_mem_shown seg)
    unfold shown at hseg
    simp only [scanned, shown, List.takeWhile_cons, hseg]

/-- The first round tries all pairs. -/
theorem untried_zero (q : Token × Token) : untried 0 q = true := by
  obtain ⟨a, b⟩ := q
  cases b <;> simp [untried, reaches]

/-- The tokens of the strings that the rounds look at. -/
def scannedStrings (c : CTokenizedStringContainer) : List (List Token) :=
  List.zipWith (fun first last => scanned (segment c.stringData first last)) c.offsets c.offsets.tail

/-- The pairs that the first round adds: those that occur more than four times. -/
def frequentPairs (c : CTokenizedStringContainer) : List (Token × Token) :=
  added 0 c.scannedStrings (longStrings 0 c.offsets)

section

variable {c : CTokenizedStringContainer} {ws : List (List UInt8)} {front behind : List Token}
  {segs : List (List Token)} {texts : List (List UInt8)}

theorem Stores.scannedStrings (h : c.Stores ws front segs behind texts) :
    c.scannedStrings = segs.map scanned := by
  unfold CTokenizedStringContainer.scannedStrings
  rw [h.offsets, h.data]
  refine List.ext_getElem? fun i => ?_
  rw [List.getElem?_zipWith, List.getElem?_tail, List.getElem?_map]
  rcases hi : segs[i]? with _ | seg
  · have hlen : segs.length ≤ i := by simpa using hi
    have hnone : (offsetsFrom front.length segs)[i + 1]? = none := by simpa using hlen
    rw [hnone]
    rcases (offsetsFrom front.length segs)[i]? <;> rfl
  · have hlt := (List.getElem?_eq_some_iff.mp hi).1
    have hseg := segment_flatten hi behind
    rw [offsetsFrom_getElem? hlt.le, offsetsFrom_getElem? hlt]
    rw [Lib.segment] at hseg
    simp only [Option.map_some, Lib.segment]
    rw [List.append_assoc, List.drop_length_add_append, Nat.add_sub_add_left, hseg]

/-- The invariant of the rounds holds at their start, unless a frequent pair begins with the empty
token. -/
theorem Stores.start (h : c.Stores ws front segs behind texts)
    (hempty : ∀ q ∈ c.frequentPairs, q.1 ≠ .empty) :
    RoundInv (.start c) ws front behind segs (segs.map scanned) texts where
  data := h.data
  offsets := h.offsets
  scanned := rfl
  words := h.words
  sound := h.sound
  nodup := h.nodup
  known := h.known
  folded := by
    intro ts hts
    obtain ⟨seg, hseg, rfl⟩ := List.mem_map.mp hts
    exact h.folded seg hseg
  yields := by
    rw [List.forall₂_map_left_iff]
    refine h.yields.imp fun seg s hy => ?_
    rwa [shown_scanned]
  hidden := by
    intro t
    by_contra hmany
    refine hempty (.empty, t) (mem_added.mpr ⟨untried_zero _, ?_⟩) rfl
    rw [h.scannedStrings]
    exact Nat.lt_of_not_le hmany
  active_nodup := by
    show (longStrings 0 c.offsets).Nodup
    rw [h.offsets]
    exact longStrings_nodup 0 _ segs
  active := by
    intro i hi
    change i ∈ longStrings 0 c.offsets at hi
    rw [h.offsets, mem_longStrings] at hi
    obtain ⟨j, seg, rfl, hj, hlen⟩ := hi
    refine ⟨scanned seg, by simp [hj], ?_⟩
    rintro hnil
    cases seg with
    | nil => simp at hlen
    | cons t seg => simp [CTokenizedStringContainer.scanned] at hnil
  minimum := Nat.zero_le _
  closed := by
    intro q _ _ j ts hj hts hq
    change j ∉ longStrings 0 c.offsets at hj
    rw [List.getElem?_map, Option.map_eq_some_iff] at hts
    obtain ⟨seg, hseg, rfl⟩ := hts
    refine hj ?_
    rw [h.offsets, mem_longStrings]
    refine ⟨j, seg, (Nat.zero_add j).symm, hseg, ?_⟩
    -- a string with a pair of neighbours has two tokens
    rcases seg with _ | ⟨t, _ | ⟨u, seg⟩⟩
    · exact absurd hq List.not_mem_nil
    · exact absurd hq List.not_mem_nil
    · simp

end

end CTokenizedStringContainer

namespace CPairPacker

/-! ### Removing the empty tokens -/

theorem shown_cons (t : Token) (seg : List Token) :
    shown (t :: seg) = if t.isToken then t :: shown seg else [] := by
  rw [shown, List.takeWhile_cons, shown]

/-- A step of the loop, before which the offsets at the read position are crossed. -/
theorem compactBody_eq {data : List Token} {iter next n : ℕ} {token : Token} (tail bs : List ℕ)
    (target : List Token) (hget : data[iter]? = some token) (hnext : next ≠ iter) :
    compactBody data ⟨iter, List.replicate n iter ++ next :: tail, target, bs⟩ = .ok (.inl
      (if token.isToken then
        ⟨iter + 1, next :: tail, target ++ [token], bs ++ List.replicate n target.length⟩
      else ⟨next, next :: tail, target, bs ++ List.replicate n target.length⟩)) := by
  have htake : (List.replicate n iter ++ next :: tail).takeWhile (· = iter) =
      List.replicate n iter := by
    rw [List.takeWhile_append_of_pos fun x hx => by simp [List.eq_of_mem_replicate hx],
      List.takeWhile_cons_of_neg (by simpa using hnext), List.append_nil]
  have hdrop : (List.replicate n iter ++ next :: tail).drop n = next :: tail :=
    List.drop_left' List.length_replicate
  unfold compactBody
  simp only [hget, htake, List.length_replicate, hdrop]
  split <;> rfl

/-- The loop of `Compact` ends with the shown tokens, from a read position at which `n` offsets are to
be crossed and behind which `rest` and the segments `segs` follow. -/
def Compacts (data : List Token) (segs : List (List Token)) (rest : List Token) : Prop :=
  ∀ (n iter : ℕ) (target : List Token) (bs : List ℕ), data.drop iter = rest ++ segs.flatten →
    iter ≤ data.length → ∃ s, Returns (compactBody data)
        ⟨iter, List.replicate n iter ++ offsetsFrom (iter + rest.length) segs, target, bs⟩ s ∧
      s.target = target ++ shown rest ++ (segs.map shown).flatten ∧
      s.boundaries ++ List.replicate s.offsets.length s.target.length =
        bs ++ List.replicate n target.length ++
          offsetsFrom (target ++ shown rest).length (segs.map shown)

/-- Inside a segment, the loop copies a token or goes to the end of the segment. -/
theorem Compacts.segment {data : List Token} {segs : List (List Token)} (h : Compacts data segs [])
    (rest : List Token) : Compacts data segs rest := by
  induction rest with
  | nil => exact h
  | cons t rest ih =>
    intro n iter target bs hdata _
    have hget : data[iter]? = some t := by
      rw [← List.head?_drop, hdata]
      rfl
    have hlt := (List.getElem?_eq_some_iff.mp hget).1
    have htail : data.drop (iter + 1) = rest ++ segs.flatten := by
      rw [← List.drop_drop, hdata]
      rfl
    have hskip : data.drop (iter + (t :: rest).length) = [] ++ segs.flatten := by
      rw [← List.drop_drop, hdata, List.drop_left, List.nil_append]
    have hend : iter + (t :: rest).length ≤ data.length := by
      have hlen := congrArg List.length hdata
      rw [List.length_drop, List.length_append] at hlen
      omega
    have hne : iter + (t :: rest).length ≠ iter := by
      rw [List.length_cons]
      omega
    have hbody := compactBody_eq (n := n) (offsetsFrom (iter + (t :: rest).length) segs).tail bs
      target hget hne
    rw [← offsetsFrom_eq_cons] at hbody
    rw [shown_cons]
    by_cases ht : t.isToken = true
    · obtain ⟨s, hs, htarget, hbounds⟩ :=
        ih 0 (iter + 1) (target ++ [t]) (bs ++ List.replicate n target.length) htail hlt
      rw [if_pos ht] at hbody ⊢
      rw [Nat.add_right_comm, Nat.add_assoc] at hs
      refine ⟨s, .round hbody hs, ?_, ?_⟩
      · rw [htarget, List.append_assoc target, List.singleton_append]
      · rw [hbounds, List.append_assoc target, List.singleton_append, List.replicate_zero,
          List.append_nil]
    · obtain ⟨s, hs, htarget, hbounds⟩ :=
        h 0 _ target (bs ++ List.replicate n target.length) hskip hend
      rw [if_neg ht] at hbody ⊢
      refine ⟨s, .round hbody hs, htarget, ?_⟩
      rw [hbounds, List.replicate_zero, List.append_nil]
      rfl

/-- At the end of a segment, the loop crosses an offset. -/
theorem compacts (data : List Token) (segs : List (List Token)) (rest : List Token) :
    Compacts data segs rest := by
  induction segs generalizing rest with
  | nil =>
    refine Compacts.segment (fun n iter target bs hdata hiter => ?_) rest
    have hlen : iter = data.length := by
      have hle := List.drop_eq_nil_iff.mp hdata
      omega
    refine ⟨⟨iter, List.replicate n iter ++ [iter], target, bs⟩, .leave ?_, ?_, ?_⟩
    · unfold compactBody
      simp [hlen, offsetsFrom]
    · simp [shown]
    · simp [shown, offsetsFrom, List.replicate_succ']
  | cons seg segs ih =>
    refine Compacts.segment (fun n iter target bs hdata hiter => ?_) rest
    obtain ⟨s, hs, htarget, hbounds⟩ := ih seg (n + 1) iter target bs hdata hiter
    refine ⟨s, ?_, ?_, ?_⟩
    · rw [List.replicate_succ', List.append_assoc] at hs
      exact hs
    · rw [htarget]
      simp [shown]
    · rw [hbounds, List.replicate_succ']
      simp [shown, offsetsFrom]

section

variable {p : CPairPacker} {ws : List (List UInt8)} {front behind : List Token}
  {segs strs : List (List Token)} {texts : List (List UInt8)}

/-- Compacting keeps the texts, if nothing was replaced or nothing is left over behind. -/
theorem RoundInv.compact (h : RoundInv p ws front behind segs strs texts)
    (hfront : ∀ t ∈ front.head?, t = .empty) (hbehind : p.replacements = 0 ∨ behind = []) :
    ∃ c front' segs', p.Compact c ∧ c.Stores ws front' segs' behind texts ∧
      (front = [] → front' = []) ∧
      ((∀ ts ∈ strs, ts.head? ≠ some .empty) → ∀ seg ∈ segs', seg.head? ≠ some .empty) := by
  have hstrs := h.scanned
  unfold Compact
  by_cases hzero : p.replacements = 0
  · refine ⟨p.container, front, segs, by rw [if_pos hzero], ?_, id, fun hheads seg hseg => ?_⟩
    · constructor
      · exact h.words
      · exact h.data
      · exact h.offsets
      · exact h.sound
      · exact h.nodup
      · exact h.known
      · exact hfront
      · intro seg hseg
        exact h.folded _ (hstrs ▸ List.mem_map_of_mem hseg)
      · have hyields := h.yields
        rw [← hstrs, List.forall₂_map_left_iff] at hyields
        refine hyields.imp fun seg s hy => ?_
        rwa [shown_scanned] at hy
    · have hhead := hheads _ (hstrs ▸ List.mem_map_of_mem hseg)
      cases seg with
      | nil => exact hhead
      | cons t seg => exact hhead
  · obtain rfl := hbehind.resolve_left hzero
    have hdata : p.container.stringData.drop 0 = front ++ segs.flatten := by
      rw [List.drop_zero, h.data, List.append_nil]
    obtain ⟨s, hs, htarget, hbounds⟩ :=
      compacts p.container.stringData segs front 0 0 [] [] hdata (Nat.zero_le _)
    have hnone : shown front = [] := by
      cases front with
      | nil => rfl
      | cons t front =>
        rw [hfront t rfl]
        rfl
    rw [hnone, List.nil_append, List.nil_append] at htarget
    rw [hnone, List.nil_append, List.nil_append, List.replicate_zero, List.nil_append] at hbounds
    rw [Nat.zero_add, List.replicate_zero, List.nil_append, ← h.offsets] at hs
    have hmem : ∀ seg ∈ segs, ∀ t ∈ shown seg, t ∈ p.container.stringData := fun seg hseg t ht =>
      h.mem.mpr (.inr (.inl ⟨seg, hseg, (List.takeWhile_prefix _).subset ht⟩))
    refine ⟨_, [], segs.map shown, by rw [if_neg hzero]; exact ⟨s, hs, rfl⟩, ?_, fun _ => rfl,
      fun _ seg hseg => ?_⟩
    · constructor
      · exact h.words
      · show s.target = _
        rw [htarget]
        simp
      · exact hbounds
      · exact h.sound
      · exact h.nodup
      · intro t ht
        change t ∈ s.target at ht
        rw [htarget] at ht
        obtain ⟨_, hseg', ht⟩ := List.mem_flatten.mp ht
        obtain ⟨seg, hseg, rfl⟩ := List.mem_map.mp hseg'
        exact h.known t (hmem seg hseg t ht)
      · exact fun t ht => nomatch ht
      · intro seg' hseg'
        obtain ⟨seg, hseg, rfl⟩ := List.mem_map.mp hseg'
        have hfolded := h.folded _ (hstrs ▸ List.mem_map_of_mem hseg)
        rw [scanned_of_not_mem (empty_not_mem_shown seg)]
        rcases shown_cases (empty_not_mem_scanned seg) with hnil | hsame
        · rw [shown_scanned] at hnil
          rw [hnil]
          exact List.isChain_nil
        · rw [shown_scanned] at hsame
          rwa [hsame]
      · have hyields := h.yields
        rw [← hstrs, List.forall₂_map_left_iff] at hyields
        rw [List.forall₂_map_left_iff]
        refine hyields.imp fun seg s hy => ?_
        rw [shown_of_not_mem (empty_not_mem_shown seg)]
        rwa [shown_scanned] at hy
    · obtain ⟨seg, -, rfl⟩ := List.mem_map.mp hseg
      intro hhead
      exact empty_not_mem_shown seg (List.mem_of_mem_head? hhead)

/-- Compacting has one result. -/
theorem Compact.unique {c₁ c₂ : CTokenizedStringContainer} (h₁ : p.Compact c₁)
    (h₂ : p.Compact c₂) : c₁ = c₂ := by
  unfold Compact at h₁ h₂
  split at h₁
  · rename_i hzero
    rw [if_pos hzero] at h₂
    rw [h₁, h₂]
  · rename_i hzero
    rw [if_neg hzero] at h₂
    obtain ⟨s₁, hs₁, rfl⟩ := h₁
    obtain ⟨s₂, hs₂, rfl⟩ := h₂
    rw [hs₁.unique hs₂]

end

end CPairPacker

namespace CTokenizedStringContainer

/-! ### Compressing -/

section

variable {c : CTokenizedStringContainer} {ws : List (List UInt8)} {front behind : List Token}
  {segs : List (List Token)} {texts : List (List UInt8)}

/-- Compressing works on the strings if nothing is left over behind them and no frequent pair begins
with the empty token, or if no pair is frequent at all. -/
def Compressible (c : CTokenizedStringContainer) : Prop :=
  c.frequentPairs = [] ∨
    c.offsets.getLast? = some c.stringData.length ∧ ∀ q ∈ c.frequentPairs, q.1 ≠ .empty

theorem Stores.behind_eq_nil_iff (h : c.Stores ws front segs behind texts) :
    c.offsets.getLast? = some c.stringData.length ↔ behind = [] := by
  have hlast : c.offsets.getLast? = some (front ++ segs.flatten).length := by
    rw [List.getLast?_eq_getElem?, h.offsets, offsetsFrom_length, Nat.add_sub_cancel,
      offsetsFrom_getElem? le_rfl, offsetOf_of_le le_rfl, List.length_append]
  rw [hlast, h.data, Option.some.injEq]
  constructor
  · intro hlen
    have hbehind : (front ++ segs.flatten ++ behind).length =
        (front ++ segs.flatten).length + behind.length := List.length_append
    exact List.length_eq_zero_iff.mp (by omega)
  · rintro rfl
    rw [List.append_nil]

/-- **Compressing returns** and keeps the texts. No assertion fails on the way. -/
theorem Stores.compress (h : c.Stores ws front segs behind texts) (hc : c.Compressible) :
    ∃ c' front' segs' behind', c.Compress c' ∧ c'.Stores ws front' segs' behind' texts ∧
      (front = [] → front' = []) ∧ (behind = [] → behind' = []) ∧
      ((∀ seg ∈ segs, seg.head? ≠ some .empty) → ∀ seg ∈ segs', seg.head? ≠ some .empty) := by
  have hempty : ∀ q ∈ c.frequentPairs, q.1 ≠ .empty := by
    rcases hc with hnone | ⟨-, hempty⟩
    · rw [hnone]
      exact fun q hq => absurd hq List.not_mem_nil
    · exact hempty
  obtain ⟨p, segs₁, strs₁, hrounds, hinv, hrepl, hheads⟩ := (h.start hempty).rounds_spec
  have hbehind : p.replacements = 0 ∨ behind = [] := by
    refine hc.imp (fun hnone => hrepl ?_) fun hlast => h.behind_eq_nil_iff.mp hlast.1
    rw [frequentPairs, h.scannedStrings] at hnone
    exact hnone
  obtain ⟨c₂, front₂, segs₂, hcompact, hstores, hfront₂, hheads₂⟩ :=
    hinv.compact h.hidden hbehind
  obtain ⟨c', found, hoptimize, hstores'⟩ := hstores.optimizePairs
  refine ⟨c', _, _, _, ⟨p, c₂, hrounds, hcompact, hoptimize⟩, hstores', fun hf => ?_, fun hb => ?_,
    fun hh seg' hseg' => ?_⟩
  · rw [hfront₂ hf]
    rfl
  · rw [hb]
    rfl
  · obtain ⟨seg, hseg, rfl⟩ := List.mem_map.mp hseg'
    have hhead := hheads₂ (hheads fun ts hts => ?_) seg hseg
    · rw [List.head?_map, ne_eq, Option.map_eq_some_iff]
      rintro ⟨t, ht, hplace⟩
      rw [ht] at hhead
      exact place_ne_empty (fun he => hhead (he ▸ rfl)) hplace
    · obtain ⟨seg, hseg, rfl⟩ := List.mem_map.mp hts
      have hhead := hh seg hseg
      cases seg with
      | nil => exact hhead
      | cons t seg => exact hhead

/-- Compressing has one result. -/
theorem Compress.unique {c₁ c₂ : CTokenizedStringContainer} (h₁ : c.Compress c₁)
    (h₂ : c.Compress c₂) : c₁ = c₂ := by
  obtain ⟨p₁, d₁, hr₁, hc₁, ho₁⟩ := h₁
  obtain ⟨p₂, d₂, hr₂, hc₂, ho₂⟩ := h₂
  obtain rfl := hr₁.unique hr₂
  obtain rfl := hc₁.unique hc₂
  exact ho₁.unique ho₂

end

end CTokenizedStringContainer

end TortoiseSvn.LogCache
