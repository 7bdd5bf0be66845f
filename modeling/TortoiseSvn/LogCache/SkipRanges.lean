import TortoiseSvn.Lib.SortedMap
import TortoiseSvn.LogCache.Globals

/-!
# The skip ranges of one path

`SPerPathRanges` stores the revision ranges of one path as a map from start to size. The header
promises that they do not overlap. `Add` inserts or enlarges one entry, merges it with the range
before it and then with **one** range behind it, so an added range that reaches the starts of two
or more stored ranges leaves an overlap behind.

Main result: `add_run_iff`. Along a run of `Add` calls every state is separated and covers exactly
the union of what was added iff no call reaches more than one stored start behind its own.
-/

namespace TortoiseSvn.LogCache

open TortoiseSvn.Lib

/-- `SPerPathRanges::TRanges`, `std::map<revision_t, revision_t>`: start ↦ size.
Source: `SkipRevisionInfo.h` -/
abbrev TRanges := SortedMap ℕ ℕ

namespace TRanges

open SortedMap

/-! ### `SPerPathRanges::Add` -/

/-- "merge it with the previous one": the entry under the cursor is erased when the range before
it reaches `start`; returns the cursor and the updated `end` of the new range.
Source: `SkipRevisionInfo.cpp` `SPerPathRanges::Add` -/
def mergePrevious (c : Cursor ℕ ℕ) (start stop : ℕ) : Cursor ℕ ℕ × ℕ :=
  match c.back with
  | [] => (c, stop)
  | p :: _ =>
    let previousEnd := addU p.1 p.2
    if start ≤ previousEnd then
      let stop := if stop < previousEnd then previousEnd else stop
      (c.eraseToPrev (subU stop p.1), stop)
    else (c, stop)

/-- "merge it with the next one": at most one range behind the cursor is looked at.
Source: `SkipRevisionInfo.cpp` `SPerPathRanges::Add` -/
def mergeNext (c : Cursor ℕ ℕ) (stop : ℕ) : Cursor ℕ ℕ :=
  match c.ahead with
  | [] => c
  | n :: _ =>
    if n.1 ≤ stop then
      (c.setVal (subU (max stop (addU n.1 n.2)) c.cur.1)).eraseNext
    else c

/-- "insert the new range / enlarge existing range".
Source: `SkipRevisionInfo.cpp` `SPerPathRanges::Add` -/
def insertOrEnlarge (m : TRanges) (start size : ℕ) : Cursor ℕ ℕ :=
  let (c, inserted) := m.emplace start size
  if !inserted && decide (c.cur.2 < size) then c.setVal size else c

/-- Source: `SkipRevisionInfo.cpp` `SPerPathRanges::Add` -/
def add (m : TRanges) (start size : ℕ) : TRanges :=
  let stop := addU start size
  let (c, stop) := mergePrevious (m.insertOrEnlarge start size) start stop
  (mergeNext c stop).toMap

/-- The map after a sequence of `Add (start, size)` calls on the empty one. -/
def run (calls : List (ℕ × ℕ)) : TRanges := calls.foldl (fun m c => m.add c.1 c.2) empty

/-! ### What the store is for -/

/-- The revisions of a list of ranges `[start, start + size)`. -/
def covered (l : List (ℕ × ℕ)) : Set ℕ := {r | ∃ e ∈ l, e.1 ≤ r ∧ r < e.1 + e.2}

/-- The ranges are pairwise disjoint and no two of them touch. -/
def Separated (l : List (ℕ × ℕ)) : Prop :=
  l.Pairwise fun a b => a.1 + a.2 < b.1 ∨ b.1 + b.2 < a.1

/-- What a run promises: separated ranges that cover exactly what was added. -/
def Exact (calls : List (ℕ × ℕ)) : Prop :=
  Separated (run calls).entries ∧ covered (run calls).entries = covered calls

/-- The stored ranges that begin behind `start` and not behind the end of the new range. -/
def reached (m : TRanges) (start size : ℕ) : List (ℕ × ℕ) :=
  m.entries.filter fun e => decide (start < e.1 ∧ e.1 ≤ start + size)

@[simp] theorem covered_nil : covered [] = ∅ := by simp [covered]

@[simp] theorem covered_append (l₁ l₂ : List (ℕ × ℕ)) :
    covered (l₁ ++ l₂) = covered l₁ ∪ covered l₂ := by
  ext r
  simp only [covered, List.mem_append, Set.mem_ofPred_eq, Set.mem_union]
  constructor
  · rintro ⟨e, h | h, he⟩
    · exact Or.inl ⟨e, h, he⟩
    · exact Or.inr ⟨e, h, he⟩
  · rintro (⟨e, h, he⟩ | ⟨e, h, he⟩)
    · exact ⟨e, Or.inl h, he⟩
    · exact ⟨e, Or.inr h, he⟩

theorem covered_cons (a : ℕ × ℕ) (l : List (ℕ × ℕ)) :
    covered (a :: l) = Set.Ico a.1 (a.1 + a.2) ∪ covered l := by
  ext r
  simp [covered]

@[simp] theorem covered_reverse (l : List (ℕ × ℕ)) : covered l.reverse = covered l := by
  simp [covered]

/-! ### The invariant -/

/-- Ranges in increasing order, none reaching the next one. -/
abbrev Gapped (l : List (ℕ × ℕ)) : Prop := l.Pairwise fun a b => a.1 + a.2 < b.1

/-- Non-empty ranges that do not wrap. -/
abbrev Proper (l : List (ℕ × ℕ)) : Prop := ∀ e ∈ l, 0 < e.2 ∧ e.1 + e.2 < 2 ^ 32

/-- The invariant of the store: ordered ranges with a gap between any two. -/
structure WellFormed (l : List (ℕ × ℕ)) : Prop where
  /-- Every range ends before the next one begins. -/
  gapped : Gapped l
  /-- The ranges are not empty and do not wrap. -/
  proper : Proper l

theorem WellFormed.separated {l : List (ℕ × ℕ)} (h : WellFormed l) : Separated l :=
  h.gapped.imp fun hab => Or.inl hab

/-- In key order, separated proper ranges are gapped. -/
theorem Separated.gapped {m : TRanges} (h : Separated m.entries) : Gapped m.entries := by
  refine (h.and m.sorted).imp ?_
  rintro a b ⟨h | h, hlt⟩ <;> omega

theorem WellFormed.append_inv {l₁ l₂ : List (ℕ × ℕ)} (h : WellFormed (l₁ ++ l₂)) :
    WellFormed l₁ ∧ WellFormed l₂ ∧ ∀ a ∈ l₁, ∀ b ∈ l₂, a.1 + a.2 < b.1 := by
  obtain ⟨h₁, h₂, h₁₂⟩ := List.pairwise_append.mp h.gapped
  exact ⟨⟨h₁, fun e he => h.proper e (List.mem_append_left _ he)⟩,
    ⟨h₂, fun e he => h.proper e (List.mem_append_right _ he)⟩, h₁₂⟩

theorem WellFormed.cons_inv {a : ℕ × ℕ} {l : List (ℕ × ℕ)} (h : WellFormed (a :: l)) :
    (0 < a.2 ∧ a.1 + a.2 < 2 ^ 32) ∧ WellFormed l ∧ ∀ b ∈ l, a.1 + a.2 < b.1 := by
  obtain ⟨h₁, h₂⟩ := List.pairwise_cons.mp h.gapped
  exact ⟨h.proper a List.mem_cons_self, ⟨h₂, fun e he => h.proper e (List.mem_cons_of_mem _ he)⟩, h₁⟩

/-- A well-formed list of ranges opened around one entry. -/
theorem WellFormed.of_parts {bs l : List (ℕ × ℕ)} {c : ℕ × ℕ} (hbs : WellFormed bs)
    (hl : WellFormed l) (hc : 0 < c.2 ∧ c.1 + c.2 < 2 ^ 32) (hb : ∀ b ∈ bs, b.1 + b.2 < c.1)
    (ha : ∀ a ∈ l, c.1 + c.2 < a.1) : WellFormed (bs ++ c :: l) := by
  refine ⟨List.pairwise_append.mpr ⟨hbs.gapped, List.pairwise_cons.mpr ⟨ha, hl.gapped⟩, ?_⟩, ?_⟩
  · intro b hbm x hx
    rcases List.mem_cons.mp hx with rfl | hx
    · exact hb b hbm
    · have := hb b hbm
      have := ha x hx
      omega
  · intro e he
    rcases List.mem_append.mp he with he | he
    · exact hbs.proper e he
    · rcases List.mem_cons.mp he with rfl | he
      · exact hc
      · exact hl.proper e he

/-! ### What the three steps of `add` do -/

/-- The map after "insert the new range / enlarge existing range", opened at the new range: only
the range before it may reach it, and only if it was inserted rather than enlarged. -/
structure Inserted (m : TRanges) (start size : ℕ) (c : Cursor ℕ ℕ) : Prop where
  key : c.cur.1 = start
  size_le : size ≤ c.cur.2
  lt_pow : start + c.cur.2 < 2 ^ 32
  back : WellFormed c.back.reverse
  ahead : WellFormed c.ahead
  cross : ∀ b ∈ c.back, ∀ a ∈ c.ahead, b.1 + b.2 < a.1
  fresh : c.cur.2 = size ∨
    (∀ b ∈ c.back, b.1 + b.2 < start) ∧ ∀ a ∈ c.ahead, start + c.cur.2 < a.1
  covers : covered c.toMap.entries = covered m.entries ∪ Set.Ico start (start + size)
  reached_eq : m.reached start size = c.ahead.filter fun e => decide (e.1 ≤ start + size)

/-- The keys around a cursor. -/
theorem cursor_keys (c : Cursor ℕ ℕ) :
    (∀ b ∈ c.back, b.1 < c.cur.1) ∧ ∀ a ∈ c.ahead, c.cur.1 < a.1 := by
  obtain ⟨-, h₂, h₁₂⟩ := List.pairwise_append.mp c.sorted
  exact ⟨fun b hb => h₁₂ b (List.mem_reverse.mpr hb) c.cur List.mem_cons_self,
    (List.pairwise_cons.mp h₂).1⟩

/-- Only the entries behind the cursor can be reached by a range that starts there. -/
theorem reached_of_cursor {m : TRanges} {start : ℕ} (size : ℕ) {c : Cursor ℕ ℕ} (hk : c.cur.1 = start)
    (hm : m.entries = c.back.reverse ++ c.ahead ∨ m.entries = c.toMap.entries) :
    m.reached start size = c.ahead.filter fun e => decide (e.1 ≤ start + size) := by
  obtain ⟨hb, ha⟩ := cursor_keys c
  have hback : c.back.reverse.filter (fun e => decide (start < e.1 ∧ e.1 ≤ start + size)) = [] := by
    rw [List.filter_eq_nil_iff]
    intro e he
    have := hb e (List.mem_reverse.mp he)
    simp only [decide_eq_true_eq]
    omega
  have hahead : c.ahead.filter (fun e => decide (start < e.1 ∧ e.1 ≤ start + size)) =
      c.ahead.filter fun e => decide (e.1 ≤ start + size) := by
    refine List.filter_congr fun e he => ?_
    have := ha e he
    simp only [decide_eq_decide]
    omega
  rcases hm with hm | hm
  · rw [reached, hm, List.filter_append, hback, hahead, List.nil_append]
  · rw [reached, hm, Cursor.toMap_entries, List.filter_append, hback, List.nil_append,
      List.filter_cons_of_neg (by simp [hk]), hahead]

theorem insertOrEnlarge_inserted {m : TRanges} (hm : WellFormed m.entries) {start size : ℕ}
    (hlt : start + size < 2 ^ 32) : Inserted m start size (m.insertOrEnlarge start size) := by
  obtain ⟨c, ⟨he, hcur, hent⟩ | ⟨he, hkey, hent⟩⟩ := m.emplace_cases start size
  · have hc : m.insertOrEnlarge start size = c := by simp [insertOrEnlarge, he]
    rw [hc]
    obtain ⟨hb, ha, hcross⟩ := WellFormed.append_inv (hent ▸ hm)
    refine ⟨by rw [hcur], by rw [hcur], by rw [hcur]; exact hlt, hb, ha,
      fun b hbm => hcross b (List.mem_reverse.mpr hbm), Or.inl (by rw [hcur]), ?_,
      reached_of_cursor _ (by rw [hcur]) (Or.inl hent)⟩
    rw [Cursor.toMap_entries, hent, hcur, covered_append, covered_cons, covered_append]
    ext r
    simp only [Set.mem_union]
    tauto
  · -- the entry with key `start` is there: a gap separates it from both neighbours
    obtain ⟨hb, hca, hcross⟩ := WellFormed.append_inv (hent ▸ hm)
    obtain ⟨hproper, ha, hgap⟩ := hca.cons_inv
    have hback : ∀ b ∈ c.back, b.1 + b.2 < start := fun b hbm =>
      hkey ▸ hcross b (List.mem_reverse.mpr hbm) c.cur List.mem_cons_self
    have hfar : ∀ b ∈ c.back, ∀ a ∈ c.ahead, b.1 + b.2 < a.1 := fun b hbm a ham =>
      hcross b (List.mem_reverse.mpr hbm) a (List.mem_cons_of_mem _ ham)
    have hreach := reached_of_cursor size hkey (Or.inr hent)
    by_cases hle : c.cur.2 < size
    · have hc : m.insertOrEnlarge start size = c.setVal size := by
        simp [insertOrEnlarge, he, hle]
      rw [hc]
      refine ⟨hkey, le_rfl, hlt, hb, ha, hfar, Or.inl rfl, ?_, hreach⟩
      rw [hent, Cursor.toMap_entries, Cursor.toMap_entries, covered_append, covered_append,
        covered_cons, covered_cons]
      ext r
      simp only [Cursor.setVal, Set.mem_union, Set.mem_Ico, hkey]
      grind
    · have hc : m.insertOrEnlarge start size = c := by
        simp [insertOrEnlarge, he, hle]
      rw [hc]
      refine ⟨hkey, by omega, hkey ▸ hproper.2, hb, ha, hfar,
        Or.inr ⟨hback, fun a ham => hkey ▸ hgap a ham⟩, ?_, hreach⟩
      rw [hent, Cursor.toMap_entries, covered_append, covered_cons]
      ext r
      simp only [Set.mem_union, Set.mem_Ico, hkey]
      grind

/-- The map after "merge it with the previous one": everything is in order except that the range
under the cursor may reach ranges behind it, and then it ends at `stop`. -/
structure Opened (c : Cursor ℕ ℕ) (stop : ℕ) : Prop where
  back : WellFormed c.back.reverse
  ahead : WellFormed c.ahead
  proper : 0 < c.cur.2 ∧ c.cur.1 + c.cur.2 < 2 ^ 32
  back_lt : ∀ b ∈ c.back, b.1 + b.2 < c.cur.1
  stop_le : stop ≤ c.cur.1 + c.cur.2
  reach : stop = c.cur.1 + c.cur.2 ∨ ∀ a ∈ c.ahead, c.cur.1 + c.cur.2 < a.1

theorem mergePrevious_opened {m : TRanges} {start size : ℕ} {c : Cursor ℕ ℕ}
    (h : Inserted m start size c) (hsize : 0 < size) :
    ∃ c' stop, mergePrevious c start (start + size) = (c', stop) ∧ Opened c' stop ∧
      covered c'.toMap.entries = covered m.entries ∪ Set.Ico start (start + size) ∧
      m.reached start size = c'.ahead.filter fun e => decide (e.1 ≤ stop) := by
  have hproper : 0 < c.cur.2 ∧ c.cur.1 + c.cur.2 < 2 ^ 32 := by
    have := h.key; have := h.size_le; have := h.lt_pow
    omega
  have hstay : (∀ b ∈ c.back, b.1 + b.2 < start) → Opened c (start + size) := fun hb =>
    { back := h.back, ahead := h.ahead, proper := hproper
      back_lt := fun b hbm => h.key ▸ hb b hbm
      stop_le := by have := h.key; have := h.size_le; omega
      reach := by
        rcases h.fresh with hf | ⟨-, hf⟩
        · exact Or.inl (by rw [hf, h.key])
        · exact Or.inr fun a ha => h.key ▸ hf a ha }
  rcases hbk : c.back with _ | ⟨p, bs⟩
  · exact ⟨c, _, by simp [mergePrevious, hbk], hstay (by simp [hbk]), h.covers, h.reached_eq⟩
  have hback : WellFormed (bs.reverse ++ [p]) := by simpa [hbk] using h.back
  obtain ⟨hbs, hp1, hgap⟩ := hback.append_inv
  have hpp := hp1.proper p (by simp)
  have hpk : p.1 < start := h.key ▸ (cursor_keys c).1 p (by simp [hbk])
  have hbs_lt : ∀ b ∈ bs, b.1 + b.2 < p.1 := fun b hb =>
    hgap b (List.mem_reverse.mpr hb) p (by simp)
  by_cases hreach : start ≤ p.1 + p.2
  · -- only a freshly inserted range is reached by the one before it
    have hcs : c.cur.2 = size := by
      rcases h.fresh with hf | ⟨hf, -⟩
      · exact hf
      · have := hf p (by simp [hbk])
        omega
    obtain ⟨stop, hstop⟩ : ∃ stop, stop = max (start + size) (p.1 + p.2) := ⟨_, rfl⟩
    have hlt : stop < 2 ^ 32 := by
      have := h.lt_pow
      omega
    have hsub : subU stop p.1 = stop - p.1 := subU_of_le (by omega) hlt
    have hmerge : mergePrevious c start (start + size) = (c.eraseToPrev (stop - p.1), stop) := by
      have hif : (if start + size < p.1 + p.2 then p.1 + p.2 else start + size) = stop := by
        rw [hstop]; split <;> omega
      simp only [mergePrevious, hbk, addU_of_lt hpp.2, hreach, if_true, hif, hsub]
    obtain ⟨e₁, e₂, e₃⟩ := Cursor.eraseToPrev_of_back hbk (stop - p.1)
    refine ⟨_, stop, hmerge, ⟨e₁ ▸ hbs, e₃ ▸ h.ahead, ?_, ?_, ?_, Or.inl ?_⟩, ?_, ?_⟩
    · rw [e₂]
      constructor <;> dsimp only <;> omega
    · rw [e₁, e₂]
      exact hbs_lt
    · rw [e₂]
      dsimp only
      omega
    · rw [e₂]
      dsimp only
      omega
    · have hcov := h.covers
      rw [Cursor.toMap_entries, hbk, List.reverse_cons, covered_append, covered_append,
        covered_cons, covered_cons, h.key, hcs] at hcov
      rw [Cursor.toMap_entries, e₁, e₂, e₃, covered_append, covered_cons, ← hcov]
      ext r
      simp only [Set.mem_union, Set.mem_Ico, covered_nil, Set.mem_empty_iff_false]
      grind
    · rw [h.reached_eq, e₃]
      refine List.filter_congr fun a ha => ?_
      have := h.cross p (by simp [hbk]) a ha
      simp only [decide_eq_decide]
      omega
  · refine ⟨c, _, by simp [mergePrevious, hbk, addU_of_lt hpp.2, hreach], hstay ?_, h.covers,
      h.reached_eq⟩
    rw [hbk]
    intro b hb
    rcases List.mem_cons.mp hb with rfl | hb
    · omega
    · have := hbs_lt b hb
      omega

/-- A range that reaches at most one stored start is merged into a well-formed map. -/
theorem mergeNext_wellFormed {c : Cursor ℕ ℕ} {stop : ℕ} (h : Opened c stop)
    (hle : (c.ahead.filter fun e => decide (e.1 ≤ stop)).length ≤ 1) :
    WellFormed (mergeNext c stop).toMap.entries ∧
      covered (mergeNext c stop).toMap.entries = covered c.toMap.entries := by
  have hkeys := (cursor_keys c).2
  have hstay : (∀ a ∈ c.ahead, c.cur.1 + c.cur.2 < a.1) → WellFormed c.toMap.entries := fun ha =>
    WellFormed.of_parts h.back h.ahead h.proper
      (fun b hb => h.back_lt b (List.mem_reverse.mp hb)) ha
  rcases hah : c.ahead with _ | ⟨n, l⟩
  · have hm : mergeNext c stop = c := by simp [mergeNext, hah]
    exact ⟨by rw [hm]; exact hstay (by simp [hah]), by rw [hm]⟩
  obtain ⟨hnp, hl, hgap⟩ := WellFormed.cons_inv (hah ▸ h.ahead)
  by_cases hn : n.1 ≤ stop
  · have hstop : stop = c.cur.1 + c.cur.2 := by
      rcases h.reach with he | he
      · exact he
      · have := he n (by simp [hah])
        have := h.stop_le
        omega
    have hcn : c.cur.1 < n.1 := hkeys n (by simp [hah])
    have hfar : ∀ a ∈ l, stop < a.1 := by
      intro a ha
      by_contra hcon
      have hmem : a ∈ l.filter fun e => decide (e.1 ≤ stop) :=
        List.mem_filter.mpr ⟨ha, by simpa using hcon⟩
      rw [hah, List.filter_cons_of_pos (by simpa using hn), List.length_cons] at hle
      have := List.length_pos_of_mem hmem
      omega
    have hmax : max stop (n.1 + n.2) < 2 ^ 32 := by
      have := h.proper.2
      omega
    have hm : (mergeNext c stop).toMap.entries =
        c.back.reverse ++ (c.cur.1, max stop (n.1 + n.2) - c.cur.1) :: l := by
      simp [mergeNext, hah, hn, Cursor.eraseNext, Cursor.setVal, addU_of_lt hnp.2,
        subU_of_le (show c.cur.1 ≤ max stop (n.1 + n.2) by omega) hmax]
    rw [hm]
    refine ⟨WellFormed.of_parts h.back hl ?_
      (fun b hb => h.back_lt b (List.mem_reverse.mp hb)) ?_, ?_⟩
    · constructor <;> dsimp only <;> omega
    · intro a ha
      have := hfar a ha
      have := hgap a ha
      dsimp only
      omega
    · rw [Cursor.toMap_entries, hah, covered_append, covered_append, covered_cons, covered_cons,
        covered_cons]
      ext r
      simp only [Set.mem_union, Set.mem_Ico]
      grind
  · have hm : mergeNext c stop = c := by simp [mergeNext, hah, hn]
    rw [hm]
    refine ⟨hstay fun a ha => ?_, rfl⟩
    rcases h.reach with he | he
    · rw [← he]
      rcases List.mem_cons.mp (hah ▸ ha) with rfl | ha
      · omega
      · have := hgap a ha
        omega
    · exact he a ha

/-- A range that reaches two stored starts swallows the first one only. -/
theorem mergeNext_not_separated {c : Cursor ℕ ℕ} {stop : ℕ} (h : Opened c stop)
    (hle : ¬ (c.ahead.filter fun e => decide (e.1 ≤ stop)).length ≤ 1) :
    ¬ Separated (mergeNext c stop).toMap.entries := by
  have hkeys := (cursor_keys c).2
  rcases hah : c.ahead with _ | ⟨n, l⟩
  · simp [hah] at hle
  obtain ⟨hnp, hl, hgap⟩ := WellFormed.cons_inv (hah ▸ h.ahead)
  obtain ⟨a, ha, hastop⟩ : ∃ a ∈ l, a.1 ≤ stop := by
    by_contra hcon
    have hnil : l.filter (fun e => decide (e.1 ≤ stop)) = [] := by
      rw [List.filter_eq_nil_iff]
      intro a ha
      simpa using fun h' => hcon ⟨a, ha, h'⟩
    refine hle ?_
    rw [hah, List.filter_cons, hnil]
    split <;> simp
  have hna := hgap a ha
  have hcn : c.cur.1 < n.1 := hkeys n (by simp [hah])
  have hstop : stop ≤ c.cur.1 + c.cur.2 := h.stop_le
  have hmax : max stop (n.1 + n.2) < 2 ^ 32 := by
    have := h.proper.2
    omega
  have hm : (mergeNext c stop).toMap.entries =
      c.back.reverse ++ (c.cur.1, max stop (n.1 + n.2) - c.cur.1) :: l := by
    simp [mergeNext, hah, show n.1 ≤ stop by omega, Cursor.eraseNext, Cursor.setVal,
      addU_of_lt hnp.2, subU_of_le (show c.cur.1 ≤ max stop (n.1 + n.2) by omega) hmax]
  rw [hm]
  intro hsep
  have := (List.pairwise_cons.mp (List.pairwise_append.mp hsep).2.1).1 a ha
  dsimp only at this
  omega

/-! ### One call and whole runs -/

/-- One `Add` on a well-formed map. -/
theorem add_step {m : TRanges} (hm : WellFormed m.entries) {start size : ℕ} (hsize : 0 < size)
    (hlt : start + size < 2 ^ 32) :
    ((m.reached start size).length ≤ 1 → WellFormed (m.add start size).entries ∧
      covered (m.add start size).entries = covered m.entries ∪ Set.Ico start (start + size)) ∧
    (¬ (m.reached start size).length ≤ 1 → ¬ Separated (m.add start size).entries) := by
  obtain ⟨c, stop, hmerge, hopen, hcov, hreach⟩ :=
    mergePrevious_opened (insertOrEnlarge_inserted hm hlt) hsize
  have hadd : m.add start size = (mergeNext c stop).toMap := by
    simp [add, addU_of_lt hlt, hmerge]
  rw [hadd, hreach]
  refine ⟨fun hle => ?_, mergeNext_not_separated hopen⟩
  obtain ⟨hw, hc⟩ := mergeNext_wellFormed hopen hle
  exact ⟨hw, hc.trans hcov⟩

theorem run_append (pre : List (ℕ × ℕ)) (c : ℕ × ℕ) :
    run (pre ++ [c]) = (run pre).add c.1 c.2 := by
  simp [run]

/-- As long as no call reaches two stored starts, the map is well formed and covers what was
added. -/
theorem run_wellFormed {calls : List (ℕ × ℕ)} (hok : ∀ c ∈ calls, 0 < c.2 ∧ c.1 + c.2 < 2 ^ 32)
    (hone : ∀ pre c, pre ++ [c] <+: calls → ((run pre).reached c.1 c.2).length ≤ 1) :
    WellFormed (run calls).entries ∧ covered (run calls).entries = covered calls := by
  induction calls using List.reverseRecOn with
  | nil => exact ⟨⟨List.Pairwise.nil, by simp [run]⟩, rfl⟩
  | append_singleton pre c ih =>
    obtain ⟨hw, hcov⟩ := ih (fun d hd => hok d (List.mem_append_left _ hd))
      (fun p d hp => hone p d (hp.trans (List.prefix_append _ _)))
    obtain ⟨hsize, hlt⟩ := hok c (by simp)
    obtain ⟨hw', hcov'⟩ := (add_step hw hsize hlt).1 (hone pre c (List.prefix_refl _))
    rw [run_append]
    refine ⟨hw', ?_⟩
    rw [hcov', hcov, covered_append, covered_cons, covered_nil, Set.union_empty]

/-- In a run whose states are all exact, no call reached two stored starts. -/
theorem wellFormed_of_exact {calls : List (ℕ × ℕ)}
    (hok : ∀ c ∈ calls, 0 < c.2 ∧ c.1 + c.2 < 2 ^ 32) (hexact : ∀ pre, pre <+: calls → Exact pre) :
    WellFormed (run calls).entries := by
  induction calls using List.reverseRecOn with
  | nil => exact ⟨List.Pairwise.nil, by simp [run]⟩
  | append_singleton pre c ih =>
    have hw := ih (fun d hd => hok d (List.mem_append_left _ hd))
      (fun p hp => hexact p (hp.trans (List.prefix_append _ _)))
    obtain ⟨hsize, hlt⟩ := hok c (by simp)
    obtain ⟨hone, htwo⟩ := add_step hw hsize hlt
    rw [run_append]
    by_cases hle : ((run pre).reached c.1 c.2).length ≤ 1
    · exact (hone hle).1
    · exact absurd (run_append pre c ▸ (hexact _ (List.prefix_refl _)).1) (htwo hle)

/-- **A run of `Add` calls keeps its ranges apart and covers exactly what was added, in every
state, iff no call reaches more than one stored start behind its own.** -/
theorem add_run_iff (calls : List (ℕ × ℕ)) (hok : ∀ c ∈ calls, 0 < c.2 ∧ c.1 + c.2 < 2 ^ 32) :
    (∀ pre, pre <+: calls → Exact pre) ↔
      ∀ pre c, pre ++ [c] <+: calls → ((run pre).reached c.1 c.2).length ≤ 1 := by
  constructor
  · intro hexact pre c hpre
    by_contra hcon
    have hpre' : pre <+: calls := (List.prefix_append _ _).trans hpre
    have hw : WellFormed (run pre).entries := wellFormed_of_exact
      (fun d hd => hok d (hpre'.subset hd)) fun p hp => hexact p (hp.trans hpre')
    obtain ⟨hsize, hlt⟩ := hok c (hpre.subset (by simp))
    refine (add_step hw hsize hlt).2 hcon ?_
    rw [← run_append]
    exact (hexact _ hpre).1
  · intro hone pre hpre
    obtain ⟨hw, hcov⟩ := run_wellFormed (fun c hc => hok c (hpre.subset hc))
      fun p c hp => hone p c (hp.trans hpre)
    exact ⟨hw.separated, hcov⟩

/-- Three touching calls: each is merged into the range that is there. -/
theorem add_run_iff_touching : Exact [(10, 5), (15, 5), (3, 7)] := by
  refine (add_run_iff [(10, 5), (15, 5), (3, 7)] (by decide)).2 (fun pre c h => ?_) _ (List.prefix_refl _)
  have hlen : pre.length < 3 := by simpa using h.length_le
  have hpre : pre = [(10, 5), (15, 5), (3, 7)].take pre.length :=
    List.prefix_iff_eq_take.mp ((List.prefix_append _ _).trans h)
  obtain ⟨n, hn⟩ : ∃ n, n = pre.length := ⟨_, rfl⟩
  rw [← hn] at hpre hlen
  interval_cases n <;> subst hpre <;> simp at h <;> subst h <;> decide

/-- `(5, 100)` swallows `(10, 5)` and then overlaps `(20, 5)`. -/
theorem add_overlap :
    ¬ ∀ calls : List (ℕ × ℕ), (∀ c ∈ calls, 0 < c.2 ∧ c.1 + c.2 < 2 ^ 32) → Exact calls := by
  intro h
  obtain ⟨hsep, -⟩ := h [(10, 5), (20, 5), (5, 100)] (by decide)
  have hrun : (run [(10, 5), (20, 5), (5, 100)]).entries = [(5, 100), (20, 5)] := by decide
  rw [hrun] at hsep
  simp [Separated] at hsep

end TRanges

end TortoiseSvn.LogCache
