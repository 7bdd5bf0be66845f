import TortoiseSvn.Lib.ListEdits
import TortoiseSvn.Merge.Undo

/-!
# Undoing and redoing one step

The editing functions overwrite rows and insert rows behind them. Undoing such a step always
gives back the rows from before. What was inserted is kept in a map by index, and redoing inserts
it in the order of the map: the rows come back as they were when the indexes of the insertions
ascend strictly, and in general not otherwise, since rows that were inserted at one index are one
entry of the map.

Main result: `undo_redo_exact_iff`.
-/

namespace TortoiseSvn.Merge

open Lib

/-! ### The steps of the loops -/

/-- Rows in range are inserted, and their indexes recorded. -/
theorem insertRemoved_eq {l : List (ℕ × Viewdata)} {added : List ℕ} {d : CViewData}
    (h : InRange (l.map Prod.fst) d.data.length) :
    insertRemoved l added d =
      some (added ++ l.map Prod.fst, { d with data := insertAll l d.data }) := by
  induction l generalizing added d with
  | nil => simp [insertRemoved]
  | cons e l ih =>
    obtain ⟨he, hl⟩ := h
    have hins : d.insertData e.1 e.2 = some { d with data := d.data.insertIdx e.1 e.2 } :=
      CViewData.insertData_eq_some.mpr ⟨he, rfl⟩
    have hl' : InRange (l.map Prod.fst) (d.data.insertIdx e.1 e.2).length := by
      rwa [List.length_insertIdx_of_le_length he]
    simp only [insertRemoved, hins, Option.bind_eq_bind, Option.bind_some]
    rw [ih hl']
    simp

/-- Rows that could be inserted were in range. -/
theorem inRange_of_insertRemoved {l : List (ℕ × Viewdata)} {added : List ℕ} {d : CViewData}
    {r : List ℕ × CViewData} (h : insertRemoved l added d = some r) :
    InRange (l.map Prod.fst) d.data.length := by
  induction l generalizing added d with
  | nil => exact trivial
  | cons e l ih =>
    simp only [insertRemoved, Option.bind_eq_bind, Option.bind_eq_some_iff] at h
    obtain ⟨d', hd', h⟩ := h
    obtain ⟨he, rfl⟩ := CViewData.insertData_eq_some.mp hd'
    have := ih h
    rw [List.length_insertIdx_of_le_length he] at this
    exact ⟨he, this⟩

/-- Inserted rows are taken out from the last to the first, and kept by index. -/
theorem removeAdded_eq {l : List (ℕ × Viewdata)} {removed : SortedMap ℕ Viewdata} {d : CViewData}
    {base : List Viewdata} (h : InRange (l.map Prod.fst) base.length)
    (hd : d.data = insertAll l base) :
    removeAdded (l.map Prod.fst).reverse removed d =
      some (removed.assignAll l.reverse, { d with data := base }) := by
  induction l using List.reverseRecOn generalizing removed d with
  | nil =>
    obtain rfl : d.data = base := hd
    rfl
  | append_singleton l e ih =>
    rw [List.map_append, List.map_singleton, inRange_concat, List.length_map] at h
    have hlen : e.1 ≤ (insertAll l base).length := by rw [length_insertAll h.1]; exact h.2
    rw [insertAll_concat] at hd
    have hlt : e.1 < d.data.length := by
      rw [hd, List.length_insertIdx_of_le_length hlen]
      exact Nat.lt_succ_of_le hlen
    have hget : d.getData e.1 = some e.2 := by
      rw [CViewData.getData, hd, List.getElem?_insertIdx_self, if_pos hlen]
    have hrem : d.removeData e.1 = some { d with data := insertAll l base } :=
      CViewData.removeData_eq_some.mpr ⟨hlt, by rw [hd, List.eraseIdx_insertIdx_self]⟩
    rw [List.map_append, List.reverse_append, List.reverse_append]
    simp only [List.map_singleton, List.reverse_singleton, List.singleton_append, removeAdded, hget,
      hrem, Option.bind_eq_bind, Option.bind_some, SortedMap.assignAll_cons]
    exact ih h.1 rfl

/-- What overwriting rows leaves behind: the rows, and what stood there by index. -/
structure Exchanged (l : List (ℕ × Viewdata)) (kept kept' : SortedMap ℕ Viewdata)
    (before after : List Viewdata) : Prop where
  rows : after = setAll l before
  keys : (kept'.entries.map Prod.fst).Perm (l.map Prod.fst ++ kept.entries.map Prod.fst)
  old : ∀ e ∈ kept'.entries, e ∈ kept.entries ∨ e.1 ∈ l.map Prod.fst ∧ before[e.1]? = some e.2

/-- Rows at distinct indexes are overwritten and kept. -/
theorem exchange_spec {l : List (ℕ × Viewdata)} {kept : SortedMap ℕ Viewdata} {d : CViewData}
    (hl : (l.map Prod.fst).Nodup) (hlt : ∀ e ∈ l, e.1 < d.data.length)
    (hnew : ∀ e ∈ l, e.1 ∉ kept.entries.map Prod.fst) :
    ∃ kept' d', exchange CViewData.getData CViewData.setData l kept d = some (kept', d') ∧
      Exchanged l kept kept' d.data d'.data := by
  induction l generalizing kept d with
  | nil => exact ⟨kept, d, rfl, rfl, List.Perm.refl _, fun e he => Or.inl he⟩
  | cons e l ih =>
    rw [List.map_cons, List.nodup_cons] at hl
    have helt : e.1 < d.data.length := hlt e (by simp)
    have hget : d.getData e.1 = some d.data[e.1] := List.getElem?_eq_getElem helt
    obtain ⟨d₁, hset, hd₁⟩ := CViewData.setData_of_lt helt e.2
    have hperm := SortedMap.assign_perm (hnew e (by simp)) d.data[e.1]
    have hne : ∀ f ∈ l, f.1 ≠ e.1 := fun f hf he => hl.1 (he ▸ List.mem_map_of_mem hf)
    obtain ⟨kept', d', hx, hrows, hkeys, hold⟩ := @ih (kept.assign e.1 d.data[e.1]) d₁ hl.2
      (fun f hf => by rw [hd₁, List.length_set]; exact hlt f (List.mem_cons_of_mem _ hf))
      (fun f hf hmem => by
        rcases SortedMap.mem_keys_assign.mp hmem with he | hmem
        · exact hne f hf he
        · exact hnew f (List.mem_cons_of_mem _ hf) hmem)
    refine ⟨kept', d', ?_, ?_, ?_, ?_⟩
    · simp only [exchange, hget, hset, Option.bind_eq_bind, Option.bind_some]
      exact hx
    · rw [hrows, hd₁, setAll_cons]
    · refine hkeys.trans ?_
      rw [List.map_cons, List.cons_append]
      refine (List.Perm.append_left _ (hperm.map Prod.fst)).trans ?_
      exact List.perm_middle
    · intro f hf
      rcases hold f hf with hmem | ⟨hfl, hget'⟩
      · rcases List.mem_cons.mp (hperm.mem_iff.mp hmem) with rfl | hmem
        · exact Or.inr ⟨by simp, List.getElem?_eq_getElem helt⟩
        · exact Or.inl hmem
      · have hfe : e.1 ≠ f.1 := fun hfe => hl.1 (hfe ▸ hfl)
        rw [hd₁, List.getElem?_set_ne hfe] at hget'
        exact Or.inr ⟨List.mem_cons_of_mem _ hfl, hget'⟩

/-! ### Recorded steps -/

/-- A call that inserts rows: `InsertViewData` or `InsertViewEmptyLines`. -/
inductive Insertion (α : Type)
  | data (index : ℕ) (row : α)
  | emptyLines (firstView count : ℕ)

namespace Insertion

/-- The indexes at which the rows of a call are inserted, in this order. -/
def indexes {α : Type} : Insertion α → List ℕ
  | .data i _ => [i]
  | .emptyLines firstView count => List.replicate count firstView

/-- The rows a call inserts, with their indexes. -/
def rows : Insertion Viewdata → List (ℕ × Viewdata)
  | .data i row => [(i, row)]
  | .emptyLines firstView count => List.replicate count (firstView, getEmptyLineData)

/-- A call without the contents of the row. -/
def forget {α : Type} : Insertion α → Insertion Unit
  | .data i _ => .data i ()
  | .emptyLines firstView count => .emptyLines firstView count

/-- Make the call. -/
def call : Insertion Viewdata → Recording → Option Recording
  | .data i row, r => r.insertViewData i row
  | .emptyLines firstView count, r => r.insertViewEmptyLines firstView count

theorem map_fst_rows (i : Insertion Viewdata) : i.rows.map Prod.fst = i.indexes := by
  cases i <;> simp [rows, indexes]

@[simp] theorem indexes_forget {α : Type} (i : Insertion α) : i.forget.indexes = i.indexes := by
  cases i <;> rfl

end Insertion

/-- The calls an editing step makes on a view: rows are overwritten, then rows are inserted. -/
structure ViewStep where
  sets : List (ℕ × Viewdata) := []
  inserts : List (Insertion Viewdata) := []

namespace ViewStep

/-- The inserted rows, with their indexes. -/
def rows (step : ViewStep) : List (ℕ × Viewdata) := step.inserts.flatMap Insertion.rows

/-- The inserted rows, as undoing the step keeps them. -/
def removedRows (step : ViewStep) : SortedMap ℕ Viewdata :=
  SortedMap.empty.assignAll step.rows.reverse

/-- Make the calls. -/
def record (step : ViewStep) (r : Recording) : Option Recording := do
  let r' ← step.sets.foldlM (fun r e => r.setViewData e.1 e.2) r
  step.inserts.foldlM (fun r i => i.call r) r'

end ViewStep

/-- Overwriting rows records what `exchange` keeps. -/
theorem recordSets_eq (l : List (ℕ × Viewdata)) (r : Recording) :
    l.foldlM (fun r e => Recording.setViewData r e.1 e.2) r =
      (exchange CViewData.getData CViewData.setData l r.state.replacedlines r.rows).map
        fun p => ⟨{ r.state with replacedlines := p.1 }, p.2⟩ := by
  induction l generalizing r with
  | nil => rfl
  | cons e l ih =>
    rw [List.foldlM_cons]
    simp only [exchange, Recording.setViewData, Option.bind_eq_bind]
    rcases hget : r.rows.getData e.1 with _ | old
    · rfl
    · simp only [Option.bind_some]
      rcases hset : r.rows.setData e.1 e.2 with _ | d
      · rfl
      · simp only [Option.bind_some]
        exact ih _

theorem insertRemoved_append (l₁ l₂ : List (ℕ × Viewdata)) (added : List ℕ) (d : CViewData) :
    insertRemoved (l₁ ++ l₂) added d =
      (insertRemoved l₁ added d).bind fun p => insertRemoved l₂ p.1 p.2 := by
  induction l₁ generalizing added d with
  | nil => rfl
  | cons e l₁ ih =>
    simp only [List.cons_append, insertRemoved, Option.bind_eq_bind, ih, Option.bind_assoc]

theorem insertViewEmptyLines_eq (r : Recording) (firstView count : ℕ) :
    r.insertViewEmptyLines firstView count =
      (insertRemoved (List.replicate count (firstView, getEmptyLineData)) r.state.addedlines
        r.rows).map fun p => ⟨{ r.state with addedlines := p.1 }, p.2⟩ := by
  induction count generalizing r with
  | zero => rfl
  | succ count ih =>
    rw [List.replicate_succ]
    simp only [Recording.insertViewEmptyLines, Recording.insertViewData, insertRemoved,
      Option.bind_eq_bind]
    rcases hins : r.rows.insertData firstView getEmptyLineData with _ | d
    · rfl
    · simp only [Option.bind_some, ih]

/-- A call inserts its rows and records their indexes. -/
theorem call_eq (i : Insertion Viewdata) (r : Recording) :
    i.call r = (insertRemoved i.rows r.state.addedlines r.rows).map
      fun p => ⟨{ r.state with addedlines := p.1 }, p.2⟩ := by
  cases i with
  | data i row =>
    simp only [Insertion.call, Insertion.rows, Recording.insertViewData, insertRemoved,
      Option.bind_eq_bind]
    rcases hins : r.rows.insertData i row with _ | d <;> rfl
  | emptyLines firstView count => exact insertViewEmptyLines_eq r firstView count

/-- Inserting rows records their indexes in the order of the insertions. -/
theorem recordInserts_eq (l : List (Insertion Viewdata)) (r : Recording) :
    l.foldlM (fun r i => i.call r) r =
      (insertRemoved (l.flatMap Insertion.rows) r.state.addedlines r.rows).map
        fun p => ⟨{ r.state with addedlines := p.1 }, p.2⟩ := by
  induction l generalizing r with
  | nil => rfl
  | cons i l ih =>
    rw [List.foldlM_cons, List.flatMap_cons, insertRemoved_append, call_eq]
    simp only [Option.bind_eq_bind]
    rcases insertRemoved i.rows r.state.addedlines r.rows with _ | p
    · rfl
    · simp only [Option.map_some, Option.bind_some, ih]

/-- The shape of a recorded step: which rows it overwrites and where it inserts rows, in a view of
`size` rows. The overwritten rows are distinct and lie above the insertions. -/
structure StepShape where
  size : ℕ
  sets : List ℕ
  inserts : List (Insertion Unit)
  distinct : sets.Nodup
  sets_lt : ∀ i ∈ sets, i < size
  above : ∀ i ∈ sets, ∀ j ∈ inserts.flatMap Insertion.indexes, i < j
  inRange : InRange (inserts.flatMap Insertion.indexes) size

namespace StepShape

/-- The indexes at which rows are inserted, in the order of the insertions. -/
def indexes (s : StepShape) : List ℕ := s.inserts.flatMap Insertion.indexes

/-- `step` at the rows `d` has the shape. -/
structure Of (s : StepShape) (d : CViewData) (step : ViewStep) : Prop where
  size : d.data.length = s.size
  sets : step.sets.map Prod.fst = s.sets
  inserts : step.inserts.map Insertion.forget = s.inserts

variable {s : StepShape} {d : CViewData} {step : ViewStep}

theorem Of.map_fst_rows (h : s.Of d step) : step.rows.map Prod.fst = s.indexes := by
  rw [ViewStep.rows, List.map_flatMap, indexes, ← h.inserts, List.flatMap_map]
  simp only [Insertion.map_fst_rows, Insertion.indexes_forget]

theorem Of.distinct (h : s.Of d step) : (step.sets.map Prod.fst).Nodup := h.sets ▸ s.distinct

theorem Of.sets_lt (h : s.Of d step) : ∀ e ∈ step.sets, e.1 < d.data.length := by
  intro e he
  rw [h.size]
  exact s.sets_lt e.1 (h.sets ▸ List.mem_map_of_mem he)

theorem Of.above (h : s.Of d step) : ∀ e ∈ step.sets, ∀ j ∈ s.indexes, e.1 < j := by
  intro e he
  exact s.above e.1 (h.sets ▸ List.mem_map_of_mem he)

theorem Of.inRange (h : s.Of d step) :
    InRange (step.rows.map Prod.fst) (setAll step.sets d.data).length := by
  rw [length_setAll, h.map_fst_rows, h.size]
  exact s.inRange

/-- What a step of the shape records. -/
theorem Of.record (h : s.Of d step) (m : Bool) : ∃ kept d',
    step.record ⟨{ modifies := m }, d⟩ =
      some ⟨{ addedlines := s.indexes, replacedlines := kept, modifies := m }, d'⟩ ∧
    Exchanged step.sets .empty kept d.data (setAll step.sets d.data) ∧
    d'.data = insertAll step.rows (setAll step.sets d.data) := by
  obtain ⟨kept, d₁, hx, hex⟩ := @exchange_spec _ .empty _ h.distinct h.sets_lt (by simp)
  have hins : insertRemoved step.rows [] d₁ = some ([] ++ step.rows.map Prod.fst,
      { d₁ with data := insertAll step.rows d₁.data }) := by
    refine insertRemoved_eq ?_
    rw [hex.rows]
    exact h.inRange
  refine ⟨kept, { d₁ with data := insertAll step.rows d₁.data }, ?_, ?_, ?_⟩
  · rw [ViewStep.record, recordSets_eq, hx]
    simp only [Option.map_some, Option.bind_eq_bind, Option.bind_some, recordInserts_eq]
    rw [show step.inserts.flatMap Insertion.rows = step.rows from rfl, hins, Option.map_some,
      List.nil_append, h.map_fst_rows]
  · have hrows := hex.rows
    rw [hrows] at hex
    exact hex
  · rw [← hex.rows]

end StepShape

/-! ### Reverting in one view -/

/-- Row changes are reverted by taking rows out, putting rows in and overwriting rows. -/
theorem exec_rowChanges (added : List ℕ) (removed replaced : SortedMap ℕ Viewdata) (m : Bool)
    (d : CViewData) :
    Viewstate.exec
        { addedlines := added
          removedlines := removed
          replacedlines := replaced
          modifies := m } d = (removeAdded added.reverse .empty d).bind fun p =>
      (insertRemoved removed.entries [] p.2).bind fun q =>
        (exchange CViewData.getData CViewData.setData replaced.entries .empty q.2).bind fun t =>
          some ({ addedlines := q.1, removedlines := p.1, replacedlines := t.1 }, t.2) := rfl

namespace StepShape.Of

variable {s : StepShape} {d d' : CViewData} {step : ViewStep} {kept : SortedMap ℕ Viewdata}

/-- Undoing a recorded step gives back the rows from before. -/
theorem undo (h : s.Of d step)
    (hkept : Exchanged step.sets .empty kept d.data (setAll step.sets d.data))
    (hd' : d'.data = insertAll step.rows (setAll step.sets d.data)) (m : Bool) : ∃ kept' d₁,
    Viewstate.exec { addedlines := s.indexes, replacedlines := kept, modifies := m } d' =
      some ({ removedlines := step.removedRows, replacedlines := kept' }, d₁) ∧
    d₁.data = d.data ∧
    Exchanged kept.entries .empty kept' (setAll step.sets d.data) d.data := by
  have hkeys : (kept.entries.map Prod.fst).Perm (step.sets.map Prod.fst) := by
    simpa using hkept.keys
  have hrem := @removeAdded_eq _ SortedMap.empty _ _ h.inRange hd'
  rw [h.map_fst_rows] at hrem
  obtain ⟨kept', d₁, hx, hex⟩ := @exchange_spec kept.entries .empty
    { d' with data := setAll step.sets d.data } (hkeys.nodup_iff.mpr h.distinct)
    (fun e he => by
      obtain ⟨f, hf, hfe⟩ := List.mem_map.mp (hkeys.mem_iff.mp (List.mem_map_of_mem he))
      rw [length_setAll, ← hfe]
      exact h.sets_lt f hf)
    (by simp)
  have hold : ∀ e ∈ kept.entries, d.data[e.1]? = some e.2 := fun e he =>
    (hkept.old e he).elim (fun hm => absurd hm List.not_mem_nil) And.right
  have hrows : d₁.data = d.data := by
    rw [hex.rows]
    exact setAll_restore h.distinct hkeys hold
  refine ⟨kept', d₁, ?_, hrows, ?_⟩
  · rw [exec_rowChanges, hrem]
    simp only [SortedMap.empty_entries, insertRemoved, Option.bind_some, hx]
    rfl
  · rw [hrows] at hex
    exact hex

theorem mem_keys_removedRows {j : ℕ} (h : s.Of d step) :
    j ∈ step.removedRows.entries.map Prod.fst ↔ j ∈ s.indexes := by
  rw [ViewStep.removedRows, SortedMap.mem_keys_assignAll, List.map_reverse, List.mem_reverse,
    h.map_fst_rows]
  simp

/-- Redoing a recorded step inserts the kept rows in the order of their indexes, if it can. -/
theorem redo (h : s.Of d step) {kept' : SortedMap ℕ Viewdata}
    (hkept : Exchanged step.sets .empty kept d.data (setAll step.sets d.data))
    (hkept' : Exchanged kept.entries .empty kept' (setAll step.sets d.data) d.data)
    {d₁ : CViewData} (hd₁ : d₁.data = d.data)
    (hr : InRange (step.removedRows.entries.map Prod.fst) d.data.length) : ∃ rev d₂,
    Viewstate.exec { removedlines := step.removedRows, replacedlines := kept' } d₁ =
      some (rev, d₂) ∧
    d₂.data = insertAll step.removedRows.entries (setAll step.sets d.data) := by
  have hkeys : (kept.entries.map Prod.fst).Perm (step.sets.map Prod.fst) := by
    simpa using hkept.keys
  have hkeys' : (kept'.entries.map Prod.fst).Perm (kept.entries.map Prod.fst) := by
    simpa using hkept'.keys
  have hnodup : (kept.entries.map Prod.fst).Nodup := hkeys.nodup_iff.mpr h.distinct
  have hmem : ∀ e ∈ kept'.entries, ∃ f ∈ step.sets, f.1 = e.1 := fun e he =>
    List.mem_map.mp ((hkeys'.trans hkeys).mem_iff.mp (List.mem_map_of_mem he))
  have hins := @insertRemoved_eq step.removedRows.entries [] d₁
    (by rwa [hd₁])
  obtain ⟨kept'', d₂, hx, hex⟩ := @exchange_spec kept'.entries .empty
    { d₁ with data := insertAll step.removedRows.entries d₁.data }
    (hkeys'.nodup_iff.mpr hnodup)
    (fun e he => by
      obtain ⟨f, hf, hfe⟩ := hmem e he
      have hlt := h.sets_lt f hf
      rw [length_insertAll (by rwa [hd₁]), hd₁, ← hfe]
      omega)
    (by simp)
  have hold : ∀ e ∈ kept'.entries, (setAll step.sets d.data)[e.1]? = some e.2 := fun e he =>
    (hkept'.old e he).elim (fun hm => absurd hm List.not_mem_nil) And.right
  have hsets : setAll kept'.entries d.data = setAll step.sets d.data := by
    have := setAll_restore hnodup hkeys' hold
    rwa [← hkept'.rows] at this
  refine ⟨{ addedlines := [] ++ step.removedRows.entries.map Prod.fst
            replacedlines := kept'' }, d₂, ?_, ?_⟩
  · rw [exec_rowChanges]
    simp only [List.reverse_nil, removeAdded, hins, Option.bind_some, hx]
  · rw [hex.rows, hd₁, setAll_insertAll, hsets]
    intro e he f hf
    obtain ⟨g, hg, hge⟩ := hmem e he
    rw [← hge]
    exact h.above g hg f.1 (h.mem_keys_removedRows.mp (List.mem_map_of_mem hf))

/-- A step that can be redone inserts its kept rows in range. -/
theorem inRange_of_redo {kept' : SortedMap ℕ Viewdata} {d₁ : CViewData}
    {r : Viewstate × CViewData}
    (hx : Viewstate.exec { removedlines := step.removedRows, replacedlines := kept' } d₁ = some r) :
    InRange (step.removedRows.entries.map Prod.fst) d₁.data.length := by
  rw [exec_rowChanges] at hx
  simp only [List.reverse_nil, removeAdded, Option.bind_some, Option.bind_eq_some_iff] at hx
  obtain ⟨q, hq, -⟩ := hx
  exact inRange_of_insertRemoved hq

end StepShape.Of

/-! ### The views -/

/-- What a step that is recorded in a view makes of its data, with the record. A view without
rows takes no calls. -/
inductive Recorded : ViewStep → ViewPtr → Viewstate → ViewPtr → Prop
  | rows {step : ViewStep} {m : Bool} {d : CViewData} {r : Recording}
      (h : step.record ⟨{ modifies := m }, d⟩ = some r) :
      Recorded step (.rows d) r.state (.rows r.rows)
  | null {m : Bool} : Recorded {} .null { modifies := m } .null

/-- What reverting a change makes of the data of a view. -/
def Viewstate.revert (state : Viewstate) : ViewPtr → Viewstate × ViewPtr
  | .null => (state, .null)
  | .broken => (state, .broken)
  | .rows d =>
    match state.exec d with
    | some (rev, d') => (rev, .rows d')
    | none => ({}, .broken)

theorem doState_eq (state : Viewstate) (view : CBaseView) (isTarget : Bool) (pt : Point) :
    (CUndo.doState state view isTarget pt).1 = (state.revert view.viewData).1 ∧
      (CUndo.doState state view isTarget pt).2.viewData = (state.revert view.viewData).2 := by
  unfold CUndo.doState Viewstate.revert
  rcases hv : view.viewData with _ | _ | d
  · exact ⟨rfl, hv⟩
  · exact ⟨rfl, hv⟩
  · rcases hx : state.exec d with _ | ⟨rev, d'⟩
    · simp [hx]
    · simp [hx]

/-- A step is undone to the rows it was made from, and redone to those it led to. -/
def Exact (v w : Views) (allstate : Allviewstate) : Prop :=
  ∀ (u : CUndo) (pt : Point), ∃ u₁ v₁ u₂ v₂,
    (u.addState allstate pt).undoOne w = some (u₁, v₁) ∧ v₁.lines = v.lines ∧
      u₁.redoOne v₁ = some (u₂, v₂) ∧ v₂.lines = w.lines

/-- The same for one view. -/
def ExactView (before after : ViewPtr) (state : Viewstate) : Prop :=
  (state.revert after).2.lines = before.lines ∧
    ((state.revert after).1.revert (state.revert after).2).2.lines = after.lines

/-- The views are reverted independently of each other. -/
theorem exact_iff {v w : Views} {allstate : Allviewstate} :
    Exact v w allstate ↔
      ∀ side, ExactView (v.view side).viewData (w.view side).viewData (allstate side) := by
  have hundo : ∀ (u : CUndo) (pt : Point), (u.addState allstate pt).undoOne w = _ :=
    fun u pt => CUndo.undoOne_eq rfl rfl
  have hlines : ∀ pt, ((CUndo.doAll allstate w pt).2.lines = v.lines ∧
      (CUndo.doAll (CUndo.doAll allstate w pt).1 (CUndo.doAll allstate w pt).2
        (w.getCaretPosition w.target)).2.lines = w.lines) ↔
      ∀ side, ExactView (v.view side).viewData (w.view side).viewData (allstate side) := by
    intro pt
    simp only [funext_iff, Views.lines, CUndo.doAll, (doState_eq _ _ _ _).1,
      (doState_eq _ _ _ _).2, ← forall_and, ExactView]
  constructor
  · intro h
    obtain ⟨u₁, v₁, u₂, v₂, hu, hv₁, hr, hv₂⟩ := h {} {}
    obtain ⟨rfl, rfl⟩ := Prod.mk.inj (Option.some.inj (hu.symm.trans (hundo {} {})))
    obtain ⟨rfl, rfl⟩ := Prod.mk.inj (Option.some.inj (hr.symm.trans (CUndo.redoOne_eq rfl rfl)))
    exact (hlines {}).mp ⟨hv₁, hv₂⟩
  · intro h u pt
    obtain ⟨h₁, h₂⟩ := (hlines pt).mpr h
    exact ⟨_, _, _, _, hundo u pt, h₁, CUndo.redoOne_eq rfl rfl, h₂⟩

/-- `step` at the data of a view has the shape; `none` is the shape for a view without rows. -/
def OfShape : Option StepShape → ViewPtr → ViewStep → Prop
  | some s, .rows d, step => s.Of d step
  | none, .null, step => step = {}
  | _, _, _ => False

/-- What a recorded step looks like in a view with rows. -/
theorem Recorded.inv {s : StepShape} {d : CViewData} {step : ViewStep} {state : Viewstate}
    {after : ViewPtr} (h : s.Of d step) (hr : Recorded step (.rows d) state after) :
    ∃ m kept d', state =
        { addedlines := s.indexes, replacedlines := kept, modifies := m } ∧ after = .rows d' ∧
      Exchanged step.sets .empty kept d.data (setAll step.sets d.data) ∧
      d'.data = insertAll step.rows (setAll step.sets d.data) := by
  cases hr with
  | @rows _ m _ r hrec =>
    obtain ⟨kept, d', hrec', hkept, hd'⟩ := h.record m
    obtain rfl := Option.some.inj (hrec.symm.trans hrec')
    exact ⟨m, kept, d', rfl, rfl, hkept, hd'⟩

/-- **Undoing a recorded step gives back the rows from before it.** -/
theorem undo_lines {shape : Option StepShape} {before after : ViewPtr} {step : ViewStep}
    {state : Viewstate} (hs : OfShape shape before step)
    (hr : Recorded step before state after) : (state.revert after).2.lines = before.lines := by
  rcases shape with _ | s
  · rcases before with _ | _ | d
    · cases hr
      rfl
    · exact hs.elim
    · exact hs.elim
  · rcases before with _ | _ | d
    · exact hs.elim
    · exact hs.elim
    · obtain ⟨m, kept, d', rfl, rfl, hkept, hd'⟩ := hr.inv hs
      obtain ⟨kept', d₁, hx, hd₁, -⟩ := StepShape.Of.undo hs hkept hd' m
      simp only [Viewstate.revert, hx, ViewPtr.lines, hd₁]

/-- Insertions at strictly ascending indexes are redone as they were made. -/
theorem exactView_of_sorted {shape : Option StepShape} {before after : ViewPtr} {step : ViewStep}
    {state : Viewstate} (hs : OfShape shape before step) (hr : Recorded step before state after)
    (hasc : ∀ s, shape = some s → s.indexes.Pairwise (· < ·)) :
    ExactView before after state := by
  refine ⟨undo_lines hs hr, ?_⟩
  rcases shape with _ | s
  · rcases before with _ | _ | d
    · cases hr
      rfl
    · exact hs.elim
    · exact hs.elim
  · rcases before with _ | _ | d
    · exact hs.elim
    · exact hs.elim
    · have h : s.Of d step := hs
      obtain ⟨m, kept, d', rfl, rfl, hkept, hd'⟩ := hr.inv h
      obtain ⟨kept', d₁, hx, hd₁, hkept'⟩ := h.undo hkept hd' m
      have hrows : step.removedRows.entries = step.rows := by
        refine SortedMap.assignAll_reverse_entries ?_
        rw [h.map_fst_rows]
        exact hasc s rfl
      have hin : InRange (step.removedRows.entries.map Prod.fst) d.data.length := by
        have := h.inRange
        rwa [length_setAll, ← hrows] at this
      obtain ⟨rev, d₂, hx', hd₂⟩ := h.redo hkept hkept' hd₁ hin
      simp only [Viewstate.revert, hx, hx', ViewPtr.lines, hd₂, hd', hrows]

/-! ### Contents for which a shape fails -/

/-- Whether a row is what an inserted empty line is. -/
def isEmptyLine (row : Viewdata) : Bool := row = getEmptyLineData

theorem isEmptyLine_getEmptyLineData : isEmptyLine getEmptyLineData := by decide

/-- A call that inserts empty lines only. -/
def Insertion.ofEmpty : Insertion Unit → Insertion Viewdata
  | .data i _ => .data i getEmptyLineData
  | .emptyLines firstView count => .emptyLines firstView count

theorem Insertion.forget_ofEmpty (i : Insertion Unit) : i.ofEmpty.forget = i := by
  cases i <;> rfl

namespace StepShape

/-- Rows none of which is an empty line. -/
def uniformRows (s : StepShape) : CViewData := { data := List.replicate s.size {} }

/-- A step that overwrites rows by rows that are not empty lines, and inserts empty lines. -/
def uniformStep (s : StepShape) : ViewStep :=
  { sets := s.sets.map fun i => (i, {}), inserts := s.inserts.map Insertion.ofEmpty }

theorem uniformStep_of (s : StepShape) : s.Of s.uniformRows s.uniformStep where
  size := by simp [uniformRows]
  sets := by simp [uniformStep, Function.comp_def]
  inserts := by simp [uniformStep, Function.comp_def, Insertion.forget_ofEmpty]

theorem isEmptyLine_of_mem {s : StepShape} {e : ℕ × Viewdata} (h : e ∈ s.uniformStep.rows) :
    isEmptyLine e.2 := by
  obtain ⟨i, hi, he⟩ := List.mem_flatMap.mp h
  obtain ⟨j, -, rfl⟩ := List.mem_map.mp hi
  cases j with
  | data k _ =>
    obtain rfl := List.mem_singleton.mp he
    exact isEmptyLine_getEmptyLineData
  | emptyLines firstView count =>
    obtain rfl := (List.mem_replicate.mp he).2
    exact isEmptyLine_getEmptyLineData

theorem not_isEmptyLine (s : StepShape) :
    ∀ row ∈ setAll s.uniformStep.sets s.uniformRows.data, ¬isEmptyLine row := by
  intro row hrow
  have hrow' : row = {} := by
    rcases mem_setAll hrow with hr | hr
    · simp only [uniformStep, List.map_map, List.mem_map] at hr
      obtain ⟨_, -, rfl⟩ := hr
      rfl
    · exact (List.mem_replicate.mp hr).2
  rw [hrow']
  decide

/-- Insertions that do not ascend strictly are not redone as they were made. -/
theorem not_exactView {s : StepShape} (hasc : ¬s.indexes.Pairwise (· < ·)) {state : Viewstate}
    {after : ViewPtr} (hr : Recorded s.uniformStep (.rows s.uniformRows) state after) :
    ¬ExactView (.rows s.uniformRows) after state := by
  rintro ⟨-, hredo⟩
  have h := s.uniformStep_of
  obtain ⟨m, kept, d', rfl, rfl, hkept, hd'⟩ := hr.inv h
  obtain ⟨kept', d₁, hx, hd₁, hkept'⟩ := h.undo hkept hd' m
  have hex : ∃ r, Viewstate.exec
      { removedlines := s.uniformStep.removedRows, replacedlines := kept' } d₁ = some r := by
    rcases hr' : Viewstate.exec
      { removedlines := s.uniformStep.removedRows, replacedlines := kept' } d₁ with _ | r
    · simp only [Viewstate.revert, hx, hr', ViewPtr.lines] at hredo
      exact absurd hredo (by simp)
    · exact ⟨r, rfl⟩
  obtain ⟨r, hr'⟩ := hex
  have hin := Of.inRange_of_redo hr'
  rw [hd₁] at hin
  obtain ⟨rev, d₂, hx', hd₂⟩ := h.redo hkept hkept' hd₁ hin
  simp only [Viewstate.revert, hx, hx', ViewPtr.lines, hd₂, hd', Option.some.injEq] at hredo
  -- the sum of the positions of the empty lines tells the two apart
  have hlt := weight_insertAll_gt (p := isEmptyLine) h.inRange (fun e => isEmptyLine_of_mem)
    (by rwa [h.map_fst_rows])
  have hempty : ∀ e ∈ s.uniformStep.removedRows.entries, isEmptyLine e.2 := by
    intro e he
    rcases SortedMap.mem_assignAll he with he | he
    · exact isEmptyLine_of_mem (List.mem_reverse.mp he)
    · exact absurd he List.not_mem_nil
  have hsorted : (s.uniformStep.removedRows.entries.map Prod.fst).Pairwise (· < ·) :=
    List.pairwise_map.mpr s.uniformStep.removedRows.sorted
  have hin' : InRange (s.uniformStep.removedRows.entries.map Prod.fst)
      (setAll s.uniformStep.sets s.uniformRows.data).length := by rwa [length_setAll]
  have heq := weight_insertAll_of_sorted (p := isEmptyLine) hin' hempty hsorted (fun e _ => List.countP_eq_zero.mpr fun row hrow =>
      s.not_isEmptyLine row (List.mem_of_mem_drop hrow))
  have hsum : (s.uniformStep.removedRows.entries.map Prod.fst).sum ≤ s.indexes.sum := by
    obtain ⟨l, hperm, hsub⟩ := List.subperm_of_subset hsorted.nodup
      (fun j hj => h.mem_keys_removedRows.mp hj)
    rw [← hperm.sum_eq]
    exact hsub.sum_le_sum fun _ _ => Nat.zero_le _
  rw [hredo] at heq
  rw [h.map_fst_rows] at hlt
  omega

end StepShape

/-! ### Recorded steps in all views -/

/-- `steps`, recorded in the views `v`, leave `w` and the record `allstate`. -/
structure RecordedStep (shape : Side → Option StepShape) (v w : Views)
    (allstate : Allviewstate) : Prop where
  step : ∀ side, ∃ s, OfShape (shape side) (v.view side).viewData s ∧
    Recorded s (v.view side).viewData (allstate side) (w.view side).viewData

/-- **A recorded step of a given shape is undone and redone exactly, whatever the rows hold, if
and only if in each view the indexes of the insertions ascend strictly.** -/
theorem undo_redo_exact_iff (shape : Side → Option StepShape) :
    (∀ v w allstate, RecordedStep shape v w allstate → Exact v w allstate) ↔
      ∀ side s, shape side = some s → s.indexes.Pairwise (· < ·) := by
  constructor
  · intro hall side s hs
    by_contra hasc
    -- every view with rows takes the step of its shape on uniform rows
    have hview : ∀ o : Option StepShape, ∃ before step state after, OfShape o before step ∧
        Recorded step before state after ∧
        ∀ s, o = some s → before = .rows s.uniformRows ∧ step = s.uniformStep := by
      rintro (_ | s)
      · exact ⟨.null, {}, { modifies := true }, .null, rfl, Recorded.null, by simp⟩
      · obtain ⟨kept, d', hrec, -, -⟩ := s.uniformStep_of.record true
        refine ⟨.rows s.uniformRows, s.uniformStep, _, _, s.uniformStep_of,
          Recorded.rows hrec, ?_⟩
        intro s' hs'
        obtain rfl := Option.some.inj hs'
        exact ⟨rfl, rfl⟩
    choose before step state after hof hrec huni using fun side => hview (shape side)
    have hexact := hall
      { view := fun side => { viewData := before side }, target := .right
        convertViewPosToScreen := fun _ pt => pt }
      { view := fun side => { viewData := after side }, target := .right
        convertViewPosToScreen := fun _ pt => pt }
      state ⟨fun side => ⟨step side, hof side, hrec side⟩⟩
    have hside := exact_iff.mp hexact side
    obtain ⟨hb, hst⟩ := huni side s hs
    have hr := hrec side
    simp only [hb, hst] at hside hr
    exact StepShape.not_exactView hasc hr hside
  · intro hasc v w allstate h
    refine exact_iff.mpr fun side => ?_
    obtain ⟨s, hof, hrec⟩ := h.step side
    exact exactView_of_sorted hof hrec (hasc side)

/-- The record of two lines inserted at index 1. -/
def twoEmptyLines : Allviewstate
  | .right => { addedlines := [1, 1] }
  | _ => {}

/-- `InsertViewEmptyLines(1, 2)` behind the only line of a view: redoing it brings one of the two
lines back. -/
theorem redo_loses_line :
    ∃ shape v w allstate, RecordedStep shape v w allstate ∧ ¬Exact v w allstate := by
  refine ⟨fun side => match side with
    | .right => some
        { size := 1, sets := [], inserts := [.emptyLines 1 2], distinct := by decide
          sets_lt := by decide, above := by decide, inRange := by decide }
    | _ => none, rightViews [someLine],
    rightViews [someLine, getEmptyLineData, getEmptyLineData], twoEmptyLines, ⟨fun side => ?_⟩,
    fun h => ?_⟩
  · cases side with
    | left => exact ⟨{}, rfl, Recorded.null (m := false)⟩
    | bottom => exact ⟨{}, rfl, Recorded.null (m := false)⟩
    | right =>
      refine ⟨{ inserts := [.emptyLines 1 2] }, ⟨rfl, rfl, rfl⟩, ?_⟩
      exact Recorded.rows (m := false) (r := ⟨{ addedlines := [1, 1] },
        { data := [someLine, getEmptyLineData, getEmptyLineData] }⟩) rfl
  · have hlines := congrArg (Option.map List.length) (exact_iff.mp h .right).2
    exact absurd hlines (by decide)

end TortoiseSvn.Merge
