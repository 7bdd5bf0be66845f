import Mathlib.Data.List.GetD
import TortoiseSvn.LogCache.ChangeUpdate
import TortoiseSvn.LogCache.TokenizedStringReplace

/-!
# User revision properties

The user properties of a revision are pairs of a name from a pool and a value from a tokenized string
container. `UpdateUserRevProps` writes the names anew, entry by entry, but the values in two passes: first
all values that are kept, then all values that are taken over. Each pass overwrites what stands at its
indices and appends the rest, and the container begins empty, as inserting empty strings inserts nothing.

Main result: `HoldsProps.updateUserRevProps`. The passes give the spliced list of values if and only if no
value is kept behind one that is taken over; otherwise values are missing.
-/

namespace TortoiseSvn.LogCache

open TortoiseSvn.Lib

/-! ### Two passes over a list -/

/-- Where a value of the spliced list comes from: an index in the old values, or one in the new ones. -/
abbrev Slot := ℕ ⊕ ℕ

namespace Slot

/-- The mapping of the first pass: the places of the old values. -/
def oldEntries : ℕ → List Slot → IndexMapping
  | _, [] => []
  | i, .inl k :: rest => (i, k) :: oldEntries (i + 1) rest
  | i, .inr _ :: rest => oldEntries (i + 1) rest

/-- The mapping of the second pass: the places of the new values. -/
def newEntries : ℕ → List Slot → IndexMapping
  | _, [] => []
  | i, .inl _ :: rest => newEntries (i + 1) rest
  | i, .inr k :: rest => (i, k) :: newEntries (i + 1) rest

/-- No old value stands behind a new one. -/
def KeptFirst (slots : List Slot) : Prop := slots.Pairwise fun a b => a.isRight → b.isRight

/-- The slot is one of the values. -/
def Valid (oldCount newCount : ℕ) : Slot → Prop
  | .inl k => k < oldCount
  | .inr k => k < newCount

section

variable {α : Type} (olds news : ℕ → α)

theorem oldEntries_append (i : ℕ) (xs ys : List Slot) :
    oldEntries i (xs ++ ys) = oldEntries i xs ++ oldEntries (i + xs.length) ys := by
  induction xs generalizing i with
  | nil => rfl
  | cons x xs ih =>
    have hlen : i + 1 + xs.length = i + (xs.length + 1) := by omega
    rcases x with k | k
    · rw [List.cons_append, oldEntries, oldEntries, ih, hlen]
      rfl
    · rw [List.cons_append, oldEntries, oldEntries, ih, hlen]
      rfl

theorem newEntries_append (i : ℕ) (xs ys : List Slot) :
    newEntries i (xs ++ ys) = newEntries i xs ++ newEntries (i + xs.length) ys := by
  induction xs generalizing i with
  | nil => rfl
  | cons x xs ih =>
    have hlen : i + 1 + xs.length = i + (xs.length + 1) := by omega
    rcases x with k | k
    · rw [List.cons_append, newEntries, newEntries, ih, hlen]
      rfl
    · rw [List.cons_append, newEntries, newEntries, ih, hlen]
      rfl

theorem oldEntries_inl (i : ℕ) (ks : List ℕ) : oldEntries i (ks.map .inl) =
    CRevisionInfoContainer.valueEntries i ks := by
  induction ks generalizing i with
  | nil => rfl
  | cons k ks ih =>
    rw [List.map_cons, oldEntries, ih]
    rfl

theorem newEntries_inr (i : ℕ) (ks : List ℕ) : newEntries i (ks.map .inr) =
    CRevisionInfoContainer.valueEntries i ks := by
  induction ks generalizing i with
  | nil => rfl
  | cons k ks ih =>
    rw [List.map_cons, newEntries, ih]
    rfl

theorem oldEntries_inr (i : ℕ) (ks : List ℕ) : oldEntries i (ks.map .inr) = [] := by
  induction ks generalizing i with
  | nil => rfl
  | cons k ks ih => rw [List.map_cons, oldEntries, ih]

theorem newEntries_inl (i : ℕ) (ks : List ℕ) : newEntries i (ks.map .inl) = [] := by
  induction ks generalizing i with
  | nil => rfl
  | cons k ks ih => rw [List.map_cons, newEntries, ih]

theorem mem_of_oldEntries {i : ℕ} {slots : List Slot} {e : ℕ × ℕ} (h : e ∈ oldEntries i slots) :
    .inl e.2 ∈ slots := by
  induction slots generalizing i with
  | nil => exact absurd h List.not_mem_nil
  | cons x slots ih =>
    rcases x with k | k
    · rcases List.mem_cons.mp h with rfl | h
      · exact List.mem_cons_self
      · exact List.mem_cons_of_mem _ (ih h)
    · exact List.mem_cons_of_mem _ (ih h)

theorem mem_of_newEntries {i : ℕ} {slots : List Slot} {e : ℕ × ℕ} (h : e ∈ newEntries i slots) :
    .inr e.2 ∈ slots := by
  induction slots generalizing i with
  | nil => exact absurd h List.not_mem_nil
  | cons x slots ih =>
    rcases x with k | k
    · exact List.mem_cons_of_mem _ (ih h)
    · rcases List.mem_cons.mp h with rfl | h
      · exact List.mem_cons_self
      · exact List.mem_cons_of_mem _ (ih h)

/-- Every slot is an entry of one of the two passes. -/
theorem length_entries (i : ℕ) (slots : List Slot) :
    (oldEntries i slots).length + (newEntries i slots).length = slots.length := by
  induction slots generalizing i with
  | nil => rfl
  | cons x slots ih =>
    have hrest := ih (i + 1)
    rcases x with k | k
    · rw [oldEntries, newEntries, List.length_cons, List.length_cons]
      omega
    · rw [oldEntries, newEntries, List.length_cons, List.length_cons]
      omega

/-- If the old values come first, the slots are two blocks. -/
theorem KeptFirst.blocks {slots : List Slot} (h : KeptFirst slots) :
    ∃ ks ns : List ℕ, slots = ks.map .inl ++ ns.map .inr := by
  induction slots with
  | nil => exact ⟨[], [], rfl⟩
  | cons x slots ih =>
    obtain ⟨hx, hrest⟩ := List.pairwise_cons.mp h
    obtain ⟨ks, ns, rfl⟩ := ih hrest
    rcases x with k | k
    · exact ⟨k :: ks, ns, rfl⟩
    · cases ks with
      | nil => exact ⟨[], k :: ns, rfl⟩
      | cons l ks =>
        exact absurd (hx (.inl l) (by simp) rfl) Bool.false_ne_true

theorem le_of_mem_newEntries {i : ℕ} {slots : List Slot} {e : ℕ × ℕ} (h : e ∈ newEntries i slots) :
    i ≤ e.1 := by
  induction slots generalizing i with
  | nil => exact absurd h List.not_mem_nil
  | cons x slots ih =>
    rcases x with k | k
    · exact (Nat.le_succ i).trans (ih h)
    · rcases List.mem_cons.mp h with rfl | h
      · exact le_rfl
      · exact (Nat.le_succ i).trans (ih h)

/-- If the new values only have places behind as many as there are old ones, the old ones come first. -/
theorem keptFirst_of_le {slots : List Slot} {i : ℕ}
    (h : ∀ e ∈ newEntries i slots, i + (oldEntries i slots).length ≤ e.1) : KeptFirst slots := by
  induction slots generalizing i with
  | nil => exact List.Pairwise.nil
  | cons x slots ih =>
    rcases x with k | k
    · refine List.pairwise_cons.mpr ⟨fun b _ hright => absurd hright Bool.false_ne_true,
        @ih (i + 1) fun e he => ?_⟩
      have hle := h e he
      rw [oldEntries, List.length_cons] at hle
      omega
    · have hfirst := h (i, k) (by rw [newEntries]; exact List.mem_cons_self)
      have hnone : (oldEntries (i + 1) slots).length = 0 := by
        rw [oldEntries] at hfirst
        dsimp only at hfirst
        omega
      refine List.pairwise_cons.mpr ⟨fun b hb _ => ?_, @ih (i + 1) fun e he => ?_⟩
      · rcases b with l | l
        · obtain ⟨front, back, rfl⟩ := List.append_of_mem hb
          rw [oldEntries_append, List.length_append, oldEntries, List.length_cons] at hnone
          omega
        · rfl
      · rw [hnone, Nat.add_zero]
        exact le_of_mem_newEntries he

/-- The list behind the two passes. -/
def passed (slots : List Slot) : List α :=
  (newEntries 0 slots).update news ((oldEntries 0 slots).update olds [])

/-- What the first pass leaves. -/
theorem first_pass (slots : List Slot) :
    (oldEntries 0 slots).update olds [] = (oldEntries 0 slots).map fun e => olds e.2 :=
  IndexMapping.update_of_le olds fun e _ => Nat.zero_le e.1

theorem map_valueEntries (i : ℕ) (ks : List ℕ) :
    (CRevisionInfoContainer.valueEntries i ks).map (fun e => olds e.2) = ks.map olds := by
  have hsnd : (CRevisionInfoContainer.valueEntries i ks).map Prod.snd = ks :=
    List.map_snd_zip (by rw [List.length_range'])
  rw [← Function.comp_def olds Prod.snd, ← List.map_map, hsnd]

/-- **The passes give the values of the slots** if no old value stands behind a new one. -/
theorem passed_of_keptFirst {slots : List Slot} (h : KeptFirst slots) :
    passed olds news slots = slots.map (Sum.elim olds news) := by
  obtain ⟨ks, ns, rfl⟩ := h.blocks
  rw [passed, first_pass, oldEntries_append, newEntries_append, oldEntries_inl, oldEntries_inr,
    newEntries_inl, newEntries_inr, List.append_nil, List.nil_append, map_valueEntries,
    IndexMapping.update_of_le news, map_valueEntries, List.map_append, List.map_map, List.map_map]
  · rfl
  · intro e he
    rw [← newEntries_inr] at he
    have hle := le_of_mem_newEntries he
    rwa [Nat.zero_add, List.length_map, ← List.length_map olds] at hle

/-- Otherwise they give fewer values. -/
theorem keptFirst_of_length {slots : List Slot}
    (h : (passed olds news slots).length = slots.length) : KeptFirst slots := by
  have hfirst : ((oldEntries 0 slots).update olds []).length = (oldEntries 0 slots).length := by
    rw [first_pass, List.length_map]
  rw [passed, IndexMapping.length_update, hfirst, ← length_entries 0 slots] at h
  have hall := List.length_filter_eq_length_iff.mp (Nat.add_left_cancel h)
  refine @keptFirst_of_le slots 0 fun e he => ?_
  rw [Nat.zero_add]
  exact of_decide_eq_true (hall e he)

end

end Slot

namespace CRevisionInfoContainer

/-! ### Reading -/

/-- The name and the value of a property.
Source: `RevisionInfoContainer.h` `CUserRevPropsIterator::GetName`, `CUserRevPropsIterator::GetValue` -/
def userRevProp (c : CRevisionInfoContainer) (offset : ℕ) : Except Fault (List UInt8 × List UInt8) := do
  let name ← checked c.userRevPropNames[offset]?
  let value ← c.userRevPropValues.get offset
  if name < c.userRevPropsPool.size then .ok (c.userRevPropsPool.get name, value)
  else .error .undefined

/-- All user properties of a revision.
Source: `RevisionInfoContainer.h` `CRevisionInfoContainer::GetUserRevPropsBegin`,
`CRevisionInfoContainer::GetUserRevPropsEnd` -/
def userRevPropsOf (c : CRevisionInfoContainer) (index : ℕ) :
    Except Fault (List (List UInt8 × List UInt8)) := do
  let first ← checked c.userRevPropOffsets[index]?
  let last ← checked c.userRevPropOffsets[index + 1]?
  let ks ← positions first last
  ks.mapM c.userRevProp

/-- The container holds the properties `props`, the index of a name and a value each. -/
structure HoldsProps (c : CRevisionInfoContainer) (props : List (List (ℕ × List UInt8))) : Prop where
  pool : c.userRevPropsPool.Unique
  offsets : c.userRevPropOffsets = offsetsFrom 0 props
  names : c.userRevPropNames = props.flatten.map Prod.fst
  values : c.userRevPropValues.Clean (props.flatten.map Prod.snd)
  known : ∀ rev ∈ props, ∀ p ∈ rev, p.1 < c.userRevPropsPool.size

/-- The columns of the user properties. -/
structure PropColumns where
  pool : CStringDictionary
  offsets : List ℕ
  names : List ℕ
  values : CTokenizedStringContainer

@[inherit_doc PropColumns] def propColumns (c : CRevisionInfoContainer) : PropColumns where
  pool := c.userRevPropsPool
  offsets := c.userRevPropOffsets
  names := c.userRevPropNames
  values := c.userRevPropValues

section

variable {c newData : CRevisionInfoContainer} {props olds news : List (List (ℕ × List UInt8))}

/-- Only the columns of the properties matter. -/
theorem HoldsProps.congr {c' : CRevisionInfoContainer} (h : c.HoldsProps props)
    (hc : c'.propColumns = c.propColumns) : c'.HoldsProps props := by
  have hpool : c'.userRevPropsPool = c.userRevPropsPool := congrArg PropColumns.pool hc
  have hvalues : c'.userRevPropValues = c.userRevPropValues := congrArg PropColumns.values hc
  refine ⟨hpool ▸ h.pool, (congrArg PropColumns.offsets hc).trans h.offsets,
    (congrArg PropColumns.names hc).trans h.names, hvalues ▸ h.values, ?_⟩
  rw [hpool]
  exact h.known

theorem userRevPropsOf_congr {c' : CRevisionInfoContainer} (hc : c'.propColumns = c.propColumns)
    (i : ℕ) : c'.userRevPropsOf i = c.userRevPropsOf i := by
  have hpool : c'.userRevPropsPool = c.userRevPropsPool := congrArg PropColumns.pool hc
  have hoffsets : c'.userRevPropOffsets = c.userRevPropOffsets := congrArg PropColumns.offsets hc
  have hnames : c'.userRevPropNames = c.userRevPropNames := congrArg PropColumns.names hc
  have hvalues : c'.userRevPropValues = c.userRevPropValues := congrArg PropColumns.values hc
  have hprop : c'.userRevProp = c.userRevProp := by
    funext k
    unfold userRevProp
    rw [hpool, hnames, hvalues]
  unfold userRevPropsOf
  rw [hoffsets, hprop]

theorem mapM_range'_eq_ok {α β : Type} {f : ℕ → Except Fault β} {g : α → β} {l : List α} {first : ℕ}
    (h : ∀ k a, l[k]? = some a → f (first + k) = .ok (g a)) :
    (List.range' first l.length).mapM f = .ok (l.map g) := by
  induction l generalizing first with
  | nil => rfl
  | cons a l ih =>
    have hrest : (List.range' (first + 1) l.length).mapM f = .ok (l.map g) := by
      refine ih fun k b hk => ?_
      rw [Nat.add_assoc, Nat.add_comm 1 k]
      exact h (k + 1) b hk
    have hfirst : f first = .ok (g a) := h 0 a rfl
    rw [List.length_cons, List.range'_succ, List.mapM_cons, hfirst, hrest]
    rfl

theorem getElem?_middle {α : Type} (front rev back : List α) {k : ℕ} {a : α} (h : rev[k]? = some a) :
    (front ++ rev ++ back)[front.length + k]? = some a := by
  have hlt := (List.getElem?_eq_some_iff.mp h).1
  rw [List.append_assoc, List.getElem?_append_right (Nat.le_add_right _ _), Nat.add_sub_cancel_left,
    List.getElem?_append_left hlt, h]

/-- What is read of a revision. -/
theorem HoldsProps.userRevPropsOf_eq (h : c.HoldsProps props) {i : ℕ} {rev : List (ℕ × List UInt8)}
    (hi : props[i]? = some rev) :
    c.userRevPropsOf i = .ok (rev.map fun p => (c.userRevPropsPool.get p.1, p.2)) := by
  have hlt := (List.getElem?_eq_some_iff.mp hi).1
  have hread : ∀ k p, rev[k]? = some p →
      c.userRevProp (offsetOf props i + k) = .ok (c.userRevPropsPool.get p.1, p.2) := by
    intro k p hk
    have hp : props.flatten[offsetOf props i + k]? = some p := by
      rw [flatten_split hi]
      exact getElem?_middle _ _ _ hk
    have hname : c.userRevPropNames[offsetOf props i + k]? = some p.1 := by
      rw [h.names, List.getElem?_map, hp]
      rfl
    have hvalue : c.userRevPropValues.get (offsetOf props i + k) = .ok p.2 :=
      h.values.get (by rw [List.getElem?_map, hp]; rfl)
    unfold userRevProp
    rw [hname, hvalue]
    exact if_pos (h.known rev (List.mem_of_getElem? hi) p (List.mem_of_getElem? hk))
  unfold userRevPropsOf
  rw [h.offsets, offsetsFrom_getElem? hlt.le, offsetsFrom_getElem? hlt, Nat.zero_add, Nat.zero_add,
    offsetOf_succ hi]
  simp only [checked, bind, Except.bind, positions_eq (Nat.le_add_right _ _), Nat.add_sub_cancel_left]
  exact mapM_range'_eq_ok hread

/-! ### The splicing loop -/

/-- The slots of the properties of a source entry. -/
def takenSlots (news : List (List (ℕ × List UInt8))) (s : ℕ) : List Slot :=
  (List.range' (offsetOf news s) (news.getD s []).length).map .inr

/-- The slots of the old properties, entry by entry, from offset `start` on. -/
def keptSlots (start : ℕ) : List (List (ℕ × List UInt8)) → List (List Slot)
  | [] => []
  | rev :: rest => (List.range' start rev.length).map .inl :: keptSlots (start + rev.length) rest

/-- The index of the name in a slot, those of the source being translated. -/
def slotName (oldNames newNames mapping : List ℕ) : Slot → ℕ
  | .inl k => oldNames.getD k 0
  | .inr k => mapping.getD (newNames.getD k 0) 0

/-- The variables of the loop when the slots `done` are written; the table still has its old entries
behind them. -/
def RevPropSplice.splicing (name : Slot → ℕ) (done : List (List Slot)) (tail : List ℕ) :
    RevPropSplice where
  names := done.flatten.map name
  offsets := offsetsFrom 0 done ++ tail
  valueIndex := done.flatten.length
  oldValueMapping := Slot.oldEntries 0 done.flatten
  newValueMapping := Slot.newEntries 0 done.flatten

/-- Slots are appended. -/
def RevPropSplice.appendSlots (st : RevPropSplice) (name : Slot → ℕ) (slots : List Slot) :
    RevPropSplice :=
  { st with
    names := st.names ++ slots.map name
    valueIndex := st.valueIndex + slots.length
    oldValueMapping := st.oldValueMapping ++ Slot.oldEntries st.valueIndex slots
    newValueMapping := st.newValueMapping ++ Slot.newEntries st.valueIndex slots }

variable {m : IndexMapping} {mapping : List ℕ} {keep : Bool} {st : RevPropSplice}
  {done : List (List Slot)} {tail : List ℕ}

theorem map_getD_middle {α β : Type} (f : α → β) (front rev back : List α) (b : β) :
    (List.range' front.length rev.length).map (((front ++ rev ++ back).map f).getD · b) =
      rev.map f := by
  induction rev generalizing front with
  | nil => rfl
  | cons a rev ih =>
    have hhead : ((front ++ a :: rev ++ back).map f).getD front.length b = f a := by
      rw [List.append_assoc, List.cons_append, List.getD_eq_getElem?_getD, getElem?_map_middle]
      rfl
    have htail := ih (front ++ [a])
    rw [List.length_append, List.length_singleton, List.append_assoc, List.append_assoc,
      List.singleton_append, ← List.cons_append, ← List.append_assoc] at htail
    rw [List.length_cons, List.range'_succ, List.map_cons, hhead, htail, List.map_cons]

/-- Old properties are appended. -/
theorem keep_eq {front rev back : List (ℕ × List UInt8)} (newNames : List ℕ) :
    st.keep ((front ++ rev ++ back).map Prod.fst) front.length (front.length + rev.length) =
      .ok (st.appendSlots (slotName ((front ++ rev ++ back).map Prod.fst) newNames mapping)
        ((List.range' front.length rev.length).map .inl)) := by
  have hnames : ((List.range' front.length rev.length).map Sum.inl).map
      (slotName ((front ++ rev ++ back).map Prod.fst) newNames mapping) = rev.map Prod.fst := by
    rw [List.map_map]
    exact map_getD_middle Prod.fst front rev back 0
  unfold RevPropSplice.keep RevPropSplice.appendSlots
  rw [slice_map_middle, positions_eq (Nat.le_add_right _ _), Nat.add_sub_cancel_left, hnames,
    Slot.oldEntries_inl, Slot.newEntries_inl, List.append_nil, List.length_map]
  rfl

/-- The properties of a source entry are appended. -/
theorem take_eq (hnew : newData.HoldsProps news) (oldNames : List ℕ)
    (hmapping : ∀ i < newData.userRevPropsPool.size, ∃ j, mapping[i]? = some j) {s : ℕ}
    (hs : s < news.length) : st.take newData mapping s =
      .ok (st.appendSlots (slotName oldNames newData.userRevPropNames mapping)
        (takenSlots news s)) := by
  obtain ⟨rev, hrev⟩ : ∃ rev, news[s]? = some rev := ⟨_, List.getElem?_eq_getElem hs⟩
  have hslots : takenSlots news s = (List.range' (offsetOf news s) rev.length).map .inr := by
    rw [takenSlots, List.getD_eq_getElem?_getD, hrev, Option.getD_some]
  have hflat := flatten_split hrev
  have hgather : gather newData.userRevPropNames (List.range' (offsetOf news s) rev.length) =
      .ok (rev.map Prod.fst) := by
    rw [hnew.names, hflat]
    exact gather_map_middle Prod.fst _ rev _
  have htranslate : (rev.map Prod.fst).mapM (fun name => checked mapping[name]?) =
      .ok (rev.map fun p => mapping.getD p.1 0) := by
    have hknown := hnew.known rev (List.mem_of_getElem? hrev)
    clear hslots hgather hflat hrev
    induction rev with
    | nil => rfl
    | cons p rev ih =>
      obtain ⟨hp, hrest⟩ := List.forall_mem_cons.mp hknown
      obtain ⟨j, hj⟩ := hmapping p.1 hp
      rw [List.map_cons, List.mapM_cons, ih hrest, hj, List.map_cons,
        List.getD_eq_getElem?_getD, hj]
      rfl
  have hnames : ((List.range' (offsetOf news s) rev.length).map Sum.inr).map
      (slotName oldNames newData.userRevPropNames mapping) =
        rev.map fun p => mapping.getD p.1 0 := by
    have hread := map_getD_middle Prod.fst (news.take s).flatten rev (news.drop (s + 1)).flatten 0
    rw [← hflat, ← hnew.names] at hread
    rw [List.map_map]
    show (List.range' _ rev.length).map ((mapping.getD · 0) ∘ (newData.userRevPropNames.getD · 0)) = _
    rw [← List.map_map, offsetOf, hread, List.map_map]
    rfl
  unfold RevPropSplice.take RevPropSplice.appendSlots
  rw [hslots, hnames, Slot.oldEntries_inr, Slot.newEntries_inr, List.append_nil, List.length_map,
    List.length_range']
  split
  · -- without any names there is nothing to append
    rename_i hnone
    have hnil : rev = [] := by
      rw [hnew.names, List.map_eq_nil_iff, hflat] at hnone
      exact (List.append_eq_nil_iff.mp (List.append_eq_nil_iff.mp hnone).1).2
    rw [hnil]
    simp [valueEntries]
  · have hlt := (List.getElem?_eq_some_iff.mp hrev).1
    rw [hnew.offsets, offsetsFrom_getElem? hlt.le, offsetsFrom_getElem? hlt, Nat.zero_add,
      Nat.zero_add, offsetOf_succ hrev]
    have hchecked : ∀ n : ℕ, checked (some n) = .ok n := fun _ => rfl
    simp only [hchecked, bind, Except.bind, positions_eq (Nat.le_add_right _ _),
      Nat.add_sub_cancel_left, hgather, htranslate, List.length_range']
    rfl

/-- Behind appending slots and storing where they end, one more list of slots is written. -/
theorem appendSlots_store (name : Slot → ℕ) (slots : List Slot) (offset : ℕ) :
    store ((RevPropSplice.splicing name done (offset :: tail)).appendSlots name slots).offsets
        (done.length + 1)
        ((RevPropSplice.splicing name done (offset :: tail)).appendSlots name slots).names.length =
      .ok (offsetsFrom 0 (done ++ [slots]) ++ tail) ∧
    { (RevPropSplice.splicing name done (offset :: tail)).appendSlots name slots with
      offsets := offsetsFrom 0 (done ++ [slots]) ++ tail } =
        RevPropSplice.splicing name (done ++ [slots]) tail := by
  have hflat : (done ++ [slots]).flatten = done.flatten ++ slots := by
    rw [List.flatten_append, List.flatten_singleton]
  constructor
  · have hstore := store_append (offsetsFrom 0 done) tail offset (done ++ [slots]).flatten.length
    rw [offsetsFrom_length] at hstore
    have hlen : (done.flatten.map name ++ slots.map name).length =
        (done ++ [slots]).flatten.length := by
      rw [hflat, ← List.map_append, List.length_map]
    show store (offsetsFrom 0 done ++ offset :: tail) _ (done.flatten.map name ++ _).length = _
    rw [hlen, hstore, offsetsFrom_concat, Nat.zero_add, List.append_assoc]
    rfl
  · unfold RevPropSplice.splicing RevPropSplice.appendSlots
    rw [hflat, List.map_append, Slot.oldEntries_append, Slot.newEntries_append, Nat.zero_add,
      List.length_append]

/-- A round: the slots of the entry are appended. -/
theorem round_eq (hnew : newData.HoldsProps news) {front rev back : List (ℕ × List UInt8)}
    (hmapping : ∀ i < newData.userRevPropsPool.size, ∃ j, mapping[i]? = some j)
    {source : Option ℕ} (hsource : ∀ s ∈ source, s < news.length)
    (hfind : newData.replacement m HAS_USERREVPROPS keep done.length = .ok source)
    {name : Slot → ℕ} (hname : name =
      slotName ((front ++ rev ++ back).map Prod.fst) newData.userRevPropNames mapping) :
    updateUserRevPropsRound newData ((front ++ rev ++ back).map Prod.fst) m mapping keep done.length
        front.length (.splicing name done ((front.length + rev.length) :: tail)) =
      .ok (.splicing name (done ++ [(source.map (takenSlots news)).getD
        ((List.range' front.length rev.length).map .inl)]) tail, front.length + rev.length) := by
  have hlast : (RevPropSplice.splicing name done
      ((front.length + rev.length) :: tail)).offsets[done.length + 1]? =
        some (front.length + rev.length) := offset_behind done tail _
  have hstored := fun slots => @appendSlots_store done tail name slots (front.length + rev.length)
  unfold updateUserRevPropsRound
  rw [hlast, hfind]
  simp only [checked, bind, Except.bind]
  cases source with
  | none =>
    obtain ⟨hstore, hst⟩ := hstored ((List.range' front.length rev.length).map .inl)
    dsimp only
    rw [keep_eq newData.userRevPropNames, ← hname]
    dsimp only
    rw [hstore, Option.map_none, Option.getD_none, ← hst]
    rfl
  | some s =>
    obtain ⟨hstore, hst⟩ := hstored (takenSlots news s)
    dsimp only
    rw [take_eq hnew ((front ++ rev ++ back).map Prod.fst) hmapping (hsource s rfl), ← hname]
    dsimp only
    rw [hstore, Option.map_some, Option.getD_some, ← hst]
    rfl

/-- The loop over the entries that are left. -/
theorem updateUserRevPropsLoop_eq (hnew : newData.HoldsProps news) (hm : (m.map Prod.fst).Nodup)
    (hsource : ∀ e ∈ m, e.2 < news.length) (hflags : newData.presenceFlags.length = news.length)
    (hmapping : ∀ i < newData.userRevPropsPool.size, ∃ j, mapping[i]? = some j)
    {rest : List (List (ℕ × List UInt8))} {front : List (ℕ × List UInt8)} {name : Slot → ℕ}
    (hname : name =
      slotName ((front ++ rest.flatten).map Prod.fst) newData.userRevPropNames mapping) :
    updateUserRevPropsLoop newData ((front ++ rest.flatten).map Prod.fst) m mapping keep rest.length
        done.length front.length (.splicing name done (offsetsFrom front.length rest).tail) =
      .ok (.splicing name (done ++ (m.taken (newData.supplied HAS_USERREVPROPS keep)).splice
        (takenSlots news) done.length (keptSlots front.length rest)) []) := by
  induction rest generalizing done front with
  | nil =>
    rw [keptSlots, IndexMapping.splice, List.append_nil]
    rfl
  | cons rev rest ih =>
    rw [List.flatten_cons, ← List.append_assoc] at hname ⊢
    have hrepl := @replacement_eq newData HAS_USERREVPROPS keep _ hm
      (fun e he => hflags ▸ hsource e he) done.length
    have htaken : ∀ s ∈ (m.taken (newData.supplied HAS_USERREVPROPS keep)).find done.length,
        s < news.length := fun s hs =>
      hsource _ (List.mem_of_mem_filter (IndexMapping.mem_of_find hs))
    have hround := @round_eq _ _ m mapping keep done (offsetsFrom (front.length + rev.length) rest).tail
      hnew front rev rest.flatten hmapping _ htaken hrepl name hname
    have hrest := @ih (done ++ [(((m.taken (newData.supplied HAS_USERREVPROPS keep)).find
      done.length).map (takenSlots news)).getD ((List.range' front.length rev.length).map .inl)])
      (front ++ rev) hname
    rw [List.length_append, List.length_append, List.length_singleton, List.append_assoc done,
      List.singleton_append] at hrest
    rw [List.length_cons, updateUserRevPropsLoop, offsetsFrom, List.tail_cons,
      offsetsFrom_eq_cons, hround, keptSlots, IndexMapping.splice]
    exact hrest

/-! ### The properties behind an update -/

/-- A property of the source in the target. -/
def translateProp (mapping : List ℕ) (p : ℕ × List UInt8) : ℕ × List UInt8 :=
  (mapping.getD p.1 0, p.2)

/-- The property in a slot. -/
def slotProp (olds news : List (ℕ × List UInt8)) (mapping : List ℕ) : Slot → ℕ × List UInt8
  | .inl k => olds.getD k (0, [])
  | .inr k => translateProp mapping (news.getD k (0, []))

/-- The slots behind an update, entry by entry. -/
def valueSlots (newData : CRevisionInfoContainer) (m : IndexMapping) (keepOldDataForMissingNew : Bool)
    (olds news : List (List (ℕ × List UInt8))) : List (List Slot) :=
  (m.taken (newData.supplied HAS_USERREVPROPS keepOldDataForMissingNew)).splice (takenSlots news) 0
    (keptSlots 0 olds)

/-- The properties that an update is meant to give. -/
def splicedProps (newData : CRevisionInfoContainer) (m : IndexMapping)
    (keepOldDataForMissingNew : Bool) (mapping : List ℕ) (olds news : List (List (ℕ × List UInt8))) :
    List (List (ℕ × List UInt8)) :=
  (m.taken (newData.supplied HAS_USERREVPROPS keepOldDataForMissingNew)).splice
    (fun s => (news.getD s []).map (translateProp mapping)) 0 olds

theorem slotName_eq (olds news : List (ℕ × List UInt8)) (mapping : List ℕ) :
    slotName (olds.map Prod.fst) (news.map Prod.fst) mapping = Prod.fst ∘ slotProp olds news mapping := by
  funext x
  rcases x with k | k
  · exact List.getD_map olds (0, []) Prod.fst
  · show mapping.getD ((news.map Prod.fst).getD k 0) 0 = mapping.getD (news.getD k (0, [])).1 0
    rw [← List.getD_map news (0, []) Prod.fst]

theorem slotValue_eq (olds news : List (ℕ × List UInt8)) (mapping : List ℕ) :
    Sum.elim (fun k => (olds.map Prod.snd).getD k []) (fun k => (news.map Prod.snd).getD k []) =
      Prod.snd ∘ slotProp olds news mapping := by
  funext x
  rcases x with k | k
  · exact List.getD_map olds (0, []) Prod.snd
  · exact List.getD_map news (0, []) Prod.snd

theorem map_middle {α β : Type} (f : α → β) (front rev back : List α) (a : α) :
    (List.range' front.length rev.length).map (fun k => f ((front ++ rev ++ back).getD k a)) =
      rev.map f := by
  have h := map_getD_middle id front rev back a
  rw [List.map_id, List.map_id] at h
  rw [← Function.comp_def f, ← List.map_map, h]

theorem keptSlots_map (front : List (ℕ × List UInt8)) (olds : List (List (ℕ × List UInt8)))
    (newProps : List (ℕ × List UInt8)) :
    (keptSlots front.length olds).map (List.map (slotProp (front ++ olds.flatten) newProps mapping)) =
      olds := by
  induction olds generalizing front with
  | nil => rfl
  | cons rev olds ih =>
    have hrest := ih (front ++ rev)
    rw [List.length_append] at hrest
    rw [keptSlots, List.map_cons, List.map_map, List.flatten_cons, ← List.append_assoc, hrest]
    congr 1
    have hmiddle := map_middle id front rev olds.flatten (0, [])
    rw [List.map_id] at hmiddle
    exact hmiddle

theorem takenSlots_map (oldProps : List (ℕ × List UInt8)) {s : ℕ} (hs : s < news.length) :
    (takenSlots news s).map (slotProp oldProps news.flatten mapping) =
      (news.getD s []).map (translateProp mapping) := by
  have hrev : news[s]? = some (news.getD s []) := by
    rw [List.getD_eq_getElem?_getD, List.getElem?_eq_getElem hs]
    rfl
  have hmiddle := map_middle (translateProp mapping) (news.take s).flatten (news.getD s [])
    (news.drop (s + 1)).flatten (0, [])
  rw [← flatten_split hrev] at hmiddle
  rw [takenSlots, List.map_map]
  exact hmiddle

/-- The slots hold the spliced properties. -/
theorem valueSlots_map (hsource : ∀ e ∈ m, e.2 < news.length) :
    (valueSlots newData m keep olds news).map (List.map (slotProp olds.flatten news.flatten mapping)) =
      splicedProps newData m keep mapping olds news := by
  have hkept := @keptSlots_map mapping [] olds news.flatten
  rw [List.nil_append, List.length_nil] at hkept
  rw [valueSlots, IndexMapping.splice_map, hkept, splicedProps]
  refine IndexMapping.splice_congr (fun e he => ?_) 0 olds
  exact takenSlots_map _ (hsource e (List.mem_of_mem_filter he))

theorem keptSlots_valid (start count : ℕ) (olds : List (List (ℕ × List UInt8))) :
    ∀ slots ∈ keptSlots start olds, ∀ x ∈ slots, x.Valid (start + olds.flatten.length) count := by
  induction olds generalizing start with
  | nil => exact fun slots hslots => absurd hslots List.not_mem_nil
  | cons rev olds ih =>
    rw [keptSlots, List.flatten_cons, List.length_append, ← Nat.add_assoc]
    refine List.forall_mem_cons.mpr ⟨fun x hx => ?_, ih (start + rev.length)⟩
    obtain ⟨k, hk, rfl⟩ := List.mem_map.mp hx
    have hlt := (List.mem_range'_1.mp hk).2
    show k < _
    omega

theorem takenSlots_valid (count : ℕ) {s : ℕ} (hs : s < news.length) :
    ∀ x ∈ takenSlots news s, x.Valid count news.flatten.length := by
  intro x hx
  obtain ⟨k, hk, rfl⟩ := List.mem_map.mp hx
  have hrev : news[s]? = some (news.getD s []) := by
    rw [List.getD_eq_getElem?_getD, List.getElem?_eq_getElem hs]
    rfl
  have hlt := (List.mem_range'_1.mp hk).2
  rw [← offsetOf_succ hrev] at hlt
  exact hlt.trans_le (offsetOf_le news (s + 1))

theorem valueSlots_valid (hsource : ∀ e ∈ m, e.2 < news.length) :
    ∀ x ∈ (valueSlots newData m keep olds news).flatten,
      x.Valid olds.flatten.length news.flatten.length := by
  have hkept := keptSlots_valid 0 news.flatten.length olds
  rw [Nat.zero_add] at hkept
  intro x hx
  obtain ⟨slots, hslots, hx⟩ := List.mem_flatten.mp hx
  exact IndexMapping.splice_forall
    (fun e he => takenSlots_valid _ (hsource e (List.mem_of_mem_filter he))) hkept 0 slots hslots x hx

/-- **Behind `UpdateUserRevProps`**, the names are the spliced ones, and the values are those that the
two passes give. -/
theorem HoldsProps.updateUserRevProps (delimiter : UInt8 → Bool) (h : c.HoldsProps olds)
    (hsize : c.size = olds.length) (hnew : newData.HoldsProps news) (hm : (m.map Prod.fst).Nodup)
    (hsource : ∀ e ∈ m, e.2 < news.length) (hflags : newData.presenceFlags.length = news.length)
    (hmapping : mapping = (c.userRevPropsPool.merge newData.userRevPropsPool).2) :
    ∃ values, c.updateUserRevProps delimiter newData m keep = .ok { c with
        userRevPropsPool := (c.userRevPropsPool.merge newData.userRevPropsPool).1
        userRevPropNames := (splicedProps newData m keep mapping olds news).flatten.map Prod.fst
        userRevPropOffsets := offsetsFrom 0 (splicedProps newData m keep mapping olds news)
        userRevPropValues := values } ∧
      values.Clean (Slot.passed (fun k => (olds.flatten.map Prod.snd).getD k [])
        (fun k => (news.flatten.map Prod.snd).getD k [])
        (valueSlots newData m keep olds news).flatten) := by
  obtain ⟨-, -, hall⟩ := h.pool.merge hnew.pool
  have hvalid := @valueSlots_valid newData olds news m keep hsource
  -- the loop
  have hloop := @updateUserRevPropsLoop_eq newData news m mapping keep [] hnew hm hsource hflags
    (fun i hi => by
      obtain ⟨j, hj, -⟩ := hall i hi
      exact ⟨j, hmapping ▸ hj⟩) olds [] _ rfl
  have hstart : RevPropSplice.splicing (slotName (([] ++ olds.flatten).map Prod.fst)
      newData.userRevPropNames mapping) [] (offsetsFrom 0 olds).tail =
        ⟨[], c.userRevPropOffsets, 0, [], []⟩ := by
    rw [h.offsets, offsetsFrom_eq_cons 0 olds]
    rfl
  simp only [List.length_nil] at hloop
  rw [hstart, List.nil_append, List.nil_append, ← h.names, ← valueSlots] at hloop
  -- the passes
  obtain ⟨v₁, hv₁, hclean₁⟩ := CTokenizedStringContainer.init_clean.replace delimiter h.values
    (m := Slot.oldEntries 0 (valueSlots newData m keep olds news).flatten) fun e he => by
      rw [List.length_map]
      exact hvalid _ (Slot.mem_of_oldEntries he)
  obtain ⟨v₂, hv₂, hclean₂⟩ := hclean₁.replace delimiter hnew.values
    (m := Slot.newEntries 0 (valueSlots newData m keep olds news).flatten) fun e he => by
      rw [List.length_map]
      exact hvalid _ (Slot.mem_of_newEntries he)
  have hprops := @valueSlots_map newData olds news m mapping keep hsource
  have hnames : (valueSlots newData m keep olds news).flatten.map
      (slotName c.userRevPropNames newData.userRevPropNames mapping) =
        (splicedProps newData m keep mapping olds news).flatten.map Prod.fst := by
    rw [h.names, hnew.names, slotName_eq, ← List.map_map, List.map_flatten, hprops]
  have hoffsets : offsetsFrom 0 (valueSlots newData m keep olds news) =
      offsetsFrom 0 (splicedProps newData m keep mapping olds news) := by
    refine offsetsFrom_congr ?_ 0
    rw [← hprops, List.map_map]
    exact List.map_congr_left fun slots _ => (List.length_map _).symm
  refine ⟨v₂, ?_, hclean₂⟩
  unfold CRevisionInfoContainer.updateUserRevProps
  dsimp only
  rw [CTokenizedStringContainer.insertCount_nil, hsize, ← hmapping]
  simp only [bind, Except.bind]
  rw [hloop]
  unfold RevPropSplice.splicing
  dsimp only
  rw [hv₁]
  dsimp only
  rw [hv₂, hnames, hoffsets, List.append_nil]
  rfl

/-- The names of the spliced properties are known. -/
theorem splicedProps_known (h : c.HoldsProps olds) (hnew : newData.HoldsProps news)
    (hsource : ∀ e ∈ m, e.2 < news.length) :
    ∀ rev ∈ splicedProps newData m keep
      (c.userRevPropsPool.merge newData.userRevPropsPool).2 olds news, ∀ p ∈ rev,
        p.1 < (c.userRevPropsPool.merge newData.userRevPropsPool).1.size := by
  obtain ⟨-, hext, hall⟩ := h.pool.merge hnew.pool
  refine IndexMapping.splice_forall (fun e he => List.forall_mem_map.mpr fun p hp => ?_)
    (fun rev hrev p hp => (h.known rev hrev p hp).trans_le hext.size) 0
  have hlt := hsource e (List.mem_of_mem_filter he)
  have hmem : news.getD e.2 [] ∈ news := by
    rw [List.getD_eq_getElem?_getD, List.getElem?_eq_getElem hlt, Option.getD_some]
    exact List.getElem_mem hlt
  obtain ⟨j, hj, hjlt, -⟩ := hall p.1 (hnew.known _ hmem p hp)
  show List.getD _ p.1 0 < _
  rw [List.getD_eq_getElem?_getD, hj]
  exact hjlt

/-- If the old values come first, the container holds the spliced properties. -/
theorem HoldsProps.of_keptFirst (h : c.HoldsProps olds) (hnew : newData.HoldsProps news)
    (hsource : ∀ e ∈ m, e.2 < news.length)
    (hmapping : mapping = (c.userRevPropsPool.merge newData.userRevPropsPool).2)
    {values : CTokenizedStringContainer}
    (hvalues : values.Clean (Slot.passed (fun k => (olds.flatten.map Prod.snd).getD k [])
      (fun k => (news.flatten.map Prod.snd).getD k []) (valueSlots newData m keep olds news).flatten))
    (hfirst : Slot.KeptFirst (valueSlots newData m keep olds news).flatten) :
    ({ c with
      userRevPropsPool := (c.userRevPropsPool.merge newData.userRevPropsPool).1
      userRevPropNames := (splicedProps newData m keep mapping olds news).flatten.map Prod.fst
      userRevPropOffsets := offsetsFrom 0 (splicedProps newData m keep mapping olds news)
      userRevPropValues := values } : CRevisionInfoContainer).HoldsProps
        (splicedProps newData m keep mapping olds news) where
  pool := (h.pool.merge hnew.pool).1
  offsets := rfl
  names := rfl
  values := by
    rw [Slot.passed_of_keptFirst _ _ hfirst, slotValue_eq _ _ mapping, ← List.map_map,
      List.map_flatten, valueSlots_map hsource] at hvalues
    exact hvalues
  known := hmapping ▸ splicedProps_known h hnew hsource

/-! ### Which values are where they belong -/

theorem keptSlots_getElem? (start : ℕ) (olds : List (List (ℕ × List UInt8))) (i : ℕ) :
    (keptSlots start olds)[i]? = olds[i]?.map fun rev =>
      (List.range' (start + offsetOf olds i) rev.length).map .inl := by
  induction olds generalizing start i with
  | nil => rfl
  | cons rev olds ih =>
    rcases i with _ | i
    · rfl
    · rw [keptSlots, List.getElem?_cons_succ, ih, List.getElem?_cons_succ, offsetOf_cons_succ,
        Nat.add_assoc]

theorem isRight_of_taken {s : ℕ} {x : Slot} (hx : x ∈ takenSlots news s) : x.isRight = true := by
  obtain ⟨k, -, rfl⟩ := List.mem_map.mp hx
  rfl

theorem takenSlots_eq_nil {s : ℕ} : takenSlots news s = [] ↔ news.getD s [] = [] := by
  rw [takenSlots, List.map_eq_nil_iff, List.range'_eq_nil_iff, List.length_eq_zero_iff]

theorem keptSlots_length (start : ℕ) (olds : List (List (ℕ × List UInt8))) :
    (keptSlots start olds).length = olds.length := by
  induction olds generalizing start with
  | nil => rfl
  | cons rev olds ih => rw [keptSlots, List.length_cons, List.length_cons, ih]

/-- The slots of an entry are all of one kind. -/
theorem valueSlots_getElem {i : ℕ} {slots : List Slot}
    (hi : (valueSlots newData m keep olds news)[i]? = some slots) :
    (∃ s, (m.taken (newData.supplied HAS_USERREVPROPS keep)).find i = some s ∧
      slots = takenSlots news s) ∨
    (m.taken (newData.supplied HAS_USERREVPROPS keep)).find i = none ∧
      ∃ start, slots = (List.range' start (olds.getD i []).length).map .inl := by
  rw [valueSlots, IndexMapping.splice_getElem?, keptSlots_getElem?, Nat.zero_add] at hi
  rcases hrev : olds[i]? with _ | rev
  · rw [hrev] at hi
    cases hi
  · rw [hrev, Option.map_some, Option.map_some] at hi
    obtain rfl := Option.some.inj hi
    cases hfind : (m.taken (newData.supplied HAS_USERREVPROPS keep)).find i with
    | some s => exact .inl ⟨s, rfl, rfl⟩
    | none =>
      refine .inr ⟨rfl, 0 + offsetOf olds i, ?_⟩
      rw [List.getD_eq_getElem?_getD, hrev]
      rfl

/-- The old values come first iff no entry that keeps some of them stands behind an entry that takes
over new ones. -/
theorem keptFirst_iff : Slot.KeptFirst (valueSlots newData m keep olds news).flatten ↔
    ∀ i k s, i < k → k < olds.length →
      (m.taken (newData.supplied HAS_USERREVPROPS keep)).find i = some s → news.getD s [] ≠ [] →
      (m.taken (newData.supplied HAS_USERREVPROPS keep)).find k = none → olds.getD k [] = [] := by
  have hlen : (valueSlots newData m keep olds news).length = olds.length := by
    rw [valueSlots, IndexMapping.splice_length, keptSlots_length]
  unfold Slot.KeptFirst
  rw [List.pairwise_flatten, List.pairwise_iff_getElem]
  constructor
  · rintro ⟨-, hpairs⟩ i k s hik hk hi hnew hnone
    by_contra hold
    have hi' : i < (valueSlots newData m keep olds news).length := hlen ▸ hik.trans hk
    have hk' : k < (valueSlots newData m keep olds news).length := hlen ▸ hk
    have hpair := hpairs i k hi' hk' hik
    obtain ⟨s', hs', htaken⟩ | ⟨hnone', -⟩ := valueSlots_getElem (List.getElem?_eq_getElem hi')
    · obtain rfl := Option.some.inj (hi.symm.trans hs')
      obtain ⟨s', hs', -⟩ | ⟨-, start, hkept⟩ := valueSlots_getElem (List.getElem?_eq_getElem hk')
      · rw [hnone] at hs'
        cases hs'
      · obtain ⟨x, hx⟩ := List.exists_mem_of_ne_nil _ (mt takenSlots_eq_nil.mp hnew)
        obtain ⟨p, rest, hp⟩ := List.exists_cons_of_ne_nil hold
        have hmem : (.inl start : Slot) ∈
            (List.range' start (olds.getD k []).length).map Sum.inl := by
          rw [hp]
          exact List.mem_map.mpr ⟨start, List.mem_range'_1.mpr ⟨le_rfl, by simp⟩, rfl⟩
        have hright := hpair x (htaken ▸ hx) (.inl start) (hkept ▸ hmem) (isRight_of_taken hx)
        exact Bool.false_ne_true hright
    · rw [hi] at hnone'
      cases hnone'
  · intro hcond
    have hkinds : ∀ (i : ℕ) (slots : List Slot),
        (valueSlots newData m keep olds news)[i]? = some slots →
          ∀ x ∈ slots, ∀ y ∈ slots, x.isRight → y.isRight := by
      intro i slots hslots x hx y hy hright
      obtain ⟨s, -, rfl⟩ | ⟨-, start, rfl⟩ := valueSlots_getElem hslots
      · exact isRight_of_taken hy
      · obtain ⟨j, -, rfl⟩ := List.mem_map.mp hx
        exact absurd hright Bool.false_ne_true
    constructor
    · intro slots hslots
      obtain ⟨i, hi⟩ := List.getElem?_of_mem hslots
      exact List.pairwise_of_forall_mem_list fun x hx y hy => hkinds i slots hi x hx y hy
    · intro i k hi hk hik x hx y hy hright
      obtain ⟨s, hs, htaken⟩ | ⟨-, start, hkept⟩ := valueSlots_getElem (List.getElem?_eq_getElem hi)
      · obtain ⟨t, -, htaken'⟩ | ⟨hnone, start, hkept⟩ :=
          valueSlots_getElem (List.getElem?_eq_getElem hk)
        · rw [htaken'] at hy
          exact isRight_of_taken hy
        · have hne : news.getD s [] ≠ [] := by
            intro hnil
            rw [htaken, takenSlots_eq_nil.mpr hnil] at hx
            exact List.not_mem_nil hx
          rw [hkept, hcond i k s hik (hlen ▸ hk) hs hne hnone] at hy
          exact absurd hy List.not_mem_nil
      · rw [hkept] at hx
        obtain ⟨j, -, rfl⟩ := List.mem_map.mp hx
        exact absurd hright Bool.false_ne_true

end

end CRevisionInfoContainer

end TortoiseSvn.LogCache
