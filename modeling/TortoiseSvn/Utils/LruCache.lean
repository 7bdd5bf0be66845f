import Mathlib.Tactic
import TortoiseSvn.Lib.LinkedIndex

/-!
# A cache that evicts the least recently used entry

`LruCache` holds its items in a list and an index from the keys to the iterators of their items. A new
item is added at the end, and an item that is found is moved to the end, so the first item is the one
that was not used for the longest time. Assigning a value to a key that is held moves nothing.

Main result: `behaves_after`, about every history of calls.
-/

namespace TortoiseSvn.Utils

open Lib

/-- Source: `LruCache.h` `LruCache::ListItem` -/
structure ListItem (K V : Type) where
  key : K
  val : V
  deriving DecidableEq, Repr

/-- An iterator of the list: the address of an item, or the end. -/
abbrev ListIter := Option ℕ

/-- The list has the addresses of its items; the next item gets the address `fresh`.
Source: `LruCache.h` `LruCache` -/
structure LruCache (K V : Type) where
  maxSize : UInt64
  itemsMap : K → Option ListIter
  itemsList : List (ℕ × ListItem K V)
  fresh : ℕ

/-- An iterator that points at no item of the list. -/
inductive BadIterator
  | badIterator
  deriving DecidableEq, Repr

namespace LruCache

variable {K V : Type}

/-- Source: `LruCache.h` `LruCache::LruCache` -/
def ofSize (maxSize : UInt64) : LruCache K V where
  maxSize := maxSize
  itemsMap := fun _ => none
  itemsList := []
  fresh := 0

/-- The item that an iterator points at. -/
def deref (l : List (ℕ × ListItem K V)) : ListIter → Except BadIterator (ℕ × ListItem K V)
  | some p =>
    match l.find? fun x => x.1 = p with
    | some x => .ok x
    | none => .error .badIterator
  | none => .error .badIterator

section Code

variable [DecidableEq K]

/-- The loop over the list from its beginning.
Source: `LruCache.h` `LruCache::evict` -/
def evictLoop (itemsToKeep : ℕ) (itemsMap : K → Option ListIter) :
    List (ℕ × ListItem K V) → (K → Option ListIter) × List (ℕ × ListItem K V)
  | [] => (itemsMap, [])
  | it :: rest =>
    if itemsToKeep < (it :: rest).length then
      evictLoop itemsToKeep (Function.update itemsMap it.2.key none) rest
    else (itemsMap, it :: rest)

/-- Source: `LruCache.h` `LruCache::evict` -/
def evict (c : LruCache K V) (itemsToKeep : UInt64) : LruCache K V :=
  let (itemsMap, itemsList) := evictLoop itemsToKeep.toNat c.itemsMap c.itemsList
  { c with itemsMap := itemsMap, itemsList := itemsList }

/-- A new item at the end of the list, and its iterator in the map.
Source: `LruCache.h` `LruCache::insert_or_assign` -/
def insertNew (c : LruCache K V) (key : K) (val : V) : LruCache K V where
  maxSize := c.maxSize
  itemsMap :=
    if (c.itemsMap key).isNone then Function.update c.itemsMap key (some (some c.fresh))
    else c.itemsMap
  itemsList := c.itemsList ++ [(c.fresh, ⟨key, val⟩)]
  fresh := c.fresh + 1

/-- Source: `LruCache.h` `LruCache::insert_or_assign` -/
def insert_or_assign (c : LruCache K V) (key : K) (val : V) :
    Except BadIterator (LruCache K V) :=
  match c.itemsMap key with
  | none => .ok ((c.evict (c.maxSize - 1)).insertNew key val)
  | some it => do
    let (p, _) ← deref c.itemsList it
    .ok { c with itemsList := c.itemsList.map fun x =>
      if x.1 = p then (x.1, { x.2 with val := val }) else x }

/-- Move the item of an iterator to the end of the list.
Source: `LruCache.h` `LruCache::try_get`, `itemsList.splice` -/
def spliceToEnd (l : List (ℕ × ListItem K V)) (it : ListIter) :
    Except BadIterator (List (ℕ × ListItem K V)) := do
  let x ← deref l it
  .ok ((l.eraseP fun y => y.1 = x.1) ++ [x])

/-- The value that the returned pointer points at, or `none` for NULL.
Source: `LruCache.h` `LruCache::try_get` -/
def try_get (c : LruCache K V) (key : K) : Except BadIterator (LruCache K V × Option V) :=
  match c.itemsMap key with
  | none => .ok (c, none)
  | some it => do
    let itemsList ← if it ≠ none then spliceToEnd c.itemsList it else .ok c.itemsList
    let (_, item) ← deref itemsList it
    .ok ({ c with itemsList := itemsList }, some item.val)

end Code

/-- Source: `LruCache.h` `LruCache::clear` -/
def clear (c : LruCache K V) : LruCache K V := { c with itemsMap := fun _ => none, itemsList := [] }

/-- A call. -/
inductive Call (K V : Type)
  | insert_or_assign (key : K) (val : V)
  | try_get (key : K)
  | clear
  deriving DecidableEq, Repr

/-- What a call does, and the value it returns. -/
def call [DecidableEq K] (c : LruCache K V) :
    Call K V → Except BadIterator (LruCache K V × Option V)
  | .insert_or_assign key val => (c.insert_or_assign key val).map fun c' => (c', none)
  | .try_get key => c.try_get key
  | .clear => .ok (c.clear, none)

/-- The cache after some calls, the last one first. -/
def after [DecidableEq K] (maxSize : UInt64) : List (Call K V) → Except BadIterator (LruCache K V)
  | [] => .ok (ofSize maxSize)
  | op :: past => do
    let c ← after maxSize past
    let (c', _) ← c.call op
    .ok c'

attribute [local simp] evictLoop after

/-! ### What was called before -/

/-- The keys that are held, in the order of the list. -/
def keys (c : LruCache K V) : List K := c.itemsList.map fun x => x.2.key

/-- The value last assigned to a key. -/
def lastAssigned [DecidableEq K] (key : K) : List (Call K V) → Option V
  | [] => none
  | .insert_or_assign k val :: past => if k = key then some val else lastAssigned key past
  | _ :: past => lastAssigned key past

/-- A call inserts the key, which is not held, or gets its value. -/
def Uses (c : LruCache K V) (key : K) : Call K V → Prop
  | .insert_or_assign k _ => k = key ∧ key ∉ c.keys
  | .try_get k => k = key ∧ key ∈ c.keys
  | .clear => False

instance [DecidableEq K] (c : LruCache K V) (key : K) (op : Call K V) : Decidable (Uses c key op) :=
  match op with
  | .insert_or_assign _ _ => inferInstanceAs (Decidable (_ ∧ _))
  | .try_get _ => inferInstanceAs (Decidable (_ ∧ _))
  | .clear => inferInstanceAs (Decidable False)

/-- The number of the call that last used a key, counted from 1; 0 when there was none. -/
def lastUse [DecidableEq K] (maxSize : UInt64) (key : K) : List (Call K V) → ℕ
  | [] => 0
  | op :: past =>
    match after maxSize past with
    | .ok c => if Uses c key op then past.length + 1 else lastUse maxSize key past
    | .error _ => lastUse maxSize key past

/-! ### Single operations -/

/-- The map points at every key's own item, and the items have different addresses. -/
structure Valid (c : LruCache K V) : Prop where
  linked : Linked (fun x : ℕ × ListItem K V => x.2.key) (fun x => (some x.1 : ListIter))
    c.itemsMap c.itemsList
  addresses : (c.itemsList.map Prod.fst).Nodup
  lt_fresh : ∀ x ∈ c.itemsList, x.1 < c.fresh

theorem valid_ofSize (maxSize : UInt64) : (ofSize maxSize : LruCache K V).Valid :=
  ⟨Linked.empty, List.nodup_nil, fun _ hx => absurd hx List.not_mem_nil⟩

theorem Valid.clear {c : LruCache K V} : c.clear.Valid :=
  ⟨Linked.empty, List.nodup_nil, fun _ hx => absurd hx List.not_mem_nil⟩

theorem deref_of_mem {l : List (ℕ × ListItem K V)} (hl : (l.map Prod.fst).Nodup)
    {x : ℕ × ListItem K V} (hx : x ∈ l) : deref l (some x.1) = .ok x := by
  have hfind : (l.find? fun y => y.1 = x.1) = some x := by
    induction l with
    | nil => exact absurd hx List.not_mem_nil
    | cons y l ih =>
      rcases List.mem_cons.mp hx with rfl | hmem
      · exact List.find?_cons_of_pos (by simp)
      · have hne : y.1 ≠ x.1 := fun heq =>
          (List.nodup_cons.mp hl).1 (heq ▸ List.mem_map_of_mem hmem)
        rw [List.find?_cons_of_neg (by simpa using hne)]
        exact ih (List.nodup_cons.mp hl).2 hmem
  rw [deref, hfind]

variable [DecidableEq K] {c : LruCache K V} {key : K}

/-- The first items are evicted. -/
theorem evictLoop_spec (itemsToKeep : ℕ) {itemsMap : K → Option ListIter}
    {l : List (ℕ × ListItem K V)}
    (h : Linked (fun x : ℕ × ListItem K V => x.2.key) (fun x => (some x.1 : ListIter)) itemsMap l) :
    Linked (fun x : ℕ × ListItem K V => x.2.key) (fun x => (some x.1 : ListIter))
        (evictLoop itemsToKeep itemsMap l).1 (evictLoop itemsToKeep itemsMap l).2 ∧
      (evictLoop itemsToKeep itemsMap l).2 = l.drop (l.length - itemsToKeep) := by
  induction l generalizing itemsMap with
  | nil => exact ⟨h, by simp⟩
  | cons it rest ih =>
    rw [evictLoop]
    split_ifs with hkeep
    · obtain ⟨hlinked, hdrop⟩ := ih h.tail
      refine ⟨hlinked, ?_⟩
      rw [List.length_cons] at hkeep
      rw [hdrop, List.length_cons, Nat.succ_sub (by omega), List.drop_succ_cons]
    · rw [List.length_cons] at hkeep
      refine ⟨h, ?_⟩
      rw [List.length_cons, Nat.sub_eq_zero_of_le (by omega), List.drop_zero]

theorem Valid.evict (h : c.Valid) (itemsToKeep : UInt64) : (c.evict itemsToKeep).Valid ∧
    (c.evict itemsToKeep).itemsList =
      c.itemsList.drop (c.itemsList.length - itemsToKeep.toNat) := by
  obtain ⟨hlinked, hdrop⟩ := evictLoop_spec itemsToKeep.toNat h.linked
  refine ⟨⟨hlinked, ?_, ?_⟩, hdrop⟩
  · change ((evictLoop _ _ _).2.map Prod.fst).Nodup
    rw [hdrop, List.map_drop]
    exact h.addresses.sublist (List.drop_sublist _ _)
  · intro x hx
    change x ∈ (evictLoop _ _ _).2 at hx
    rw [hdrop] at hx
    exact h.lt_fresh x (List.mem_of_mem_drop hx)

theorem Valid.insertNew (h : c.Valid) (hnew : key ∉ c.keys) (val : V) :
    (c.insertNew key val).Valid := by
  have hnone : c.itemsMap key = none := h.linked.find_eq_none_iff.mpr hnew
  have hlinked := h.linked.append (e := (c.fresh, ⟨key, val⟩)) hnew
  refine ⟨?_, ?_, ?_⟩
  · simpa only [LruCache.insertNew, hnone, Option.isNone_none, if_true] using hlinked
  · rw [LruCache.insertNew, List.map_append, List.map_singleton, List.nodup_append]
    refine ⟨h.addresses, List.nodup_singleton _, ?_⟩
    rintro p hp q hq rfl
    obtain ⟨x, hx, rfl⟩ := List.mem_map.mp hp
    have hlt := h.lt_fresh x hx
    rw [List.mem_singleton] at hq
    omega
  · intro x hx
    change x.1 < c.fresh + 1
    rcases List.mem_append.mp hx with hold | hlast
    · have hlt := h.lt_fresh x hold
      omega
    · rw [List.mem_singleton.mp hlast]
      exact Nat.lt_succ_self _

/-- A new key: the first items go as far as there is no room, and the new item is the last one. -/
theorem Valid.insert_new (h : c.Valid) (hsize : 1 ≤ c.maxSize) (hnew : key ∉ c.keys) (val : V) :
    ∃ c', c.insert_or_assign key val = .ok c' ∧ c'.Valid ∧ c'.maxSize = c.maxSize ∧
      c'.itemsList = c.itemsList.drop (c.itemsList.length - (c.maxSize.toNat - 1)) ++
        [(c.fresh, ⟨key, val⟩)] := by
  have hnone : c.itemsMap key = none := h.linked.find_eq_none_iff.mpr hnew
  obtain ⟨hvalid, hdrop⟩ := h.evict (c.maxSize - 1)
  have hkeep : (c.maxSize - 1).toNat = c.maxSize.toNat - 1 := UInt64.toNat_sub_of_le _ _ hsize
  rw [hkeep] at hdrop
  have hnew' : key ∉ (c.evict (c.maxSize - 1)).keys := by
    rw [keys, hdrop]
    intro hmem
    obtain ⟨x, hx, rfl⟩ := List.mem_map.mp hmem
    exact hnew (List.mem_map_of_mem (List.mem_of_mem_drop hx))
  refine ⟨_, by rw [insert_or_assign, hnone], hvalid.insertNew hnew' val, rfl, ?_⟩
  rw [LruCache.insertNew, hdrop]
  rfl

/-- A key that is held gets another value; nothing else changes. -/
theorem Valid.assign (h : c.Valid) (hheld : key ∈ c.keys) (val : V) :
    ∃ c' p, c.insert_or_assign key val = .ok c' ∧ c'.Valid ∧ c'.maxSize = c.maxSize ∧
      (∃ item, (p, item) ∈ c.itemsList ∧ item.key = key) ∧
      c'.itemsList = c.itemsList.map fun x =>
        if x.1 = p then (x.1, { x.2 with val := val }) else x := by
  obtain ⟨⟨p, item⟩, hx, rfl⟩ := List.mem_map.mp hheld
  have hfind := h.linked.find hx
  let l := c.itemsList.map fun x => if x.1 = p then (x.1, { x.2 with val := val }) else x
  refine ⟨{ c with itemsList := l }, p, ?_, ⟨?_, ?_, ?_⟩, rfl, ⟨item, hx, rfl⟩, rfl⟩
  · rw [insert_or_assign, hfind]
    dsimp only
    rw [deref_of_mem h.addresses hx]
    rfl
  · apply h.linked.map
    · intro x
      dsimp only
      split_ifs <;> rfl
    · intro x
      dsimp only
      split_ifs <;> rfl
  · have hfst : (l.map Prod.fst) = c.itemsList.map Prod.fst := by
      rw [List.map_map]
      apply List.map_congr_left
      intro x _
      dsimp only [Function.comp]
      split_ifs <;> rfl
    rw [hfst]
    exact h.addresses
  · intro y hy
    obtain ⟨x, hx, rfl⟩ := List.mem_map.mp hy
    dsimp only
    split_ifs <;> exact h.lt_fresh x hx

/-- The item of a key that is held becomes the last one. -/
theorem Valid.get (h : c.Valid) {x : ℕ × ListItem K V} (hx : x ∈ c.itemsList) :
    ∃ c', c.try_get x.2.key = .ok (c', some x.2.val) ∧ c'.Valid ∧ c'.maxSize = c.maxSize ∧
      c'.itemsList = (c.itemsList.filter fun y => y.2.key ≠ x.2.key) ++ [x] := by
  have hfind := h.linked.find hx
  have herase := Linked.eraseP_eq_filter h.addresses h.linked.nodup hx
  set l := (c.itemsList.filter fun y => y.2.key ≠ x.2.key) ++ [x]
  have hperm : c.itemsList.Perm l := Linked.perm_filter_append h.linked.nodup hx
  have hsplice : spliceToEnd c.itemsList (some x.1) = .ok l := by
    rw [spliceToEnd, deref_of_mem h.addresses hx]
    exact congrArg Except.ok (congrArg (· ++ [x]) herase)
  have haddresses : (l.map Prod.fst).Nodup := (hperm.map _).nodup_iff.mp h.addresses
  refine ⟨{ c with itemsList := l }, ?_, ⟨h.linked.perm hperm, haddresses, ?_⟩, rfl, rfl⟩
  · rw [try_get, hfind]
    dsimp only
    rw [if_pos (by simp), hsplice]
    change (deref l (some x.1) >>= _) = _
    rw [deref_of_mem haddresses (hperm.mem_iff.mp hx)]
    rfl
  · intro y hy
    exact h.lt_fresh y (hperm.mem_iff.mpr hy)

/-! ### Histories -/

variable {maxSize : UInt64} {past : List (Call K V)}

theorem lastUse_le (maxSize : UInt64) (key : K) (past : List (Call K V)) :
    lastUse maxSize key past ≤ past.length := by
  induction past with
  | nil => exact le_rfl
  | cons op past ih =>
    rw [lastUse, List.length_cons]
    split
    · split_ifs
      · exact le_rfl
      · omega
    · omega

theorem lastUse_cons (hafter : after maxSize past = .ok c) (key : K) (op : Call K V) :
    lastUse maxSize key (op :: past) =
      if Uses c key op then past.length + 1 else lastUse maxSize key past := by
  rw [lastUse, hafter]

/-- What holds of the cache after some calls. -/
structure Keeps (maxSize : UInt64) (past : List (Call K V)) (c : LruCache K V) : Prop where
  valid : c.Valid
  size : c.maxSize = maxSize
  le_maxSize : c.itemsList.length ≤ maxSize.toNat
  values : ∀ x ∈ c.itemsList, lastAssigned x.2.key past = some x.2.val
  recent : c.itemsList.Pairwise fun x y =>
    lastUse maxSize x.2.key past < lastUse maxSize y.2.key past

/-- Items of which a call uses none keep their order. -/
theorem Keeps.recent_of_unused (h : Keeps maxSize past c) (hafter : after maxSize past = .ok c)
    {op : Call K V} {l : List (ℕ × ListItem K V)} (hl : l.Sublist c.itemsList)
    (hunused : ∀ x ∈ l, ¬ Uses c x.2.key op) : l.Pairwise fun x y =>
      lastUse maxSize x.2.key (op :: past) < lastUse maxSize y.2.key (op :: past) := by
  apply (h.recent.sublist hl).imp_of_mem
  intro x y hx hy hlt
  rwa [lastUse_cons hafter, lastUse_cons hafter, if_neg (hunused x hx), if_neg (hunused y hy)]

/-- The item that a call uses comes last. -/
theorem Keeps.recent_append (h : Keeps maxSize past c) (hafter : after maxSize past = .ok c)
    {op : Call K V} {l : List (ℕ × ListItem K V)} (hl : l.Sublist c.itemsList)
    (hunused : ∀ x ∈ l, ¬ Uses c x.2.key op) {x : ℕ × ListItem K V} (hx : Uses c x.2.key op) :
    (l ++ [x]).Pairwise fun x y =>
      lastUse maxSize x.2.key (op :: past) < lastUse maxSize y.2.key (op :: past) := by
  rw [List.pairwise_append]
  refine ⟨h.recent_of_unused hafter hl hunused, List.pairwise_singleton _ _, ?_⟩
  intro y hy x' hx'
  rw [List.mem_singleton.mp hx', lastUse_cons hafter, lastUse_cons hafter, if_pos hx,
    if_neg (hunused y hy)]
  exact Nat.lt_succ_of_le (lastUse_le _ _ _)

omit [DecidableEq K] in
theorem mem_keys {x : ℕ × ListItem K V} (hx : x ∈ c.itemsList) : x.2.key ∈ c.keys :=
  List.mem_map_of_mem hx

/-- A new key. -/
theorem Keeps.insert_new (h : Keeps maxSize past c) (hafter : after maxSize past = .ok c)
    (hsize : 1 ≤ maxSize) (hnew : key ∉ c.keys) (val : V) :
    ∃ c', c.insert_or_assign key val = .ok c' ∧ Keeps maxSize (.insert_or_assign key val :: past) c' ∧
      c'.itemsList = c.itemsList.drop (c.itemsList.length - (maxSize.toNat - 1)) ++
        [(c.fresh, ⟨key, val⟩)] := by
  obtain rfl := h.size
  obtain ⟨c', hcall, hvalid, hmax, hlist⟩ := h.valid.insert_new hsize hnew val
  have hne : ∀ x ∈ c.itemsList, key ≠ x.2.key := fun x hx heq => hnew (heq ▸ mem_keys hx)
  refine ⟨c', hcall, ⟨hvalid, hmax, ?_, ?_, ?_⟩, hlist⟩
  · have hpos : 1 ≤ c.maxSize.toNat := UInt64.le_iff_toNat_le.mp hsize
    rw [hlist, List.length_append, List.length_drop, List.length_singleton]
    omega
  · intro x hx
    rw [hlist] at hx
    rcases List.mem_append.mp hx with hold | hlast
    · have hmem := List.mem_of_mem_drop hold
      rw [lastAssigned, if_neg (hne x hmem)]
      exact h.values x hmem
    · rw [List.mem_singleton.mp hlast, lastAssigned, if_pos rfl]
  · rw [hlist]
    apply h.recent_append hafter (List.drop_sublist _ _)
    · intro x hx huses
      exact hne x (List.mem_of_mem_drop hx) huses.1
    · exact ⟨rfl, hnew⟩

/-- A key that is held gets another value. -/
theorem Keeps.assign (h : Keeps maxSize past c) (hafter : after maxSize past = .ok c)
    (hheld : key ∈ c.keys) (val : V) : ∃ c', c.insert_or_assign key val = .ok c' ∧
      Keeps maxSize (.insert_or_assign key val :: past) c' ∧ c'.keys = c.keys := by
  obtain ⟨c', p, hcall, hvalid, hmax, ⟨item, hitem, rfl⟩, hlist⟩ := h.valid.assign hheld val
  set f := fun x : ℕ × ListItem K V => if x.1 = p then (x.1, { x.2 with val := val }) else x with hf
  have hkey : ∀ x, (f x).2.key = x.2.key := by
    intro x
    rw [hf]
    dsimp only
    split_ifs <;> rfl
  have hkeys : c'.keys = c.keys := by
    rw [keys, hlist, List.map_map]
    exact List.map_congr_left fun x _ => hkey x
  refine ⟨c', hcall, ⟨hvalid, hmax.trans h.size, ?_, ?_, ?_⟩, hkeys⟩
  · rw [hlist, List.length_map]
    exact h.le_maxSize
  · intro y hy
    rw [hlist] at hy
    obtain ⟨x, hx, rfl⟩ := List.mem_map.mp hy
    rw [hkey, lastAssigned]
    by_cases hp : x.1 = p
    · -- the address is the item's own
      have hsame : x = (p, item) := List.inj_on_of_nodup_map h.valid.addresses hx hitem hp
      rw [hsame, if_pos rfl, hf]
      simp
    · have hne : item.key ≠ x.2.key := by
        intro heq
        have hfind := h.valid.linked.find hitem
        dsimp only at hfind
        rw [heq, h.valid.linked.find hx] at hfind
        exact hp (Option.some.inj (Option.some.inj hfind))
      rw [if_neg hne, hf]
      dsimp only
      rw [if_neg hp]
      exact h.values x hx
  · rw [hlist, List.pairwise_map]
    have hunused : ∀ x ∈ c.itemsList, ¬ Uses c x.2.key (.insert_or_assign item.key val) :=
      fun x hx huses => huses.2 (mem_keys hx)
    apply (h.recent_of_unused hafter (List.Sublist.refl _) hunused).imp
    intro x y hlt
    rwa [hkey, hkey]

/-- A key that is held is found. -/
theorem Keeps.get (h : Keeps maxSize past c) (hafter : after maxSize past = .ok c)
    {x : ℕ × ListItem K V} (hx : x ∈ c.itemsList) : ∃ c', c.try_get x.2.key = .ok (c', some x.2.val) ∧
      Keeps maxSize (.try_get x.2.key :: past) c' ∧ c'.keys.Perm c.keys := by
  obtain ⟨c', hcall, hvalid, hmax, hlist⟩ := h.valid.get hx
  have hperm := Linked.perm_filter_append h.valid.linked.nodup hx
  rw [← hlist] at hperm
  refine ⟨c', hcall, ⟨hvalid, hmax.trans h.size, ?_, ?_, ?_⟩, (hperm.map _).symm⟩
  · rw [← hperm.length_eq]
    exact h.le_maxSize
  · intro y hy
    exact h.values y (hperm.mem_iff.mpr hy)
  · rw [hlist]
    apply h.recent_append hafter List.filter_sublist
    · intro y hy huses
      have hne := (List.mem_filter.mp hy).2
      exact absurd huses.1.symm (by simpa using hne)
    · exact ⟨rfl, mem_keys hx⟩

/-- A key that is not held is not found. -/
theorem Keeps.get_absent (h : Keeps maxSize past c) (hafter : after maxSize past = .ok c)
    (habsent : key ∉ c.keys) :
    c.try_get key = .ok (c, none) ∧ Keeps maxSize (.try_get key :: past) c := by
  have hcall : c.try_get key = .ok (c, none) := by
    rw [try_get, h.valid.linked.find_eq_none_iff.mpr habsent]
  refine ⟨hcall, h.valid, h.size, h.le_maxSize, h.values, ?_⟩
  apply h.recent_of_unused hafter (List.Sublist.refl _)
  rintro x hx ⟨heq, hheld⟩
  exact habsent (heq ▸ hheld)

theorem Keeps.clear (h : Keeps maxSize past c) : Keeps maxSize (.clear :: past) c.clear :=
  ⟨Valid.clear, h.size, Nat.zero_le _, fun _ hx => absurd hx List.not_mem_nil, List.Pairwise.nil⟩

/-- One call keeps what holds. -/
theorem Keeps.call (h : Keeps maxSize past c) (hafter : after maxSize past = .ok c)
    (hsize : 1 ≤ maxSize) (op : Call K V) :
    ∃ c' r, c.call op = .ok (c', r) ∧ Keeps maxSize (op :: past) c' := by
  cases op with
  | insert_or_assign key val =>
    by_cases hheld : key ∈ c.keys
    · obtain ⟨c', hcall, hkeeps, -⟩ := h.assign hafter hheld val
      exact ⟨c', none, by rw [LruCache.call, hcall]; rfl, hkeeps⟩
    · obtain ⟨c', hcall, hkeeps, -⟩ := h.insert_new hafter hsize hheld val
      exact ⟨c', none, by rw [LruCache.call, hcall]; rfl, hkeeps⟩
  | try_get key =>
    by_cases hheld : key ∈ c.keys
    · obtain ⟨x, hx, rfl⟩ := List.mem_map.mp hheld
      obtain ⟨c', hcall, hkeeps, -⟩ := h.get hafter hx
      exact ⟨c', _, hcall, hkeeps⟩
    · obtain ⟨hcall, hkeeps⟩ := h.get_absent hafter hheld
      exact ⟨c, _, hcall, hkeeps⟩
  | clear => exact ⟨c.clear, none, rfl, h.clear⟩

/-- All calls keep what holds. -/
theorem keeps_after (hsize : 1 ≤ maxSize) (past : List (Call K V)) :
    ∃ c, after maxSize past = .ok c ∧ Keeps maxSize past c := by
  induction past with
  | nil =>
    refine ⟨ofSize maxSize, rfl, valid_ofSize maxSize, rfl, Nat.zero_le _, ?_, List.Pairwise.nil⟩
    exact fun _ hx => absurd hx List.not_mem_nil
  | cons op past ih =>
    obtain ⟨c, hafter, hkeeps⟩ := ih
    obtain ⟨c', r, hcall, hkeeps'⟩ := hkeeps.call hafter hsize op
    refine ⟨c', ?_, hkeeps'⟩
    rw [after, hafter]
    change (c.call op >>= _) = _
    rw [hcall]
    rfl

/-! ### The result -/

/-- What the cache does after some calls: it links every key with its own item, it is not larger than it
may be, and every key that it holds has the value last assigned to it. The other fields say which keys
are held after another call. -/
structure Behaves (maxSize : UInt64) (past : List (Call K V)) (c : LruCache K V) : Prop where
  linked : Linked (fun x : ℕ × ListItem K V => x.2.key) (fun x => (some x.1 : ListIter))
    c.itemsMap c.itemsList
  addresses : (c.itemsList.map Prod.fst).Nodup
  le_maxSize : c.keys.length ≤ maxSize.toNat
  try_get_held : ∀ key ∈ c.keys, ∃ c' val, lastAssigned key past = some val ∧
    c.try_get key = .ok (c', some val) ∧ c'.keys.Perm c.keys
  try_get_absent : ∀ key ∉ c.keys, c.try_get key = .ok (c, none)
  assign : ∀ key ∈ c.keys, ∀ val, ∃ c', c.insert_or_assign key val = .ok c' ∧ c'.keys = c.keys
  insert : ∀ key ∉ c.keys, ∀ val, c.keys.length < maxSize.toNat →
    ∃ c', c.insert_or_assign key val = .ok c' ∧ ∀ k, k ∈ c'.keys ↔ k ∈ c.keys ∨ k = key
  evict : ∀ key ∉ c.keys, ∀ val, c.keys.length = maxSize.toNat →
    ∃ c' old, c.insert_or_assign key val = .ok c' ∧ old ∈ c.keys ∧
      (∀ k ∈ c.keys, k ≠ old → lastUse maxSize old past < lastUse maxSize k past) ∧
      ∀ k, k ∈ c'.keys ↔ k ∈ c.keys ∧ k ≠ old ∨ k = key
  clear : c.clear.keys = []

/-- The key of the first item is the one that was used before all others. -/
theorem Keeps.oldest (h : Keeps maxSize past c) {x : ℕ × ListItem K V}
    {rest : List (ℕ × ListItem K V)} (hlist : c.itemsList = x :: rest) :
    (∀ k ∈ c.keys, k ≠ x.2.key → lastUse maxSize x.2.key past < lastUse maxSize k past) ∧
      ∀ k, k ∈ rest.map (fun y => y.2.key) ↔ k ∈ c.keys ∧ k ≠ x.2.key := by
  have hrecent := h.recent
  have hnodup := h.valid.linked.nodup
  rw [hlist] at hrecent hnodup
  rw [List.map_cons, List.nodup_cons] at hnodup
  have hkeys : c.keys = x.2.key :: rest.map fun y => y.2.key := by rw [keys, hlist, List.map_cons]
  rw [hkeys]
  constructor
  · intro k hk hne
    obtain ⟨y, hy, rfl⟩ := List.mem_map.mp ((List.mem_cons.mp hk).resolve_left hne)
    exact (List.pairwise_cons.mp hrecent).1 y hy
  · intro k
    rw [List.mem_cons]
    constructor
    · intro hk
      exact ⟨Or.inr hk, fun heq => hnodup.1 (heq ▸ hk)⟩
    · rintro ⟨hk, hne⟩
      exact hk.resolve_left hne

/-- **A least recently used cache**: after every history of calls on a cache of size at least 1 the two
structures agree, values are the ones last assigned, and a full cache evicts exactly the key whose last
insertion or successful look-up is the oldest.
Source: `LruCache.h` `LruCache` -/
theorem behaves_after (maxSize : UInt64) (hsize : 1 ≤ maxSize) (past : List (Call K V)) :
    ∃ c, after maxSize past = .ok c ∧ Behaves maxSize past c := by
  obtain ⟨c, hafter, h⟩ := keeps_after hsize past
  have hpos : 1 ≤ maxSize.toNat := UInt64.le_iff_toNat_le.mp hsize
  have hlength : c.keys.length = c.itemsList.length := List.length_map _
  refine ⟨c, hafter, h.valid.linked, h.valid.addresses, hlength ▸ h.le_maxSize, ?_, ?_, ?_, ?_, ?_, rfl⟩
  · intro key hheld
    obtain ⟨x, hx, rfl⟩ := List.mem_map.mp hheld
    obtain ⟨c', hcall, -, hperm⟩ := h.get hafter hx
    exact ⟨c', x.2.val, h.values x hx, hcall, hperm⟩
  · exact fun key habsent => (h.get_absent hafter habsent).1
  · intro key hheld val
    obtain ⟨c', hcall, -, hkeys⟩ := h.assign hafter hheld val
    exact ⟨c', hcall, hkeys⟩
  · intro key hnew val hroom
    obtain ⟨c', hcall, -, hlist⟩ := h.insert_new hafter hsize hnew val
    rw [Nat.sub_eq_zero_of_le (by omega), List.drop_zero] at hlist
    refine ⟨c', hcall, fun k => ?_⟩
    rw [keys, hlist, List.map_append, List.mem_append, List.map_singleton, List.mem_singleton]
    rfl
  · intro key hnew val hfull
    obtain ⟨c', hcall, -, hlist⟩ := h.insert_new hafter hsize hnew val
    cases hitems : c.itemsList with
    | nil =>
      rw [hitems, List.length_nil] at hlength
      omega
    | cons x rest =>
      obtain ⟨hold, hrest⟩ := h.oldest hitems
      have hdrop : c.itemsList.drop (c.itemsList.length - (maxSize.toNat - 1)) = rest := by
        rw [show c.itemsList.length - (maxSize.toNat - 1) = 1 by omega, hitems, List.drop_one,
          List.tail_cons]
      rw [hdrop] at hlist
      refine ⟨c', x.2.key, hcall, mem_keys (hitems ▸ List.mem_cons_self), hold, fun k => ?_⟩
      rw [keys, hlist, List.map_append, List.mem_append, List.map_singleton, List.mem_singleton,
        hrest]

theorem behaves_after_two : ∃ c, after 2 [.insert_or_assign 3 300, .try_get 1, .insert_or_assign 2 200,
    .insert_or_assign 1 100] = .ok c ∧ Behaves (K := ℕ) (V := ℕ) 2 [.insert_or_assign 3 300,
      .try_get 1, .insert_or_assign 2 200, .insert_or_assign 1 100] c :=
  behaves_after 2 (by decide) _

/-- Key 2 is evicted, as key 1 was looked up behind its insertion. -/
example : (after 2 [.insert_or_assign 3 300, .try_get 1, .insert_or_assign 2 200,
    .insert_or_assign 1 100]).map keys = .ok [1, 3] := by
  rfl

end LruCache

end TortoiseSvn.Utils
