import Mathlib.Tactic
import TortoiseSvn.Lib.LinkedIndex
import TortoiseSvn.Lib.SortedMap

/-!
# A queue without duplicates

`UniqueQueue` keeps its values in a deque, each with a priority, and the priorities in a map from the
values. A value that is pushed again is looked up in the map, and its place in the deque is the one with
the same priority. Priorities count up; they start again when `Pop` has emptied the queue, and the queue
is built anew from the map when the counter overflows.

The map compares values by an order, here the order of their keys: two values with one key are one entry
of the map, and the one that was there first stays.

Main result: `listed_after`, about every history of calls without an overflow.
-/

namespace TortoiseSvn.Utils

open Lib

/-- Source: `UniqueQueue.h` `UniqueQueue::UniqueQueueStruct` -/
structure UniqueQueueStruct (T : Type) where
  value : T
  priority : UInt64
  deriving DecidableEq, Repr

/-- Source: `UniqueQueue.h` `UniqueQueue` -/
structure UniqueQueue (T κ : Type) [LinearOrder κ] where
  m_QueueTMap : SortedMap κ (T × UInt64) := SortedMap.empty
  m_Queue : List (UniqueQueueStruct T) := []
  m_highestValue : UInt64 := 0

namespace UniqueQueue

variable {T κ : Type} [LinearOrder κ] (key : T → κ)

/-! ### The code -/

/-- Erase the entry with a priority; there is at most one.
Source: `UniqueQueue.h` `UniqueQueue::Push`, `UniqueQueue::erase`, the loops -/
def eraseEntry (l : List (UniqueQueueStruct T)) (priority : UInt64) : List (UniqueQueueStruct T) :=
  l.eraseP fun qIt => qIt.priority = priority

/-- One round of the loop over the old map.
Source: `UniqueQueue.h` `UniqueQueue::Push`, "recreate the whole queue from scratch" -/
def recreateEntry (q : UniqueQueue T κ) (entry : κ × T × UInt64) : UniqueQueue T κ where
  m_QueueTMap := q.m_QueueTMap.insert entry.1 (entry.2.1, q.m_highestValue)
  m_Queue := q.m_Queue ++ [⟨entry.2.1, q.m_highestValue⟩]
  m_highestValue := q.m_highestValue + 1

/-- Source: `UniqueQueue.h` `UniqueQueue::Push`, "overflow of priority value" -/
def recreate (q : UniqueQueue T κ) : UniqueQueue T κ :=
  q.m_QueueTMap.entries.foldl recreateEntry { m_highestValue := q.m_highestValue }

/-- Source: `UniqueQueue.h` `UniqueQueue::Push` -/
def Push (q : UniqueQueue T κ) (value : T) : UniqueQueue T κ × ℕ :=
  let q' : UniqueQueue T κ :=
    match q.m_QueueTMap.find (key value) with
    | some (first, second) =>
      { m_QueueTMap := q.m_QueueTMap.assign (key value) (first, q.m_highestValue)
        m_Queue := eraseEntry q.m_Queue second ++ [⟨first, q.m_highestValue⟩]
        m_highestValue := q.m_highestValue + 1 }
    | none =>
      let q' : UniqueQueue T κ :=
        { m_QueueTMap := q.m_QueueTMap.insert (key value) (value, q.m_highestValue)
          m_Queue := q.m_Queue ++ [⟨value, q.m_highestValue⟩]
          m_highestValue := q.m_highestValue + 1 }
      if q'.m_highestValue = 0 then recreate q' else q'
  (q', q'.m_Queue.length)

/-- Source: `UniqueQueue.h` `UniqueQueue::Pop` -/
def Pop [Inhabited T] (q : UniqueQueue T κ) : UniqueQueue T κ × T :=
  match q.m_Queue with
  | [] => (q, default)
  | front :: rest =>
    ({ m_QueueTMap := q.m_QueueTMap.erase (key front.value)
       m_Queue := rest
       m_highestValue := if rest = [] then 0 else q.m_highestValue }, front.value)

/-- Source: `UniqueQueue.h` `UniqueQueue::erase` -/
def erase (q : UniqueQueue T κ) (value : T) : UniqueQueue T κ × ℕ :=
  let q' : UniqueQueue T κ :=
    match q.m_QueueTMap.find (key value) with
    | some (_, second) =>
      { q with
        m_QueueTMap := q.m_QueueTMap.erase (key value)
        m_Queue := eraseEntry q.m_Queue second }
    | none => q
  (q', q'.m_QueueTMap.entries.length)

/-- Source: `UniqueQueue.h` `UniqueQueue::size` -/
def size (q : UniqueQueue T κ) : ℕ := q.m_Queue.length

/-- A call. -/
inductive Call (T : Type)
  | Push (value : T)
  | Pop
  | erase (value : T)
  deriving DecidableEq, Repr

/-- What a call does, and the number or the value it returns. -/
def call [Inhabited T] (q : UniqueQueue T κ) : Call T → UniqueQueue T κ × (ℕ ⊕ T)
  | .Push value => ((q.Push key value).1, .inl (q.Push key value).2)
  | .Pop => ((q.Pop key).1, .inr (q.Pop key).2)
  | .erase value => ((q.erase key value).1, .inl (q.erase key value).2)

/-- The queue after some calls, the last one first. -/
def after [Inhabited T] : List (Call T) → UniqueQueue T κ
  | [] => {}
  | op :: past => ((after past).call key op).1

/-! ### A list without duplicates -/

/-- The queued value that a value stands for, or the value itself when there is none. -/
def stored (l : List T) (value : T) : T := (l.find? fun x => key x = key value).getD value

/-- All values but the given one. -/
def without (l : List T) (value : T) : List T := l.filter fun x => key x ≠ key value

/-- What a call is meant to do with a list, and what it is meant to return. -/
def listCall [Inhabited T] (l : List T) : Call T → List T × (ℕ ⊕ T)
  | .Push value =>
    let l' := without key l value ++ [stored key l value]
    (l', .inl l'.length)
  | .Pop => (l.tail, .inr (l.headD default))
  | .erase value => (without key l value, .inl (without key l value).length)

/-- The list after some calls, the last one first. -/
def contents [Inhabited T] : List (Call T) → List T
  | [] => []
  | op :: past => (listCall key (contents past) op).1

/-- The number of pushes since `Pop` last emptied the queue. -/
def pushes [Inhabited T] : List (Call T) → ℕ
  | [] => 0
  | .Push _ :: past => pushes past + 1
  | .Pop :: past => if (contents key past).length = 1 then 0 else pushes past
  | .erase _ :: past => pushes past

/-- At no time there were so many pushes that the priorities overflow. -/
def Paced [Inhabited T] (calls : List (Call T)) : Prop :=
  ∀ past, past <:+ calls → pushes key past < 2 ^ 64 - 1

attribute [local simp] after contents pushes

theorem stored_of_injective {key : T → κ} (h : Function.Injective key) (l : List T) (value : T) :
    stored key l value = value := by
  unfold stored
  cases hfind : l.find? fun x => key x = key value with
  | none => rfl
  | some x => exact h (by simpa using List.find?_some hfind)

section Stored

variable {key} {l : List T} {x value : T}

theorem stored_of_mem (hnodup : (l.map key).Nodup) (hx : x ∈ l) (hkey : key x = key value) :
    stored key l value = x := by
  unfold stored
  cases hfind : l.find? fun x => key x = key value with
  | none => exact absurd (List.find?_eq_none.mp hfind x hx) (by simpa using hkey)
  | some y =>
    have hy : key y = key value := by simpa using List.find?_some hfind
    exact List.inj_on_of_nodup_map hnodup (List.mem_of_find?_eq_some hfind) hx (hy.trans hkey.symm)

theorem stored_of_not_mem (h : key value ∉ l.map key) : stored key l value = value := by
  unfold stored
  rw [List.find?_eq_none.mpr]
  · rfl
  · intro x hx
    have hne : key x ≠ key value := fun heq => h (heq ▸ List.mem_map_of_mem hx)
    simpa using hne

theorem without_of_not_mem (h : key value ∉ l.map key) : without key l value = l := by
  rw [without, List.filter_eq_self]
  intro x hx
  have hne : key x ≠ key value := fun heq => h (heq ▸ List.mem_map_of_mem hx)
  simpa using hne

end Stored

/-! ### The invariant -/

/-- The deque has the values of the list in its order, with ascending priorities, and the map holds each
value with the priority of its entry. -/
structure Represents (q : UniqueQueue T κ) (l : List T) : Prop where
  values : q.m_Queue.map UniqueQueueStruct.value = l
  linked : Linked (fun s : UniqueQueueStruct T => key s.value) (fun s => (s.value, s.priority))
    q.m_QueueTMap.find q.m_Queue
  ascending : q.m_Queue.Pairwise fun a b => a.priority < b.priority

/-- The counter is the number of pushes, and above all priorities. -/
structure Counts [Inhabited T] (past : List (Call T)) (q : UniqueQueue T κ) : Prop where
  highest : q.m_highestValue.toNat = pushes key past
  below : ∀ s ∈ q.m_Queue, s.priority < q.m_highestValue

section Steps

variable {key} {q : UniqueQueue T κ} {l : List T} {value : T}

theorem Represents.nodup (h : Represents key q l) : (l.map key).Nodup := by
  rw [← h.values, List.map_map]
  exact h.linked.nodup

theorem Represents.size_eq (h : Represents key q l) : q.size = l.length := by
  rw [size, ← h.values, List.length_map]

/-- The map has as many entries as the deque. -/
theorem Represents.length_map (h : Represents key q l) :
    q.m_QueueTMap.entries.length = l.length := by
  have hperm : (q.m_QueueTMap.entries.map Prod.fst).Perm (l.map key) := by
    apply (List.perm_ext_iff_of_nodup q.m_QueueTMap.nodup_keys h.nodup).mpr
    intro k
    have hnone := h.linked.find_eq_none_iff (k := k)
    rw [SortedMap.find_eq_none_iff, not_iff_not] at hnone
    rw [hnone, ← h.values, List.map_map]
    rfl
  simpa using hperm.length_eq

/-- A value that the map finds is queued, and its entry is erased by its priority. -/
theorem Represents.found (h : Represents key q l) {first : T} {second : UInt64}
    (hfind : q.m_QueueTMap.find (key value) = some (first, second)) :
    key first = key value ∧ stored key l value = first ∧
      eraseEntry q.m_Queue second = q.m_Queue.filter fun s => key s.value ≠ key value := by
  obtain ⟨s, hs, hkey, hident⟩ := (h.linked.find_iff _ _).mp hfind
  obtain ⟨rfl, rfl⟩ := Prod.mk.inj hident
  refine ⟨hkey, stored_of_mem h.nodup ?_ hkey, ?_⟩
  · rw [← h.values]
    exact List.mem_map_of_mem hs
  · have hpriority : (q.m_Queue.map UniqueQueueStruct.priority).Nodup :=
      List.pairwise_map.mpr (h.ascending.imp UInt64.ne_of_lt)
    rw [← hkey]
    exact Linked.eraseP_eq_filter hpriority h.linked.nodup hs

/-- A value that the map does not find is not queued. -/
theorem Represents.absent (h : Represents key q l)
    (hfind : q.m_QueueTMap.find (key value) = none) : key value ∉ l.map key := by
  rw [← h.values, List.map_map]
  exact h.linked.find_eq_none_iff.mp hfind

theorem Represents.map_filter (h : Represents key q l) (value : T) :
    (q.m_Queue.filter fun s => key s.value ≠ key value).map UniqueQueueStruct.value =
      without key l value := by
  rw [without, ← h.values, List.filter_map]
  rfl

/-- A new entry at the end, with the highest priority. -/
theorem represents_append {index : κ → Option (T × UInt64)} {l' : List (UniqueQueueStruct T)}
    {m : SortedMap κ (T × UInt64)} {highest : UInt64} {first : T}
    (hlinked : Linked (fun s : UniqueQueueStruct T => key s.value) (fun s => (s.value, s.priority))
      index l') (hnew : key first ∉ l'.map fun s => key s.value)
    (hm : m.find = Function.update index (key first) (some (first, highest)))
    (hascending : l'.Pairwise fun a b => a.priority < b.priority)
    (hbelow : ∀ s ∈ l', s.priority < highest) :
    Represents key ⟨m, l' ++ [⟨first, highest⟩], highest + 1⟩
      (l'.map UniqueQueueStruct.value ++ [first]) := by
  refine ⟨?_, ?_, ?_⟩
  · rw [List.map_append, List.map_singleton]
  · rw [hm]
    exact hlinked.append (e := ⟨first, highest⟩) hnew
  · rw [List.pairwise_append]
    refine ⟨hascending, List.pairwise_singleton _ _, ?_⟩
    intro s hs s' hs'
    rw [List.mem_singleton.mp hs']
    exact hbelow s hs

/-- A value that is not queued, without an overflow. -/
theorem push_absent (hhighest : q.m_highestValue + 1 ≠ 0)
    (hfind : q.m_QueueTMap.find (key value) = none) : (q.Push key value).1 =
      ⟨q.m_QueueTMap.assign (key value) (value, q.m_highestValue),
        q.m_Queue ++ [⟨value, q.m_highestValue⟩], q.m_highestValue + 1⟩ := by
  simp only [Push, hfind, SortedMap.insert_eq_assign hfind, if_neg hhighest]

/-- A value that is queued. -/
theorem push_found {first : T} {second : UInt64}
    (hfind : q.m_QueueTMap.find (key value) = some (first, second)) : (q.Push key value).1 =
      ⟨q.m_QueueTMap.assign (key value) (first, q.m_highestValue),
        eraseEntry q.m_Queue second ++ [⟨first, q.m_highestValue⟩], q.m_highestValue + 1⟩ := by
  simp only [Push, hfind]

theorem push_snd (q : UniqueQueue T κ) (value : T) :
    (q.Push key value).2 = (q.Push key value).1.size := rfl

/-- Without an overflow, a value that is pushed is removed and appended: what stays is followed by an
entry with the highest priority. -/
theorem Represents.push (h : Represents key q l) (value : T)
    (hbelow : ∀ s ∈ q.m_Queue, s.priority < q.m_highestValue) (hhighest : q.m_highestValue + 1 ≠ 0) :
    Represents key (q.Push key value).1 (without key l value ++ [stored key l value]) ∧
      (q.Push key value).1.m_highestValue = q.m_highestValue + 1 ∧
      ∃ first stay, (q.Push key value).1.m_Queue = stay ++ [⟨first, q.m_highestValue⟩] ∧
        stay.Sublist q.m_Queue := by
  cases hfind : q.m_QueueTMap.find (key value) with
  | none =>
    have habsent := h.absent hfind
    have hnew : key value ∉ q.m_Queue.map fun s => key s.value :=
      h.linked.find_eq_none_iff.mp hfind
    have happend := represents_append h.linked hnew
      (q.m_QueueTMap.find_assign (key value) (value, q.m_highestValue)) h.ascending hbelow
    rw [h.values] at happend
    rw [push_absent hhighest hfind, stored_of_not_mem habsent, without_of_not_mem habsent]
    exact ⟨happend, rfl, value, q.m_Queue, rfl, List.Sublist.refl _⟩
  | some entry =>
    obtain ⟨first, second⟩ := entry
    obtain ⟨hkey, hstored, herase⟩ := h.found hfind
    have hm := q.m_QueueTMap.find_assign (key value) (first, q.m_highestValue)
    have hnew : key first ∉
        (q.m_Queue.filter fun s => key s.value ≠ key value).map fun s => key s.value := by
      intro hmem
      obtain ⟨s, hs, heq⟩ := List.mem_map.mp hmem
      have hne := (List.mem_filter.mp hs).2
      exact absurd (heq.trans hkey) (by simpa using hne)
    have hm' : (q.m_QueueTMap.assign (key value) (first, q.m_highestValue)).find =
        Function.update (Function.update q.m_QueueTMap.find (key value) none) (key first)
          (some (first, q.m_highestValue)) := by
      rw [hm, hkey, Function.update_idem]
    have happend := represents_append (h.linked.erase (key value)) hnew hm'
      (h.ascending.sublist List.filter_sublist) fun s hs => hbelow s (List.mem_of_mem_filter hs)
    rw [h.map_filter] at happend
    rw [push_found hfind, hstored, herase]
    exact ⟨happend, rfl, first, _, rfl, List.filter_sublist⟩

/-- The first value is removed and returned. -/
theorem Represents.pop [Inhabited T] (h : Represents key q l) :
    Represents key (q.Pop key).1 l.tail ∧ (q.Pop key).2 = l.headD default ∧
      (q.Pop key).1.m_Queue = q.m_Queue.tail ∧
      (q.Pop key).1.m_highestValue = if l.length = 1 then 0 else q.m_highestValue := by
  have hvalues := h.values
  unfold Pop
  cases hqueue : q.m_Queue with
  | nil =>
    rw [hqueue] at hvalues
    subst hvalues
    exact ⟨h, rfl, hqueue, rfl⟩
  | cons front rest =>
    have hlinked := h.linked
    have hascending := h.ascending
    rw [hqueue] at hvalues hlinked hascending
    subst hvalues
    refine ⟨⟨rfl, ?_, (List.pairwise_cons.mp hascending).2⟩, rfl, rfl, ?_⟩
    · dsimp only
      rw [SortedMap.find_erase]
      exact hlinked.tail
    · simp [List.length_eq_zero_iff]

/-- A value that is erased is removed. -/
theorem Represents.erase (h : Represents key q l) (value : T) :
    Represents key (q.erase key value).1 (without key l value) ∧
      (q.erase key value).2 = (without key l value).length ∧
      (q.erase key value).1.m_Queue.Sublist q.m_Queue ∧
      (q.erase key value).1.m_highestValue = q.m_highestValue := by
  suffices hrep : Represents key (q.erase key value).1 (without key l value) ∧
      (q.erase key value).1.m_Queue.Sublist q.m_Queue ∧
      (q.erase key value).1.m_highestValue = q.m_highestValue from
    ⟨hrep.1, hrep.1.length_map, hrep.2⟩
  unfold UniqueQueue.erase
  cases hfind : q.m_QueueTMap.find (key value) with
  | none =>
    rw [without_of_not_mem (h.absent hfind)]
    exact ⟨h, List.Sublist.refl _, rfl⟩
  | some entry =>
    obtain ⟨first, second⟩ := entry
    obtain ⟨-, -, herase⟩ := h.found hfind
    dsimp only
    rw [herase]
    refine ⟨⟨h.map_filter value, ?_, h.ascending.sublist List.filter_sublist⟩,
      List.filter_sublist, rfl⟩
    dsimp only
    rw [SortedMap.find_erase]
    exact h.linked.erase (key value)

end Steps

/-! ### The result -/

section Runs

variable {key} [Inhabited T] {q : UniqueQueue T κ} {past calls : List (Call T)}

theorem Paced.tail {op : Call T} (h : Paced key (op :: past)) : Paced key past :=
  fun past' hsuffix => h past' (hsuffix.trans (List.suffix_cons op past))

theorem pushes_le_length (key : T → κ) (past : List (Call T)) : pushes key past ≤ past.length := by
  induction past with
  | nil => exact le_rfl
  | cons op past ih =>
    cases op with
    | Push value => exact Nat.succ_le_succ ih
    | Pop =>
      rw [pushes, List.length_cons]
      split_ifs <;> omega
    | erase value => exact Nat.le_succ_of_le ih

/-- A short history is paced. -/
theorem paced_of_length (h : calls.length < 2 ^ 64 - 1) : Paced key calls := by
  intro past hsuffix
  have hpushes := pushes_le_length key past
  have hlength := hsuffix.length_le
  omega

/-- The counter does not overflow at the next push. -/
theorem Counts.succ (h : Counts key past q) (hpaced : pushes key past + 1 < 2 ^ 64 - 1) :
    (q.m_highestValue + 1).toNat = pushes key past + 1 := by
  rw [UInt64.toNat_add, h.highest, UInt64.toNat_one]
  exact Nat.mod_eq_of_lt (by omega)

/-- One call does with the queue what it is meant to do with the list. -/
theorem Represents.call {op : Call T} (h : Represents key q (contents key past))
    (hcounts : Counts key past q) (hpaced : Paced key (op :: past)) :
    Represents key (q.call key op).1 (contents key (op :: past)) ∧
      Counts key (op :: past) (q.call key op).1 ∧
      (q.call key op).2 = (listCall key (contents key past) op).2 := by
  have hpushes := hpaced _ (List.suffix_refl _)
  cases op with
  | Push value =>
    rw [pushes] at hpushes
    have hsucc := hcounts.succ hpushes
    have hne : q.m_highestValue + 1 ≠ 0 := by
      intro hzero
      rw [hzero, UInt64.toNat_zero] at hsucc
      omega
    obtain ⟨hrep, hhighest, first, stay, hqueue, hstay⟩ := h.push value hcounts.below hne
    have hlast : q.m_highestValue < q.m_highestValue + 1 := by
      rw [UInt64.lt_iff_toNat_lt, hsucc, hcounts.highest]
      omega
    refine ⟨hrep, ⟨?_, ?_⟩, ?_⟩
    · rw [UniqueQueue.call, hhighest, hsucc, pushes]
    · intro s hs
      rw [UniqueQueue.call, hqueue] at hs
      rw [UniqueQueue.call, hhighest]
      rcases List.mem_append.mp hs with hold | hnew
      · exact UInt64.lt_trans (hcounts.below s (hstay.subset hold)) hlast
      · rw [List.mem_singleton.mp hnew]
        exact hlast
    · rw [UniqueQueue.call, push_snd, hrep.size_eq, listCall]
  | Pop =>
    obtain ⟨hrep, hvalue, hqueue, hhighest⟩ := h.pop
    refine ⟨hrep, ⟨?_, ?_⟩, ?_⟩
    · rw [UniqueQueue.call, hhighest, pushes]
      split_ifs
      · rfl
      · exact hcounts.highest
    · intro s hs
      rw [UniqueQueue.call, hqueue] at hs
      rw [UniqueQueue.call, hhighest]
      split_ifs with hone
      · -- nothing is left
        have hlen : q.m_Queue.length = 1 := h.size_eq.trans hone
        have htail : q.m_Queue.tail.length = 0 := by rw [List.length_tail, hlen]
        rw [List.length_eq_zero_iff.mp htail] at hs
        exact absurd hs List.not_mem_nil
      · exact hcounts.below s (List.mem_of_mem_tail hs)
    · rw [UniqueQueue.call, hvalue, listCall]
  | erase value =>
    obtain ⟨hrep, hlength, hsub, hhighest⟩ := h.erase value
    refine ⟨hrep, ⟨?_, ?_⟩, ?_⟩
    · rw [UniqueQueue.call, hhighest, pushes, hcounts.highest]
    · intro s hs
      rw [UniqueQueue.call] at hs
      rw [UniqueQueue.call, hhighest]
      exact hcounts.below s (hsub.subset hs)
    · rw [UniqueQueue.call, hlength, listCall]

/-- The queue stands for the list after all calls. -/
theorem represents_after (hpaced : Paced key calls) :
    Represents key (after key calls) (contents key calls) ∧ Counts key calls (after key calls) := by
  induction calls with
  | nil => exact ⟨⟨rfl, Linked.empty, List.Pairwise.nil⟩, rfl, fun _ hs => absurd hs List.not_mem_nil⟩
  | cons op past ih =>
    obtain ⟨hrep, hcounts⟩ := ih hpaced.tail
    obtain ⟨hrep', hcounts', -⟩ := hrep.call hcounts hpaced
    exact ⟨hrep', hcounts'⟩

/-- **A queue without duplicates**: after every history of calls in which the priorities do not overflow,
the deque and the map stand for the list that has no duplicates, `size` is its length, and the next call
returns what the list gives. Where the order tells all values apart, the value that is appended is the one
that is pushed.
Source: `UniqueQueue.h` `UniqueQueue` -/
theorem listed_after (key : T → κ) (calls : List (Call T)) (hpaced : Paced key calls) :
    ((contents key calls).map key).Nodup ∧
      Represents key (after key calls) (contents key calls) ∧
      (after key calls).size = (contents key calls).length ∧
      (∀ op, Paced key (op :: calls) →
        ((after key calls).call key op).2 = (listCall key (contents key calls) op).2) ∧
      (Function.Injective key → ∀ value, stored key (contents key calls) value = value) := by
  obtain ⟨hrep, hcounts⟩ := represents_after hpaced
  refine ⟨hrep.nodup, hrep, hrep.size_eq, ?_, ?_⟩
  · intro op hop
    exact (hrep.call hcounts hop).2.2
  · intro hinj value
    exact stored_of_injective hinj _ value

theorem listed_after_three : ((contents (id : ℕ → ℕ) [.Push 1, .Push 2, .Push 1]).map id).Nodup ∧
    Represents id (after id [.Push 1, .Push 2, .Push 1]) (contents id [.Push 1, .Push 2, .Push 1]) ∧
    (after (id : ℕ → ℕ) [.Push 1, .Push 2, .Push 1]).size =
      (contents (id : ℕ → ℕ) [.Push 1, .Push 2, .Push 1]).length ∧
    (∀ op, Paced (id : ℕ → ℕ) (op :: [.Push 1, .Push 2, .Push 1]) →
      ((after id [.Push 1, .Push 2, .Push 1]).call id op).2 =
        (listCall id (contents id [.Push 1, .Push 2, .Push 1]) op).2) ∧
    (Function.Injective (id : ℕ → ℕ) →
      ∀ value, stored id (contents id [.Push 1, .Push 2, .Push 1]) value = value) :=
  listed_after id _ (paced_of_length (by decide))

/-- The value that is pushed again goes to the end. -/
example : contents (id : ℕ → ℕ) [.Push 1, .Push 2, .Push 1] = [2, 1] := by decide

end Runs

end UniqueQueue

end TortoiseSvn.Utils
