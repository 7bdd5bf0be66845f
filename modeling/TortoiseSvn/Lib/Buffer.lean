import Mathlib.Tactic

/-!
# Vectors and their memory

A vector holds its elements in a block of memory that has room for some more. When they do not fit
any longer, they move to a new block. How large a new block is depends on the implementation, so
that is a parameter.

Main results: `Buffer.append_block`, `Buffer.reserve_block`, which say when the elements stay where
they are.
-/

namespace TortoiseSvn.Lib

/-- The capacity of a new block, given the old capacity and the one that is needed. -/
structure Growth where
  onReserve : ℕ → ℕ → ℕ
  onAppend : ℕ → ℕ → ℕ
  le_onReserve : ∀ old needed, needed ≤ onReserve old needed
  le_onAppend : ∀ old needed, needed ≤ onAppend old needed

/-- Every new block is just as large as needed. -/
def Growth.tight : Growth where
  onReserve _ needed := needed
  onAppend _ needed := needed
  le_onReserve _ _ := le_rfl
  le_onAppend _ _ := le_rfl

/-- A vector. Blocks of memory are numbered in the order in which they were allocated. -/
structure Buffer (α : Type) where
  elements : List α
  capacity : ℕ
  block : ℕ
  fits : elements.length ≤ capacity

namespace Buffer

variable {α : Type} (g : Growth) (b : Buffer α) (l : List α) (n : ℕ)

/-- No memory at all. -/
def empty : Buffer α := ⟨[], 0, 0, le_rfl⟩

def size : ℕ := b.elements.length

/-- Room for some number of elements. -/
def reserve : Buffer α :=
  if h : b.capacity < n then
    ⟨b.elements, g.onReserve b.capacity n, b.block + 1, b.fits.trans (h.le.trans (g.le_onReserve _ _))⟩
  else b

/-- More elements at the end. -/
def append : Buffer α :=
  if h : b.size + l.length ≤ b.capacity then
    ⟨b.elements ++ l, b.capacity, b.block, (List.length_append).trans_le h⟩
  else
    ⟨b.elements ++ l, g.onAppend b.capacity (b.size + l.length), b.block + 1,
      (List.length_append).trans_le (g.le_onAppend _ _)⟩

/-- The memory is kept. -/
def clear : Buffer α := ⟨[], b.capacity, b.block, Nat.zero_le _⟩

/-- The elements are still in the same memory. -/
structure Stays (b b' : Buffer α) : Prop where
  block : b'.block = b.block
  capacity : b'.capacity = b.capacity

variable {b} {l} {n}

theorem Stays.refl (b : Buffer α) : b.Stays b := ⟨rfl, rfl⟩

theorem Stays.trans {b₁ b₂ b₃ : Buffer α} (h : b₁.Stays b₂) (h' : b₂.Stays b₃) : b₁.Stays b₃ :=
  ⟨h'.block.trans h.block, h'.capacity.trans h.capacity⟩

@[simp] theorem reserve_elements : (b.reserve g n).elements = b.elements := by
  unfold reserve
  split <;> rfl

@[simp] theorem append_elements : (b.append g l).elements = b.elements ++ l := by
  unfold append
  split <;> rfl

@[simp] theorem reserve_size : (b.reserve g n).size = b.size :=
  congrArg List.length (reserve_elements g)

@[simp] theorem append_size : (b.append g l).size = b.size + l.length :=
  (congrArg List.length (append_elements g)).trans List.length_append

/-- Enough room is no reason to move. -/
theorem reserve_of_le (h : n ≤ b.capacity) : b.reserve g n = b := dif_neg (not_lt.mpr h)

theorem stays_append (h : b.size + l.length ≤ b.capacity) : b.Stays (b.append g l) := by
  unfold append
  rw [dif_pos h]
  exact ⟨rfl, rfl⟩

theorem block_reserve_of_lt (h : b.capacity < n) : (b.reserve g n).block = b.block + 1 := by
  unfold reserve
  rw [dif_pos h]

theorem block_append_of_lt (h : b.capacity < b.size + l.length) :
    (b.append g l).block = b.block + 1 := by
  unfold append
  rw [dif_neg (not_le.mpr h)]

/-- **The elements stay iff the block has the room that is asked for.** -/
theorem reserve_block : (b.reserve g n).block = b.block ↔ n ≤ b.capacity := by
  rcases le_or_gt n b.capacity with h | h
  · rw [reserve_of_le g h]
    exact iff_of_true rfl h
  · rw [block_reserve_of_lt g h]
    exact iff_of_false (Nat.succ_ne_self _) (not_le.mpr h)

/-- **The elements stay iff the new ones fit behind them.** -/
theorem append_block : (b.append g l).block = b.block ↔ b.size + l.length ≤ b.capacity := by
  rcases le_or_gt (b.size + l.length) b.capacity with h | h
  · exact iff_of_true (stays_append g h).block h
  · rw [block_append_of_lt g h]
    exact iff_of_false (Nat.succ_ne_self _) (not_le.mpr h)

theorem block_le_reserve (b : Buffer α) (n : ℕ) : b.block ≤ (b.reserve g n).block := by
  rcases le_or_gt n b.capacity with h | h
  · exact ((reserve_block g).mpr h).ge
  · exact (block_reserve_of_lt g h).ge.trans' (Nat.le_succ _)

theorem block_le_append (b : Buffer α) (l : List α) : b.block ≤ (b.append g l).block := by
  rcases le_or_gt (b.size + l.length) b.capacity with h | h
  · exact ((append_block g).mpr h).ge
  · exact (block_append_of_lt g h).ge.trans' (Nat.le_succ _)

end Buffer

end TortoiseSvn.Lib
