import Mathlib.Data.Fintype.Card
import Mathlib.Tactic

/-!
# Threads and their roles

Each of finitely many threads has a role, and a shared counter is right if it is the number of the
threads in a role. When one thread changes its role, the numbers of the others stay.
-/

namespace TortoiseSvn.Lib

variable {T ρ : Type*} [Fintype T] [DecidableEq T] [DecidableEq ρ]

/-- The number of threads in a role. -/
def numberIn (role : T → ρ) (r : ρ) : ℕ := (Finset.univ.filter fun t => role t = r).card

/-- The number of other threads in a role. -/
def othersIn (t : T) (role : T → ρ) (r : ρ) : ℕ :=
  ((Finset.univ.erase t).filter fun u => role u = r).card

variable {role role' : T → ρ} {r : ρ} {t : T}

omit [DecidableEq T] in
theorem numberIn_pos_iff : 0 < numberIn role r ↔ ∃ t, role t = r := by
  rw [numberIn, Finset.card_pos]
  constructor
  · rintro ⟨t, ht⟩
    exact ⟨t, (Finset.mem_filter.mp ht).2⟩
  · rintro ⟨t, ht⟩
    exact ⟨t, Finset.mem_filter.mpr ⟨Finset.mem_univ t, ht⟩⟩

/-- A thread counts in its own role. -/
theorem numberIn_eq (t : T) (role : T → ρ) (r : ρ) :
    numberIn role r = othersIn t role r + if role t = r then 1 else 0 := by
  rw [numberIn, othersIn, ← Finset.insert_erase (Finset.mem_univ t), Finset.filter_insert,
    Finset.erase_insert (Finset.notMem_erase t _)]
  split
  · rw [Finset.card_insert_of_notMem (by simp)]
  · rfl

/-- The others are counted as before when they keep their roles. -/
theorem othersIn_congr (h : ∀ u, u ≠ t → role' u = role u) (r : ρ) :
    othersIn t role' r = othersIn t role r := by
  refine congrArg Finset.card (Finset.filter_congr fun u hu => ?_)
  rw [h u (Finset.ne_of_mem_erase hu)]

theorem othersIn_eq_zero_iff : othersIn t role r = 0 ↔ ∀ u, u ≠ t → role u ≠ r := by
  rw [othersIn, Finset.card_eq_zero, Finset.filter_eq_empty_iff]
  constructor
  · exact fun h u hu => h (Finset.mem_erase.mpr ⟨hu, Finset.mem_univ u⟩)
  · exact fun h u hu => h u (Finset.ne_of_mem_erase hu)

end TortoiseSvn.Lib
