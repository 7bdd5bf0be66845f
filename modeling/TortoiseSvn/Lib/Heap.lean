import Mathlib.Tactic

/-!
# Heaps

A heap is a function from addresses to what is stored there. `read` is a field of all objects at
once, with a default value where nothing is allocated, and the lemmas say how allocating, modifying
and freeing an object change it.
-/

namespace TortoiseSvn.Lib

/-- Objects of type `β` at addresses. -/
abbrev Heap (β : Type*) := ℕ → Option β

namespace Heap

variable {β γ : Type*}

/-- Put a new object at a free address. -/
def alloc (h : Heap β) (p : ℕ) (b : β) : Heap β := Function.update h p (some b)

/-- Change the object at an address. -/
def modify (h : Heap β) (p : ℕ) (f : β → β) : Heap β := Function.update h p ((h p).map f)

/-- Free an address. -/
def free (h : Heap β) (p : ℕ) : Heap β := Function.update h p none

/-- A field of the objects. -/
def read (h : Heap β) (field : β → γ) (d : γ) (p : ℕ) : γ := ((h p).map field).getD d

variable {h : Heap β} {p : ℕ} {field : β → γ} {d : γ}

@[simp] theorem alloc_self (h : Heap β) (p : ℕ) (b : β) : h.alloc p b p = some b :=
  Function.update_self _ _ _

theorem alloc_of_ne {q : ℕ} (hq : q ≠ p) (b : β) : h.alloc p b q = h q :=
  Function.update_of_ne hq _ _

@[simp] theorem modify_isSome (f : β → β) (q : ℕ) : (h.modify p f q).isSome = (h q).isSome := by
  unfold modify
  by_cases hq : q = p
  · rw [hq, Function.update_self, Option.isSome_map]
  · rw [Function.update_of_ne hq]

@[simp] theorem free_self (h : Heap β) (p : ℕ) : h.free p p = none := Function.update_self _ _ _

theorem free_of_ne {q : ℕ} (hq : q ≠ p) : h.free p q = h q := Function.update_of_ne hq _ _

theorem read_of_none (hp : h p = none) : h.read field d p = d := by
  rw [read, hp]
  rfl

theorem read_of_some {b : β} (hp : h p = some b) : h.read field d p = field b := by
  rw [read, hp]
  rfl

/-- A field of an object that differs from its default tells that there is an object. -/
theorem isSome_of_read (hp : h.read field d p ≠ d) : (h p).isSome := by
  rcases hb : h p with _ | b
  · exact absurd (read_of_none hb) hp
  · rfl

/-- A new object with default values changes no field. -/
theorem read_alloc (hp : h p = none) {b : β} (hb : field b = d) :
    (h.alloc p b).read field d = h.read field d := by
  funext q
  by_cases hq : q = p
  · rw [hq, read_of_none hp, read_of_some (alloc_self h p b), hb]
  · rw [read, read, alloc_of_ne hq]

/-- A field of a new object. -/
theorem read_alloc_update (b : β) :
    (h.alloc p b).read field d = Function.update (h.read field d) p (field b) := by
  funext q
  by_cases hq : q = p
  · rw [hq, read_of_some (alloc_self h p b), Function.update_self]
  · rw [Function.update_of_ne hq, read, read, alloc_of_ne hq]

/-- Modifications of other fields leave a field as it is. -/
theorem read_modify_other {f : β → β} (hf : ∀ b, field (f b) = field b) :
    (h.modify p f).read field d = h.read field d := by
  funext q
  unfold read modify
  by_cases hq : q = p
  · rw [hq, Function.update_self, Option.map_map]
    congr 2
    funext b
    exact hf b
  · rw [Function.update_of_ne hq]

/-- A modification of a field. -/
theorem read_modify (hp : (h p).isSome) {f : β → β} (g : γ → γ) (hf : ∀ b, field (f b) = g (field b)) :
    (h.modify p f).read field d =
      Function.update (h.read field d) p (g (h.read field d p)) := by
  obtain ⟨b, hb⟩ := Option.isSome_iff_exists.mp hp
  funext q
  unfold read modify
  by_cases hq : q = p
  · rw [hq, Function.update_self, Function.update_self, hb]
    exact hf b
  · rw [Function.update_of_ne hq, Function.update_of_ne hq]

/-- Freed objects have default values. -/
theorem read_free : (h.free p).read field d = Function.update (h.read field d) p d := by
  funext q
  by_cases hq : q = p
  · rw [hq, read_of_none (free_self h p), Function.update_self]
  · rw [Function.update_of_ne hq, read, free_of_ne hq, read]

end Heap

end TortoiseSvn.Lib
