import Mathlib.Order.WithBot
import Mathlib.Tactic

/-!
# Global types of the log cache

`index_t` and `revision_t` are both `unsigned`, with the all-ones value as `NO_INDEX` and
`NO_REVISION`. Values that are counted or compared are natural numbers below `2 ^ 32`, and the
arithmetic of the source that can wrap is `addU` and `subU`.
-/

namespace TortoiseSvn.LogCache

/-- `NO_REVISION`, the invalid or unknown revision.
Source: `LogCacheGlobals.h` -/
def noRevision : ℕ := 4294967295

/-- `NO_INDEX`, the invalid or unknown index.
Source: `LogCacheGlobals.h` -/
def noIndex : ℕ := 4294967295

/-- Addition of two `unsigned` values. -/
def addU (a b : ℕ) : ℕ := (a + b) % 2 ^ 32

/-- Subtraction of two `unsigned` values. -/
def subU (a b : ℕ) : ℕ := (a + (2 ^ 32 - b % 2 ^ 32)) % 2 ^ 32

theorem addU_of_lt {a b : ℕ} (h : a + b < 2 ^ 32) : addU a b = a + b :=
  Nat.mod_eq_of_lt h

theorem subU_of_le {a b : ℕ} (hab : b ≤ a) (ha : a < 2 ^ 32) : subU a b = a - b := by
  unfold subU
  omega

theorem addU_lt (a b : ℕ) : addU a b < 2 ^ 32 := Nat.mod_lt _ (by norm_num)

theorem subU_lt (a b : ℕ) : subU a b < 2 ^ 32 := Nat.mod_lt _ (by norm_num)

/-- A difference modulo `2 ^ 32` added back gives the value it was taken from. -/
theorem addU_subU {a b : ℕ} (ha : a < 2 ^ 32) : addU b (subU a b) = a := by
  unfold addU subU
  omega

/-- An index that may be `NO_INDEX`, which is larger than any other index. -/
abbrev Index := WithTop ℕ

/-- An `index_t` as it is stored. -/
def toIndex (v : ℕ) : Index := if v = noIndex then ⊤ else (v : Index)

theorem toIndex_eq_top {v : ℕ} : toIndex v = ⊤ ↔ v = noIndex := by
  unfold toIndex
  split <;> simp_all

theorem toIndex_eq_coe {v n : ℕ} : toIndex v = (n : Index) ↔ v = n ∧ n ≠ noIndex := by
  unfold toIndex
  split
  · rename_i h
    subst h
    refine ⟨fun he => absurd he (WithTop.top_ne_natCast n), ?_⟩
    rintro ⟨rfl, hn⟩
    exact absurd rfl hn
  · rename_i h
    rw [Nat.cast_inj]
    exact ⟨fun he => ⟨he, he ▸ h⟩, And.left⟩

/-- An index is `NO_INDEX` or a number. -/
theorem Index.cases (i : Index) : i = ⊤ ∨ ∃ n : ℕ, i = (n : Index) := by
  rcases i with _ | n
  · exact Or.inl rfl
  · exact Or.inr ⟨n, rfl⟩

end TortoiseSvn.LogCache
