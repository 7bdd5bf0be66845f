import Mathlib.Data.ZMod.Units
import Mathlib.Tactic

/-!
# Probe sequences

A search in a table goes from bucket to bucket in strides and begins again at the front behind the
end. If the stride and the size of the table have no common divisor, every bucket is reached.

Main results: `exists_iterate_stride`, `exists_search`.
-/

namespace TortoiseSvn.Lib

/-! ### Strides -/

/-- The next bucket. -/
def strideFrom (stride capacity bucket : ℕ) : ℕ :=
  if capacity ≤ bucket + stride then bucket + stride - capacity else bucket + stride

section Stride

variable {stride capacity bucket target : ℕ}

theorem strideFrom_eq (hstride : stride ≤ capacity) (hbucket : bucket < capacity) :
    strideFrom stride capacity bucket = (bucket + stride) % capacity := by
  unfold strideFrom
  split
  · rename_i h
    rw [Nat.mod_eq_sub_mod h, Nat.mod_eq_of_lt]
    omega
  · rename_i h
    exact (Nat.mod_eq_of_lt (not_le.mp h)).symm

theorem iterate_stride (hstride : stride ≤ capacity) (hbucket : bucket < capacity) (n : ℕ) :
    (strideFrom stride capacity)^[n] bucket = (bucket + n * stride) % capacity := by
  induction n with
  | zero => rw [Function.iterate_zero_apply, Nat.zero_mul, Nat.add_zero, Nat.mod_eq_of_lt hbucket]
  | succ n ih =>
    have hlt := Nat.mod_lt (bucket + n * stride) (Nat.zero_lt_of_lt hbucket)
    rw [Function.iterate_succ_apply', ih, strideFrom_eq hstride hlt, Nat.mod_add_mod, Nat.add_assoc,
      Nat.succ_mul]

/-- **Every bucket is reached from every other one.** -/
theorem exists_iterate_stride (hcoprime : stride.Coprime capacity) (hstride : stride ≤ capacity)
    (hbucket : bucket < capacity) (htarget : target < capacity) :
    ∃ n < capacity, (strideFrom stride capacity)^[n] bucket = target := by
  have : NeZero capacity := ⟨(Nat.zero_lt_of_lt hbucket).ne'⟩
  -- the distance divided by the stride
  let n : ZMod capacity := ((target : ZMod capacity) - bucket) * (stride : ZMod capacity)⁻¹
  refine ⟨n.val, ZMod.val_lt n, ?_⟩
  have hmul : n * stride = target - bucket := by
    rw [mul_assoc, mul_comm _ (stride : ZMod capacity), ZMod.coe_mul_inv_eq_one stride hcoprime,
      mul_one]
  have hcast : ((bucket + n.val * stride : ℕ) : ZMod capacity) = (target : ℕ) := by
    rw [Nat.cast_add, Nat.cast_mul, ZMod.natCast_zmod_val, hmul, add_sub_cancel]
  rw [iterate_stride hstride hbucket, (ZMod.natCast_eq_natCast_iff' _ _ _).mp hcast,
    Nat.mod_eq_of_lt htarget]

end Stride

/-! ### Searching -/

/-- The first bucket for which `stop` holds, and the number of steps to it, or `none` when it is not
found in `fuel` steps. -/
def search (next : ℕ → ℕ) (stop : ℕ → Bool) : ℕ → ℕ → Option (ℕ × ℕ)
  | 0, _ => none
  | fuel + 1, bucket =>
    if stop bucket then some (bucket, 0)
    else (search next stop fuel (next bucket)).map fun r => (r.1, r.2 + 1)

section Search

variable {next : ℕ → ℕ} {stop : ℕ → Bool} {fuel bucket m : ℕ}

/-- What is found is the first bucket on the way. -/
structure Found (next : ℕ → ℕ) (stop : ℕ → Bool) (bucket : ℕ) (r : ℕ × ℕ) : Prop where
  reached : next^[r.2] bucket = r.1
  stops : stop r.1 = true
  first : ∀ k < r.2, stop (next^[k] bucket) = false

/-- The search ends when there is a bucket to find. -/
theorem search_of_stop (hm : m < fuel) (h : stop (next^[m] bucket) = true) :
    ∃ r, search next stop fuel bucket = some r ∧ Found next stop bucket r ∧ r.2 ≤ m := by
  induction fuel generalizing bucket m with
  | zero => exact absurd hm (Nat.not_lt_zero m)
  | succ fuel ih =>
    rw [search]
    cases hstop : stop bucket with
    | true =>
      exact ⟨(bucket, 0), if_pos rfl, ⟨rfl, hstop, fun k hk => absurd hk (Nat.not_lt_zero k)⟩,
        Nat.zero_le m⟩
    | false =>
      cases m with
      | zero => exact absurd (hstop.symm.trans h) Bool.noConfusion
      | succ m =>
        obtain ⟨r, hr, hfound, hle⟩ := ih (Nat.lt_of_succ_lt_succ hm) h
        refine ⟨(r.1, r.2 + 1), ?_, ⟨hfound.reached, hfound.stops, fun k hk => ?_⟩,
          Nat.succ_le_succ hle⟩
        · rw [if_neg Bool.false_ne_true, hr]
          rfl
        · cases k with
          | zero => exact hstop
          | succ k => exact hfound.first k (Nat.lt_of_succ_lt_succ hk)

end Search

/-- **A search that goes on in strides ends at the first bucket for which `stop` holds**, if there is
one at all. -/
theorem exists_search {stride capacity bucket target : ℕ} {stop : ℕ → Bool}
    (hcoprime : stride.Coprime capacity) (hstride : stride ≤ capacity) (hbucket : bucket < capacity)
    (htarget : target < capacity) (hstop : stop target = true) :
    ∃ r, search (strideFrom stride capacity) stop capacity bucket = some r ∧
      Found (strideFrom stride capacity) stop bucket r := by
  obtain ⟨n, hn, rfl⟩ := exists_iterate_stride hcoprime hstride hbucket htarget
  obtain ⟨r, hr, hfound, -⟩ := search_of_stop hn hstop
  exact ⟨r, hr, hfound⟩

end TortoiseSvn.Lib
