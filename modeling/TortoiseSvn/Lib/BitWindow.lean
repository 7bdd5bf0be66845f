import Mathlib.Data.Nat.Digits.Lemmas
import Mathlib.Tactic

/-!
# Windows into a bit stream

A byte sequence, lowest byte first, is one large number, and the bits from `p` on are a window of
that number. A reader keeps a window in a register, shifts what it consumed out at the bottom and
fills it up at the top from a window further up.
-/

namespace TortoiseSvn.Lib

/-- The number that some bytes are, lowest byte first. -/
def leNat (l : List UInt8) : ℕ := Nat.ofDigits 256 (l.map UInt8.toNat)

@[simp] theorem leNat_nil : leNat [] = 0 := rfl

@[simp] theorem leNat_cons (b : UInt8) (l : List UInt8) :
    leNat (b :: l) = b.toNat + 256 * leNat l := by
  simp [leNat, Nat.ofDigits_cons]

theorem leNat_append (l₁ l₂ : List UInt8) :
    leNat (l₁ ++ l₂) = leNat l₁ + 256 ^ l₁.length * leNat l₂ := by
  simp [leNat, Nat.ofDigits_append]

theorem leNat_lt (l : List UInt8) : leNat l < 256 ^ l.length := by
  have h := Nat.ofDigits_lt_base_pow_length (b := 256) (l := l.map UInt8.toNat) (by norm_num)
    fun x hx => by
      obtain ⟨b, -, rfl⟩ := List.mem_map.mp hx
      exact b.toNat_lt
  rwa [List.length_map] at h

theorem leNat_div (l : List UInt8) (p : ℕ) : leNat l / 256 ^ p = leNat (l.drop p) := by
  rcases Nat.le_total l.length p with h | h
  · rw [List.drop_eq_nil_of_le h, leNat_nil]
    exact Nat.div_eq_of_lt ((leNat_lt l).trans_le (Nat.pow_le_pow_right (by norm_num) h))
  · conv_lhs => rw [← List.take_append_drop p l]
    have hlt := leNat_lt (l.take p)
    rw [List.length_take, min_eq_left h] at hlt
    rw [leNat_append, List.length_take, min_eq_left h, Nat.add_mul_div_left _ _ (by positivity),
      Nat.div_eq_of_lt hlt, Nat.zero_add]

theorem leNat_mod {l : List UInt8} {n : ℕ} (h : n ≤ l.length) :
    leNat l % 256 ^ n = leNat (l.take n) := by
  conv_lhs => rw [← List.take_append_drop n l]
  have hlt := leNat_lt (l.take n)
  rw [List.length_take, min_eq_left h] at hlt
  rw [leNat_append, List.length_take, min_eq_left h, Nat.add_mul_mod_self_left, Nat.mod_eq_of_lt hlt]

/-- The lowest `n` bytes of a number, the lowest one first. -/
def leBytes : ℕ → ℕ → List UInt8
  | 0, _ => []
  | n + 1, v => UInt8.ofNat v :: leBytes n (v / 256)

@[simp] theorem leBytes_length (n v : ℕ) : (leBytes n v).length = n := by
  induction n generalizing v with
  | zero => rfl
  | succ n ih => rw [leBytes, List.length_cons, ih]

theorem leNat_leBytes {n v : ℕ} (h : v < 256 ^ n) : leNat (leBytes n v) = v := by
  induction n generalizing v with
  | zero =>
    have hv : v = 0 := by simpa using h
    rw [hv]
    rfl
  | succ n ih =>
    have hdiv : v / 256 < 256 ^ n := by
      apply Nat.div_lt_of_lt_mul
      rwa [pow_succ'] at h
    rw [leBytes, leNat_cons, ih hdiv, UInt8.toNat_ofNat']
    exact Nat.mod_add_div v 256

/-- The `n` bits from bit `p` on. -/
def window (N p n : ℕ) : ℕ := (N >>> p) % 2 ^ n

theorem window_testBit (N p n i : ℕ) :
    (window N p n).testBit i = (decide (i < n) && N.testBit (p + i)) := by
  rw [window, Nat.testBit_mod_two_pow, Nat.testBit_shiftRight]

@[simp] theorem window_width_zero (N p : ℕ) : window N p 0 = 0 := by
  simp [window, Nat.mod_one]

/-- The bits at the bottom of a window. -/
theorem window_mod (N p : ℕ) {m n : ℕ} (h : m ≤ n) : window N p n % 2 ^ m = window N p m := by
  refine Nat.eq_of_testBit_eq fun i => ?_
  rw [Nat.testBit_mod_two_pow, window_testBit, window_testBit]
  by_cases hi : i < m
  · simp [hi, hi.trans_le h]
  · simp [hi]

/-- Consuming bits. -/
theorem window_shiftRight (N p n k : ℕ) : window N p n >>> k = window N (p + k) (n - k) := by
  refine Nat.eq_of_testBit_eq fun i => ?_
  rw [Nat.testBit_shiftRight, window_testBit, window_testBit, Nat.add_assoc]
  congr 1
  rw [decide_eq_decide]
  omega

/-- Filling up a window of `m` bits from one that begins no further up. -/
theorem window_fill (N p : ℕ) {c m n : ℕ} (hc : c ≤ m) (hm : m ≤ n) :
    window N p m ||| (window N (p + c) n <<< c) % 2 ^ n = window N p n := by
  refine Nat.eq_of_testBit_eq fun i => ?_
  rw [Nat.testBit_or, Nat.testBit_mod_two_pow, Nat.testBit_shiftLeft, window_testBit,
    window_testBit, window_testBit]
  by_cases hi : i < n
  · rcases Nat.lt_or_ge i m with him | him
    · by_cases hic : c ≤ i
      · rw [show p + c + (i - c) = p + i by omega]
        simp [hi, him, hic, show i - c < n by omega]
      · simp [hi, him, hic]
    · rw [show p + c + (i - c) = p + i by omega]
      simp [hi, Nat.not_lt.mpr him, hc.trans him, show i - c < n by omega]
  · simp [hi, show ¬ i < m by omega]

/-- A group of bytes is a window. -/
theorem leNat_segment {l : List UInt8} {p n : ℕ} (h : p + n ≤ l.length) :
    leNat ((l.drop p).take n) = window (leNat l) (8 * p) (8 * n) := by
  have h256 : ∀ k, 256 ^ k = 2 ^ (8 * k) := fun k => by
    rw [pow_mul]
    norm_num
  rw [← leNat_mod (by rw [List.length_drop]; omega), ← leNat_div, window,
    Nat.shiftRight_eq_div_pow, h256, h256]

end TortoiseSvn.Lib
