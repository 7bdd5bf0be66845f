import Mathlib.Tactic

/-!
# Prefix codes as tilings

A code of `l` bits, read as a number `e` with the first bit on top, stands for the numbers of `L`
bits that begin with it: those from `e * 2 ^ (L - l)` up to the next multiple. The codes of a tree,
from left to right, tile a range of numbers. So no code is the beginning of another, every number of
the range begins with one of them, and each code follows from its length and the code in front.

A stream that is read from the lowest bit on meets the codes in reverse: `reversed`.
-/

namespace TortoiseSvn.Lib

/-! ### Bits in reverse order -/

/-- The lowest `n` bits of a number, in reverse order. -/
def reversed : ℕ → ℕ → ℕ
  | 0, _ => 0
  | n + 1, v => 2 ^ n * (v % 2) + reversed n (v / 2)

theorem reversed_lt (n v : ℕ) : reversed n v < 2 ^ n := by
  induction n generalizing v with
  | zero => exact Nat.one_pos
  | succ n ih =>
    have hbit : 2 ^ n * (v % 2) ≤ 2 ^ n * 1 := Nat.mul_le_mul_left _ (by omega)
    rw [reversed, pow_succ]
    linarith [ih (v / 2)]

theorem reversed_testBit (n v i : ℕ) :
    (reversed n v).testBit i = (decide (i < n) && v.testBit (n - 1 - i)) := by
  induction n generalizing v i with
  | zero => simp [reversed]
  | succ n ih =>
    rw [reversed, Nat.testBit_two_pow_mul_add _ (reversed_lt n (v / 2))]
    rcases Nat.lt_trichotomy i n with hlt | rfl | hgt
    · rw [if_pos hlt, ih, Nat.testBit_div_two]
      simp [hlt, hlt.trans (Nat.lt_succ_self n), show n - 1 - i + 1 = n - i by omega]
    · have hbit : (v % 2).testBit 0 = v.testBit 0 := by simp only [Nat.testBit_zero, Nat.mod_mod]
      rw [if_neg (lt_irrefl i), Nat.sub_self, hbit]
      simp
    · have hbig : 1 ≤ i - n := by omega
      have hzero : (v % 2).testBit (i - n) = false :=
        Nat.testBit_lt_two_pow ((Nat.mod_lt v (by norm_num)).trans_le
          (Nat.pow_le_pow_right (show 0 < 2 by norm_num) hbig))
      rw [if_neg (by omega), hzero]
      simp [show ¬ i < n + 1 by omega]

@[simp] theorem reversed_zero (n : ℕ) : reversed n 0 = 0 := by
  apply Nat.eq_of_testBit_eq
  intro i
  simp [reversed_testBit]

/-- The lowest bits come out on top. -/
theorem reversed_div (l n v : ℕ) : reversed (l + n) v / 2 ^ n = reversed l v := by
  apply Nat.eq_of_testBit_eq
  intro i
  rw [Nat.testBit_div_two_pow, reversed_testBit, reversed_testBit]
  by_cases hi : i < l
  · simp [hi, show i + n < l + n by omega, show l + n - 1 - (i + n) = l - 1 - i by omega]
  · simp [hi]

@[simp] theorem reversed_mod (n v : ℕ) : reversed n (v % 2 ^ n) = reversed n v := by
  apply Nat.eq_of_testBit_eq
  intro i
  rw [reversed_testBit, reversed_testBit, Nat.testBit_mod_two_pow]
  by_cases hi : i < n
  · simp [hi, show n - 1 - i < n by omega]
  · simp [hi]

theorem reversed_reversed (n v : ℕ) : reversed n (reversed n v) = v % 2 ^ n := by
  apply Nat.eq_of_testBit_eq
  intro i
  rw [reversed_testBit, reversed_testBit, Nat.testBit_mod_two_pow]
  by_cases hi : i < n
  · simp [hi, show n - 1 - i < n by omega, show n - 1 - (n - 1 - i) = i by omega]
  · simp [hi]

/-- A number ends with a code, read from the lowest bit on, exactly if its reversal begins with the
code. -/
theorem mod_eq_reversed_iff {L l e k : ℕ} (hl : l ≤ L) (he : e < 2 ^ l) :
    k % 2 ^ l = reversed l e ↔ reversed L k / 2 ^ (L - l) = e := by
  have hdiv : reversed L k / 2 ^ (L - l) = reversed l k := by
    have h := reversed_div l (L - l) k
    rwa [Nat.add_sub_cancel' hl] at h
  rw [hdiv]
  constructor
  · intro h
    rw [← reversed_mod, h, reversed_reversed, Nat.mod_eq_of_lt he]
  · intro h
    rw [← h, reversed_reversed]

/-! ### Tilings -/

/-- Codes `(e, l)` stand for adjacent ranges of `L`-bit numbers, which together reach from `a` to
`b`. -/
inductive Tiles (L : ℕ) : ℕ → ℕ → List (ℕ × ℕ) → Prop where
  | nil (a : ℕ) : Tiles L a a []
  | cons {e l b : ℕ} {codes : List (ℕ × ℕ)} (hl : l ≤ L)
      (rest : Tiles L ((e + 1) * 2 ^ (L - l)) b codes) :
      Tiles L (e * 2 ^ (L - l)) b ((e, l) :: codes)

namespace Tiles

variable {L a b c : ℕ} {codes codes' : List (ℕ × ℕ)}

/-- A single code. -/
theorem single {e l : ℕ} (hl : l ≤ L) :
    Tiles L (e * 2 ^ (L - l)) ((e + 1) * 2 ^ (L - l)) [(e, l)] :=
  cons hl (nil _)

theorem first_eq {e l : ℕ} (h : Tiles L a b ((e, l) :: codes)) : e * 2 ^ (L - l) = a := by
  cases h
  rfl

theorem tail {e l : ℕ} (h : Tiles L a b ((e, l) :: codes)) :
    Tiles L ((e + 1) * 2 ^ (L - l)) b codes := by
  obtain _ | ⟨_, rest⟩ := h
  exact rest

/-- Adjacent ranges are put together. -/
theorem append (h : Tiles L a b codes) (h' : Tiles L b c codes') :
    Tiles L a c (codes ++ codes') := by
  induction h with
  | nil a => exact h'
  | cons hl _ ih => exact cons hl (ih h')

/-- The two halves of the range of a code. -/
theorem halves {e l : ℕ} (hl : l < L)
    (h : Tiles L (2 * e * 2 ^ (L - (l + 1))) ((2 * e + 1) * 2 ^ (L - (l + 1))) codes)
    (h' : Tiles L ((2 * e + 1) * 2 ^ (L - (l + 1))) ((2 * e + 1 + 1) * 2 ^ (L - (l + 1))) codes') :
    Tiles L (e * 2 ^ (L - l)) ((e + 1) * 2 ^ (L - l)) (codes ++ codes') := by
  have hpow : 2 ^ (L - l) = 2 * 2 ^ (L - (l + 1)) := by
    rw [← pow_succ']
    congr 1
    omega
  have hfirst : e * 2 ^ (L - l) = 2 * e * 2 ^ (L - (l + 1)) := by
    rw [hpow]
    ring
  have hlast : (e + 1) * 2 ^ (L - l) = (2 * e + 1 + 1) * 2 ^ (L - (l + 1)) := by
    rw [hpow]
    ring
  rw [hfirst, hlast]
  exact h.append h'

theorem le (h : Tiles L a b codes) : a ≤ b := by
  induction h with
  | nil a => exact le_rfl
  | cons hl _ ih =>
    apply le_trans _ ih
    exact Nat.mul_le_mul_right _ (Nat.le_succ _)

theorem length_le (h : Tiles L a b codes) {e l : ℕ} (hmem : (e, l) ∈ codes) : l ≤ L := by
  induction h with
  | nil a => exact absurd hmem List.not_mem_nil
  | cons hl _ ih =>
    rcases List.mem_cons.mp hmem with heq | hmem
    · cases heq
      exact hl
    · exact ih hmem

/-- The range of a code lies in the range of all. -/
theorem mem_range (h : Tiles L a b codes) {e l : ℕ} (hmem : (e, l) ∈ codes) :
    a ≤ e * 2 ^ (L - l) ∧ (e + 1) * 2 ^ (L - l) ≤ b := by
  induction h with
  | nil a => exact absurd hmem List.not_mem_nil
  | cons hl rest ih =>
    rcases List.mem_cons.mp hmem with heq | hmem
    · cases heq
      exact ⟨le_rfl, rest.le⟩
    · obtain ⟨hfirst, hlast⟩ := ih hmem
      refine ⟨le_trans ?_ hfirst, hlast⟩
      exact Nat.mul_le_mul_right _ (Nat.le_succ _)

/-- A code of `l` bits in a tiling of `L`-bit numbers is a number of `l` bits. -/
theorem code_lt (h : Tiles L a (2 ^ L) codes) {e l : ℕ} (hmem : (e, l) ∈ codes) : e < 2 ^ l := by
  have hl := h.length_le hmem
  have hlast := (h.mem_range hmem).2
  have hpow : 2 ^ L = 2 ^ l * 2 ^ (L - l) := by
    rw [← pow_add, Nat.add_sub_cancel' hl]
  rw [hpow] at hlast
  exact Nat.le_of_mul_le_mul_right hlast (by positivity)

/-- Every number of the range begins with a code. -/
theorem exists_code (h : Tiles L a b codes) {x : ℕ} (ha : a ≤ x) (hb : x < b) :
    ∃ c ∈ codes, x / 2 ^ (L - c.2) = c.1 := by
  induction h with
  | nil a => omega
  | @cons e l b codes hl _ ih =>
    rcases Nat.lt_or_ge x ((e + 1) * 2 ^ (L - l)) with hlt | hge
    · refine ⟨(e, l), List.mem_cons_self, ?_⟩
      exact Nat.div_eq_of_lt_le ha hlt
    · obtain ⟨c, hmem, hc⟩ := ih hge hb
      exact ⟨c, List.mem_cons_of_mem _ hmem, hc⟩

/-- **No number begins with two of the codes.** -/
theorem pairwise (h : Tiles L a b codes) :
    codes.Pairwise fun c d => ∀ x, x / 2 ^ (L - c.2) = c.1 → x / 2 ^ (L - d.2) ≠ d.1 := by
  induction h with
  | nil a => exact List.Pairwise.nil
  | @cons e l b codes hl rest ih =>
    refine List.Pairwise.cons ?_ ih
    rintro ⟨e', l'⟩ hmem x hx hx'
    have hfirst := (rest.mem_range hmem).1
    have hlt : x < (e + 1) * 2 ^ (L - l) := by
      dsimp only at hx
      rw [← hx]
      exact Nat.lt_mul_of_div_lt (Nat.lt_succ_self _) (by positivity)
    have hge : e' * 2 ^ (L - l') ≤ x := by
      dsimp only at hx'
      rw [← hx']
      exact Nat.div_mul_le_self _ _
    omega

/-- The ranges of the codes have the size of the whole range: the code is complete. -/
theorem sum_eq (h : Tiles L a b codes) : a + (codes.map fun c => 2 ^ (L - c.2)).sum = b := by
  induction h with
  | nil a => simp
  | @cons e l b codes hl _ ih =>
    rw [List.map_cons, List.sum_cons, ← ih]
    ring

/-- The code behind another one, when it is longer: the next number, with zeros appended. -/
theorem next_of_le {e l e' l' : ℕ} (h : Tiles L a b ((e, l) :: (e', l') :: codes)) (hle : l ≤ l') :
    e' = (e + 1) * 2 ^ (l' - l) := by
  have hl' := h.length_le (List.mem_cons_of_mem _ List.mem_cons_self)
  have hpow : 2 ^ (L - l) = 2 ^ (l' - l) * 2 ^ (L - l') := by
    rw [← pow_add]
    congr 1
    omega
  apply Nat.eq_of_mul_eq_mul_right (show 0 < 2 ^ (L - l') by positivity)
  rw [h.tail.first_eq, hpow]
  ring

/-- The code behind another one, when it is shorter: the next number, whose last bits are zeros,
without them. -/
theorem next_of_ge {e l e' l' : ℕ} (h : Tiles L a b ((e, l) :: (e', l') :: codes)) (hle : l' ≤ l) :
    e' = (e + 1) / 2 ^ (l - l') := by
  have hl := h.length_le List.mem_cons_self
  have hpow : 2 ^ (L - l') = 2 ^ (l - l') * 2 ^ (L - l) := by
    rw [← pow_add]
    congr 1
    omega
  have hnext : e + 1 = e' * 2 ^ (l - l') := by
    apply Nat.eq_of_mul_eq_mul_right (show 0 < 2 ^ (L - l) by positivity)
    rw [← h.tail.first_eq, hpow]
    ring
  rw [hnext, Nat.mul_div_cancel _ (by positivity)]

end Tiles

end TortoiseSvn.Lib
