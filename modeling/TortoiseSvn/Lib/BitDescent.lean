import Mathlib.Tactic

/-!
# Searching by bits

A position is found bit by bit, from the highest to the lowest: a bit is kept when the position with
it passes a test. The highest bit of a number is left when its shifted copies are merged into it and
the number is compared with its half.

Main results: `descend_spec`, `Covers.xor_half`. The first does not need the test to be monotone.
-/

namespace TortoiseSvn.Lib.BitDescent

/-! ### The descent -/

section Descend

variable (p : ℕ → Prop) [DecidablePred p]

/-- Decide about the bits below `2 ^ e`, from the highest to the lowest. -/
def descend : ℕ → ℕ → ℕ
  | 0, pos => pos
  | e + 1, pos => descend e (if p (pos ||| 2 ^ e) then pos ||| 2 ^ e else pos)

variable {p} {e pos : ℕ}

/-- A bit below all others is added. -/
theorem or_two_pow (h : 2 ^ (e + 1) ∣ pos) : pos ||| 2 ^ e = pos + 2 ^ e := by
  obtain ⟨a, rfl⟩ := h
  have hlt : 2 ^ e < 2 ^ (e + 1) := Nat.pow_lt_pow_right (by decide) (Nat.lt_succ_self e)
  exact (Nat.two_pow_add_eq_or_of_lt hlt a).symm

/-- With or without its next bit, a position is a multiple of that bit. -/
theorem two_pow_dvd_next (h : 2 ^ (e + 1) ∣ pos) :
    2 ^ e ∣ if p (pos ||| 2 ^ e) then pos ||| 2 ^ e else pos := by
  have hpos : 2 ^ e ∣ pos := (pow_dvd_pow 2 e.le_succ).trans h
  rw [or_two_pow h]
  split_ifs
  · exact (Nat.dvd_add_right hpos).mpr dvd_rfl
  · exact hpos

/-- **What a descent finds**: a position that passes the test, or where it began, in front of one
that fails. The position `2 ^ e` behind the beginning fails, and this is kept by every bit. -/
theorem descend_spec {start : ℕ} (hdvd : 2 ^ e ∣ pos) (hpos : pos = start ∨ p pos)
    (hbound : ¬ p (pos + 2 ^ e)) :
    (descend p e pos = start ∨ p (descend p e pos)) ∧ ¬ p (descend p e pos + 1) := by
  induction e generalizing pos with
  | zero => exact ⟨hpos, hbound⟩
  | succ e ih =>
    have hdouble : pos + 2 ^ e + 2 ^ e = pos + 2 ^ (e + 1) := by rw [pow_succ]; omega
    have hnext := two_pow_dvd_next (p := p) hdvd
    rw [descend]
    rw [or_two_pow hdvd] at hnext ⊢
    split_ifs at hnext ⊢ with htest
    · exact ih hnext (.inr htest) (by rwa [hdouble])
    · exact ih hnext hpos htest

end Descend

/-! ### The highest bit -/

/-- The bits of `m` are those at or below which, less than `w` places up, `n` has a bit. -/
def Covers (n w m : ℕ) : Prop := ∀ i, m.testBit i = true ↔ ∃ d < w, n.testBit (i + d) = true

namespace Covers

variable {n w m : ℕ}

theorem refl (n : ℕ) : Covers n 1 n := by
  intro i
  constructor
  · intro h
    exact ⟨0, Nat.one_pos, h⟩
  · rintro ⟨d, hd, h⟩
    obtain rfl : d = 0 := by omega
    exact h

/-- Merging a copy that is shifted by the width doubles the width. -/
theorem double (h : Covers n w m) : Covers n (w + w) (m ||| m >>> w) := by
  intro i
  rw [Nat.testBit_or, Nat.testBit_shiftRight, Bool.or_eq_true, h, h]
  constructor
  · rintro (⟨d, hd, hbit⟩ | ⟨d, hd, hbit⟩)
    · exact ⟨d, by omega, hbit⟩
    · exact ⟨w + d, by omega, by rwa [← Nat.add_assoc, Nat.add_comm i w]⟩
  · rintro ⟨d, hd, hbit⟩
    by_cases hlt : d < w
    · exact .inl ⟨d, hlt, hbit⟩
    · refine .inr ⟨d - w, by omega, ?_⟩
      have hplace : w + i + (d - w) = i + d := by omega
      rwa [hplace]

/-- When the width is that of the number, all bits up to its highest one are covered. -/
theorem testBit_iff (h : Covers n w m) (hn : n ≠ 0) (hw : n < 2 ^ w) (i : ℕ) :
    m.testBit i = true ↔ i ≤ n.log2 := by
  rw [h]
  constructor
  · rintro ⟨d, -, hbit⟩
    have hle := Nat.ge_two_pow_of_testBit hbit
    exact (Nat.le_add_right i d).trans ((Nat.le_log2 hn).mpr hle)
  · intro hi
    have hlog : n.log2 < w := (Nat.log2_lt hn).mpr hw
    refine ⟨n.log2 - i, by omega, ?_⟩
    rw [Nat.add_sub_cancel' hi]
    exact Nat.testBit_log2 hn

/-- **Only the highest bit differs from the one above it.** -/
theorem xor_half (h : Covers n w m) (hn : n ≠ 0) (hw : n < 2 ^ w) : m ^^^ m >>> 1 = 2 ^ n.log2 := by
  apply Nat.eq_of_testBit_eq
  intro i
  have hi := h.testBit_iff hn hw i
  have hup := h.testBit_iff hn hw (1 + i)
  rw [Nat.testBit_xor, Nat.testBit_shiftRight, Nat.testBit_two_pow]
  by_cases hle : i ≤ n.log2
  · by_cases heq : n.log2 = i
    · have hnot : m.testBit (1 + i) = false := Bool.eq_false_iff.mpr fun hbit => by
        have := hup.mp hbit
        omega
      rw [hi.mpr hle, hnot, decide_eq_true heq]
      rfl
    · rw [hi.mpr hle, hup.mpr (by omega), decide_eq_false heq]
      rfl
  · have hnot : m.testBit i = false := Bool.eq_false_iff.mpr fun hbit => hle (hi.mp hbit)
    have hnot' : m.testBit (1 + i) = false := Bool.eq_false_iff.mpr fun hbit => by
      have := hup.mp hbit
      omega
    rw [hnot, hnot', decide_eq_false (by omega)]
    rfl

end Covers

/-! ### Words that are not negative -/

theorem int32_ofNat_or (a b : ℕ) : Int32.ofNat a ||| Int32.ofNat b = Int32.ofNat (a ||| b) :=
  Int32.toBitVec_inj.mp BitVec.ofNat_or.symm

theorem int32_ofNat_xor (a b : ℕ) : Int32.ofNat a ^^^ Int32.ofNat b = Int32.ofNat (a ^^^ b) :=
  Int32.toBitVec_inj.mp BitVec.ofNat_xor.symm

theorem msb_ofNat {a : ℕ} (ha : a < 2 ^ 31) : (BitVec.ofNat 32 a).msb = false := by
  have hmod : a % 2 ^ 32 = a := Nat.mod_eq_of_lt (ha.trans (by decide))
  rw [BitVec.msb_eq_decide, BitVec.toNat_ofNat, hmod]
  exact decide_eq_false (by omega)

/-- The amount of a shift that is smaller than the width is taken as it is. -/
theorem smod_ofNat {k : ℕ} (hk : k < 32) : (BitVec.ofNat 32 k).smod 32#32 = BitVec.ofNat 32 k := by
  have hmsb : (BitVec.ofNat 32 k).msb = false := msb_ofNat (hk.trans (by decide))
  have hlt : k < 2 ^ 32 := hk.trans (by decide)
  have hmod : BitVec.ofNat 32 k % 32#32 = BitVec.ofNat 32 k := by
    apply BitVec.eq_of_toNat_eq
    rw [BitVec.toNat_umod, BitVec.toNat_ofNat, BitVec.toNat_ofNat, Nat.mod_eq_of_lt hlt]
    exact Nat.mod_eq_of_lt hk
  rw [BitVec.smod_eq, hmsb]
  exact hmod

/-- The sign is not shifted into a word that is not negative. -/
theorem int32_ofNat_shiftRight {a k : ℕ} (ha : a < 2 ^ 31) (hk : k < 32) :
    Int32.ofNat a >>> Int32.ofNat k = Int32.ofNat (a >>> k) := by
  have hlt : a < 2 ^ 32 := ha.trans (by decide)
  have hlt' : a >>> k < 2 ^ 32 := (Nat.shiftRight_le a k).trans_lt hlt
  apply Int32.toBitVec_inj.mp
  rw [Int32.toBitVec_shiftRight]
  change (BitVec.ofNat 32 a).sshiftRight' ((BitVec.ofNat 32 k).smod 32#32) =
    BitVec.ofNat 32 (a >>> k)
  rw [smod_ofNat hk, BitVec.sshiftRight_eq', BitVec.toNat_ofNat,
    Nat.mod_eq_of_lt (hk.trans (by decide)), BitVec.sshiftRight_eq_of_msb_false (msb_ofNat ha)]
  apply BitVec.eq_of_toNat_eq
  rw [BitVec.toNat_ushiftRight, BitVec.toNat_ofNat, BitVec.toNat_ofNat, Nat.mod_eq_of_lt hlt,
    Nat.mod_eq_of_lt hlt']

/-- Merging a shifted copy of a word doubles the width that is covered, and the sign stays. -/
theorem Covers.int32_double {n w m : ℕ} (h : Covers n w m) (hm : m < 2 ^ 31) (hw : w < 32) :
    ∃ m', Int32.ofNat m ||| Int32.ofNat m >>> Int32.ofNat w = Int32.ofNat m' ∧
      Covers n (w + w) m' ∧ m' < 2 ^ 31 := by
  refine ⟨m ||| m >>> w, ?_, h.double, Nat.or_lt_two_pow hm ((Nat.shiftRight_le m w).trans_lt hm)⟩
  rw [int32_ofNat_shiftRight hm hw, int32_ofNat_or]

end TortoiseSvn.Lib.BitDescent
