import Mathlib.Tactic

/-!
# Little-endian memory

Memory is a byte for every address. A value of some bytes has its lowest byte at the lowest address.

Main results: `load_store`, `byte_load`. What is stored is loaded again, and the bytes of what is loaded
are those of the memory.
-/

namespace TortoiseSvn.Lib

/-- What holds of all 256 bytes. -/
theorem forall_byte {P : UInt8 → Prop} (h : ∀ n < 256, P (UInt8.ofNat n)) (c : UInt8) : P c := by
  have hc := h c.toNat c.toNat_lt
  rwa [UInt8.ofNat_toNat] at hc

/-- A byte for every address. -/
abbrev Memory := ℕ → UInt8

/-- A byte of a value, counted from the lowest. -/
def byte {w : ℕ} (v : BitVec w) (k : ℕ) : UInt8 := ⟨(v >>> (8 * k)).setWidth 8⟩

namespace Memory

/-- The value of `w` bits at an address. -/
def load (m : Memory) (w a : ℕ) : BitVec w :=
  (BitVec.iunfoldr (fun i _ => ((), (m (a + i / 8)).toBitVec.getLsbD (i % 8))) ()).2

/-- Store the bytes of a value at an address. -/
def store {w : ℕ} (m : Memory) (a : ℕ) (v : BitVec w) : Memory := fun x =>
  if a ≤ x ∧ x < a + w / 8 then byte v (x - a) else m x

end Memory

open Memory

section

variable {w : ℕ} (v : BitVec w) (m : Memory)

theorem getLsbD_byte (k : ℕ) {j : ℕ} (h : j < 8) :
    (byte v k).toBitVec.getLsbD j = v.getLsbD (8 * k + j) := by
  rw [byte, BitVec.getLsbD_setWidth, BitVec.getLsbD_ushiftRight, decide_eq_true h, Bool.true_and]

theorem getLsbD_load (a : ℕ) {i : ℕ} (h : i < w) :
    (m.load w a).getLsbD i = (m (a + i / 8)).toBitVec.getLsbD (i % 8) := by
  exact BitVec.iunfoldr_getLsbD (fun _ => ()) ⟨i, h⟩ fun _ => rfl

/-- Two bytes are equal when their bits are. -/
theorem byte_ext {b c : UInt8} (h : ∀ j < 8, b.toBitVec.getLsbD j = c.toBitVec.getLsbD j) : b = c :=
  UInt8.toBitVec_inj.mp (BitVec.eq_of_getLsbD_eq h)

/-- The bytes of what is loaded are those of the memory. -/
theorem byte_load (a : ℕ) {k : ℕ} (h : 8 * k + 8 ≤ w) : byte (m.load w a) k = m (a + k) := by
  refine byte_ext fun j hj => ?_
  rw [getLsbD_byte _ _ hj, getLsbD_load _ _ (by omega), show (8 * k + j) / 8 = k by omega,
    show (8 * k + j) % 8 = j by omega]

/-- A value is loaded where its bytes are. -/
theorem load_eq {a : ℕ} (h : ∀ k, 8 * k < w → m (a + k) = byte v k) : m.load w a = v := by
  refine BitVec.eq_of_getLsbD_eq fun i hi => ?_
  rw [getLsbD_load _ _ hi, h (i / 8) (by omega), getLsbD_byte _ _ (Nat.mod_lt _ (by norm_num)),
    Nat.div_add_mod]

/-- What is stored is loaded again. -/
theorem load_store (hw : 8 ∣ w) (a : ℕ) : (m.store a v).load w a = v := by
  refine load_eq _ _ fun k hk => ?_
  rw [store, if_pos (by omega), Nat.add_sub_cancel_left]

/-- A value depends on its own bytes only. -/
theorem load_congr {m m' : Memory} {a : ℕ} (h : ∀ k, 8 * k < w → m (a + k) = m' (a + k)) :
    m.load w a = m'.load w a := by
  refine BitVec.eq_of_getLsbD_eq fun i hi => ?_
  rw [getLsbD_load _ _ hi, getLsbD_load _ _ hi, h (i / 8) (by omega)]

end

end TortoiseSvn.Lib
