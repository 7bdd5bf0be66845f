import TortoiseSvn.RevisionGraph.NodeLinks

/-!
# The flags of a node

A classification has eight flags that say what a node is, and groups of flags that are derived from
those of other nodes. Within a group the flags stand in the same order, so a group is moved to the
place of another one by a multiplication.

Main results: `classify_IS`, `classify_COPIES_TO`, `classify_ALL_COPIES` and `classify_PATH_ONLY`, the
flags that a node gets from its successor and its copies.
-/

namespace TortoiseSvn.RevisionGraph

namespace CNodeClassification

/-! ### The flags -/

/-- What a node is: a path or an operation.
Source: `NodeClassification.h` `EFlags`, the flags `IS_TRUNK` to `IS_RENAMED` -/
inductive EClass
  | TRUNK | BRANCH | TAG | OTHER | ADDED | MODIFIED | DELETED | RENAMED
  deriving DecidableEq, Repr

/-- The operations.
Source: `NodeClassification.h` `EFlags`, the flags `IS_ADDED` to `IS_RENAMED` -/
inductive EOperation
  | ADDED | MODIFIED | DELETED | RENAMED
  deriving DecidableEq, Repr

/-- Source: `NodeClassification.h` `EFlags` -/
def IS : EClass → CNodeClassification
  | .TRUNK => 0x00000001
  | .BRANCH => 0x00000002
  | .TAG => 0x00000004
  | .OTHER => 0x00000008
  | .ADDED => 0x00000010
  | .MODIFIED => 0x00000020
  | .DELETED => 0x00000040
  | .RENAMED => 0x00000080

@[inherit_doc IS] def COPIES_TO : EClass → CNodeClassification
  | .TRUNK => 0x00000100
  | .BRANCH => 0x00000200
  | .TAG => 0x00000400
  | .OTHER => 0x00000800
  | .ADDED => 0x00001000
  | .MODIFIED => 0x00002000
  | .DELETED => 0x00004000
  | .RENAMED => 0x00008000

@[inherit_doc IS] def ALL_COPIES : EOperation → CNodeClassification
  | .ADDED => 0x00010000
  | .MODIFIED => 0x00020000
  | .DELETED => 0x00040000
  | .RENAMED => 0x00080000

@[inherit_doc IS] def PATH_ONLY : EOperation → CNodeClassification
  | .ADDED => 0x00100000
  | .MODIFIED => 0x00200000
  | .DELETED => 0x00400000
  | .RENAMED => 0x00800000

/-- An operation is a class. -/
def EOperation.toClass : EOperation → EClass
  | .ADDED => .ADDED
  | .MODIFIED => .MODIFIED
  | .DELETED => .DELETED
  | .RENAMED => .RENAMED

/-- Source: `NodeClassification.h` `COPIES_TO_MASK` -/
def COPIES_TO_MASK : CNodeClassification := 0x0000ff00

/-- Source: `NodeClassification.h` `ALL_COPIES_MASK` -/
def ALL_COPIES_MASK : CNodeClassification := 0x000f0000

/-- Source: `NodeClassification.h` `PATH_ONLY_MASK` -/
def PATH_ONLY_MASK : CNodeClassification := 0x00f00000

/-- Source: `NodeClassification.h` `COPIES_TO_SHIFT` -/
def COPIES_TO_SHIFT : CNodeClassification := 0x00000100

/-- Source: `NodeClassification.h` `ALL_COPIES_SHIFT` -/
def ALL_COPIES_SHIFT : CNodeClassification := 0x00001000

/-- Source: `NodeClassification.h` `PATH_ONLY_SHIFT` -/
def PATH_ONLY_SHIFT : CNodeClassification := 0x00010000

/-! ### Single bits -/

/-- A single bit. -/
def bit (f : CNodeClassification) (k : ℕ) : Bool := f.toBitVec.getLsbD k

/-- The place of a class among the flags that say what a node is. -/
def EClass.index : EClass → ℕ
  | .TRUNK => 0
  | .BRANCH => 1
  | .TAG => 2
  | .OTHER => 3
  | .ADDED => 4
  | .MODIFIED => 5
  | .DELETED => 6
  | .RENAMED => 7

variable (f g : CNodeClassification)

theorem is_twoPow {v : CNodeClassification} {k : ℕ} (hk : k < 32)
    (hv : v.toBitVec = BitVec.twoPow 32 k) : f.is v = f.bit k := by
  have hne : 0#32 ≠ BitVec.twoPow 32 k := by
    intro heq
    have hbit := congrArg (·.getLsbD k) heq
    simp [hk] at hbit
  rw [is, matchesFlags, UInt32.or_zero, Bool.eq_iff_iff, decide_eq_true_iff, bit,
    ← UInt32.toBitVec_inj, UInt32.toBitVec_and, hv, BitVec.and_twoPow]
  cases f.toBitVec.getLsbD k with
  | true => simp
  | false => simpa using hne

theorem EClass.index_lt (y : EClass) : y.index < 8 := by
  cases y <;> decide

theorem is_IS (y : EClass) : f.is (IS y) = f.bit y.index :=
  is_twoPow f (y.index_lt.trans (by decide)) (by cases y <;> rfl)

theorem is_COPIES_TO (y : EClass) : f.is (COPIES_TO y) = f.bit (y.index + 8) :=
  is_twoPow f (by have := y.index_lt; omega) (by cases y <;> rfl)

theorem is_ALL_COPIES (x : EOperation) : f.is (ALL_COPIES x) = f.bit (x.toClass.index + 12) :=
  is_twoPow f (by have := x.toClass.index_lt; omega) (by cases x <;> rfl)

theorem is_PATH_ONLY (x : EOperation) : f.is (PATH_ONLY x) = f.bit (x.toClass.index + 16) :=
  is_twoPow f (by have := x.toClass.index_lt; omega) (by cases x <;> rfl)

@[simp] theorem bit_or (k : ℕ) : (f ||| g).bit k = (f.bit k || g.bit k) := by
  simp [bit]

@[simp] theorem bit_and (k : ℕ) : (f &&& g).bit k = (f.bit k && g.bit k) := by
  simp [bit]

@[simp] theorem bit_zero (k : ℕ) : bit 0 k = false := by
  simp [bit]

/-- A flag that is one bit. -/
def Single (v : CNodeClassification) : Prop := ∃ k, k < 32 ∧ v.toBitVec = BitVec.twoPow 32 k

theorem single_IS (y : EClass) : Single (IS y) :=
  ⟨y.index, y.index_lt.trans (by decide), by cases y <;> rfl⟩

theorem is_or {v : CNodeClassification} (hv : Single v) : (f ||| g).is v = (f.is v || g.is v) := by
  obtain ⟨k, hk, hv⟩ := hv
  rw [is_twoPow _ hk hv, is_twoPow _ hk hv, is_twoPow _ hk hv, bit_or]

theorem is_and {v : CNodeClassification} (hv : Single v) : (f &&& g).is v = (f.is v && g.is v) := by
  obtain ⟨k, hk, hv⟩ := hv
  rw [is_twoPow _ hk hv, is_twoPow _ hk hv, is_twoPow _ hk hv, bit_and]

theorem is_zero {v : CNodeClassification} (hv : Single v) : is 0 v = false := by
  obtain ⟨k, hk, hv⟩ := hv
  rw [is_twoPow _ hk hv, bit_zero]

/-- A multiplication by a power of two moves the bits. -/
theorem bit_mul {v : CNodeClassification} {n k : ℕ} (hv : v.toBitVec = BitVec.twoPow 32 n)
    (hk : k + n < 32) : (f * v).bit (k + n) = f.bit k := by
  rw [bit, UInt32.toBitVec_mul, hv, BitVec.mul_twoPow_eq_shiftLeft, BitVec.getLsbD_shiftLeft]
  simp [hk, bit]

/-! ### Derived flags -/

/-- The flags that are derived from those of other nodes. -/
def derivedMask : CNodeClassification := ALL_COPIES_MASK + COPIES_TO_MASK + PATH_ONLY_MASK

/-- The classification of a node with the given flags: `branch` comes from the nodes behind it on its
branch, `common` are the flags of all its copies, `aggregated` those of at least one copy.
Source: `FullGraphFinalizer.cpp` `CFullGraphFinalizer::BackwardClassification`, "construct the common
classification" -/
def classify (flags branch common aggregated : CNodeClassification) : CNodeClassification :=
  -- "aggregate changes along the branch"
  let classification := branch &&& ~~~ALL_COPIES_MASK
  let classification := classification ||| ((flags * PATH_ONLY_SHIFT) &&& PATH_ONLY_MASK)
  -- "add what applies to all branches"
  let classification := classification ||| (common &&& branch &&& ALL_COPIES_MASK)
  -- "any change to this node applies to all copies as well"
  let classification :=
    classification ||| ((flags * ALL_COPIES_SHIFT) &&& common &&& ALL_COPIES_MASK)
  -- "add changes that occur in *any* sub-tree"
  classification ||| ((aggregated * COPIES_TO_SHIFT) &&& COPIES_TO_MASK)

section Classify

variable (flags branch common aggregated : CNodeClassification) (x : EOperation) (y : EClass)

theorem classify_IS : (classify flags branch common aggregated).is (IS y) = branch.is (IS y) := by
  rw [is_IS, is_IS, classify]
  simp only [bit_or, bit_and]
  have hnot : (~~~ALL_COPIES_MASK).bit y.index = true := by cases y <;> rfl
  have hall : ALL_COPIES_MASK.bit y.index = false := by cases y <;> rfl
  have hpath : PATH_ONLY_MASK.bit y.index = false := by cases y <;> rfl
  have hcopies : COPIES_TO_MASK.bit y.index = false := by cases y <;> rfl
  simp [hnot, hall, hpath, hcopies]

theorem classify_COPIES_TO : (classify flags branch common aggregated).is (COPIES_TO y) =
    (branch.is (COPIES_TO y) || aggregated.is (IS y)) := by
  rw [is_COPIES_TO, is_COPIES_TO, is_IS, classify]
  simp only [bit_or, bit_and]
  have hnot : (~~~ALL_COPIES_MASK).bit (y.index + 8) = true := by cases y <;> rfl
  have hall : ALL_COPIES_MASK.bit (y.index + 8) = false := by cases y <;> rfl
  have hpath : PATH_ONLY_MASK.bit (y.index + 8) = false := by cases y <;> rfl
  have hcopies : COPIES_TO_MASK.bit (y.index + 8) = true := by cases y <;> rfl
  have hmul : (aggregated * COPIES_TO_SHIFT).bit (y.index + 8) = aggregated.bit y.index :=
    bit_mul _ rfl (by have := y.index_lt; omega)
  simp [hnot, hall, hpath, hcopies, hmul]

theorem classify_ALL_COPIES : (classify flags branch common aggregated).is (ALL_COPIES x) =
    (common.is (ALL_COPIES x) && (branch.is (ALL_COPIES x) || flags.is (IS x.toClass))) := by
  rw [is_ALL_COPIES, is_ALL_COPIES, is_ALL_COPIES, is_IS, classify]
  simp only [bit_or, bit_and]
  have hnot : (~~~ALL_COPIES_MASK).bit (x.toClass.index + 12) = false := by cases x <;> rfl
  have hall : ALL_COPIES_MASK.bit (x.toClass.index + 12) = true := by cases x <;> rfl
  have hpath : PATH_ONLY_MASK.bit (x.toClass.index + 12) = false := by cases x <;> rfl
  have hcopies : COPIES_TO_MASK.bit (x.toClass.index + 12) = false := by cases x <;> rfl
  have hmul : (flags * ALL_COPIES_SHIFT).bit (x.toClass.index + 12) = flags.bit x.toClass.index :=
    bit_mul _ rfl (by have := x.toClass.index_lt; omega)
  simp only [hnot, hall, hpath, hcopies, hmul, Bool.and_false, Bool.and_true, Bool.or_false,
    Bool.false_or]
  cases common.bit (x.toClass.index + 12) <;> simp

theorem classify_PATH_ONLY : (classify flags branch common aggregated).is (PATH_ONLY x) =
    (branch.is (PATH_ONLY x) || flags.is (IS x.toClass)) := by
  rw [is_PATH_ONLY, is_PATH_ONLY, is_IS, classify]
  simp only [bit_or, bit_and]
  have hnot : (~~~ALL_COPIES_MASK).bit (x.toClass.index + 16) = true := by cases x <;> rfl
  have hall : ALL_COPIES_MASK.bit (x.toClass.index + 16) = false := by cases x <;> rfl
  have hpath : PATH_ONLY_MASK.bit (x.toClass.index + 16) = true := by cases x <;> rfl
  have hcopies : COPIES_TO_MASK.bit (x.toClass.index + 16) = false := by cases x <;> rfl
  have hmul : (flags * PATH_ONLY_SHIFT).bit (x.toClass.index + 16) = flags.bit x.toClass.index :=
    bit_mul _ rfl (by have := x.toClass.index_lt; omega)
  simp [hnot, hall, hpath, hcopies, hmul]

end Classify

/-! ### Stored flags -/

/-- A derived flag. -/
inductive Derived : CNodeClassification → Prop
  | copiesTo (y : EClass) : Derived (COPIES_TO y)
  | allCopies (x : EOperation) : Derived (ALL_COPIES x)
  | pathOnly (x : EOperation) : Derived (PATH_ONLY x)

/-- A node without derived flags gets those of its classification. -/
theorem is_stored {flags classification v : CNodeClassification} (hv : Derived v)
    (hflags : flags &&& derivedMask = 0) :
    (flags ||| (classification &&& derivedMask)).is v = classification.is v := by
  have key : ∀ k, derivedMask.bit k = true →
      (flags ||| (classification &&& derivedMask)).bit k = classification.bit k := by
    intro k hk
    have hnone := congrArg (·.bit k) hflags
    simp only [bit_and, hk, Bool.and_true, bit_zero] at hnone
    rw [bit_or, bit_and, hk, hnone, Bool.and_true, Bool.false_or]
  cases hv with
  | copiesTo y =>
    rw [is_COPIES_TO, is_COPIES_TO, key]
    cases y <;> rfl
  | allCopies x =>
    rw [is_ALL_COPIES, is_ALL_COPIES, key]
    cases x <;> rfl
  | pathOnly x =>
    rw [is_PATH_ONLY, is_PATH_ONLY, key]
    cases x <;> rfl

/-- All other flags stay. -/
theorem stored_and_not (flags classification : CNodeClassification) :
    (flags ||| (classification &&& derivedMask)) &&& ~~~derivedMask = flags &&& ~~~derivedMask := by
  apply UInt32.toBitVec_inj.mp
  ext i hi
  simp only [UInt32.toBitVec_and, UInt32.toBitVec_or, UInt32.toBitVec_not, BitVec.getElem_and,
    BitVec.getElem_or, BitVec.getElem_not]
  cases derivedMask.toBitVec[i] <;> simp

/-- The flags that say what a node is are no derived ones. -/
theorem stored_IS (flags classification : CNodeClassification) (y : EClass) :
    (flags ||| (classification &&& derivedMask)).is (IS y) = flags.is (IS y) := by
  have hnot : derivedMask.bit y.index = false := by cases y <;> rfl
  rw [is_IS, is_IS, bit_or, bit_and, hnot, Bool.and_false, Bool.or_false]

theorem Derived.single {v : CNodeClassification} (hv : Derived v) : Single v := by
  cases hv with
  | copiesTo y =>
    refine ⟨y.index + 8, ?_, by cases y <;> rfl⟩
    have := y.index_lt
    omega
  | allCopies x =>
    refine ⟨x.toClass.index + 12, ?_, by cases x <;> rfl⟩
    have := x.toClass.index_lt
    omega
  | pathOnly x =>
    refine ⟨x.toClass.index + 16, ?_, by cases x <;> rfl⟩
    have := x.toClass.index_lt
    omega

end CNodeClassification

end TortoiseSvn.RevisionGraph
