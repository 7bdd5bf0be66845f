import TortoiseSvn.LogCache.PathParsing
import TortoiseSvn.LogCache.TempPath

/-!
# Comparing paths that are partly in the dictionary

`operator<` subtracts the indices of the two bases as `unsigned` values and looks at the sign of the
difference as a `ptrdiff_t`, which is never negative on the 64-bit build. The order is therefore one
among the paths with one base only; paths with different bases are not ordered at all.

Main results: `exactlyOne_iff` for `operator<`, `isCommonRoot_iff` for `GetCommonRoot`.
-/

namespace TortoiseSvn.LogCache

open TortoiseSvn.Lib

namespace CDictionaryBasedTempPath

/-! ### Comparisons -/

/-- The value of an `index_t`. -/
def rawIndex (index : Index) : ℕ := index.untopD noIndex

/-- Subtraction of two `size_t` values of the 64-bit build. -/
def subSize (a b : ℕ) : ℕ := (a + (2 ^ 64 - b % 2 ^ 64)) % 2 ^ 64

/-- A 64-bit value as a `ptrdiff_t`. -/
def toPtrdiff (v : ℕ) : ℤ := if v < 2 ^ 63 then v else v - 2 ^ 64

/-- Source: `DictionaryBasedTempPath.cpp` `CDictionaryBasedTempPath::operator==` -/
def eq (lhs rhs : CDictionaryBasedTempPath) : Bool :=
  lhs.index = rhs.index ∧ lhs.relPathElements.length = rhs.relPathElements.length ∧
    lhs.relPathElements = rhs.relPathElements

/-- The comparison of indices and counters comes first, then that of the elements.
Source: `DictionaryBasedTempPath.cpp` `operator<` -/
def lt (lhs rhs : CDictionaryBasedTempPath) : Bool :=
  -- the difference of two `unsigned` values is widened without a sign
  let diff := toPtrdiff (subU (rawIndex lhs.index) (rawIndex rhs.index))
  if diff < 0 then true
  else if 0 < diff then false
  else
    let diff := toPtrdiff (subSize lhs.relPathElements.length rhs.relPathElements.length)
    if diff < 0 then true
    else if 0 < diff then false
    else decide (lhs.relPathElements < rhs.relPathElements)

/-- A path over a dictionary, with sizes that the 64-bit build can represent. -/
structure Over (d : CPathDictionary) (path : CDictionaryBasedTempPath) : Prop where
  dictionary : d.size < noIndex
  index : path.index = ⊤ ∨ d.IsPath path.index
  size : path.relPathElements.length < 2 ^ 63

section Order

variable {d : CPathDictionary} {a b c : CDictionaryBasedTempPath}

theorem eq_iff : eq a b = true ↔ a = b := by
  cases a
  cases b
  simp [eq]
  grind

theorem Over.rawIndex_lt (h : Over d a) : rawIndex a.index < 2 ^ 32 := by
  rcases h.index with htop | ⟨i, hi, hlt⟩
  · rw [htop]
    show noIndex < 2 ^ 32
    decide
  · rw [hi]
    show i < 2 ^ 32
    have hsize := h.dictionary
    unfold noIndex at hsize
    omega

theorem Over.rawIndex_inj (ha : Over d a) (hb : Over d b) :
    rawIndex a.index = rawIndex b.index ↔ a.index = b.index := by
  refine ⟨fun heq => ?_, fun heq => by rw [heq]⟩
  have hne : ∀ {i : ℕ}, i < d.size → i ≠ noIndex := fun hi =>
    (hi.trans ha.dictionary).ne
  rcases ha.index with htop | ⟨i, hi, hlt⟩ <;> rcases hb.index with htop' | ⟨j, hj, hlt'⟩
  · rw [htop, htop']
  · rw [htop, hj] at heq
    exact absurd heq.symm (hne hlt')
  · rw [hi, htop'] at heq
    exact absurd heq (hne hlt)
  · rw [hi, hj] at heq ⊢
    exact congrArg _ heq

/-- A difference of sizes has the sign that it should have. -/
theorem toPtrdiff_subSize {m n : ℕ} (hm : m < 2 ^ 63) (hn : n < 2 ^ 63) :
    toPtrdiff (subSize m n) = (m : ℤ) - n := by
  unfold toPtrdiff subSize
  split <;> omega

/-- Different indices: neither path is smaller than the other one, or they are equal. -/
theorem lt_of_index_ne (ha : Over d a) (hb : Over d b) (hne : a.index ≠ b.index) :
    lt a b = false := by
  have hraw : rawIndex a.index ≠ rawIndex b.index := fun heq => hne ((ha.rawIndex_inj hb).mp heq)
  have hlt := ha.rawIndex_lt
  have hlt' := hb.rawIndex_lt
  have hpos : 0 < toPtrdiff (subU (rawIndex a.index) (rawIndex b.index)) := by
    unfold toPtrdiff subU
    split <;> omega
  rw [lt]
  dsimp only
  rw [if_neg hpos.not_gt, if_pos hpos]

/-- Equal indices: the shorter path comes first, then the elements decide. -/
theorem lt_of_index_eq (ha : Over d a) (hb : Over d b) (heq : a.index = b.index) :
    lt a b = true ↔ a.relPathElements.length < b.relPathElements.length ∨
      a.relPathElements.length = b.relPathElements.length ∧
        a.relPathElements < b.relPathElements := by
  have hzero : toPtrdiff (subU (rawIndex a.index) (rawIndex b.index)) = 0 := by
    have hlt := hb.rawIndex_lt
    rw [heq]
    unfold toPtrdiff subU
    split <;> omega
  rw [lt]
  dsimp only
  rw [if_neg hzero.not_lt, if_neg hzero.not_gt, toPtrdiff_subSize ha.size hb.size]
  rcases Nat.lt_trichotomy a.relPathElements.length b.relPathElements.length with h | h | h
  · rw [if_pos (by omega)]
    exact iff_of_true rfl (.inl h)
  · rw [if_neg (by omega), if_neg (by omega), decide_eq_true_iff]
    exact ⟨fun hlt => .inr ⟨h, hlt⟩, fun hlt => (hlt.resolve_left h.not_lt).2⟩
  · rw [if_neg (by omega), if_pos (by omega)]
    refine iff_of_false Bool.false_ne_true ?_
    rintro (h' | ⟨h', -⟩)
    · exact h.not_gt h'
    · exact h.ne' h'

/-- A smaller path has the same base. -/
theorem index_eq_of_lt (ha : Over d a) (hb : Over d b) (hlt : lt a b = true) :
    a.index = b.index := by
  by_contra hne
  rw [lt_of_index_ne ha hb hne] at hlt
  exact Bool.false_ne_true hlt

theorem lt_irrefl (ha : Over d a) : lt a a = false := by
  rw [← Bool.not_eq_true, lt_of_index_eq ha ha rfl]
  rintro (h | ⟨-, h⟩)
  · exact Nat.lt_irrefl _ h
  · exact List.lt_irrefl _ h

theorem lt_trans (ha : Over d a) (hb : Over d b) (hc : Over d c) (hab : lt a b = true)
    (hbc : lt b c = true) : lt a c = true := by
  have heq := index_eq_of_lt ha hb hab
  have heq' := index_eq_of_lt hb hc hbc
  rw [lt_of_index_eq ha hb heq] at hab
  rw [lt_of_index_eq hb hc heq'] at hbc
  rw [lt_of_index_eq ha hc (heq.trans heq')]
  rcases hab with hab | ⟨hlen, hab⟩ <;> rcases hbc with hbc | ⟨hlen', hbc⟩
  · exact .inl (hab.trans hbc)
  · exact .inl (hlen' ▸ hab)
  · exact .inl (hlen ▸ hbc)
  · exact .inr ⟨hlen.trans hlen', List.lt_trans hab hbc⟩

end Order

/-- Exactly one of three statements is true. -/
def ExactlyOne (p q r : Prop) : Prop := (p ∧ ¬ q ∧ ¬ r) ∨ (¬ p ∧ q ∧ ¬ r) ∨ (¬ p ∧ ¬ q ∧ r)

/-- **`operator<` is a strict order whose comparisons decide between two paths iff their bases are
the same.** -/
theorem exactlyOne_iff (d : CPathDictionary) :
    (∀ a, Over d a → lt a a = false) ∧
      (∀ a b c, Over d a → Over d b → Over d c → lt a b = true → lt b c = true → lt a c = true) ∧
      ∀ a b, Over d a → Over d b →
        (ExactlyOne (lt a b = true) (lt b a = true) (eq a b = true) ↔ a.index = b.index) := by
  refine ⟨fun a => lt_irrefl, fun a b c => lt_trans, fun a b ha hb => ?_⟩
  constructor
  · intro h
    by_contra hne
    have hab : eq a b ≠ true := fun heq => hne (by rw [eq_iff.mp heq])
    rw [ExactlyOne, lt_of_index_ne ha hb hne, lt_of_index_ne hb ha (Ne.symm hne)] at h
    simp [hab] at h
  · intro heq
    have hasymm : ¬ (lt a b = true ∧ lt b a = true) := fun ⟨hab, hba⟩ =>
      Bool.false_ne_true ((lt_irrefl ha).symm.trans (lt_trans ha hb ha hab hba))
    have hne : eq a b = true → lt a b = false ∧ lt b a = false := by
      intro h
      obtain rfl := eq_iff.mp h
      exact ⟨lt_irrefl ha, lt_irrefl ha⟩
    have htotal : lt a b = true ∨ lt b a = true ∨ eq a b = true := by
      rw [lt_of_index_eq ha hb heq, lt_of_index_eq hb ha heq.symm, eq_iff]
      rcases Nat.lt_trichotomy a.relPathElements.length b.relPathElements.length with h | h | h
      · exact .inl (.inl h)
      · by_cases hab : a.relPathElements < b.relPathElements
        · exact .inl (.inr ⟨h, hab⟩)
        by_cases hba : b.relPathElements < a.relPathElements
        · exact .inr (.inl (.inr ⟨h.symm, hba⟩))
        · have hrel : a.relPathElements = b.relPathElements := List.le_antisymm hba hab
          cases a
          cases b
          exact .inr (.inr (by rw [mk.injEq]; exact ⟨heq, hrel⟩))
      · exact .inr (.inl (.inl h))
    unfold ExactlyOne
    grind

/-- Two paths with the same base. -/
theorem exactlyOne_iff_siblings :
    ExactlyOne (lt ⟨(0 : ℕ), [[97]]⟩ ⟨(0 : ℕ), [[98]]⟩ = true)
      (lt ⟨(0 : ℕ), [[98]]⟩ ⟨(0 : ℕ), [[97]]⟩ = true)
      (eq ⟨(0 : ℕ), [[97]]⟩ ⟨(0 : ℕ), [[98]]⟩ = true) := by
  have hover : ∀ e, Over .init ⟨(0 : ℕ), [e]⟩ := fun e =>
    ⟨by decide, .inr ⟨0, rfl, by decide⟩, by rw [List.length_singleton]; norm_num⟩
  exact ((exactlyOne_iff .init).2.2 _ _ (hover [97]) (hover [98])).mpr rfl

/-- The root and a path below it are not ordered. -/
theorem lt_not_total : ¬ ∀ d, CPathDictionary.Run d → ∀ a b, Over d a → Over d b →
    ExactlyOne (lt a b = true) (lt b a = true) (eq a b = true) := by
  intro h
  have hone := h (CPathDictionary.init.autoInsert (0 : ℕ) [97]).1
    (.autoInsert .init (by decide) (by decide)) ⟨(0 : ℕ), []⟩ ⟨(1 : ℕ), []⟩
    ⟨by decide, .inr ⟨0, rfl, by decide⟩, by decide⟩ ⟨by decide, .inr ⟨1, rfl, by decide⟩, by decide⟩
  have hlt : lt ⟨(0 : ℕ), []⟩ ⟨(1 : ℕ), []⟩ = false := by decide
  have hgt : lt ⟨(1 : ℕ), []⟩ ⟨(0 : ℕ), []⟩ = false := by decide
  have heq : eq ⟨(0 : ℕ), []⟩ ⟨(1 : ℕ), []⟩ = false := by decide
  rw [ExactlyOne, hlt, hgt, heq] at hone
  simp at hone

/-! ### Common roots -/

/-- The names `ks` are the longest that two paths have in common. -/
def CommonNames (ks ns ms : List (List UInt8)) : Prop := ∀ ps, ps <+: ks ↔ ps <+: ns ∧ ps <+: ms

/-- The common root of two paths has the names that they have in common, whichever of them asks. -/
def IsCommonRoot (d : CPathDictionary) (a b : CDictionaryBasedTempPath)
    (ns ms : List (List UInt8)) : Prop :=
  ∃ root root', getCommonRoot d a b = .ok root ∧ getCommonRoot d b a = .ok root' ∧
    eq root root' = true ∧ ∃ k base ks, Denotes d root k base ks ∧ CommonNames ks ns ms

section Roots

variable {d : CPathDictionary} {a b : CDictionaryBasedTempPath} {i j : ℕ}
  {base base' ns ms ps : List (List UInt8)}

/-- What paths with different bases have in common is in the bases. -/
theorem Denotes.prefix_base_of_ne (h : Denotes d a i base ns) (h' : Denotes d b j base' ms)
    (hd : d.Built) (hne : i ≠ j) (hps : ps <+: ns) (hps' : ps <+: ms) : ps <+: base := by
  rcases List.prefix_or_prefix_of_prefix hps h.base_prefix with hle | ⟨rest, rfl⟩
  · exact hle
  cases rest with
  | nil => rw [List.append_nil]
  | cons s rest =>
    have hs : base ++ [s] <+: base ++ s :: rest := ⟨rest, by simp⟩
    -- the other base is longer, and contains the first element that is not cached
    obtain ⟨tail, htail⟩ := h'.prefix_base h.named ((List.prefix_append _ _).trans hps')
    cases tail with
    | nil =>
      rw [List.append_nil] at htail
      exact absurd (hd.named_inj h.named (htail ▸ h'.named)) hne
    | cons t tail =>
      have ht : base ++ [t] <+: base' := ⟨tail, by simp [← htail]⟩
      have heq : base ++ [s] = base ++ [t] := by
        rcases List.prefix_or_prefix_of_prefix (hs.trans hps')
            (ht.trans h'.base_prefix) with hle | hle
        · exact hle.eq_of_length (by simp)
        · exact (hle.eq_of_length (by simp)).symm
      obtain ⟨k, hk⟩ := h'.named.of_prefix ht
      rw [h.names, List.prefix_append_right_inj] at hps
      obtain ⟨more, hmore⟩ := hps
      exact absurd (heq ▸ hk) (h.maximal s (rest ++ more) hmore.symm k)

/-- Paths with different bases: the common root of the bases. -/
theorem Denotes.getCommonRoot_of_ne (h : Denotes d a i base ns) (h' : Denotes d b j base' ms)
    (hd : d.Built) (hne : i ≠ j) : ∃ (r : ℕ) (rs : List (List UInt8)),
      getCommonRoot d a b = .ok ⟨(r : Index), []⟩ ∧ d.Named r rs ∧ CommonNames rs ns ms := by
  obtain ⟨r, rs, hroot, hr, hrs⟩ := hd.commonRoot h.named h'.named
  refine ⟨r, rs, ?_, hr, fun ps => (hrs ps).trans ⟨fun ⟨hb, hb'⟩ => ?_, fun ⟨hn, hm⟩ => ?_⟩⟩
  · rw [getCommonRoot, if_pos, h.index, h'.index, hroot]
    · rfl
    · rw [h.index, h'.index]
      exact fun heq => hne (Nat.cast_injective (R := Index) heq).symm
  · exact ⟨hb.trans h.base_prefix, hb'.trans h'.base_prefix⟩
  · exact ⟨h.prefix_base_of_ne h' hd hne hn hm, h'.prefix_base_of_ne h hd hne.symm hm hn⟩

end Roots

/-- **`GetCommonRoot` gives the common names of two paths iff their bases differ or the paths are
the same.** -/
theorem isCommonRoot_iff {d : CPathDictionary} (hd : d.Built) {a b : CDictionaryBasedTempPath}
    {i j : ℕ} {base base' ns ms : List (List UInt8)} (ha : Denotes d a i base ns)
    (hb : Denotes d b j base' ms) :
    IsCommonRoot d a b ns ms ↔ a.index ≠ b.index ∨ a = b := by
  constructor
  · rintro ⟨root, root', hroot, hroot', heq, -⟩
    by_contra hcon
    obtain ⟨hindex, hne⟩ := not_or.mp hcon
    have hsame := not_not.mp hindex
    rw [getCommonRoot_of_same hsame] at hroot
    rw [getCommonRoot_of_same hsame.symm] at hroot'
    obtain rfl := Except.ok.inj hroot
    obtain rfl := Except.ok.inj hroot'
    exact hne (eq_iff.mp heq)
  · rintro (hne | rfl)
    · have hij : i ≠ j := fun heq => hne (by rw [ha.index, hb.index, heq])
      obtain ⟨r, rs, hroot, hr, hrs⟩ := ha.getCommonRoot_of_ne hb hd hij
      obtain ⟨r', rs', hroot', hr', hrs'⟩ := hb.getCommonRoot_of_ne ha hd hij.symm
      have hpre : rs <+: rs' := (hrs' rs).mpr ((hrs rs).mp (List.prefix_refl rs)).symm
      have hpre' : rs' <+: rs := (hrs rs').mpr ((hrs' rs').mp (List.prefix_refl rs')).symm
      obtain rfl := hpre.eq_of_length_le hpre'.length_le
      obtain rfl := hd.named_inj hr hr'
      exact ⟨_, _, hroot, hroot', eq_iff.mpr rfl, r, rs, rs, denotes_cached hr, hrs⟩
    · obtain rfl := ha.names_unique hb
      exact ⟨a, a, getCommonRoot_of_same rfl, getCommonRoot_of_same rfl, eq_iff.mpr rfl, i, base, ns,
        ha, fun ps => (and_self_iff).symm⟩

/-- A path below the root that is not in the dictionary of the root alone. -/
theorem denotes_uncached (e : List UInt8) :
    Denotes .init ⟨(0 : ℕ), [e]⟩ 0 [] [e] := by
  refine ⟨rfl, .root, rfl, fun s rest _ k hk => ?_⟩
  have hlt := hk.lt_size .init
  obtain rfl : k = 0 := Nat.lt_one_iff.mp hlt
  exact absurd (hk.unique .root) (by simp)

/-- A path that is not cached and itself. -/
theorem isCommonRoot_iff_same :
    IsCommonRoot .init ⟨(0 : ℕ), [[97]]⟩ ⟨(0 : ℕ), [[97]]⟩ [[97]] [[97]] :=
  (isCommonRoot_iff .init (denotes_uncached [97]) (denotes_uncached [97])).mpr (.inr rfl)

/-- The common root of two paths that are not cached depends on which of them asks. -/
theorem getCommonRoot_not_symm : ¬ ∀ d, CPathDictionary.Run d → ∀ a b i j base base' ns ms,
    Denotes d a i base ns → Denotes d b j base' ms → IsCommonRoot d a b ns ms := by
  intro h
  obtain ⟨root, root', hroot, hroot', heq, -⟩ :=
    h _ .init _ _ _ _ _ _ _ _ (denotes_uncached [97]) (denotes_uncached [98])
  have hleft : getCommonRoot .init ⟨(0 : ℕ), [[97]]⟩ ⟨(0 : ℕ), [[98]]⟩ = .ok ⟨(0 : ℕ), [[97]]⟩ :=
    getCommonRoot_of_same rfl
  have hright : getCommonRoot .init ⟨(0 : ℕ), [[98]]⟩ ⟨(0 : ℕ), [[97]]⟩ = .ok ⟨(0 : ℕ), [[98]]⟩ :=
    getCommonRoot_of_same rfl
  rw [← Except.ok.inj (hleft.symm.trans hroot), ← Except.ok.inj (hright.symm.trans hroot')] at heq
  exact absurd heq (by decide)

end CDictionaryBasedTempPath

end TortoiseSvn.LogCache
