import Mathlib.Data.Fintype.Order
import Mathlib.Logic.Relation
import Mathlib.Tactic

/-!
# Grammars of pairs

Every symbol of the grammar stands for a value or for a pair of symbols, or it is not defined at
all. The value of a pair joins the values of its parts, so a symbol has a value as soon as
following the parts always ends.

`expand` evaluates a symbol with fuel and `Expands` says what its value is. Main results:
`exists_expands_iff`, a symbol has a value iff the symbols it leads to are defined and none of
them leads back to itself, and `Expands.map`, renaming the symbols keeps the values.
-/

namespace TortoiseSvn.Lib

/-- Symbols `τ` that stand for values of `α`. -/
structure PairGrammar (ε τ α : Type) where
  /-- What a symbol stands for: a value or a pair of symbols, if it is defined. -/
  rule : τ → Except ε (α ⊕ τ × τ)
  /-- The value of a pair. -/
  join : α → α → α

namespace PairGrammar

variable {ε τ τ' α β : Type}

/-- The value of a symbol; `none` when the fuel is used up. -/
def expand (g : PairGrammar ε τ α) : ℕ → τ → Option (Except ε α)
  | 0, _ => none
  | fuel + 1, t =>
    match g.rule t with
    | .error e => some (.error e)
    | .ok (.inl a) => some (.ok a)
    | .ok (.inr (t₁, t₂)) =>
      match expand g fuel t₁ with
      | none => none
      | some (.error e) => some (.error e)
      | some (.ok a) =>
        match expand g fuel t₂ with
        | none => none
        | some (.error e) => some (.error e)
        | some (.ok b) => some (.ok (g.join a b))

/-- The symbol has the value `a`. -/
inductive Expands (g : PairGrammar ε τ α) : τ → α → Prop
  | value {t : τ} {a : α} (h : g.rule t = .ok (.inl a)) : Expands g t a
  | pair {t t₁ t₂ : τ} {a b : α} (h : g.rule t = .ok (.inr (t₁, t₂))) (h₁ : Expands g t₁ a)
    (h₂ : Expands g t₂ b) : Expands g t (g.join a b)

/-- `u` is one of the parts of `t`. -/
def Part (g : PairGrammar ε τ α) (u t : τ) : Prop :=
  ∃ p : τ × τ, g.rule t = .ok (.inr p) ∧ (u = p.1 ∨ u = p.2)

section

variable {g : PairGrammar ε τ α} {t u : τ} {a b : α} {n m : ℕ}

attribute [local simp] expand

theorem expand_mono {r : Except ε α} (h : g.expand n t = some r) (hnm : n ≤ m) :
    g.expand m t = some r := by
  induction n generalizing m t r with
  | zero => simp [expand] at h
  | succ n ih =>
    obtain ⟨m, rfl⟩ : ∃ k, m = k + 1 := ⟨m - 1, by omega⟩
    have hle : n ≤ m := by omega
    rw [expand] at h ⊢
    rcases hg : g.rule t with e | c | ⟨t₁, t₂⟩
    · simpa [hg] using h
    · simpa [hg] using h
    · simp only [hg] at h ⊢
      rcases h₁ : g.expand n t₁ with _ | e | c
      · simp [h₁] at h
      · simpa [h₁, ih h₁ hle] using h
      · rcases h₂ : g.expand n t₂ with _ | e | d
        · simp [h₁, h₂] at h
        · simpa [h₁, h₂, ih h₁ hle, ih h₂ hle] using h
        · simpa [h₁, h₂, ih h₁ hle, ih h₂ hle] using h

theorem expand_inr {t₁ t₂ : τ} (hg : g.rule t = .ok (.inr (t₁, t₂))) (h₁ : g.expand n t₁ = some (.ok a))
    (h₂ : g.expand n t₂ = some (.ok b)) : g.expand (n + 1) t = some (.ok (g.join a b)) := by
  simp [expand, hg, h₁, h₂]

/-- Enough fuel gives the value. -/
theorem Expands.exists_fuel (h : g.Expands t a) : ∃ n, g.expand n t = some (.ok a) := by
  induction h with
  | value h => exact ⟨1, by simp [expand, h]⟩
  | pair h h₁ h₂ ih₁ ih₂ =>
    obtain ⟨n₁, hn₁⟩ := ih₁
    obtain ⟨n₂, hn₂⟩ := ih₂
    exact ⟨max n₁ n₂ + 1, expand_inr h (expand_mono hn₁ (le_max_left _ _))
      (expand_mono hn₂ (le_max_right _ _))⟩

theorem expands_of_expand (h : g.expand n t = some (.ok a)) : g.Expands t a := by
  induction n generalizing t a with
  | zero => simp [expand] at h
  | succ n ih =>
    rw [expand] at h
    rcases hg : g.rule t with e | c | ⟨t₁, t₂⟩
    · simp [hg] at h
    · obtain rfl : c = a := by simpa [hg] using h
      exact .value hg
    · simp only [hg] at h
      rcases h₁ : g.expand n t₁ with _ | e | c
      · simp [h₁] at h
      · simp [h₁] at h
      · rcases h₂ : g.expand n t₂ with _ | e | d
        · simp [h₁, h₂] at h
        · simp [h₁, h₂] at h
        · obtain rfl : g.join c d = a := by simpa [h₁, h₂] using h
          exact .pair hg (ih h₁) (ih h₂)

theorem Expands.unique (ha : g.Expands t a) (hb : g.Expands t b) : a = b := by
  obtain ⟨n, hn⟩ := ha.exists_fuel
  obtain ⟨m, hm⟩ := hb.exists_fuel
  have hn' := expand_mono hn (le_max_left n m)
  have hm' := expand_mono hm (le_max_right n m)
  simpa [hn'] using hm'

/-- Renaming symbols keeps their values, if it keeps what they stand for. -/
theorem Expands.map {g' : PairGrammar ε τ' α} {f : τ → τ'} {S : τ → Prop}
    (hjoin : g'.join = g.join)
    (hval : ∀ t a, S t → g.rule t = .ok (.inl a) → g'.rule (f t) = .ok (.inl a))
    (hpair : ∀ t t₁ t₂, S t → g.rule t = .ok (.inr (t₁, t₂)) →
      S t₁ ∧ S t₂ ∧ g'.rule (f t) = .ok (.inr (f t₁, f t₂)))
    (h : g.Expands t a) (ht : S t) : g'.Expands (f t) a := by
  induction h with
  | value h => exact .value (hval _ _ ht h)
  | pair h _ _ ih₁ ih₂ =>
    obtain ⟨hs₁, hs₂, hg'⟩ := hpair _ _ _ ht h
    rw [← hjoin]
    exact .pair hg' (ih₁ hs₁) (ih₂ hs₂)

/-- A grammar that defines more symbols gives the old ones their old values. -/
theorem Expands.mono {g' : PairGrammar ε τ α} (h : g.Expands t a) (hjoin : g'.join = g.join)
    (hle : ∀ t p, g.rule t = .ok p → g'.rule t = .ok p) : g'.Expands t a := by
  have hval : ∀ t a, True → g.rule t = .ok (.inl a) → g'.rule (id t) = .ok (.inl a) :=
    fun t a _ h => hle t _ h
  have hpair : ∀ t t₁ t₂, True → g.rule t = .ok (.inr (t₁, t₂)) →
      True ∧ True ∧ g'.rule (id t) = .ok (.inr (id t₁, id t₂)) :=
    fun t t₁ t₂ _ h => ⟨trivial, trivial, hle t _ h⟩
  exact h.map hjoin hval hpair trivial

/-- Two grammars with the same pairs: a function that respects joining carries the values over. -/
theorem Expands.hom {g' : PairGrammar ε τ β} {f : α → β}
    (hjoin : ∀ a b, f (g.join a b) = g'.join (f a) (f b))
    (hval : ∀ t a, g.rule t = .ok (.inl a) → g'.rule t = .ok (.inl (f a)))
    (hpair : ∀ t p, g.rule t = .ok (.inr p) → g'.rule t = .ok (.inr p))
    (h : g.Expands t a) : g'.Expands t (f a) := by
  induction h with
  | value h => exact .value (hval _ _ h)
  | pair h _ _ ih₁ ih₂ =>
    rw [hjoin]
    exact .pair (hpair _ _ h) ih₁ ih₂

/-! ### Which symbols have a value -/

/-- The parts of a symbol that has a value have one, too. -/
theorem Expands.of_part (h : g.Expands t a) (hu : g.Part u t) : ∃ b, g.Expands u b := by
  obtain ⟨p, hp, hu⟩ := hu
  cases h with
  | value h => simp [hp] at h
  | pair h h₁ h₂ =>
    obtain rfl : p = _ := by simpa [hp] using h
    rcases hu with rfl | rfl
    · exact ⟨_, h₁⟩
    · exact ⟨_, h₂⟩

theorem Expands.of_reaches (h : g.Expands t a) (hu : Relation.ReflTransGen g.Part u t) :
    ∃ b, g.Expands u b := by
  induction hu using Relation.ReflTransGen.head_induction_on with
  | refl => exact ⟨a, h⟩
  | head hpart _ ih =>
    obtain ⟨b, hb⟩ := ih
    exact hb.of_part hpart

theorem Expands.acc (h : g.Expands t a) : Acc g.Part t := by
  induction h with
  | value h =>
    refine ⟨_, fun u hu => ?_⟩
    obtain ⟨p, hp, -⟩ := hu
    simp [h] at hp
  | pair h _ _ ih₁ ih₂ =>
    refine ⟨_, fun u hu => ?_⟩
    obtain ⟨p, hp, hu⟩ := hu
    obtain rfl : p = _ := by simpa [h, eq_comm] using hp
    rcases hu with rfl | rfl
    · exact ih₁
    · exact ih₂

/-- A symbol that has a value leads to none that leads back to itself. -/
theorem Expands.acyclic (h : g.Expands t a) (hu : Relation.ReflTransGen g.Part u t) :
    ¬ Relation.TransGen g.Part u u := by
  obtain ⟨b, hb⟩ := h.of_reaches hu
  have hirrefl : ∀ v, Acc (Relation.TransGen g.Part) v → ¬ Relation.TransGen g.Part v v := by
    intro v hv
    induction hv with
    | intro v _ ih => exact fun hcyc => ih v hcyc hcyc
  exact hirrefl u hb.acc.transGen

theorem exists_expands_of_acc (hacc : Acc g.Part t)
    (hdef : ∀ u, Relation.ReflTransGen g.Part u t → ∃ p, g.rule u = .ok p) : ∃ a, g.Expands t a := by
  induction hacc with
  | intro t _ ih =>
    obtain ⟨c | ⟨t₁, t₂⟩, hp⟩ := hdef t .refl
    · exact ⟨c, .value hp⟩
    · have h₁ : g.Part t₁ t := ⟨_, hp, .inl rfl⟩
      have h₂ : g.Part t₂ t := ⟨_, hp, .inr rfl⟩
      obtain ⟨a, ha⟩ := ih t₁ h₁ fun u hu => hdef u (hu.tail h₁)
      obtain ⟨b, hb⟩ := ih t₂ h₂ fun u hu => hdef u (hu.tail h₂)
      exact ⟨_, .pair hp ha hb⟩

/-- With finitely many pairs, a symbol from which no cycle can be reached is well-founded. -/
theorem acc_of_acyclic {pairs : Finset τ} (hpairs : ∀ t p, g.rule t = .ok (.inr p) → t ∈ pairs)
    (hcyc : ∀ u, Relation.ReflTransGen g.Part u t → ¬ Relation.TransGen g.Part u u) :
    Acc g.Part t := by
  let Below := { u : τ // u ∈ pairs ∧ Relation.ReflTransGen g.Part u t }
  let r : Below → Below → Prop := fun u v => Relation.TransGen g.Part u.1 v.1
  have : Finite Below := Finite.of_injective (fun u : Below => (⟨u.1, u.2.1⟩ : pairs))
    fun u v h => Subtype.ext (congrArg (fun w : pairs => w.1) h)
  have : IsTrans Below r := ⟨fun _ _ _ => Relation.TransGen.trans⟩
  have : Std.Irrefl r := ⟨fun u => hcyc u.1 u.2.2⟩
  have hwf : WellFounded r := Finite.wellFounded_of_trans_of_irrefl r
  -- a symbol that is no pair has no parts
  have hleaf : ∀ u, u ∉ pairs → Acc g.Part u := fun u hu =>
    ⟨_, fun v ⟨p, hp, _⟩ => absurd (hpairs u p hp) hu⟩
  have hbelow : ∀ u : Below, Acc g.Part u.1 := fun u => by
    induction u using hwf.induction with
    | _ u ih =>
      refine ⟨_, fun v hv => ?_⟩
      by_cases hmem : v ∈ pairs
      · exact ih ⟨v, hmem, .head hv u.2.2⟩ (.single hv)
      · exact hleaf v hmem
  by_cases hmem : t ∈ pairs
  · exact hbelow ⟨t, hmem, .refl⟩
  · exact hleaf t hmem

/-- **A symbol has a value iff every symbol it leads to is defined and none of them leads back to
itself.** -/
theorem exists_expands_iff {pairs : Finset τ} (hpairs : ∀ t p, g.rule t = .ok (.inr p) → t ∈ pairs) :
    (∃ a, g.Expands t a) ↔ ∀ u, Relation.ReflTransGen g.Part u t →
      (∃ p, g.rule u = .ok p) ∧ ¬ Relation.TransGen g.Part u u := by
  constructor
  · rintro ⟨a, h⟩ u hu
    refine ⟨?_, h.acyclic hu⟩
    obtain ⟨b, hb⟩ := h.of_reaches hu
    cases hb with
    | value h => exact ⟨_, h⟩
    | pair h _ _ => exact ⟨_, h⟩
  · intro h
    exact exists_expands_of_acc (acc_of_acyclic hpairs fun u hu => (h u hu).2) fun u hu => (h u hu).1

/-- The fuel that is enough for every value is one more than the number of pairs. -/
theorem Expands.fuel_card [DecidableEq τ] {pairs : Finset τ}
    (hpairs : ∀ t p, g.rule t = .ok (.inr p) → t ∈ pairs) (h : g.Expands t a) :
    g.expand (pairs.card + 1) t = some (.ok a) := by
  -- the pairs below `t` that are still to be met, `t` itself among them if it is one
  have hbound : ∀ s : Finset τ, ∀ t a, g.Expands t a →
      (∀ u, Relation.ReflTransGen g.Part u t → u ∈ pairs → u ∈ s) →
      g.expand (s.card + 1) t = some (.ok a) := by
    intro s
    induction hn : s.card generalizing s with
    | zero =>
      intro t a h hs
      cases h with
      | value h => simp [expand, h]
      | pair h _ _ =>
        have hmem := hs t .refl (hpairs t _ h)
        rw [Finset.card_eq_zero.mp hn] at hmem
        exact absurd hmem (Finset.notMem_empty t)
    | succ n ih =>
      intro t a h hs
      have hcyc := h.acyclic .refl
      cases h with
      | value h => simp [expand, h]
      | @pair _ t₁ t₂ a b hr h₁ h₂ =>
        have hmem := hs t .refl (hpairs t _ hr)
        have hcard : (s.erase t).card = n := by
          rw [Finset.card_erase_of_mem hmem, hn, Nat.add_sub_cancel]
        have hbelow : ∀ v, g.Part v t → ∀ u, Relation.ReflTransGen g.Part u v → u ∈ pairs →
            u ∈ s.erase t := by
          intro v hv u hu hup
          refine Finset.mem_erase.mpr ⟨?_, hs u (hu.tail hv) hup⟩
          rintro rfl
          exact hcyc (Relation.TransGen.tail' hu hv)
        exact expand_inr hr (ih _ hcard t₁ a h₁ (hbelow t₁ ⟨_, hr, .inl rfl⟩))
          (ih _ hcard t₂ b h₂ (hbelow t₂ ⟨_, hr, .inr rfl⟩))
  exact hbound pairs t a h fun _ _ hu => hu

/-! ### Sequences of symbols -/

/-- The values of the symbols of a sequence are `as`. -/
abbrev Spells (g : PairGrammar ε τ α) (ts : List τ) (as : List α) : Prop :=
  List.Forall₂ g.Expands ts as

/-- The values of the symbols of a sequence. -/
def expandAll (g : PairGrammar ε τ α) (fuel : ℕ) : List τ → Option (Except ε (List α))
  | [] => some (.ok [])
  | t :: ts =>
    match g.expand fuel t with
    | none => none
    | some (.error e) => some (.error e)
    | some (.ok a) =>
      match g.expandAll fuel ts with
      | none => none
      | some (.error e) => some (.error e)
      | some (.ok as) => some (.ok (a :: as))

/-- Enough fuel gives the values of a whole sequence. -/
theorem Spells.expandAll_card [DecidableEq τ] {pairs : Finset τ}
    (hpairs : ∀ t p, g.rule t = .ok (.inr p) → t ∈ pairs) {ts : List τ} {as : List α}
    (h : g.Spells ts as) : g.expandAll (pairs.card + 1) ts = some (.ok as) := by
  induction h with
  | nil => rfl
  | cons h _ ih => simp [-expand, expandAll, h.fuel_card hpairs, ih]

theorem spells_of_expandAll {ts : List τ} {as : List α} (h : g.expandAll n ts = some (.ok as)) :
    g.Spells ts as := by
  induction ts generalizing as with
  | nil =>
    obtain rfl : [] = as := by simpa [expandAll] using h
    exact .nil
  | cons t ts ih =>
    rw [expandAll] at h
    rcases ht : g.expand n t with _ | e | a
    · simp [ht] at h
    · simp [ht] at h
    · rcases hts : g.expandAll n ts with _ | e | bs
      · simp [ht, hts] at h
      · simp [ht, hts] at h
      · obtain rfl : a :: bs = as := by simpa [ht, hts] using h
        exact .cons (expands_of_expand ht) (ih hts)

end

/-! ### Texts -/

section Text

variable {g g' : PairGrammar ε τ (List β)} {ts us : List τ} {s s' : List β}

/-- A sequence of symbols whose values are texts yields these texts one behind the other. -/
def Yields (g : PairGrammar ε τ (List β)) (ts : List τ) (s : List β) : Prop :=
  ∃ ss, g.Spells ts ss ∧ ss.flatten = s

theorem yields_nil : g.Yields [] s ↔ s = [] := by
  constructor
  · rintro ⟨ss, h, rfl⟩
    cases h
    rfl
  · rintro rfl
    exact ⟨[], .nil, rfl⟩

theorem yields_cons {t : τ} :
    g.Yields (t :: ts) s ↔ ∃ u v, g.Expands t u ∧ g.Yields ts v ∧ u ++ v = s := by
  constructor
  · rintro ⟨ss, h, rfl⟩
    cases h with
    | cons h hs => exact ⟨_, _, h, ⟨_, hs, rfl⟩, rfl⟩
  · rintro ⟨u, v, h, ⟨ss, hs, rfl⟩, rfl⟩
    exact ⟨u :: ss, .cons h hs, rfl⟩

theorem yields_append :
    g.Yields (ts ++ us) s ↔ ∃ u v, g.Yields ts u ∧ g.Yields us v ∧ u ++ v = s := by
  induction ts generalizing s with
  | nil =>
    constructor
    · exact fun h => ⟨[], s, yields_nil.mpr rfl, h, rfl⟩
    · rintro ⟨u, v, hu, hv, rfl⟩
      rwa [yields_nil.mp hu]
  | cons t ts ih =>
    rw [List.cons_append, yields_cons]
    constructor
    · rintro ⟨u, v, hu, hv, rfl⟩
      obtain ⟨v₁, v₂, hv₁, hv₂, rfl⟩ := ih.mp hv
      exact ⟨u ++ v₁, v₂, yields_cons.mpr ⟨u, v₁, hu, hv₁, rfl⟩, hv₂, List.append_assoc _ _ _⟩
    · rintro ⟨u, v, hu, hv, rfl⟩
      obtain ⟨u₁, u₂, hu₁, hu₂, rfl⟩ := yields_cons.mp hu
      exact ⟨u₁, u₂ ++ v, hu₁, ih.mpr ⟨u₂, v, hu₂, hv, rfl⟩, (List.append_assoc _ _ _).symm⟩

theorem Yields.unique (h : g.Yields ts s) (h' : g.Yields ts s') : s = s' := by
  induction ts generalizing s s' with
  | nil => rw [yields_nil.mp h, yields_nil.mp h']
  | cons t ts ih =>
    obtain ⟨u, v, hu, hv, rfl⟩ := yields_cons.mp h
    obtain ⟨u', v', hu', hv', rfl⟩ := yields_cons.mp h'
    rw [hu.unique hu', ih hv hv']

/-- Writing a pair for its two parts does not change the text. -/
theorem Yields.fold {t t₁ t₂ : τ} (hjoin : g.join = (· ++ ·)) (ht : g.rule t = .ok (.inr (t₁, t₂)))
    (h : g.Yields (ts ++ t₁ :: t₂ :: us) s) : g.Yields (ts ++ t :: us) s := by
  obtain ⟨u, v, hu, hv, rfl⟩ := yields_append.mp h
  obtain ⟨a, w, ha, hw, rfl⟩ := yields_cons.mp hv
  obtain ⟨b, x, hb, hx, rfl⟩ := yields_cons.mp hw
  have hab : g.Expands t (a ++ b) := by
    have := Expands.pair ht ha hb
    rwa [hjoin] at this
  exact yields_append.mpr ⟨u, a ++ b ++ x, hu, yields_cons.mpr ⟨_, x, hab, hx, rfl⟩,
    by rw [List.append_assoc]⟩

theorem Yields.mono (h : g.Yields ts s) (hjoin : g'.join = g.join)
    (hle : ∀ t p, g.rule t = .ok p → g'.rule t = .ok p) : g'.Yields ts s := by
  obtain ⟨ss, hs, rfl⟩ := h
  exact ⟨ss, hs.imp fun _ _ ht => ht.mono hjoin hle, rfl⟩

theorem Yields.expands (h : g.Yields ts s) {t : τ} (ht : t ∈ ts) : ∃ u, g.Expands t u := by
  induction ts generalizing s with
  | nil => exact absurd ht List.not_mem_nil
  | cons t' ts ih =>
    obtain ⟨u, v, hu, hv, rfl⟩ := yields_cons.mp h
    rcases List.mem_cons.mp ht with rfl | ht
    · exact ⟨u, hu⟩
    · exact ih hv ht

end Text

end PairGrammar

end TortoiseSvn.Lib
