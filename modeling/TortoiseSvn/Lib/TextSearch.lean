import Mathlib.Data.List.Forall2
import Mathlib.Tactic

/-!
# Searching and replacing in coded texts

`find` is the place of the first occurrence of a pattern, `replace` replaces all occurrences from
left to right. A text may be a code: symbol after symbol, each written as some letters. When no
word of the code is the beginning of another, and the first letter of the pattern stands only at
the beginning of words, then a search in the letters is a search in the symbols.

Main results: `find_flatMap`, `replace_flatMap`.
-/

namespace TortoiseSvn.Lib.Text

variable {α σ : Type*}

/-! ### Codes -/

/-- No word is empty, and no word is the beginning of another. -/
structure IsCode (code : σ → List α) : Prop where
  ne_nil : ∀ t, code t ≠ []
  eq_of_begins : ∀ t u, code t <+: code u → t = u

/-- The first letter of a text does not stand behind the beginning of a word. -/
def Starts (code : σ → List α) (ps : List σ) : Prop :=
  ∃ a as, ps.flatMap code = a :: as ∧ ∀ t, a ∉ (code t).tail

namespace IsCode

variable {code : σ → List α} (hcode : IsCode code) {ps qs ts : List σ}

include hcode in
theorem prefix_iff : ps.flatMap code <+: ts.flatMap code ↔ ps <+: ts := by
  constructor
  · intro h
    induction ps generalizing ts with
    | nil => exact List.nil_prefix
    | cons t ps ih =>
      cases ts with
      | nil => exact absurd (List.append_eq_nil_iff.mp (List.prefix_nil.mp h)).1 (hcode.ne_nil t)
      | cons u ts =>
        rw [List.flatMap_cons, List.flatMap_cons] at h
        have ht : code t <+: code u ++ ts.flatMap code := (List.prefix_append _ _).trans h
        have hu : code u <+: code u ++ ts.flatMap code := List.prefix_append _ _
        obtain rfl : t = u := by
          rcases le_total (code t).length (code u).length with hle | hle
          · exact hcode.eq_of_begins t u (List.prefix_of_prefix_length_le ht hu hle)
          · exact (hcode.eq_of_begins u t (List.prefix_of_prefix_length_le hu ht hle)).symm
        rw [List.prefix_append_right_inj] at h
        exact List.cons_prefix_cons.mpr ⟨rfl, ih h⟩
  · rintro ⟨back, rfl⟩
    rw [List.flatMap_append]
    exact List.prefix_append _ _

/-- No occurrence of such a pattern begins within a word. -/
theorem not_prefix_tail (hps : Starts code ps) {t : σ} {x y l : List α}
    (hxy : (code t).tail = x ++ y) (hy : y ≠ []) : ¬ ps.flatMap code <+: y ++ l := by
  obtain ⟨a, as, hps, ha⟩ := hps
  obtain ⟨b, bs, rfl⟩ := List.exists_cons_of_ne_nil hy
  rw [hps, List.cons_append, List.cons_prefix_cons]
  rintro ⟨rfl, -⟩
  exact ha t (hxy ▸ List.mem_append_right _ (List.mem_cons_self ..))

end IsCode

/-! ### Searching -/

variable [DecidableEq α]

/-- The place of the first occurrence. -/
def find (p : List α) : List α → Option ℕ
  | [] => if p <+: [] then some 0 else none
  | a :: l => if p <+: a :: l then some 0 else (find p l).map (· + 1)

/-- Replace all occurrences that do not begin among the next letters, which are left out. -/
def replaceFrom (p q : List α) : ℕ → List α → List α
  | _, [] => []
  | 0, a :: l =>
    if p <+: a :: l then q ++ replaceFrom p q (p.length - 1) l else a :: replaceFrom p q 0 l
  | n + 1, _ :: l => replaceFrom p q n l

/-- Replace all occurrences of a pattern that is not empty. -/
def replace (p q l : List α) : List α := replaceFrom p q 0 l

section Find

variable {p l : List α}

theorem find_at_start (h : p <+: l) : find p l = some 0 := by
  cases l with
  | nil => exact if_pos h
  | cons a l => exact if_pos h

theorem find_cons {a : α} (h : ¬ p <+: a :: l) : find p (a :: l) = (find p l).map (· + 1) :=
  if_neg h

/-- Letters with which no occurrence begins are passed. -/
theorem find_append {front : List α} (h : ∀ x y, front = x ++ y → y ≠ [] → ¬ p <+: y ++ l) :
    find p (front ++ l) = (find p l).map (· + front.length) := by
  induction front with
  | nil => simp
  | cons a front ih =>
    have hfirst : ¬ p <+: a :: (front ++ l) := h [] (a :: front) rfl (List.cons_ne_nil _ _)
    rw [List.cons_append, find_cons hfirst,
      ih fun x y hxy => h (a :: x) y (congrArg _ hxy), Option.map_map]
    rfl

/-- What is found is the first occurrence. -/
theorem find_eq_some {n : ℕ} (h : find p l = some n) : ∃ front back, l = front ++ (p ++ back) ∧
    front.length = n ∧ ∀ x y, front = x ++ y → y ≠ [] → ¬ p <+: y ++ (p ++ back) := by
  induction l generalizing n with
  | nil =>
    rw [find] at h
    split_ifs at h with hp
    obtain rfl := Option.some.inj h
    obtain ⟨back, hback⟩ := hp
    exact ⟨[], back, hback.symm, rfl, fun x y hxy hy =>
      absurd (List.append_eq_nil_iff.mp hxy.symm).2 hy⟩
  | cons a l ih =>
    by_cases hp : p <+: a :: l
    · obtain ⟨back, hback⟩ := hp
      rw [find_at_start ⟨back, hback⟩] at h
      obtain rfl := Option.some.inj h
      exact ⟨[], back, hback.symm, rfl, fun x y hxy hy =>
        absurd (List.append_eq_nil_iff.mp hxy.symm).2 hy⟩
    · rw [find_cons hp, Option.map_eq_some_iff] at h
      obtain ⟨m, hm, rfl⟩ := h
      obtain ⟨front, back, rfl, rfl, hfirst⟩ := ih hm
      refine ⟨a :: front, back, rfl, rfl, fun x y hxy hy => ?_⟩
      rcases x with _ | ⟨b, x⟩
      · rw [List.nil_append] at hxy
        subst hxy
        exact hp
      · exact hfirst x y (List.cons.inj hxy).2 hy

theorem find_eq_none (h : find p l = none) (front back : List α) : l ≠ front ++ (p ++ back) := by
  induction l generalizing front with
  | nil =>
    intro heq
    rw [eq_comm, List.append_eq_nil_iff, List.append_eq_nil_iff] at heq
    rw [find, heq.2.1, if_pos List.nil_prefix] at h
    exact nomatch h
  | cons a l ih =>
    intro heq
    by_cases hp : p <+: a :: l
    · rw [find_at_start hp] at h
      exact nomatch h
    · rw [find_cons hp, Option.map_eq_none_iff] at h
      rcases front with _ | ⟨b, front⟩
      · exact hp ⟨back, heq.symm⟩
      · exact ih h front (List.cons.inj heq).2

theorem find_of_first {front back : List α}
    (h : ∀ x y, front = x ++ y → y ≠ [] → ¬ p <+: y ++ (p ++ back)) :
    find p (front ++ (p ++ back)) = some front.length := by
  rw [find_append h, find_at_start (List.prefix_append _ _), Option.map_some, Nat.zero_add]

/-- The first occurrence is not behind any other. -/
theorem find_le (x y : List α) : ∃ n ≤ x.length, find p (x ++ (p ++ y)) = some n := by
  induction x with
  | nil => exact ⟨0, le_rfl, find_at_start (List.prefix_append _ _)⟩
  | cons a x ih =>
    obtain ⟨n, hn, hfind⟩ := ih
    by_cases h : p <+: a :: (x ++ (p ++ y))
    · exact ⟨0, Nat.zero_le _, find_at_start h⟩
    · refine ⟨n + 1, Nat.succ_le_succ hn, ?_⟩
      rw [List.cons_append, find_cons h, hfind]
      rfl

theorem find_map {β : Type*} [DecidableEq β] {f : α → β} (hf : Function.Injective f) :
    find (p.map f) (l.map f) = find p l := by
  have hiff : ∀ l : List α, p.map f <+: l.map f ↔ p <+: l := by
    intro l
    constructor
    · intro h
      rw [List.prefix_iff_eq_take, List.length_map, ← List.map_take] at h
      rw [List.prefix_iff_eq_take]
      exact List.map_injective_iff.mpr hf h
    · exact fun h => h.map f
  induction l with
  | nil => exact if_congr (hiff []) rfl rfl
  | cons a l ih =>
    by_cases h : p <+: a :: l
    · rw [find_at_start h, find_at_start ((hiff (a :: l)).mpr h)]
    · rw [find_cons h, List.map_cons, find_cons (mt (hiff (a :: l)).mp h), ih]

end Find

section Replace

variable {p q l : List α}

theorem replaceFrom_eq (n : ℕ) : replaceFrom p q n l = replace p q (l.drop n) := by
  induction n generalizing l with
  | zero => rfl
  | succ n ih =>
    cases l with
    | nil => rfl
    | cons a l => exact ih

@[simp] theorem replace_nil : replace p q [] = [] := rfl

theorem replace_at_start (hp : p ≠ []) (l : List α) : replace p q (p ++ l) = q ++ replace p q l := by
  obtain ⟨a, as, rfl⟩ := List.exists_cons_of_ne_nil hp
  rw [List.cons_append, replace, replaceFrom, if_pos ⟨l, rfl⟩, replaceFrom_eq, List.length_cons,
    Nat.add_sub_cancel, List.drop_left]

theorem replace_cons {a : α} (h : ¬ p <+: a :: l) : replace p q (a :: l) = a :: replace p q l :=
  if_neg h

/-- Letters with which no occurrence begins are copied. -/
theorem replace_append {front : List α} (h : ∀ x y, front = x ++ y → y ≠ [] → ¬ p <+: y ++ l) :
    replace p q (front ++ l) = front ++ replace p q l := by
  induction front with
  | nil => rfl
  | cons a front ih =>
    have hfirst : ¬ p <+: a :: (front ++ l) := h [] (a :: front) rfl (List.cons_ne_nil _ _)
    rw [List.cons_append, replace_cons hfirst,
      ih fun x y hxy => h (a :: x) y (congrArg _ hxy), List.cons_append]

/-- A text without the pattern stays as it is. -/
theorem replace_of_absent (h : ¬ p <:+: l) : replace p q l = l := by
  have hno : ∀ x y, l = x ++ y → y ≠ [] → ¬ p <+: y ++ [] := by
    rintro x y rfl - ⟨back, hback⟩
    exact h ⟨x, back, by rw [List.append_assoc, hback, List.append_nil]⟩
  have hcopy := replace_append (q := q) hno
  rwa [List.append_nil, replace_nil, List.append_nil] at hcopy

/-- The first occurrence is replaced, and what is before it is copied. -/
theorem replace_of_find {n : ℕ} (hp : p ≠ []) (h : find p l = some n) : ∃ front back,
    l = front ++ (p ++ back) ∧ front.length = n ∧
      replace p q l = front ++ (q ++ replace p q back) := by
  obtain ⟨front, back, rfl, hlength, hfirst⟩ := find_eq_some h
  exact ⟨front, back, rfl, hlength, by rw [replace_append hfirst, replace_at_start hp]⟩

theorem length_replace_le (hp : p ≠ []) (hq : q.length ≤ p.length) (l : List α) :
    (replace p q l).length ≤ l.length := by
  induction hn : l.length using Nat.strong_induction_on generalizing l with
  | _ n ih =>
    by_cases h : p <+: l
    · obtain ⟨back, rfl⟩ := h
      have hpos := List.length_pos_of_ne_nil hp
      rw [List.length_append] at hn
      have hback := ih back.length (by omega) back rfl
      rw [replace_at_start hp, List.length_append]
      omega
    · cases l with
      | nil => exact Nat.zero_le _
      | cons a l =>
        rw [List.length_cons] at hn
        have hrest := ih l.length (by omega) l rfl
        rw [replace_cons h, List.length_cons]
        omega

/-- A pattern that occurs and is removed makes the text shorter by at least its length. -/
theorem length_replace_nil (hp : p ≠ []) (h : p <:+: l) :
    (replace p [] l).length + p.length ≤ l.length := by
  obtain ⟨x, y, rfl⟩ := h
  obtain ⟨n, -, hfind⟩ := find_le (p := p) x y
  rw [← List.append_assoc] at hfind
  obtain ⟨front, back, hl, -, hreplace⟩ := replace_of_find (q := []) hp hfind
  have hback := length_replace_le (q := []) hp (Nat.zero_le _) back
  rw [hreplace, hl]
  simp only [List.length_append, List.length_nil]
  omega

/-- Symbols are changed as in the pattern, or not at all. -/
theorem forall₂_replace {R : α → α → Prop} (hrefl : ∀ a, R a a) (hpq : List.Forall₂ R p q)
    (hp : p ≠ []) (l : List α) : List.Forall₂ R l (replace p q l) := by
  induction hn : l.length using Nat.strong_induction_on generalizing l with
  | _ n ih =>
    by_cases h : p <+: l
    · obtain ⟨back, rfl⟩ := h
      have hpos := List.length_pos_of_ne_nil hp
      rw [replace_at_start hp]
      exact List.rel_append hpq (ih back.length (by rw [← hn, List.length_append]; omega) back rfl)
    · cases l with
      | nil => exact .nil
      | cons a l =>
        rw [replace_cons h]
        exact .cons (hrefl a) (ih l.length (by simp [← hn]) l rfl)

end Replace

omit [DecidableEq α] in
/-- Lists that are related come apart at the same places. -/
theorem forall₂_split {β : Type*} {R : α → β → Prop} {a b : List α} {l : List β}
    (h : List.Forall₂ R (a ++ b) l) :
    ∃ a' b', l = a' ++ b' ∧ List.Forall₂ R a a' ∧ List.Forall₂ R b b' := by
  induction a generalizing l with
  | nil => exact ⟨[], l, rfl, .nil, h⟩
  | cons c a ih =>
    obtain ⟨d, l', hcd, hrest, rfl⟩ := List.forall₂_cons_left_iff.mp h
    obtain ⟨a', b', rfl, ha, hb⟩ := ih hrest
    exact ⟨d :: a', b', rfl, .cons hcd ha, hb⟩

/-! ### Searching in coded texts -/

namespace IsCode

variable {code : σ → List α} {ps qs ts : List σ} [DecidableEq σ]

/-- What is found among the letters is where the word of the symbol begins that is found among the
symbols. -/
theorem find_flatMap (hcode : IsCode code) (hps : Starts code ps) :
    find (ps.flatMap code) (ts.flatMap code) =
      (find ps ts).map fun n => ((ts.take n).flatMap code).length := by
  induction ts with
  | nil =>
    have hnil : ps.flatMap code <+: [].flatMap code ↔ ps <+: [] := hcode.prefix_iff
    rw [List.flatMap_nil] at hnil ⊢
    rw [find, find]
    by_cases h : ps <+: []
    · rw [if_pos (hnil.mpr h), if_pos h]
      rfl
    · rw [if_neg (mt hnil.mp h), if_neg h]
      rfl
  | cons t ts ih =>
    by_cases h : ps <+: t :: ts
    · rw [find_at_start h, find_at_start (hcode.prefix_iff.mpr h)]
      rfl
    · have hletters := mt hcode.prefix_iff.mp h
      obtain ⟨b, bs, hb⟩ := List.exists_cons_of_ne_nil (hcode.ne_nil t)
      rw [List.flatMap_cons, hb, List.cons_append] at hletters ⊢
      rw [find_cons h, find_cons hletters, find_append fun x y hxy =>
        not_prefix_tail (x := x) hps (by rw [hb]; exact hxy), ih, Option.map_map, Option.map_map,
        Option.map_map]
      congr 1
      funext n
      simp only [Function.comp_apply, List.take_succ_cons, List.flatMap_cons, List.length_append, hb,
        List.length_cons]
      omega

/-- A pattern occurs among the letters iff it occurs among the symbols. -/
theorem infix_of_flatMap (hcode : IsCode code) (hps : Starts code ps)
    (h : ps.flatMap code <:+: ts.flatMap code) : ps <:+: ts := by
  obtain ⟨x, y, hxy⟩ := h
  obtain ⟨n, -, hfind⟩ := find_le (p := ps.flatMap code) x y
  rw [← List.append_assoc, hxy, find_flatMap hcode hps, Option.map_eq_some_iff] at hfind
  obtain ⟨m, hm, -⟩ := hfind
  obtain ⟨front, back, rfl, -, -⟩ := find_eq_some hm
  exact ⟨front, back, by rw [List.append_assoc]⟩

/-- What is replaced among the letters is what is replaced among the symbols. -/
theorem replace_flatMap (hcode : IsCode code) (hps : Starts code ps) :
    replace (ps.flatMap code) (qs.flatMap code) (ts.flatMap code) =
      (replace ps qs ts).flatMap code := by
  have hne : ps ≠ [] := by
    rintro rfl
    obtain ⟨a, as, hnil, -⟩ := hps
    exact nomatch hnil
  have hne' : ps.flatMap code ≠ [] := by
    obtain ⟨a, as, hcons, -⟩ := hps
    rw [hcons]
    exact List.cons_ne_nil _ _
  induction hn : ts.length using Nat.strong_induction_on generalizing ts with
  | _ n ih =>
    by_cases h : ps <+: ts
    · obtain ⟨back, rfl⟩ := h
      have hlt : back.length < n := by
        rw [← hn, List.length_append]
        have := List.length_pos_of_ne_nil hne
        omega
      rw [List.flatMap_append, replace_at_start hne', replace_at_start hne, List.flatMap_append,
        ih _ hlt rfl]
    · cases ts with
      | nil => rfl
      | cons t ts =>
        have hletters := mt hcode.prefix_iff.mp h
        obtain ⟨b, bs, hb⟩ := List.exists_cons_of_ne_nil (hcode.ne_nil t)
        rw [replace_cons h, List.flatMap_cons, List.flatMap_cons, hb]
        rw [List.flatMap_cons, hb, List.cons_append] at hletters
        rw [List.cons_append, replace_cons hletters, replace_append fun x y hxy =>
          not_prefix_tail (x := x) hps (by rw [hb]; exact hxy), ih ts.length (by simp [← hn]) rfl]
        rfl

end IsCode

end TortoiseSvn.Lib.Text
