import Mathlib.Data.List.Nodup
import Mathlib.Data.List.TakeWhile
import Mathlib.Tactic

/-!
# Ordered associative containers

A finite map is the list of its entries in strictly increasing key order, the order in which
an ordered container of a standard library iterates. The order is a field, so an unsorted map
cannot be built. A `Cursor` is such a map opened at one of its entries (an iterator that points
at an element): the entries before it, nearest first, the entry itself and the entries after it.
-/

namespace TortoiseSvn.Lib

/-- Strictly increasing keys. -/
abbrev KeySorted {κ α : Type*} [LT κ] (l : List (κ × α)) : Prop :=
  l.Pairwise fun a b => a.1 < b.1

/-- A finite map: its entries in strictly increasing key order. -/
@[ext] structure SortedMap (κ α : Type*) [LinearOrder κ] where
  /-- The entries, in iteration order. -/
  entries : List (κ × α)
  /-- Keys increase strictly. -/
  sorted : KeySorted entries

namespace SortedMap

variable {κ α : Type*} [LinearOrder κ]

instance [DecidableEq α] : DecidableEq (SortedMap κ α) := fun m n =>
  decidable_of_iff (m.entries = n.entries) SortedMap.ext_iff.symm

/-- The empty map. -/
def empty : SortedMap κ α := ⟨[], List.Pairwise.nil⟩

@[simp] theorem empty_entries : (empty : SortedMap κ α).entries = [] := rfl

/-- The entries with a key below `k`. -/
def before (m : SortedMap κ α) (k : κ) : List (κ × α) :=
  m.entries.takeWhile fun e => decide (e.1 < k)

/-- The entries from the lower bound of `k` on. -/
def onward (m : SortedMap κ α) (k : κ) : List (κ × α) :=
  m.entries.dropWhile fun e => decide (e.1 < k)

theorem before_append_onward (m : SortedMap κ α) (k : κ) :
    m.before k ++ m.onward k = m.entries :=
  List.takeWhile_append_dropWhile

theorem lt_of_mem_before {m : SortedMap κ α} {k : κ} {e : κ × α} (h : e ∈ m.before k) :
    e.1 < k := by
  simpa using List.mem_takeWhile_imp h

theorem onward_sorted (m : SortedMap κ α) (k : κ) : KeySorted (m.onward k) :=
  m.sorted.sublist (List.dropWhile_sublist _)

/-- The lower bound of `k` is the first entry whose key is not below `k`. -/
theorem le_of_mem_onward {m : SortedMap κ α} {k : κ} {e : κ × α} (h : e ∈ m.onward k) :
    k ≤ e.1 := by
  have hs := m.onward_sorted k
  rcases hm : m.onward k with _ | ⟨f, l⟩
  · simp [hm] at h
  · have hne : m.onward k ≠ [] := by simp [hm]
    have hf : k ≤ f.1 := by
      have := List.head_dropWhile_not (fun e : κ × α => decide (e.1 < k)) hne
      simp only [onward] at hm
      simpa [hm] using this
    rw [hm] at h hs
    rcases List.mem_cons.mp h with rfl | hl
    · exact hf
    · exact hf.trans (le_of_lt ((List.pairwise_cons.mp hs).1 e hl))

/-- `m` has no entry with key `k` when its lower bound is not `k`. -/
theorem lt_of_mem_onward {m : SortedMap κ α} {k : κ}
    (hk : ∀ v l, m.onward k ≠ (k, v) :: l) {e : κ × α} (h : e ∈ m.onward k) : k < e.1 := by
  refine lt_of_le_of_ne (le_of_mem_onward h) fun heq => ?_
  have hs := m.onward_sorted k
  rcases hm : m.onward k with _ | ⟨f, l⟩
  · simp [hm] at h
  · rcases List.mem_cons.mp (hm ▸ h) with rfl | hl
    · exact hk e.2 l (by rw [hm, heq])
    · rw [hm] at hs
      have hfk : k ≤ f.1 := le_of_mem_onward (m := m) (by simp [hm])
      exact absurd ((List.pairwise_cons.mp hs).1 e hl) (by rw [← heq]; exact not_lt.mpr hfk)

/-! ### Cursors -/

/-- A map opened at one of its entries. -/
structure Cursor (κ α : Type*) [LinearOrder κ] where
  /-- The entries before the cursor, nearest first. -/
  back : List (κ × α)
  /-- The entry the cursor points at. -/
  cur : κ × α
  /-- The entries after the cursor. -/
  ahead : List (κ × α)
  /-- Keys increase strictly. -/
  sorted : KeySorted (back.reverse ++ cur :: ahead)

/-- The map a cursor points into. -/
def Cursor.toMap (c : Cursor κ α) : SortedMap κ α := ⟨c.back.reverse ++ c.cur :: c.ahead, c.sorted⟩

@[simp] theorem Cursor.toMap_entries (c : Cursor κ α) :
    c.toMap.entries = c.back.reverse ++ c.cur :: c.ahead := rfl

/-- Keys stay sorted when the value under a cursor changes. -/
theorem sorted_of_keys {l₁ l₂ : List (κ × α)} {a b : κ × α} (h : KeySorted (l₁ ++ a :: l₂))
    (hk : b.1 = a.1) : KeySorted (l₁ ++ b :: l₂) := by
  simp only [KeySorted, List.pairwise_append, List.pairwise_cons, List.mem_cons] at h ⊢
  obtain ⟨h₁, ⟨ha, h₂⟩, hc⟩ := h
  refine ⟨h₁, ⟨fun x hx => hk ▸ ha x hx, h₂⟩, fun x hx y hy => ?_⟩
  rcases hy with rfl | hy
  · exact hk ▸ hc x hx a (Or.inl rfl)
  · exact hc x hx y (Or.inr hy)

/-- Overwrite the value under the cursor. -/
def Cursor.setVal (c : Cursor κ α) (v : α) : Cursor κ α :=
  ⟨c.back, (c.cur.1, v), c.ahead, sorted_of_keys c.sorted rfl⟩

/-- Erase the entry under the cursor and step back to the one before it, whose value becomes
`v`; the cursor stays where it is when there is none. -/
def Cursor.eraseToPrev (c : Cursor κ α) (v : α) : Cursor κ α :=
  match h : c.back with
  | [] => c
  | p :: bs => ⟨bs, (p.1, v), c.ahead, by
      have hs := c.sorted
      rw [h, List.reverse_cons, List.append_assoc, List.singleton_append] at hs
      refine sorted_of_keys (a := p) (hs.sublist ?_) rfl
      exact (List.Sublist.refl _).append (((List.sublist_cons_self _ _)).cons_cons p)⟩

theorem Cursor.eraseToPrev_of_back {c : Cursor κ α} {p : κ × α} {bs : List (κ × α)}
    (h : c.back = p :: bs) (v : α) :
    (c.eraseToPrev v).back = bs ∧ (c.eraseToPrev v).cur = (p.1, v) ∧
      (c.eraseToPrev v).ahead = c.ahead := by
  unfold Cursor.eraseToPrev
  split
  · simp_all
  · rename_i p' bs' h'
    obtain ⟨rfl, rfl⟩ := List.cons.inj (h.symm.trans h')
    exact ⟨rfl, rfl, rfl⟩

/-- Erase the entry behind the cursor. -/
def Cursor.eraseNext (c : Cursor κ α) : Cursor κ α :=
  ⟨c.back, c.cur, c.ahead.tail, c.sorted.sublist
    ((List.Sublist.refl _).append ((List.tail_sublist _).cons_cons _))⟩

/-- Insert `(k, v)` unless the key is taken; the cursor points at the entry with key `k`, and
the flag tells whether it was inserted. -/
def emplace (m : SortedMap κ α) (k : κ) (v : α) : Cursor κ α × Bool :=
  match h : m.onward k with
  | [] => (⟨(m.before k).reverse, (k, v), [], by
      rw [List.reverse_reverse]
      have hs : KeySorted (m.before k) := m.sorted.sublist (List.takeWhile_sublist _)
      refine List.pairwise_append.mpr ⟨hs, by simp, fun a ha b hb => ?_⟩
      rw [List.mem_singleton.mp hb]
      exact lt_of_mem_before ha⟩, true)
  | e :: l =>
    if he : e.1 = k then
      (⟨(m.before k).reverse, e, l, by
        rw [List.reverse_reverse, ← h, before_append_onward]
        exact m.sorted⟩, false)
    else
      (⟨(m.before k).reverse, (k, v), e :: l, by
        rw [List.reverse_reverse, ← h]
        have hs := m.sorted
        rw [← m.before_append_onward k] at hs
        obtain ⟨h₁, h₂, h₁₂⟩ := List.pairwise_append.mp hs
        have hlt : ∀ x ∈ m.onward k, k < x.1 := fun x hx =>
          lt_of_mem_onward (fun w l' hw => he (by rw [h] at hw; cases hw; rfl)) hx
        refine List.pairwise_append.mpr ⟨h₁, List.pairwise_cons.mpr ⟨hlt, h₂⟩, ?_⟩
        intro a ha b hb
        rcases List.mem_cons.mp hb with rfl | hb
        · exact lt_of_mem_before ha
        · exact h₁₂ a ha b hb⟩, true)

/-- What `emplace` does: the map is opened where `k` belongs, and either the new entry stands
between its neighbours or the entry that already has key `k` does. -/
theorem emplace_cases (m : SortedMap κ α) (k : κ) (v : α) :
    ∃ c : Cursor κ α,
      (m.emplace k v = (c, true) ∧ c.cur = (k, v) ∧ m.entries = c.back.reverse ++ c.ahead) ∨
      (m.emplace k v = (c, false) ∧ c.cur.1 = k ∧ m.entries = c.toMap.entries) := by
  have hsplit := m.before_append_onward k
  unfold emplace
  split
  · rename_i h
    refine ⟨_, Or.inl ⟨rfl, rfl, ?_⟩⟩
    simp [← hsplit, h]
  · rename_i e l h
    split
    · rename_i he
      refine ⟨_, Or.inr ⟨rfl, he, ?_⟩⟩
      simp [← hsplit, h]
    · refine ⟨_, Or.inl ⟨rfl, rfl, ?_⟩⟩
      simp [← hsplit, h]

/-- `std::map::insert`: keep the entry of a key that is already there. -/
def insert (m : SortedMap κ α) (k : κ) (v : α) : SortedMap κ α := (m.emplace k v).1.toMap

/-- A key behind all others is inserted at the end. -/
theorem insert_entries_of_lt {m : SortedMap κ α} {k : κ} {v : α} (h : ∀ e ∈ m.entries, e.1 < k) :
    (m.insert k v).entries = m.entries ++ [(k, v)] := by
  obtain ⟨c, ⟨he, hcur, hent⟩ | ⟨he, hkey, hent⟩⟩ := m.emplace_cases k v
  · have hahead : c.ahead = [] := by
      refine List.eq_nil_iff_forall_not_mem.mpr fun a ha => ?_
      have hlt : k < a.1 := by
        have := (List.pairwise_cons.mp (List.pairwise_append.mp c.sorted).2.1).1 a ha
        rwa [hcur] at this
      exact absurd (h a (hent ▸ List.mem_append_right _ ha)) (not_lt.mpr hlt.le)
    rw [insert, he, Cursor.toMap_entries, hent, hahead, hcur, List.append_nil]
  · have := h c.cur (by simp [hent])
    exact absurd this (by rw [hkey]; exact lt_irrefl k)

/-- `std::map::operator[]` with an assignment: the entry of the key, new or old, gets the
value. -/
def assign (m : SortedMap κ α) (k : κ) (v : α) : SortedMap κ α :=
  ((m.emplace k v).1.setVal v).toMap

/-- What `assign` does: the entry stands between its neighbours, in the place of the one with
the same key if there was one. -/
theorem assign_cases (m : SortedMap κ α) (k : κ) (v : α) :
    ∃ l₁ l₂, (m.assign k v).entries = l₁ ++ (k, v) :: l₂ ∧
      (m.entries = l₁ ++ l₂ ∨ ∃ w, m.entries = l₁ ++ (k, w) :: l₂) := by
  obtain ⟨c, ⟨he, hcur, hent⟩ | ⟨he, hkey, hent⟩⟩ := m.emplace_cases k v
  · refine ⟨c.back.reverse, c.ahead, ?_, Or.inl hent⟩
    simp [assign, he, Cursor.setVal, hcur]
  · refine ⟨c.back.reverse, c.ahead, ?_, Or.inr ⟨c.cur.2, ?_⟩⟩
    · simp [assign, he, Cursor.setVal, hkey]
    · rw [hent, Cursor.toMap_entries, ← hkey]

/-- The entries after an insertion. -/
theorem mem_of_emplace {m : SortedMap κ α} {k : κ} {v : α} {e : κ × α}
    (h : e ∈ (m.emplace k v).1.toMap.entries) : e = (k, v) ∨ e ∈ m.entries := by
  obtain ⟨c, ⟨he, hcur, hent⟩ | ⟨he, -, hent⟩⟩ := m.emplace_cases k v
  · rw [he, Cursor.toMap_entries, hcur, List.mem_append, List.mem_cons] at h
    rw [hent, List.mem_append]
    tauto
  · rw [he] at h
    exact .inr (hent ▸ h)

/-- The entries after an assignment. -/
theorem mem_of_assign {m : SortedMap κ α} {k : κ} {v : α} {e : κ × α}
    (h : e ∈ (m.assign k v).entries) : e = (k, v) ∨ e ∈ m.entries := by
  obtain ⟨l₁, l₂, he, hm | ⟨w, hm⟩⟩ := m.assign_cases k v
  · rw [he, List.mem_append, List.mem_cons] at h
    rw [hm, List.mem_append]
    tauto
  · rw [he, List.mem_append, List.mem_cons] at h
    rw [hm, List.mem_append, List.mem_cons]
    tauto

/-- The keys after an assignment. -/
theorem mem_keys_assign {m : SortedMap κ α} {k j : κ} {v : α} :
    j ∈ (m.assign k v).entries.map Prod.fst ↔ j = k ∨ j ∈ m.entries.map Prod.fst := by
  obtain ⟨l₁, l₂, he, hm | ⟨w, hm⟩⟩ := m.assign_cases k v
  · rw [he, hm]
    simp only [List.map_append, List.map_cons, List.mem_append, List.mem_cons]
    tauto
  · rw [he, hm]
    simp only [List.map_append, List.map_cons, List.mem_append, List.mem_cons]
    tauto

/-- A new key adds an entry. -/
theorem assign_perm {m : SortedMap κ α} {k : κ} (h : k ∉ m.entries.map Prod.fst) (v : α) :
    (m.assign k v).entries.Perm ((k, v) :: m.entries) := by
  obtain ⟨l₁, l₂, he, hm | ⟨w, hm⟩⟩ := m.assign_cases k v
  · rw [he, hm]
    exact List.perm_middle
  · exact absurd (by simp [hm]) h

/-- A key before all others is inserted at the front. -/
theorem assign_entries_of_lt {m : SortedMap κ α} {k : κ} {v : α}
    (h : ∀ e ∈ m.entries, k < e.1) : (m.assign k v).entries = (k, v) :: m.entries := by
  obtain ⟨l₁, l₂, he, hm | ⟨w, hm⟩⟩ := m.assign_cases k v
  · rcases l₁ with _ | ⟨e, l₁⟩
    · rw [he, hm, List.nil_append, List.nil_append]
    · have hlt : e.1 < k := by
        have hs := (m.assign k v).sorted
        rw [he] at hs
        exact (List.pairwise_cons.mp hs).1 (k, v) (by simp)
      exact absurd (h e (by simp [hm])) (not_lt.mpr hlt.le)
  · exact absurd (h (k, w) (by simp [hm])) (lt_irrefl k)

/-- Assign the listed entries, one after the other. -/
def assignAll (m : SortedMap κ α) (l : List (κ × α)) : SortedMap κ α :=
  l.foldl (fun m e => m.assign e.1 e.2) m

@[simp] theorem assignAll_nil (m : SortedMap κ α) : m.assignAll [] = m := rfl

@[simp] theorem assignAll_cons (m : SortedMap κ α) (e : κ × α) (l : List (κ × α)) :
    m.assignAll (e :: l) = (m.assign e.1 e.2).assignAll l := rfl

theorem assignAll_concat (m : SortedMap κ α) (l : List (κ × α)) (e : κ × α) :
    m.assignAll (l ++ [e]) = (m.assignAll l).assign e.1 e.2 := by
  simp [assignAll]

theorem mem_keys_assignAll {m : SortedMap κ α} {l : List (κ × α)} {j : κ} :
    j ∈ (m.assignAll l).entries.map Prod.fst ↔
      j ∈ l.map Prod.fst ∨ j ∈ m.entries.map Prod.fst := by
  induction l generalizing m with
  | nil => simp
  | cons e l ih =>
    rw [assignAll_cons, ih, mem_keys_assign, List.map_cons, List.mem_cons]
    tauto

/-- An assigned map holds assigned entries and old ones. -/
theorem mem_assignAll {m : SortedMap κ α} {l : List (κ × α)} {e : κ × α}
    (h : e ∈ (m.assignAll l).entries) : e ∈ l ∨ e ∈ m.entries := by
  induction l generalizing m with
  | nil => exact Or.inr h
  | cons f l ih =>
    rcases ih h with hl | hf
    · exact Or.inl (List.mem_cons_of_mem _ hl)
    · rcases mem_of_assign hf with rfl | hmem
      · exact Or.inl (List.mem_cons_self ..)
      · exact Or.inr hmem

/-- Entries in ascending order, assigned from the last to the first, are the entries. -/
theorem assignAll_reverse_entries {l : List (κ × α)} (h : (l.map Prod.fst).Pairwise (· < ·)) :
    (empty.assignAll l.reverse).entries = l := by
  induction l with
  | nil => rfl
  | cons e l ih =>
    rw [List.map_cons, List.pairwise_cons] at h
    rw [List.reverse_cons, assignAll_concat, assign_entries_of_lt, ih h.2]
    rw [ih h.2]
    exact fun f hf => h.1 f.1 (List.mem_map_of_mem hf)

/-- A map from a list of entries, inserted one by one. -/
def ofList (l : List (κ × α)) : SortedMap κ α := l.foldl (fun m e => m.insert e.1 e.2) empty

/-- The entries of a map, inserted one by one, give the map back. -/
theorem ofList_entries (m : SortedMap κ α) : ofList m.entries = m := by
  have key : ∀ l : List (κ × α), KeySorted l → (ofList l).entries = l := by
    intro l
    induction l using List.reverseRecOn with
    | nil => exact fun _ => rfl
    | append_singleton l e ih =>
      intro hl
      obtain ⟨h₁, -, h₁₂⟩ := List.pairwise_append.mp hl
      have hfold : ofList (l ++ [e]) = (ofList l).insert e.1 e.2 := by simp [ofList]
      rw [hfold, insert_entries_of_lt, ih h₁]
      rw [ih h₁]
      exact fun a ha => h₁₂ a ha e (by simp)
  exact SortedMap.ext (key _ m.sorted)

/-! ### Looking up and erasing -/

/-- `std::map::find`. -/
def find (m : SortedMap κ α) (k : κ) : Option α :=
  (m.entries.find? fun e => e.1 = k).map Prod.snd

/-- `std::map::erase`. -/
def erase (m : SortedMap κ α) (k : κ) : SortedMap κ α :=
  ⟨m.entries.filter fun e => e.1 ≠ k, m.sorted.sublist List.filter_sublist⟩

theorem nodup_keys (m : SortedMap κ α) : (m.entries.map Prod.fst).Nodup :=
  List.pairwise_map.mpr (m.sorted.imp fun h => ne_of_lt h)

theorem find_eq_some_iff {m : SortedMap κ α} {k : κ} {v : α} :
    m.find k = some v ↔ (k, v) ∈ m.entries := by
  rw [find, Option.map_eq_some_iff]
  constructor
  · rintro ⟨e, he, rfl⟩
    have hkey : e.1 = k := by simpa using List.find?_some he
    rw [← hkey]
    exact List.mem_of_find?_eq_some he
  · intro hmem
    cases hfind : m.entries.find? fun e => e.1 = k with
    | none => exact absurd (List.find?_eq_none.mp hfind (k, v) hmem) (by simp)
    | some e =>
      have hkey : e.1 = k := by simpa using List.find?_some hfind
      have he : e = (k, v) :=
        List.inj_on_of_nodup_map m.nodup_keys (List.mem_of_find?_eq_some hfind) hmem hkey
      exact ⟨e, rfl, congrArg Prod.snd he⟩

theorem find_eq_none_iff {m : SortedMap κ α} {k : κ} :
    m.find k = none ↔ k ∉ m.entries.map Prod.fst := by
  rw [Option.eq_none_iff_forall_ne_some]
  constructor
  · rintro h hmem
    obtain ⟨⟨j, v⟩, he, rfl⟩ := List.mem_map.mp hmem
    exact h v (find_eq_some_iff.mpr he)
  · intro h v hv
    exact h (List.mem_map_of_mem (find_eq_some_iff.mp hv))

@[simp] theorem empty_find : (empty : SortedMap κ α).find = fun _ => none := rfl

/-- Maps with the same entries up to a key find the same, up to that key. -/
theorem find_eq_update {m n : SortedMap κ α} {k : κ} {o : Option α}
    (hk : ∀ v, (k, v) ∈ n.entries ↔ o = some v)
    (hne : ∀ j v, j ≠ k → ((j, v) ∈ n.entries ↔ (j, v) ∈ m.entries)) :
    n.find = Function.update m.find k o := by
  funext j
  apply Option.ext
  intro v
  by_cases hj : j = k
  · subst hj
    rw [Function.update_self, find_eq_some_iff, hk]
  · rw [Function.update_of_ne hj, find_eq_some_iff, find_eq_some_iff, hne j v hj]

/-- The lower bound of a key is its own entry, or the key has none. -/
theorem head?_onward_cases (m : SortedMap κ α) (k : κ) :
    (∃ v, m.find k = some v ∧ (m.onward k).head? = some (k, v)) ∨
      m.find k = none ∧ ∀ e, (m.onward k).head? = some e → k < e.1 := by
  by_cases hk : ∃ v l, m.onward k = (k, v) :: l
  · obtain ⟨v, l, hv⟩ := hk
    refine .inl ⟨v, find_eq_some_iff.mpr ?_, by rw [hv]; rfl⟩
    rw [← m.before_append_onward k, hv]
    simp
  · push Not at hk
    refine .inr ⟨find_eq_none_iff.mpr fun hmem => ?_, fun e he =>
      lt_of_mem_onward hk (List.mem_of_head? he)⟩
    obtain ⟨e, he, heq⟩ := List.mem_map.mp hmem
    rw [← m.before_append_onward k] at he
    rcases List.mem_append.mp he with hbefore | honward
    · exact (lt_of_mem_before hbefore).ne heq
    · exact (lt_of_mem_onward hk honward).ne' heq

/-- An entry that is there is kept. -/
theorem emplace_of_find {m : SortedMap κ α} {k : κ} {w : α} (h : m.find k = some w) (v : α) :
    (m.emplace k v).1.toMap = m ∧ (m.emplace k v).1.cur = (k, w) := by
  have hmem := find_eq_some_iff.mp h
  obtain ⟨c, ⟨-, hcur, hent⟩ | ⟨he, hkey, hent⟩⟩ := m.emplace_cases k v
  · obtain ⟨-, hahead, hback⟩ := List.pairwise_append.mp c.sorted
    rw [hcur] at hahead hback
    rw [hent] at hmem
    rcases List.mem_append.mp hmem with hm | hm
    · exact absurd (hback _ hm _ (List.mem_cons_self ..)) (lt_irrefl k)
    · exact absurd ((List.pairwise_cons.mp hahead).1 _ hm) (lt_irrefl k)
  · have hin : c.cur ∈ m.entries := by simp [hent]
    rw [he]
    exact ⟨SortedMap.ext hent.symm, List.inj_on_of_nodup_map m.nodup_keys hin hmem hkey⟩

/-- Without one there is a new entry. -/
theorem emplace_of_not_find {m : SortedMap κ α} {k : κ} (h : m.find k = none) (v : α) :
    (m.emplace k v).1.cur = (k, v) := by
  obtain ⟨c, ⟨he, hcur, -⟩ | ⟨-, hkey, hent⟩⟩ := m.emplace_cases k v
  · rw [he]
    exact hcur
  · refine absurd ?_ (find_eq_none_iff.mp h)
    rw [← hkey, hent]
    exact List.mem_map_of_mem (by simp)

theorem find_assign (m : SortedMap κ α) (k : κ) (v : α) :
    (m.assign k v).find = Function.update m.find k (some v) := by
  have hnodup := (m.assign k v).nodup_keys
  obtain ⟨l₁, l₂, he, hm⟩ := m.assign_cases k v
  have hmem : (k, v) ∈ (m.assign k v).entries := by simp [he]
  apply find_eq_update
  · intro w
    constructor
    · intro hw
      exact congrArg (some ·.2) (List.inj_on_of_nodup_map hnodup hmem hw rfl)
    · intro hw
      rwa [← Option.some.inj hw]
  · intro j w hj
    have hne : (j, w) ≠ (k, v) := fun heq => hj (congrArg Prod.fst heq)
    rcases hm with hm | ⟨u, hm⟩
    · rw [he, hm, List.mem_append, List.mem_append, List.mem_cons, or_iff_right hne]
    · have hne' : (j, w) ≠ (k, u) := fun heq => hj (congrArg Prod.fst heq)
      rw [he, hm, List.mem_append, List.mem_append, List.mem_cons, List.mem_cons,
        or_iff_right hne, or_iff_right hne']

/-- A new key is inserted as it is assigned. -/
theorem insert_eq_assign {m : SortedMap κ α} {k : κ} (h : m.find k = none) (v : α) :
    m.insert k v = m.assign k v := by
  obtain ⟨c, ⟨he, hcur, -⟩ | ⟨he, hkey, hent⟩⟩ := m.emplace_cases k v
  · apply SortedMap.ext
    simp [insert, assign, he, Cursor.setVal, hcur]
  · refine absurd ?_ (find_eq_none_iff.mp h)
    rw [← hkey, hent]
    exact List.mem_map_of_mem (by simp)

/-- An inserted key keeps the value that it has. -/
theorem find_insert (m : SortedMap κ α) (k : κ) (v : α) :
    (m.insert k v).find = Function.update m.find k (some ((m.find k).getD v)) := by
  cases h : m.find k with
  | none =>
    rw [insert_eq_assign h, find_assign]
    rfl
  | some w =>
    rw [insert, (emplace_of_find h v).1, Option.getD_some, ← h, Function.update_eq_self]

theorem find_insert_self (m : SortedMap κ α) (k : κ) (v : α) :
    (m.insert k v).find k = some ((m.find k).getD v) := by
  rw [find_insert, Function.update_self]

theorem find_insert_of_ne {m : SortedMap κ α} {j k : κ} (h : j ≠ k) (v : α) :
    (m.insert k v).find j = m.find j := by
  rw [find_insert, Function.update_of_ne h]

theorem find_erase (m : SortedMap κ α) (k : κ) :
    (m.erase k).find = Function.update m.find k none := by
  apply find_eq_update
  · intro v
    simp [erase]
  · intro j v hj
    simp [erase, hj]

end SortedMap

end TortoiseSvn.Lib
