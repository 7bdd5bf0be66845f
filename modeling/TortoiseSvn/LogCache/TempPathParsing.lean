import TortoiseSvn.LogCache.TempPathLookup

/-!
# Parsing paths that are partly in the dictionary

After the first element that is not cached, the lookup goes on with `NO_INDEX` as the parent. The
root is stored as the pair of `NO_INDEX` and the empty string, so the next empty element, which
stands between two slashes or behind the last one, leads back to the root: what follows it is looked
up there, and what was cached before is lost.

Main result: `parsedWell_iff`.
-/

namespace TortoiseSvn.LogCache

open TortoiseSvn.Lib

namespace CPathDictionary

/-! ### Dictionaries of canonical paths -/

/-- The dictionaries to which canonical paths were added. -/
inductive CanonicallyBuilt : CPathDictionary → Prop
  | init : CanonicallyBuilt init
  | parsePath {d : CPathDictionary} {es : List (List UInt8)} : CanonicallyBuilt d → Canonical es →
    CanonicallyBuilt (d.parsePath (canonicalPath es)).1

/-- What holds of the names of all paths. -/
def AllNamed (d : CPathDictionary) (P : List (List UInt8) → Prop) : Prop := ∀ i ns, d.Named i ns → P ns

section Canonicity

variable {d d' : CPathDictionary} {i k : ℕ} {ns ms es : List (List UInt8)} {e : List UInt8}

theorem init_named (h : init.Named i ns) : ns = [] := by
  obtain rfl : i = 0 := Nat.lt_one_iff.mp (h.lt_size .init)
  exact h.unique .root

/-- A path that was added is the only new one. -/
theorem Built.named_insert (h : d.Built) (hi : d.Named i ns) (he : (0 : UInt8) ∉ e)
    (hfind : d.find i e = none) (hk : (d.insert i e).1.Named k ms) :
    d.Named k ms ∨ ms = ns ++ [e] := by
  obtain ⟨hbuilt, hext, hnew⟩ := h.insert hi he hfind
  have hlt := hk.lt_size hbuilt
  have hsize : (d.insert i e).1.size = d.size + 1 := List.length_append
  rcases Nat.lt_or_ge k d.size with hk' | hk'
  · obtain ⟨ms', hms'⟩ := h.exists_named hk'
    rw [hk.unique (hms'.extends h hext)]
    exact .inl hms'
  · obtain rfl : k = (d.insert i e).2 := by
      show k = d.size
      omega
    exact .inr (hk.unique hnew)

/-- What is new lies above the path that was added. -/
theorem Built.named_descend (h : d.Built) (hi : d.Named i ns) (hes : CStringDictionary.NulFree es)
    (hk : (d.descend i es).1.Named k ms) : d.Named k ms ∨ ms <+: ns ++ es := by
  induction es generalizing d i ns with
  | nil => exact .inl hk
  | cons e rest ih =>
    obtain ⟨he, hrest⟩ := List.forall_mem_cons.mp hes
    rw [CPathDictionary.descend] at hk
    rw [List.append_cons]
    cases hfind : d.find i e with
    | some j =>
      rw [hfind] at hk
      exact ih h (h.named_of_find hi hfind) hrest hk
    | none =>
      rw [hfind] at hk
      obtain ⟨hbuilt, -, hnew⟩ := h.insert hi he hfind
      rcases ih hbuilt hnew hrest hk with hk | hk
      · rcases h.named_insert hi he hfind hk with hk | rfl
        · exact .inl hk
        · exact .inr (List.prefix_append _ _)
      · exact .inr hk

theorem Built.named_parsePath (h : d.Built) {path : List UInt8}
    (hk : (d.parsePath path).1.Named k ms) : d.Named k ms ∨ ms <+: namesOf path := by
  unfold CPathDictionary.parsePath at hk
  unfold namesOf
  split at hk
  · exact .inl hk
  · rename_i hpath
    rw [if_neg hpath]
    exact h.named_descend .root (nulFree_elementsOf path) hk

theorem CanonicallyBuilt.grows (h : CanonicallyBuilt d) : Grows CPathDictionary.init d := by
  induction h with
  | init => exact .refl
  | parsePath _ _ ih => exact .parsePath ih

theorem CanonicallyBuilt.built (h : CanonicallyBuilt d) : d.Built := (Built.init.grows h.grows).1

/-- The paths of such a dictionary have names only, and are not too long. -/
theorem CanonicallyBuilt.allNamed (h : CanonicallyBuilt d) :
    d.AllNamed fun ns => PathNames ns ∧ ns.length ≤ maxPath := by
  induction h with
  | init =>
    intro i ns hi
    rw [init_named hi]
    exact ⟨fun e he => absurd he List.not_mem_nil, Nat.zero_le _⟩
  | @parsePath d es hd hes ih =>
    intro i ns hi
    rcases hd.built.named_parsePath hi with hi | hpre
    · exact ih i ns hi
    · rw [hes.names.namesOf hes.nonempty] at hpre
      exact ⟨fun e he => hes.names e (hpre.subset he), hpre.length_le.trans hes.short⟩

/-- An empty name is not found below a path. -/
theorem Built.find_nil (h : d.Built) (hall : d.AllNamed PathNames) (hi : d.Named i ns) :
    d.find i [] = none := by
  rw [h.find_eq_none hi]
  intro k hk
  exact (hall k _ hk [] (List.mem_append_right _ (List.mem_singleton_self _))).1 rfl

/-- Below `NO_INDEX` there is the root only, under the empty name. -/
theorem Built.find_top (h : d.Built) (hinit : CPathDictionary.init.Extends d) (e : List UInt8) :
    d.find ⊤ e = if e = [] then some 0 else none := by
  have hget : d.pathElements.get 0 = [] := hinit.elements.get 0 (by decide)
  have hsize : 0 < d.pathElements.size := Nat.lt_of_lt_of_le (by decide) hinit.elements.size
  obtain ⟨rest, hpaths⟩ := hinit.paths
  have hroot : d.paths[0]? = some (⊤, ((0 : ℕ) : Index)) := by
    rw [← hpaths]
    rfl
  unfold CPathDictionary.find
  cases hfind : d.pathElements.find e with
  | none =>
    rw [if_neg]
    rintro rfl
    exact List.find?_eq_none.mp hfind 0 (List.mem_range.mpr hsize) (decide_eq_true hget)
  | some element =>
    obtain ⟨hlt, rfl⟩ := h.pool.find hfind
    dsimp only
    split
    · rename_i hnil
      obtain rfl := h.pool.get_inj hlt hsize (hnil.trans hget.symm)
      exact Pool.find_of_getElem? h.nodup hroot
    · rename_i hne
      refine Pool.find_eq_none.mpr fun hmem => hne ?_
      obtain ⟨k, hk⟩ := List.mem_iff_getElem?.mp hmem
      rcases Nat.eq_zero_or_pos k with rfl | hpos
      · obtain ⟨-, helement⟩ := Prod.mk.inj (Option.some.inj (hroot.symm.trans hk))
        rw [← Nat.cast_injective (R := Index) helement]
        exact hget
      · obtain ⟨j, hj, -⟩ := h.tree.parent k _ hpos hk
        exact absurd hj.symm (WithTop.natCast_ne_top j)

end Canonicity

/-! ### The lookup of the elements -/

/-- The index and the text that the elements lead to, from an index that the lookup goes on from or,
when it is not `cached`, behind an element that was not found. -/
def walk (d : CPathDictionary) : ℕ → Bool → List (List UInt8) → ℕ × List (List UInt8)
  | i, _, [] => (i, [])
  | i, true, e :: es =>
    match d.find (i : Index) e with
    | some k => walk d k true es
    | none => ((walk d i false es).1, e :: (walk d i false es).2)
  | i, false, e :: es =>
    if e = [] then walk d 0 true es else ((walk d i false es).1, e :: (walk d i false es).2)

section Walk

variable {d : CPathDictionary} {i k : ℕ} {ns es : List (List UInt8)} {e : List UInt8}

/-- The walk is what `ParsePath` does. -/
theorem Built.parseElements_walk (h : d.Built) (hinit : CPathDictionary.init.Extends d) (i : ℕ) (cached : Bool)
    (rel es : List (List UInt8)) : ∃ current,
      parseElements false true ⟨d, (i : Index), rel, if cached then (i : Index) else ⊤⟩ es =
        ⟨d, ((d.walk i cached es).1 : Index), rel ++ (d.walk i cached es).2, current⟩ := by
  induction es generalizing i cached rel with
  | nil => exact ⟨_, by rw [parseElements, walk, List.append_nil]⟩
  | cons e es ih =>
    rw [parseElements, parseElement]
    cases cached with
    | true =>
      rw [walk]
      dsimp only
      rw [if_pos rfl]
      cases hfind : d.find (i : Index) e with
      | some k => exact ih k true rel
      | none =>
        obtain ⟨current, hrest⟩ := ih i false (rel ++ [e])
        refine ⟨current, hrest.trans ?_⟩
        rw [List.append_assoc, List.singleton_append]
    | false =>
      rw [walk]
      dsimp only
      rw [if_neg Bool.false_ne_true, h.find_top hinit]
      by_cases he : e = []
      · rw [if_pos he, if_pos he]
        exact ih 0 true rel
      · rw [if_neg he, if_neg he]
        obtain ⟨current, hrest⟩ := ih i false (rel ++ [e])
        refine ⟨current, hrest.trans ?_⟩
        rw [List.append_assoc, List.singleton_append]

theorem Built.tempPath_eq (h : d.Built) (hinit : CPathDictionary.init.Extends d) (path : List UInt8) :
    CDictionaryBasedTempPath.tempPath d path =
      ⟨((d.walk 0 true (namesOf path)).1 : Index), (d.walk 0 true (namesOf path)).2⟩ := by
  unfold CDictionaryBasedTempPath.tempPath parse namesOf
  split
  · rfl
  · obtain ⟨current, hrun⟩ := h.parseElements_walk hinit 0 true [] (elementsOf path)
    rw [if_pos rfl] at hrun
    rw [hrun]
    rfl

/-- The text is made of elements, in their order. -/
theorem walk_sublist (i : ℕ) (cached : Bool) (es : List (List UInt8)) :
    (d.walk i cached es).2.Sublist es := by
  induction es generalizing i cached with
  | nil => cases cached <;> exact List.Sublist.slnil
  | cons e es ih =>
    cases cached with
    | true =>
      rw [walk]
      cases d.find (i : Index) e with
      | some k => exact (ih k true).cons e
      | none => exact (ih i false).cons_cons e
    | false =>
      rw [walk]
      split
      · exact (ih 0 true).cons e
      · exact (ih i false).cons_cons e

/-- Nothing is gained: the names and the text of the result do not weigh more than what they were
made from. -/
theorem Built.walk_total (h : d.Built) (w : List UInt8 → ℕ) (hi : d.Named i ns) (cached : Bool)
    (es : List (List UInt8)) : ∃ P, d.Named (d.walk i cached es).1 P ∧
      (P.map w).sum + ((d.walk i cached es).2.map w).sum ≤ (ns.map w).sum + (es.map w).sum := by
  induction es generalizing i ns cached with
  | nil => cases cached <;> exact ⟨ns, hi, le_rfl⟩
  | cons e es ih =>
    rw [List.map_cons, List.sum_cons]
    -- an element that is kept as text
    have hkept : ∃ P, d.Named (d.walk i false es).1 P ∧
        (P.map w).sum + ((e :: (d.walk i false es).2).map w).sum ≤
          (ns.map w).sum + (w e + (es.map w).sum) := by
      obtain ⟨P, hP, hle⟩ := ih hi false
      refine ⟨P, hP, ?_⟩
      rw [List.map_cons, List.sum_cons]
      omega
    cases cached with
    | true =>
      rw [walk]
      cases hfind : d.find (i : Index) e with
      | some k =>
        obtain ⟨P, hP, hle⟩ := ih (h.named_of_find hi hfind) true
        refine ⟨P, hP, hle.trans ?_⟩
        rw [List.map_append, List.sum_append, List.map_singleton, List.sum_singleton]
        omega
      | none => exact hkept
    | false =>
      rw [walk]
      split
      · obtain ⟨P, hP, hle⟩ := ih .root true
        refine ⟨P, hP, hle.trans ?_⟩
        rw [List.map_nil, List.sum_nil]
        omega
      · exact hkept

/-- How many elements are names. -/
def nameCount (es : List (List UInt8)) : ℕ := (es.map fun e => if e = [] then 0 else 1).sum

@[simp] theorem nameCount_nil : nameCount [] = 0 := rfl

@[simp] theorem nameCount_empty (es : List (List UInt8)) : nameCount ([] :: es) = nameCount es :=
  Nat.zero_add _

theorem nameCount_cons (he : e ≠ []) (es : List (List UInt8)) :
    nameCount (e :: es) = nameCount es + 1 := by
  rw [nameCount, List.map_cons, List.sum_cons, if_neg he, Nat.add_comm]
  rfl

theorem nameCount_append (es fs : List (List UInt8)) :
    nameCount (es ++ fs) = nameCount es + nameCount fs := by
  rw [nameCount, List.map_append, List.sum_append]
  rfl

theorem nameCount_eq (es : List (List UInt8)) :
    nameCount es = (es.filter fun e => e ≠ []).length := by
  induction es with
  | nil => rfl
  | cons e es ih =>
    by_cases he : e = []
    · rw [he, nameCount_empty, ih]
      rfl
    · rw [nameCount_cons he, ih, List.filter_cons_of_pos (by simpa using he), List.length_cons]

/-- From below the root, an empty element costs the names that were found or stays in the text. -/
theorem Built.walk_loses (h : d.Built) (hall : d.AllNamed PathNames) (hi : d.Named i ns)
    (hne : ns ≠ []) (cached : Bool) (es : List (List UInt8)) :
    ∃ P, d.Named (d.walk i cached es).1 P ∧
      (nameCount P + nameCount (d.walk i cached es).2 < nameCount ns + nameCount es ∨
        P ≠ [] ∧ ([] ∈ es → [] ∈ (d.walk i cached es).2)) := by
  induction es generalizing i ns cached with
  | nil => cases cached <;> exact ⟨ns, hi, .inr ⟨hne, id⟩⟩
  | cons e es ih =>
    have hkept : ∃ P, d.Named (d.walk i false es).1 P ∧
        (nameCount P + nameCount (e :: (d.walk i false es).2) < nameCount ns + nameCount (e :: es) ∨
          P ≠ [] ∧ ([] ∈ e :: es → [] ∈ e :: (d.walk i false es).2)) := by
      obtain ⟨P, hP, hlt | ⟨hPne, hmem⟩⟩ := ih hi hne false
      · refine ⟨P, hP, .inl ?_⟩
        by_cases he : e = []
        · rw [he, nameCount_empty, nameCount_empty]
          exact hlt
        · rw [nameCount_cons he, nameCount_cons he]
          omega
      · refine ⟨P, hP, .inr ⟨hPne, fun hin => ?_⟩⟩
        rcases List.mem_cons.mp hin with rfl | hin
        · exact List.mem_cons_self
        · exact List.mem_cons_of_mem _ (hmem hin)
    cases cached with
    | true =>
      rw [walk]
      cases hfind : d.find (i : Index) e with
      | some k =>
        have hk := h.named_of_find hi hfind
        have he : e ≠ [] := (hall k _ hk e (List.mem_append_right _ (List.mem_singleton_self e))).1
        obtain ⟨P, hP, hout⟩ := ih hk (List.append_ne_nil_of_left_ne_nil hne _) true
        dsimp only
        refine ⟨P, hP, hout.imp (fun hlt => ?_) fun ⟨hPne, hmem⟩ => ⟨hPne, fun hin => hmem ?_⟩⟩
        · rw [nameCount_append, nameCount_cons he, nameCount_nil] at hlt
          rw [nameCount_cons he]
          omega
        · exact (List.mem_cons.mp hin).resolve_left (Ne.symm he)
      | none => exact hkept
    | false =>
      rw [walk]
      split
      · -- back to the root, without what was found
        rename_i he
        obtain ⟨P, hP, hle⟩ := h.walk_total (fun e => if e = [] then 0 else 1) .root true es
        refine ⟨P, hP, .inl (Nat.lt_of_le_of_lt hle ?_)⟩
        obtain ⟨s, rest, rfl⟩ := List.exists_cons_of_ne_nil hne
        have hs := (hall i _ hi s List.mem_cons_self).1
        rw [he, nameCount_empty, nameCount_cons hs, List.map_nil, List.sum_nil]
        show 0 + nameCount es < _
        omega
      · exact hkept

/-! ### Walks that find nothing -/

/-- A name that no child of the root has. -/
def Fresh (d : CPathDictionary) (e : List UInt8) : Prop := e ≠ [] ∧ d.find (0 : ℕ) e = none

/-- The walk has found nothing and has kept all names, with no empty element among them. -/
def KeepsNames (d : CPathDictionary) (cached : Bool) (es : List (List UInt8)) : Prop :=
  (d.walk 0 cached es).1 = 0 ∧ [] ∉ (d.walk 0 cached es).2 ∧
    nameCount (d.walk 0 cached es).2 = nameCount es

/-- What is behind an empty element, if there is anything, must be new. -/
def Spaced (d : CPathDictionary) (es : List (List UInt8)) : Prop :=
  es.IsChain fun e e' => e = [] → d.Fresh e'

theorem keepsNames_cons (he : e ≠ []) (hwalk : d.walk 0 cached (e :: es) =
      ((d.walk 0 false es).1, e :: (d.walk 0 false es).2)) :
    d.KeepsNames cached (e :: es) ↔ d.KeepsNames false es := by
  unfold KeepsNames
  rw [hwalk]
  dsimp only
  rw [nameCount_cons he, nameCount_cons he, List.mem_cons, Nat.add_right_cancel_iff, not_or]
  exact ⟨fun ⟨h0, ⟨_, hmem⟩, hcount⟩ => ⟨h0, hmem, hcount⟩,
    fun ⟨h0, hmem, hcount⟩ => ⟨h0, ⟨Ne.symm he, hmem⟩, hcount⟩⟩

theorem spaced_cons (e : List UInt8) (es : List (List UInt8)) :
    d.Spaced (e :: es) ↔ (e = [] → ∀ e' ∈ es.head?, d.Fresh e') ∧ d.Spaced es := by
  unfold Spaced
  rw [List.isChain_cons]
  exact and_congr_left fun _ => ⟨fun h he e' he' => h e' he' he, fun h e' he' he => h he e' he'⟩

/-- Behind the first name: the walk finds nothing iff what is looked up is new. -/
theorem Built.keepsNames_iff (h : d.Built) (hall : d.AllNamed PathNames) (es : List (List UInt8)) :
    (d.KeepsNames false es ↔ d.Spaced es) ∧
      (d.KeepsNames true es ↔ (∀ e ∈ es.head?, d.Fresh e) ∧ d.Spaced es) := by
  induction es with
  | nil =>
    refine ⟨iff_of_true ⟨rfl, List.not_mem_nil, rfl⟩ .nil, iff_of_true ⟨rfl, List.not_mem_nil, rfl⟩
      ⟨fun e he => absurd he (by simp), .nil⟩⟩
  | cons e es ih =>
    rw [spaced_cons]
    by_cases he : e = []
    · subst he
      constructor
      · have hwalk : d.walk 0 false ([] :: es) = d.walk 0 true es := by rw [walk, if_pos rfl]
        have hkeeps : d.KeepsNames false ([] :: es) ↔ d.KeepsNames true es := by
          unfold KeepsNames
          rw [hwalk, nameCount_empty]
        rw [hkeeps, ih.2]
        exact and_congr_left fun _ => ⟨fun hfresh _ => hfresh, fun hfresh => hfresh rfl⟩
      · refine iff_of_false (fun hkeeps => hkeeps.2.1 ?_) fun hfresh => (hfresh.1 [] rfl).1 rfl
        rw [walk, h.find_nil hall .root]
        exact List.mem_cons_self
    · constructor
      · rw [keepsNames_cons he (by rw [walk, if_neg he]), ih.1]
        exact ⟨fun hs => ⟨fun h0 => absurd h0 he, hs⟩, And.right⟩
      · cases hfind : d.find ((0 : ℕ) : Index) e with
        | none =>
          rw [keepsNames_cons he (by rw [walk, hfind]), ih.1]
          refine ⟨fun hs => ⟨?_, fun h0 => absurd h0 he, hs⟩, fun hs => hs.2.2⟩
          intro e' he'
          rw [← Option.some.inj he']
          exact ⟨he, hfind⟩
        | some k =>
          refine iff_of_false (fun hkeeps => ?_) fun hfresh => ?_
          · -- what was found is lost, or the walk ends below the root
            obtain ⟨h0, hmem, hcount⟩ := hkeeps
            have hk := h.named_of_find .root hfind
            obtain ⟨P, hP, hout⟩ := h.walk_loses hall hk (List.cons_ne_nil _ _) true es
            rw [walk, hfind] at h0 hcount
            dsimp only at h0 hcount
            rw [h0] at hP
            obtain rfl := hP.unique .root
            rcases hout with hlt | ⟨hne, -⟩
            · rw [hcount, List.nil_append, nameCount_cons he, nameCount_cons he] at hlt
              simp at hlt
              omega
            · exact hne rfl
          · rw [(hfresh.1 e rfl).2] at hfind
            exact nomatch hfind

/-- The elements from the first name on. -/
def fromFirstName (es : List (List UInt8)) : List (List UInt8) := es.dropWhile fun e => e = []

@[simp] theorem fromFirstName_empty (es : List (List UInt8)) :
    fromFirstName ([] :: es) = fromFirstName es := List.dropWhile_cons_of_pos (by simp)

theorem fromFirstName_cons (he : e ≠ []) (es : List (List UInt8)) :
    fromFirstName (e :: es) = e :: es := List.dropWhile_cons_of_neg (by simpa using he)

/-- The elements can be parsed one by one behind the root: the first name is new, and so is whatever
is behind an empty element. -/
def Scattered (d : CPathDictionary) (es : List (List UInt8)) : Prop :=
  (∀ e ∈ es.head?, d.find (0 : ℕ) e = none) ∧ d.Spaced es

/-- Empty elements in front of the first name do no harm. -/
theorem Built.scattered_iff (h : d.Built) (hall : d.AllNamed PathNames) (cached : Bool)
    (es : List (List UInt8)) :
    d.Scattered (fromFirstName es) ↔
      (d.walk 0 cached es).1 = 0 ∧ [] ∉ fromFirstName (d.walk 0 cached es).2 ∧
        nameCount (d.walk 0 cached es).2 = nameCount es ∧
        ∀ e ∈ (fromFirstName es).head?, d.find (0 : ℕ) e = none := by
  induction es generalizing cached with
  | nil =>
    have hnone : ∀ e ∈ (fromFirstName ([] : List (List UInt8))).head?, d.find (0 : ℕ) e = none :=
      fun e he => absurd he (by simp [fromFirstName])
    cases cached <;> exact iff_of_true ⟨hnone, .nil⟩ ⟨rfl, List.not_mem_nil, rfl, hnone⟩
  | cons e es ih =>
    by_cases he : e = []
    · subst he
      rw [fromFirstName_empty, nameCount_empty]
      cases cached with
      | true =>
        have hwalk : d.walk 0 true ([] :: es) =
            ((d.walk 0 false es).1, [] :: (d.walk 0 false es).2) := by
          rw [walk, h.find_nil hall .root]
        rw [hwalk, fromFirstName_empty, nameCount_empty]
        exact ih false
      | false =>
        have hwalk : d.walk 0 false ([] :: es) = d.walk 0 true es := by rw [walk, if_pos rfl]
        rw [hwalk]
        exact ih true
    · rw [fromFirstName_cons he]
      -- from the first name on, nothing may be found
      have hkept : d.find ((0 : ℕ) : Index) e = none → d.walk 0 cached (e :: es) =
          ((d.walk 0 false es).1, e :: (d.walk 0 false es).2) := by
        intro hfind
        cases cached with
        | true => rw [walk, hfind]
        | false => rw [walk, if_neg he]
      unfold Scattered
      rw [← and_assoc, ← and_assoc, and_comm]
      refine and_congr_left fun hhead => ?_
      have hfind := hhead e rfl
      rw [hkept hfind, fromFirstName_cons he, and_assoc]
      have hkeeps := keepsNames_cons he (hkept hfind)
      unfold KeepsNames at hkeeps
      rw [hkept hfind] at hkeeps
      rw [hkeeps, ← KeepsNames, (h.keepsNames_iff hall es).1, spaced_cons]
      exact ⟨And.right, fun hs => ⟨fun h0 => absurd h0 he, hs⟩⟩

/-- Behind an element that is not cached, names are kept as text. -/
theorem walk_uncached (hes : ∀ e ∈ es, e ≠ []) (i : ℕ) : d.walk i false es = (i, es) := by
  induction es with
  | nil => rfl
  | cons e es ih =>
    obtain ⟨he, hes⟩ := List.forall_mem_cons.mp hes
    rw [walk, if_neg he, ih hes]

/-- Without empty elements, the walk is the lookup of one element after the other. -/
theorem walk_of_names (hes : ∀ e ∈ es, e ≠ []) (hnul : CStringDictionary.NulFree es) (i : ℕ) :
    (((d.walk i true es).1 : Index), (d.walk i true es).2) =
      CDictionaryBasedTempPath.lookupLoop d (i : Index) es := by
  induction es generalizing i with
  | nil => rfl
  | cons e es ih =>
    obtain ⟨-, hes⟩ := List.forall_mem_cons.mp hes
    obtain ⟨he, hnul⟩ := List.forall_mem_cons.mp hnul
    rw [walk, CDictionaryBasedTempPath.lookupLoop, CDictionaryBasedTempPath.cString_eq he]
    cases d.find (i : Index) e with
    | some k => exact ih hes hnul k
    | none =>
      dsimp only
      rw [walk_uncached hes]

end Walk

/-! ### The elements of a text -/

/-- The non-empty elements of a text between its slashes. -/
def namesIn (text : List UInt8) : List (List UInt8) := (text.splitOn 47).filter fun e => e ≠ []

section Elements

variable {ns es : List (List UInt8)} {text : List UInt8}

/-- What stands between the slashes of a text is in the text, and is no slash. -/
theorem mem_splitOn {e : List UInt8} (he : e ∈ text.splitOn 47) {b : UInt8} (hb : b ∈ e) :
    b ∈ text ∧ b ≠ 47 := by
  induction hn : text.length using Nat.strong_induction_on generalizing text with
  | _ n ih =>
    rcases slash_cases text with hmem | ⟨part, rest, rfl, hpart⟩
    · rw [List.splitOn_eq_singleton hmem, List.mem_singleton] at he
      exact ⟨he ▸ hb, fun h => hmem (h ▸ he ▸ hb)⟩
    · rw [List.splitOn_append_cons_self_of_not_mem hpart] at he
      rcases List.mem_cons.mp he with rfl | he
      · exact ⟨List.mem_append_left _ hb, fun h => hpart (h ▸ hb)⟩
      · rw [List.length_append, List.length_cons] at hn
        obtain ⟨hin, hne⟩ := ih rest.length (by omega) he rfl
        exact ⟨List.mem_append_right _ (List.mem_cons_of_mem _ hin), hne⟩

/-- The elements of a path are those between the slashes, without the one in front of a leading
slash. -/
theorem elementsOf_eq (htext : (0 : UInt8) ∉ text) : elementsOf text =
    (if text.head? = some 47 then text.tail else text).splitOn 47 := by
  rw [elementsOf]
  conv_rhs => rw [← List.map_id (List.splitOn 47 _)]
  refine List.map_congr_left fun e he => ?_
  rw [List.takeWhile_eq_self_iff.mpr]
  · rfl
  · intro b hb
    refine decide_eq_true fun h0 => htext ?_
    have hin := (mem_splitOn he hb).1
    rw [h0] at hin
    split at hin
    · exact List.mem_of_mem_tail hin
    · exact hin

theorem filter_namesOf (htext : (0 : UInt8) ∉ text) :
    ((namesOf text).filter fun e => e ≠ []) = namesIn text := by
  unfold namesOf namesIn
  split
  · rename_i h
    rw [h]
    rfl
  · rename_i hne
    rw [elementsOf_eq htext]
    split
    · rename_i hslash
      obtain ⟨b, rest, rfl⟩ := List.exists_cons_of_ne_nil hne
      obtain rfl := Option.some.inj hslash
      have hsplit := List.splitOn_append_cons_self_of_not_mem (a := (47 : UInt8))
        List.not_mem_nil rest
      rw [List.nil_append] at hsplit
      rw [hsplit, List.tail_cons]
      rfl
    · rfl

theorem not_mem_namesOf (htext : (0 : UInt8) ∉ text) {e : List UInt8} (he : e ∈ namesOf text) :
    (47 : UInt8) ∉ e ∧ (0 : UInt8) ∉ e := by
  refine ⟨fun h47 => ?_, ?_⟩
  · unfold namesOf at he
    split at he
    · exact absurd he List.not_mem_nil
    · rw [elementsOf_eq htext] at he
      exact (mem_splitOn he h47).2 rfl
  · unfold namesOf at he
    split at he
    · exact absurd he List.not_mem_nil
    · exact nulFree_elementsOf text e he

theorem namesIn_canonicalPath (h : ∀ e ∈ ns, (47 : UInt8) ∉ e) :
    namesIn (canonicalPath ns) = ns.filter fun e => e ≠ [] := by
  rcases eq_or_ne ns [] with rfl | hne
  · rfl
  · have hsplit := List.splitOn_append_cons_self_of_not_mem (a := (47 : UInt8)) List.not_mem_nil
      ([47].intercalate ns)
    rw [List.nil_append] at hsplit
    rw [namesIn, canonicalPath_eq hne, hsplit, List.splitOn_intercalate 47 h hne]
    rfl

theorem namesIn_pathText (h : ∀ e ∈ ns, (47 : UInt8) ∉ e) :
    namesIn (pathText ns) = ns.filter fun e => e ≠ [] := by
  rcases eq_or_ne ns [] with rfl | hne
  · rfl
  · rw [pathText_of_ne hne, namesIn_canonicalPath h]

/-- Every empty name makes the string longer. -/
theorem canonicalPath_filter (ns : List (List UInt8)) : (canonicalPath ns).length =
    (canonicalPath (ns.filter fun e => e ≠ [])).length + ns.count [] := by
  induction ns with
  | nil => rfl
  | cons e ns ih =>
    rw [canonicalPath_length, List.map_cons, List.sum_cons, ← canonicalPath_length, ih]
    by_cases he : e = []
    · rw [he, List.filter_cons_of_neg (by simp), List.count_cons_self, List.length_nil]
      omega
    · rw [List.filter_cons_of_pos (by simpa using he), List.count_cons_of_ne he,
        canonicalPath_length (e :: _), List.map_cons, List.sum_cons, ← canonicalPath_length]
      omega

/-- A string that its names give has no empty names. -/
theorem not_mem_of_pathText_eq (hne : ns ≠ [])
    (hfilter : (ns.filter fun e => e ≠ []) ≠ [])
    (heq : pathText ns = pathText (ns.filter fun e => e ≠ [])) : [] ∉ ns := by
  rw [pathText_of_ne hne, pathText_of_ne hfilter] at heq
  have hlength := congrArg List.length heq
  rw [canonicalPath_filter ns] at hlength
  rw [← List.count_pos_iff]
  omega

theorem head?_fromFirstName (es : List (List UInt8)) :
    (fromFirstName es).head? = (es.filter fun e => e ≠ []).head? := by
  induction es with
  | nil => rfl
  | cons e es ih =>
    by_cases he : e = []
    · rw [he, fromFirstName_empty, ih, List.filter_cons_of_neg (by simp)]
    · rw [fromFirstName_cons he, List.filter_cons_of_pos (by simpa using he)]
      rfl

theorem filter_fromFirstName (es : List (List UInt8)) :
    ((fromFirstName es).filter fun e => e ≠ []) = es.filter fun e => e ≠ [] := by
  induction es with
  | nil => rfl
  | cons e es ih =>
    by_cases he : e = []
    · rw [he, fromFirstName_empty, ih, List.filter_cons_of_neg (by simp)]
    · rw [fromFirstName_cons he]

end Elements

end CPathDictionary

namespace CDictionaryBasedTempPath

open CPathDictionary

/-! ### The parsed path -/

/-- The parsed path prints its names, and its base is the longest part of them that is cached. -/
structure ParsedWell (d : CPathDictionary) (text : List UInt8) : Prop where
  path : ∀ printed, GetPath d (tempPath d text) printed ↔ printed = pathText (namesIn text)
  base : ∃ (i : ℕ) (base : List (List UInt8)), (tempPath d text).index = (i : Index) ∧
    d.Named i base ∧ base <+: namesIn text ∧
    ∀ k ks, d.Named k ks → ks <+: namesIn text → ks <+: base

/-- The elements that are printed. -/
def shown (base rel : List (List UInt8)) : List (List UInt8) :=
  if base = [] then fromFirstName rel else base ++ rel

section Parsed

variable {d : CPathDictionary} {text : List UInt8} {base rel : List (List UInt8)} {i : ℕ}

theorem appendElements_shown (hbase : PathNames base) (rel : List (List UInt8)) :
    appendElements (pathText base) rel = pathText (shown base rel) := by
  unfold shown
  split
  · rename_i hnil
    rw [hnil]
    exact appendElements_root rel
  · rename_i hne
    rw [pathText_of_ne hne, pathText_of_ne (List.append_ne_nil_of_left_ne_nil hne _)]
    exact appendElements_canonicalPath (one_lt_canonicalPath hne fun e he => (hbase e he).1) rel

theorem filter_shown (hbase : PathNames base) (rel : List (List UInt8)) :
    ((shown base rel).filter fun e => e ≠ []) = base ++ rel.filter fun e => e ≠ [] := by
  unfold shown
  split
  · rename_i hnil
    rw [hnil, filter_fromFirstName, List.nil_append]
  · rw [List.filter_append, List.filter_eq_self.mpr]
    exact fun e he => decide_eq_true (hbase e he).1

theorem mem_shown {e : List UInt8} (he : e ∈ shown base rel) : e ∈ base ∨ e ∈ rel := by
  unfold shown at he
  split at he
  · exact .inr ((List.dropWhile_suffix _).subset he)
  · exact List.mem_append.mp he

/-- What a path prints that is found in a dictionary of canonical paths. -/
theorem getPath_shown (hd : CanonicallyBuilt d) (hi : d.Named i base) (rel : List (List UInt8))
    {printed : List UInt8} :
    GetPath d ⟨(i : Index), rel⟩ printed ↔ printed = pathText (shown base rel) := by
  obtain ⟨hnames, hshort⟩ := hd.allNamed i base hi
  rw [getPath_iff hd.built rfl hi, pathString_eq, lastNames_of_le hshort,
    appendElements_shown hnames]

/-- Elements without empty ones are parsed as they should be. -/
theorem denotes_tempPath (hd : d.Built) (hinit : init.Extends d) (htext : (0 : UInt8) ∉ text)
    (hes : ∀ e ∈ namesOf text, e ≠ []) :
    ∃ (k : ℕ) (base : List (List UInt8)), Denotes d (tempPath d text) k base (namesOf text) := by
  have hnul : CStringDictionary.NulFree (namesOf text) := fun e he => (not_mem_namesOf htext he).2
  obtain ⟨k, moved, rest, hloop, hsplit, hk, hmax, -⟩ := lookupLoop_spec hd .root hnul
  rw [List.nil_append] at hk hmax
  obtain ⟨hindex, hrel⟩ := Prod.mk.inj ((walk_of_names hes hnul 0).trans hloop)
  refine ⟨k, moved, ?_, hk, ?_, ?_⟩ <;> rw [hd.tempPath_eq hinit]
  · exact hindex
  · rw [hrel]
    exact hsplit
  · rw [hrel]
    exact hmax

/-- The names of what is printed are all that is printed. -/
theorem shown_eq (hbase : PathNames base) (hslash : ∀ e ∈ shown base rel, (47 : UInt8) ∉ e)
    {ns : List (List UInt8)} (hns : PathNames ns)
    (htext : pathText (shown base rel) = pathText ns) : shown base rel = ns := by
  have hself : (ns.filter fun e => e ≠ []) = ns :=
    List.filter_eq_self.mpr fun e he => decide_eq_true (hns e he).1
  have hfilter : ((shown base rel).filter fun e => e ≠ []) = ns := by
    rw [← namesIn_pathText hslash, htext, namesIn_pathText fun e he => (hns e he).2.1, hself]
  rcases eq_or_ne ns [] with rfl | hne
  · -- there is no name at all
    have hnil := hfilter
    rw [filter_shown hbase, List.append_eq_nil_iff] at hnil
    rw [shown, if_pos hnil.1, ← List.head?_eq_none_iff, head?_fromFirstName, hnil.2, List.head?_nil]
  · have hshown : shown base rel ≠ [] := by
      intro hnil
      rw [hnil] at hfilter
      exact hne hfilter.symm
    have hempty := not_mem_of_pathText_eq hshown (hfilter ▸ hne) (hfilter.symm ▸ htext)
    rw [← hfilter, List.filter_eq_self.mpr]
    exact fun e he => decide_eq_true fun h0 => hempty (h0 ▸ he)

theorem pathNames_namesIn (htext : (0 : UInt8) ∉ text) : PathNames (namesIn text) := by
  intro e he
  rw [← filter_namesOf htext] at he
  obtain ⟨hin, hne⟩ := List.mem_filter.mp he
  exact ⟨of_decide_eq_true hne, not_mem_namesOf htext hin⟩

/-- A path is parsed well if it shows its names and its base is long enough. -/
theorem parsedWell_iff_shown (hd : CanonicallyBuilt d) (htext : (0 : UInt8) ∉ text)
    (hi : d.Named (d.walk 0 true (namesOf text)).1 base) :
    ParsedWell d text ↔ shown base (d.walk 0 true (namesOf text)).2 = namesIn text ∧
      base <+: namesIn text ∧ ∀ k ks, d.Named k ks → ks <+: namesIn text → ks <+: base := by
  have htemp := hd.built.tempPath_eq (Built.init.grows hd.grows).2 text
  constructor
  · rintro ⟨hpath, i, base', hindex, hi', hpre, hmax⟩
    rw [htemp] at hindex hpath
    obtain rfl := Nat.cast_injective (R := Index) hindex
    obtain rfl := hi.unique hi'
    refine ⟨shown_eq (hd.allNamed _ _ hi).1 (fun e he => ?_) (pathNames_namesIn htext) ?_, hpre, hmax⟩
    · rcases mem_shown he with he | he
      · exact ((hd.allNamed _ _ hi).1 e he).2.1
      · exact (not_mem_namesOf htext ((walk_sublist _ _ _).subset he)).1
    · exact ((getPath_shown hd hi _).mp ((hpath _).mpr rfl)).symm
  · rintro ⟨hshown, hpre, hmax⟩
    refine ⟨fun printed => ?_, _, base, by rw [htemp], hi, hpre, hmax⟩
    rw [htemp, getPath_shown hd hi, hshown]

/-- A path that shows its names but has empty elements has not found any of them. -/
theorem base_eq_nil (hd : CanonicallyBuilt d) (htext : (0 : UInt8) ∉ text)
    (hempty : [] ∈ namesOf text) (hi : d.Named (d.walk 0 true (namesOf text)).1 base)
    (hpre : base <+: namesIn text)
    (hshown : shown base (d.walk 0 true (namesOf text)).2 = namesIn text) : base = [] := by
  by_contra hne
  have hall : d.AllNamed PathNames := fun i ns hi => (hd.allNamed i ns hi).1
  have hnames : [] ∉ namesIn text := fun hmem => (pathNames_namesIn htext [] hmem).1 rfl
  rw [shown, if_neg hne] at hshown
  have hrel : [] ∉ (d.walk 0 true (namesOf text)).2 := fun hmem =>
    hnames (hshown ▸ List.mem_append_right _ hmem)
  obtain ⟨e, es, hes⟩ := List.exists_cons_of_ne_nil (List.ne_nil_of_mem hempty)
  have hcount : nameCount base + nameCount (d.walk 0 true (namesOf text)).2 =
      nameCount (namesOf text) := by
    rw [← nameCount_append, hshown, nameCount_eq, nameCount_eq (namesOf text), filter_namesOf htext,
      List.filter_eq_self.mpr]
    exact fun e he => decide_eq_true fun h0 => hnames (h0 ▸ he)
  rw [hes] at hrel hcount hempty hi
  by_cases he : e = []
  · rw [he, walk, hd.built.find_nil hall .root] at hrel
    exact hrel List.mem_cons_self
  · cases hfind : d.find ((0 : ℕ) : Index) e with
    | some k =>
      have hk := hd.built.named_of_find .root hfind
      have hin : [] ∈ es := (List.mem_cons.mp hempty).resolve_left (Ne.symm he)
      obtain ⟨P, hP, hout⟩ := hd.built.walk_loses hall hk (List.cons_ne_nil _ _) true es
      rw [walk, hfind] at hrel hcount hi
      dsimp only at hrel hcount hi
      obtain rfl := hP.unique hi
      rcases hout with hlt | ⟨-, hmem⟩
      · rw [hcount, List.nil_append, nameCount_cons he, nameCount_cons he, nameCount_nil] at hlt
        omega
      · exact hrel (hmem hin)
    | none =>
      -- the first name is not cached, but the base begins with it
      rw [← filter_namesOf htext, hes, List.filter_cons_of_pos (by simpa using he)] at hpre
      obtain ⟨b, base', rfl⟩ := List.exists_cons_of_ne_nil hne
      obtain rfl := (List.cons_prefix_cons.mp hpre).1
      obtain ⟨k, hk⟩ := hi.of_prefix (show [b] <+: b :: base' from ⟨base', rfl⟩)
      rw [hd.built.find_of_named .root hk] at hfind
      exact nomatch hfind

/-- **A text is parsed well iff it has no empty elements, or the first name is not cached and every
empty element behind it is the last one or is in front of a name that is not cached.** -/
theorem parsedWell_iff (hd : CanonicallyBuilt d) (htext : (0 : UInt8) ∉ text) :
    ParsedWell d text ↔
      (∀ e ∈ namesOf text, e ≠ []) ∨ d.Scattered (fromFirstName (namesOf text)) := by
  have hbuilt := hd.built
  have hinit : init.Extends d := (Built.init.grows hd.grows).2
  have hall : d.AllNamed PathNames := fun i ns hi => (hd.allNamed i ns hi).1
  have hfilter := filter_namesOf htext
  constructor
  · intro h
    refine or_iff_not_imp_left.mpr fun hempty => ?_
    have hmem : [] ∈ namesOf text := by
      by_contra hcon
      exact hempty fun e he h0 => hcon (h0 ▸ he)
    obtain ⟨base, hi, -⟩ := hbuilt.walk_total (fun _ => 0) .root true (namesOf text)
    obtain ⟨hshown, hpre, hmax⟩ := (parsedWell_iff_shown hd htext hi).mp h
    obtain rfl := base_eq_nil hd htext hmem hi hpre hshown
    rw [shown, if_pos rfl] at hshown
    refine (hbuilt.scattered_iff hall true _).mpr ⟨hbuilt.named_inj hi .root, ?_, ?_, ?_⟩
    · rw [hshown]
      exact fun h0 => (pathNames_namesIn htext [] h0).1 rfl
    · rw [nameCount_eq, nameCount_eq, hfilter, ← filter_fromFirstName, hshown, List.filter_eq_self.mpr]
      exact fun e he => decide_eq_true (pathNames_namesIn htext e he).1
    · intro e he
      rw [head?_fromFirstName, hfilter] at he
      obtain ⟨rest, hrest⟩ := List.head?_eq_some_iff.mp he
      rw [hbuilt.find_eq_none .root]
      intro k hk
      have hle := hmax k _ hk (by rw [hrest]; exact List.prefix_append [e] rest)
      exact absurd (List.prefix_nil.mp hle) (List.cons_ne_nil _ _)
  · rintro (hes | hscattered)
    · obtain ⟨k, base, hdenotes⟩ := denotes_tempPath hbuilt hinit htext hes
      have hnames : namesOf text = namesIn text := by
        rw [← hfilter, List.filter_eq_self.mpr]
        exact fun e he => decide_eq_true (hes e he)
      refine ⟨fun printed => ?_, k, base, hdenotes.index, hdenotes.named,
        hnames ▸ hdenotes.base_prefix, fun k ks hk hpre => hdenotes.prefix_base hk (hnames ▸ hpre)⟩
      rw [getPath_iff_drop hbuilt hdenotes.index hdenotes.named (by rw [← hdenotes.names]; exact hes),
        ← hdenotes.names, Nat.sub_eq_zero_of_le (hd.allNamed k base hdenotes.named).2, List.drop_zero,
        hnames]
    · obtain ⟨hroot, hmem, hcount, hhead⟩ := (hbuilt.scattered_iff hall true _).mp hscattered
      have hi : d.Named (d.walk 0 true (namesOf text)).1 [] := by
        rw [hroot]
        exact .root
      refine (parsedWell_iff_shown hd htext hi).mpr ⟨?_, List.nil_prefix, fun k ks hk hpre => ?_⟩
      · -- all names are kept in their order
        have hkept := (walk_sublist (d := d) 0 true (namesOf text)).filter fun e => e ≠ []
        have heq := hkept.eq_of_length (by rw [← nameCount_eq, ← nameCount_eq, hcount])
        rw [shown, if_pos rfl, ← hfilter, ← heq, ← filter_fromFirstName, List.filter_eq_self.mpr]
        exact fun e he => decide_eq_true fun h0 => hmem (h0 ▸ he)
      · cases ks with
        | nil => exact List.nil_prefix
        | cons e ks =>
          obtain ⟨j, hj⟩ := hk.of_prefix (show [e] <+: e :: ks from ⟨ks, rfl⟩)
          obtain ⟨rest, hrest⟩ := hpre
          have he : e ∈ (fromFirstName (namesOf text)).head? := by
            rw [head?_fromFirstName, hfilter, ← hrest]
            rfl
          have hfind := hbuilt.find_of_named .root hj
          rw [hhead e he] at hfind
          exact nomatch hfind

end Parsed

/-- The path `/a`, when the root alone is cached. -/
theorem parsedWell_iff_single : ParsedWell init [47, 97] :=
  (parsedWell_iff .init (by decide)).mpr (.inl (by decide))

/-- When `/a` is cached, `/b//a` is parsed as `/a/b`. -/
theorem parse_swaps_elements : ¬ ∀ d, CanonicallyBuilt d → ∀ text, (0 : UInt8) ∉ text →
    ParsedWell d text := by
  intro h
  have hes : Canonical [[97]] := ⟨by decide, by decide, by decide⟩
  obtain ⟨i, base, hindex, hi, hpre, -⟩ :=
    (h _ (.parsePath .init hes) [47, 98, 47, 47, 97] (by decide)).base
  obtain ⟨-, -, hnamed⟩ := Built.init.parsePath (canonicalPath [[97]])
  have hone : (tempPath (init.parsePath (canonicalPath [[97]])).1 [47, 98, 47, 47, 97]).index =
      ((init.parsePath (canonicalPath [[97]])).2 : Index) := by decide
  obtain rfl := Nat.cast_injective (R := Index) (hone.symm.trans hindex)
  obtain rfl := hnamed.unique hi
  exact absurd hpre (by decide)

end CDictionaryBasedTempPath

end TortoiseSvn.LogCache
