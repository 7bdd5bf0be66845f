import TortoiseSvn.LogCache.TempPathParsing

/-!
# Following a rename

`ReplaceParent` cuts off as many characters of a path as the old parent has, puts the new parent in
front of the rest and parses the result. This goes by the length of strings. The root is printed as
a slash, so a slash is missing behind the old parent or there is one too many behind the new one
when one of them is the root; and of a long path, only a part is printed.

Main result: `follows_iff`.
-/

namespace TortoiseSvn.LogCache

open TortoiseSvn.Lib CPathDictionary

namespace CDictionaryBasedTempPath

/-- `std::string::substr`, which throws an exception behind the end of the string.
Source: `DictionaryBasedTempPath.cpp` `CDictionaryBasedTempPath::ReplaceParent` -/
def ReplaceParent (d : CPathDictionary) (path : CDictionaryBasedTempPath)
    (oldParent newParent : Index) (result : CDictionaryBasedTempPath) : Prop :=
  ∃ old new text, d.GetPath oldParent old ∧ d.GetPath newParent new ∧ GetPath d path text ∧
    old.length ≤ text.length ∧ result = tempPath d (new ++ text.drop old.length)

/-- Empty elements name nothing. -/
def realNames (ns : List (List UInt8)) : List (List UInt8) := ns.filter fun e => e ≠ []

/-- The path with the names `ns`, whatever part of it is cached. -/
def Spells (d : CPathDictionary) (path : CDictionaryBasedTempPath) (ns : List (List UInt8)) : Prop :=
  ∃ (i : ℕ) (base : List (List UInt8)), path.index = (i : Index) ∧ d.Named i base ∧
    realNames (base ++ path.relPathElements) = realNames ns

/-- The path is replaced by the one with the names `ns`, which is cached as a whole if it is in the
dictionary. -/
def Follows (d : CPathDictionary) (path : CDictionaryBasedTempPath) (oldParent newParent : Index)
    (ns : List (List UInt8)) : Prop :=
  ∃ result, ReplaceParent d path oldParent newParent result ∧ Spells d result ns ∧
    ∀ k, d.Named k ns → result = ⟨(k : Index), []⟩

/-! ### The weight of names -/

/-- The number of characters of some names, with their slashes. -/
def weight (ns : List (List UInt8)) : ℕ := (canonicalPath ns).length

section Weight

variable {ns ms : List (List UInt8)}

@[simp] theorem weight_nil : weight [] = 0 := rfl

theorem weight_append (ns ms : List (List UInt8)) : weight (ns ++ ms) = weight ns + weight ms := by
  rw [weight, canonicalPath_append, List.length_append]
  rfl

theorem weight_eq_sum (ns : List (List UInt8)) : weight ns = (ns.map fun e => e.length + 1).sum :=
  canonicalPath_length ns

theorem two_le_weight (hne : ns ≠ []) (hns : ∀ e ∈ ns, e ≠ []) : 2 ≤ weight ns :=
  one_lt_canonicalPath hne hns

theorem realNames_eq (hns : PathNames ns) : realNames ns = ns :=
  List.filter_eq_self.mpr fun e he => decide_eq_true (hns e he).1

theorem weight_realNames_le (ns : List (List UInt8)) : weight (realNames ns) ≤ weight ns := by
  rw [weight, weight, canonicalPath_filter ns]
  exact Nat.le_add_right _ _

theorem weight_le_of_suffix (h : ns <:+ ms) : weight ns ≤ weight ms := by
  obtain ⟨front, rfl⟩ := h
  rw [weight_append]
  exact Nat.le_add_left _ _

theorem pathText_length (ns : List (List UInt8)) : (pathText ns).length = max 1 (weight ns) := by
  cases ns with
  | nil => rfl
  | cons e ns =>
    rw [pathText_of_ne (List.cons_ne_nil _ _), weight_eq_sum, canonicalPath_length, List.map_cons,
      List.sum_cons]
    omega

/-- Names that are left out in front make a path lighter. -/
theorem weight_drop_lt (hns : ∀ e ∈ ns, e ≠ []) {m n : ℕ} (hmn : m < n) (hm : m < ns.length) :
    weight (ns.drop n) + 2 ≤ weight (ns.drop m) := by
  have hsplit : ns.drop m = (ns.drop m).take (n - m) ++ ns.drop n := by
    conv_lhs => rw [← List.take_append_drop (n - m) (ns.drop m)]
    rw [List.drop_drop, Nat.add_sub_cancel' hmn.le]
  have hne : (ns.drop m).take (n - m) ≠ [] := by
    rw [ne_eq, List.take_eq_nil_iff, List.drop_eq_nil_iff]
    omega
  have htwo := two_le_weight hne fun e he => hns e (List.mem_of_mem_drop (List.mem_of_mem_take he))
  rw [hsplit, weight_append]
  omega

theorem weight_lastNames_le (ns : List (List UInt8)) : weight (lastNames ns) ≤ weight ns :=
  weight_le_of_suffix (List.drop_suffix _ _)

theorem weight_lastNames_lt (hns : ∀ e ∈ ns, e ≠ []) (hlong : maxPath < ns.length) :
    weight (lastNames ns) + 2 ≤ weight ns :=
  weight_drop_lt hns (m := 0) (Nat.sub_pos_of_lt hlong) (Nat.zero_lt_of_lt hlong)

theorem weight_lastNames_append_le (old mid : List (List UInt8)) :
    weight (lastNames (old ++ mid)) ≤ weight (lastNames old) + weight mid := by
  have hdrop : lastNames old ++ mid = (old ++ mid).drop (old.length - maxPath) :=
    (List.drop_append_of_le_length (Nat.sub_le _ _)).symm
  rw [← weight_append, hdrop, lastNames, List.length_append]
  have hadd : old.length + mid.length - maxPath =
      (old.length - maxPath) + (old.length + mid.length - maxPath - (old.length - maxPath)) := by
    omega
  rw [hadd, ← List.drop_drop]
  exact weight_le_of_suffix (List.drop_suffix _ _)

/-- When some parent is left out, the printed path has fewer characters behind the old parent than
it should have. -/
theorem weight_truncated {old mid : List (List UInt8)} (hns : ∀ e ∈ old ++ mid, e ≠ [])
    (hmid : mid ≠ []) (hlong : maxPath < (old ++ mid).length) :
    weight (lastNames (old ++ mid)) + 2 ≤ weight (lastNames old) + weight mid := by
  have hpos := List.length_pos_iff.mpr hmid
  have hdrop : lastNames old ++ mid = (old ++ mid).drop (old.length - maxPath) :=
    (List.drop_append_of_le_length (Nat.sub_le _ _)).symm
  rw [← weight_append, hdrop, lastNames]
  rw [List.length_append] at hlong ⊢
  refine weight_drop_lt hns ?_ ?_
  · omega
  · rw [List.length_append]
    omega

end Weight

/-! ### Parsing the new path -/

section Parsing

variable {d : CPathDictionary} {ns : List (List UInt8)} {text : List UInt8}

/-- The elements of a path with a leading slash make it up. -/
theorem canonicalPath_namesOf (htext : (0 : UInt8) ∉ (47 :: text : List UInt8)) :
    canonicalPath (namesOf (47 :: text)) = 47 :: text := by
  rw [namesOf, if_neg (List.cons_ne_nil _ _), elementsOf_eq htext, List.head?_cons, if_pos rfl,
    List.tail_cons, canonicalPath_eq (List.splitOn_ne_nil _ _), List.intercalate_splitOn]

/-- A parsed path has no more characters than the text it was parsed from. -/
theorem Spells.weight_le (hd : d.Built) (hinit : init.Extends d) (hns : PathNames ns)
    (htext : (0 : UInt8) ∉ (47 :: text : List UInt8))
    (h : Spells d (tempPath d (47 :: text)) ns) : weight ns ≤ text.length + 1 := by
  obtain ⟨i, base, hindex, hi, hspells⟩ := h
  rw [hd.tempPath_eq hinit] at hindex hspells
  obtain rfl := Nat.cast_injective (R := Index) hindex
  obtain ⟨P, hP, hle⟩ := hd.walk_total (fun e => e.length + 1) .root true (namesOf (47 :: text))
  obtain rfl := hi.unique hP
  rw [← weight_eq_sum, ← weight_eq_sum, ← weight_eq_sum, ← weight_eq_sum, weight_nil,
    Nat.zero_add] at hle
  have htotal : weight (namesOf (47 :: text)) = text.length + 1 := by
    rw [weight, canonicalPath_namesOf htext, List.length_cons]
  have hreal := weight_realNames_le (base ++ (d.walk 0 true (namesOf (47 :: text))).2)
  rw [hspells, realNames_eq hns, weight_append] at hreal
  omega

/-- No terminator is in the string of some names. -/
theorem nulFree_canonicalPath (hns : PathNames ns) : (0 : UInt8) ∉ canonicalPath ns := by
  intro hmem
  obtain ⟨e, he, h0⟩ := List.mem_flatMap.mp hmem
  rcases List.mem_cons.mp h0 with h0 | h0
  · exact absurd h0 (by decide)
  · exact (hns e he).2.2 h0

/-- The path with some names is found as it should be. -/
theorem tempPath_canonicalPath (hd : d.Built) (hinit : init.Extends d) (hns : PathNames ns)
    (hne : ns ≠ []) : Spells d (tempPath d (canonicalPath ns)) ns ∧
      ∀ k, d.Named k ns → tempPath d (canonicalPath ns) = ⟨(k : Index), []⟩ := by
  have hnames := hns.namesOf hne
  obtain ⟨k, base, hdenotes⟩ := denotes_tempPath hd hinit (nulFree_canonicalPath hns)
    fun e he => (hns e (hnames ▸ he)).1
  rw [hnames] at hdenotes
  refine ⟨⟨k, base, hdenotes.index, hdenotes.named, ?_⟩, fun j hj => ?_⟩
  · rw [← hdenotes.names]
  · exact (hdenotes.unique (denotes_cached hj) hd).1

/-- With a second slash in front, the names are looked up below an empty one. The path is the right
one, but it is never found as a whole. -/
theorem tempPath_slash (hd : d.Built) (hinit : init.Extends d) (hns : PathNames ns) :
    Spells d (tempPath d (47 :: canonicalPath ns)) ns ∧
      ∀ k, d.Named k ns → tempPath d (47 :: canonicalPath ns) ≠ ⟨(k : Index), []⟩ := by
  have htext : (0 : UInt8) ∉ (47 :: canonicalPath ns : List UInt8) := fun hmem =>
    (List.mem_cons.mp hmem).elim (by decide) (nulFree_canonicalPath hns)
  have hnames : namesOf (47 :: canonicalPath ns) = [] :: ns := by
    rw [namesOf, if_neg (List.cons_ne_nil _ _), elementsOf_eq htext, List.head?_cons, if_pos rfl,
      List.tail_cons]
    rcases eq_or_ne ns [] with rfl | hne
    · rfl
    · have hsplit := List.splitOn_append_cons_self_of_not_mem (a := (47 : UInt8)) List.not_mem_nil
        ([47].intercalate ns)
      rw [List.nil_append] at hsplit
      rw [canonicalPath_eq hne, hsplit,
        List.splitOn_intercalate 47 (fun e he => (hns e he).2.1) hne]
  have hne : ∀ e ∈ ns, e ≠ [] := fun e he => (hns e he).1
  rw [hd.tempPath_eq hinit, hnames, walk]
  cases hfind : d.find ((0 : ℕ) : Index) [] with
  | none =>
    -- all names are kept as text
    dsimp only
    rw [walk_uncached hne]
    refine ⟨⟨0, [], rfl, .root, ?_⟩, fun k _ hcached => ?_⟩
    · exact List.filter_cons_of_neg (by simp)
    · exact absurd (congrArg relPathElements hcached) (List.cons_ne_nil _ _)
  | some e =>
    -- the root has a child without a name
    have he := hd.named_of_find .root hfind
    obtain ⟨k, moved, rest, hloop, hsplit, hk, -, -⟩ :=
      lookupLoop_spec hd he fun e he => (hns e he).2.2
    obtain ⟨hindex, hrel⟩ :=
      Prod.mk.inj ((walk_of_names hne (fun e he => (hns e he).2.2) e).trans hloop)
    dsimp only
    rw [hindex, hrel]
    refine ⟨⟨k, _, rfl, hk, ?_⟩, fun j hj hcached => ?_⟩
    · rw [hsplit]
      exact List.filter_cons_of_neg (by simp)
    · obtain rfl := Nat.cast_injective (R := Index) (congrArg index hcached)
      rw [hj.unique hk] at hne
      exact hne [] List.mem_cons_self rfl

end Parsing

/-! ### The new path -/

section Replacing

variable {d : CPathDictionary} {path result : CDictionaryBasedTempPath} {i o q : ℕ}
  {base old new rest ns ms : List (List UInt8)}

theorem getPath_lastNames (hd : d.Built) (hindex : path.index = (i : Index)) (hi : d.Named i base)
    (hbase : PathNames base) (hrel : PathNames path.relPathElements) {text : List UInt8} :
    GetPath d path text ↔ text = pathText (lastNames base ++ path.relPathElements) := by
  have hnames : ∀ e ∈ base ++ path.relPathElements, e ≠ [] := fun e he =>
    (List.mem_append.mp he).elim (fun he => (hbase e he).1) fun he => (hrel e he).1
  rw [getPath_iff_drop hd hindex hi hnames, List.drop_append_of_le_length (Nat.sub_le _ _)]
  rfl

theorem replaceParent_iff (hd : d.Built) (hindex : path.index = (i : Index)) (hi : d.Named i base)
    (hbase : PathNames base) (hrel : PathNames path.relPathElements) (hold : d.Named o old)
    (hnew : d.Named q new) : ReplaceParent d path (o : Index) (q : Index) result ↔
      (pathText (lastNames old)).length ≤
        (pathText (lastNames base ++ path.relPathElements)).length ∧
      result = tempPath d (pathText (lastNames new) ++
        (pathText (lastNames base ++ path.relPathElements)).drop
          (pathText (lastNames old)).length) := by
  constructor
  · rintro ⟨oldText, newText, text, ho, hq, ht, hle, hresult⟩
    rw [hd.getPath_iff hold, pathString_eq] at ho
    rw [hd.getPath_iff hnew, pathString_eq] at hq
    rw [getPath_lastNames hd hindex hi hbase hrel] at ht
    rw [ho, ht] at hle
    rw [ho, hq, ht] at hresult
    exact ⟨hle, hresult⟩
  · rintro ⟨hle, hresult⟩
    exact ⟨_, _, _, (hd.getPath_iff hold).mpr rfl, (hd.getPath_iff hnew).mpr rfl,
      (getPath_lastNames hd hindex hi hbase hrel).mpr rfl, hle, hresult⟩

theorem nulFree_pathText (hns : PathNames ns) : (0 : UInt8) ∉ pathText ns := by
  unfold pathText
  split
  · decide
  · exact nulFree_canonicalPath hns

/-- A path cannot be longer than the text it is made from. -/
theorem Spells.weight_replaced (hd : d.Built) (hinit : init.Extends d) (hns : PathNames ns)
    (hnew : PathNames new) (hms : PathNames ms) {n : ℕ}
    (h : Spells d (tempPath d (pathText new ++ (pathText ms).drop n)) ns) :
    weight ns ≤ (pathText new).length + ((pathText ms).length - n) := by
  obtain ⟨text, htext⟩ : ∃ text, pathText new ++ (pathText ms).drop n = 47 :: text := by
    rcases eq_or_ne new [] with rfl | hne
    · exact ⟨_, rfl⟩
    · rw [pathText_of_ne hne, canonicalPath_eq hne]
      exact ⟨_, List.cons_append⟩
  have hlength := congrArg List.length htext
  rw [List.length_append, List.length_drop, List.length_cons] at hlength
  rw [htext] at h
  rw [hlength]
  refine h.weight_le hd hinit hns ?_
  rw [← htext]
  intro hmem
  rcases List.mem_append.mp hmem with hmem | hmem
  · exact nulFree_pathText hnew hmem
  · exact nulFree_pathText hms (List.mem_of_mem_drop hmem)

/-- Nothing that matters is missing in the printed paths. -/
theorem lastNames_append {mid : List (List UInt8)}
    (hshort : (old ++ mid).length ≤ maxPath ∨ old = old ++ mid) :
    lastNames (old ++ mid) = lastNames old ++ mid := by
  rcases hshort with hshort | hsame
  · have hold : old.length ≤ maxPath := (List.prefix_append old mid).length_le.trans hshort
    rw [lastNames_of_le hshort, lastNames_of_le hold]
  · obtain rfl : mid = [] := List.self_eq_append_right.mp hsame
    rw [List.append_nil, List.append_nil]

/-- When the paths are not too long, only the root makes a difference. -/
theorem spells_iff_of_short (hd : d.Built) (hinit : init.Extends d) (hnew : PathNames new)
    (hrest : PathNames rest) (hparent : result = tempPath d (pathText new ++
      (pathText (ns ++ rest)).drop (pathText ns).length)) :
    Spells d result (new ++ rest) ↔ (ns = [] → new = [] ∨ rest = []) := by
  have hnames : PathNames (new ++ rest) := fun e he =>
    (List.mem_append.mp he).elim (hnew e) (hrest e)
  by_cases hold : ns = []
  · -- a slash is missing
    subst hold
    rw [List.nil_append, pathText_nil, List.length_singleton] at hparent
    rw [imp_iff_right rfl]
    by_cases hnil : rest = []
    · subst hnil
      rw [pathText_nil, show List.drop 1 [(47 : UInt8)] = [] from rfl, List.append_nil] at hparent
      refine iff_of_true ?_ (.inr rfl)
      rw [List.append_nil, hparent]
      by_cases hnew' : new = []
      · rw [hnew']
        exact (@tempPath_slash d [] hd hinit fun e he => absurd he List.not_mem_nil).1
      · rw [pathText_of_ne hnew']
        exact (tempPath_canonicalPath hd hinit hnew hnew').1
    · by_cases hnew' : new = []
      · refine iff_of_true ?_ (.inl hnew')
        have htext : pathText [] ++ (pathText rest).drop 1 = canonicalPath rest := by
          rw [pathText_of_ne hnil, canonicalPath_eq hnil]
          rfl
        rw [hparent, hnew', htext, List.nil_append]
        exact (tempPath_canonicalPath hd hinit hrest hnil).1
      · refine iff_of_false (fun h => ?_) (not_or.mpr ⟨hnew', hnil⟩)
        have hle := Spells.weight_replaced hd hinit hnames hnew hrest (hparent ▸ h)
        have htwo := two_le_weight hnil fun e he => (hrest e he).1
        have htwo' := two_le_weight hnew' fun e he => (hnew e he).1
        rw [weight_append, pathText_length, pathText_length] at hle
        omega
  · rw [pathText_of_ne hold, pathText_of_ne (List.append_ne_nil_of_left_ne_nil hold _),
      canonicalPath_append, List.drop_left] at hparent
    refine iff_of_true ?_ fun hnil => absurd hnil hold
    rw [hparent]
    by_cases hnew' : new = []
    · -- there is a slash too many
      rw [hnew']
      exact (tempPath_slash hd hinit hrest).1
    · rw [pathText_of_ne hnew', ← canonicalPath_append]
      exact (tempPath_canonicalPath hd hinit hnames (List.append_ne_nil_of_left_ne_nil hnew' _)).1

/-- The new path is found in the dictionary unless the new parent is the root and the old one is
not, or the whole path is the root. -/
theorem cached_iff_of_spells (hd : d.Built) (hinit : init.Extends d) (hnew : PathNames new)
    (hrest : PathNames rest) (hparent : result = tempPath d (pathText new ++
      (pathText (ns ++ rest)).drop (pathText ns).length)) (hspells : ns = [] → new = [] ∨ rest = []) :
    (∀ k, d.Named k (new ++ rest) → result = ⟨(k : Index), []⟩) ↔
      new ≠ [] ∨ ns = [] ∧ rest ≠ [] ∨ ∀ k, ¬ d.Named k (new ++ rest) := by
  have hnames : PathNames (new ++ rest) := fun e he =>
    (List.mem_append.mp he).elim (hnew e) (hrest e)
  have hfound : result = tempPath d (canonicalPath (new ++ rest)) → new ++ rest ≠ [] →
      ∀ k, d.Named k (new ++ rest) → result = ⟨(k : Index), []⟩ := by
    intro hresult hne
    rw [hresult]
    exact (tempPath_canonicalPath hd hinit hnames hne).2
  by_cases hnew' : new = []
  · subst hnew'
    rw [List.nil_append] at hfound ⊢
    rw [pathText_nil] at hparent
    by_cases hgood : ns = [] ∧ rest ≠ []
    · refine iff_of_true (hfound ?_ hgood.2) (.inr (.inl hgood))
      rw [hparent, hgood.1, List.nil_append, pathText_nil, pathText_of_ne hgood.2,
        canonicalPath_eq hgood.2]
      rfl
    · -- a second slash
      have hslash : result = tempPath d (47 :: canonicalPath rest) := by
        rw [hparent]
        by_cases hold : ns = []
        · obtain rfl : rest = [] := not_not.mp fun hne => hgood ⟨hold, hne⟩
          rw [hold]
          rfl
        · rw [pathText_of_ne hold, pathText_of_ne (List.append_ne_nil_of_left_ne_nil hold _),
            canonicalPath_append, List.drop_left]
          rfl
      have hnever := (tempPath_slash hd hinit hrest).2
      rw [← hslash] at hnever
      constructor
      · exact fun h => .inr (.inr fun k hk => hnever k hk (h k hk))
      · rintro (h | h | h)
        · exact absurd rfl h
        · exact absurd h hgood
        · exact fun k hk => absurd hk (h k)
  · refine iff_of_true (hfound ?_ (List.append_ne_nil_of_left_ne_nil hnew' _)) (.inl hnew')
    rw [hparent, pathText_of_ne hnew', canonicalPath_append]
    by_cases hold : ns = []
    · rcases hspells hold with h | h
      · exact absurd h hnew'
      · rw [hold, h]
        rfl
    · rw [pathText_of_ne hold, pathText_of_ne (List.append_ne_nil_of_left_ne_nil hold _),
        canonicalPath_append, List.drop_left]

/-- Too long a path loses some of its elements. -/
theorem not_spells_of_long (hd : d.Built) (hinit : init.Extends d) {mid rel : List (List UInt8)}
    (hbase : PathNames (old ++ mid)) (hrel : PathNames rel) (hnew : PathNames new)
    (hlong : ¬ (new.length ≤ maxPath ∧ ((old ++ mid).length ≤ maxPath ∨ old = old ++ mid)))
    (hparent : result = tempPath d (pathText (lastNames new) ++
      (pathText (lastNames (old ++ mid) ++ rel)).drop (pathText (lastNames old)).length)) :
    ¬ Spells d result (new ++ (mid ++ rel)) := by
  intro h
  have hms : PathNames (lastNames (old ++ mid) ++ rel) := fun e he =>
    (List.mem_append.mp he).elim (fun he => hbase e (List.mem_of_mem_drop he)) (hrel e)
  have hnew' : PathNames (lastNames new) := fun e he => hnew e (List.mem_of_mem_drop he)
  have hns : PathNames (new ++ (mid ++ rel)) := fun e he =>
    (List.mem_append.mp he).elim (hnew e) fun he => (List.mem_append.mp he).elim
      (fun he => hbase e (List.mem_append_right _ he)) (hrel e)
  have hle := Spells.weight_replaced hd hinit hns hnew' hms (hparent ▸ h)
  rw [pathText_length, pathText_length, pathText_length, weight_append, weight_append,
    weight_append] at hle
  have hlast := weight_lastNames_append_le old mid
  have hlast' := weight_lastNames_le new
  by_cases hshort : new.length ≤ maxPath
  · -- the printed path is too short
    obtain ⟨hlong', hsame⟩ := not_or.mp fun h => hlong ⟨hshort, h⟩
    have hmid : mid ≠ [] := fun hnil => hsame (by rw [hnil, List.append_nil])
    have htwo := weight_truncated (fun e he => (hbase e he).1) hmid (not_le.mp hlong')
    have hmid' := two_le_weight hmid fun e he => (hbase e (List.mem_append_right _ he)).1
    have hbase' : lastNames (old ++ mid) ≠ [] := by
      rw [ne_eq, lastNames_eq_nil]
      exact List.append_ne_nil_of_right_ne_nil _ hmid
    have hone := two_le_weight hbase' fun e he => (hbase e (List.mem_of_mem_drop he)).1
    omega
  · -- the new parent is too short
    have hnew'' : lastNames new ≠ [] := by
      rw [ne_eq, lastNames_eq_nil]
      rintro rfl
      exact hshort (Nat.zero_le _)
    have htwo := weight_lastNames_lt (fun e he => (hnew e he).1) (not_le.mp hshort)
    have hone := two_le_weight hnew'' fun e he => (hnew' e he).1
    omega

/-- Of paths that are not too long, nothing is left out. -/
theorem replaceParent_iff_of_short (hd : d.Built) (hindex : path.index = (i : Index))
    (hi : d.Named i base) (hbase : PathNames base) (hrel : PathNames path.relPathElements)
    (hold : d.Named o old) (hnew : d.Named q new) (habove : old <+: base)
    (hrest : base ++ path.relPathElements = old ++ rest)
    (hshort : new.length ≤ maxPath ∧ (base.length ≤ maxPath ∨ old = base)) :
    ReplaceParent d path (o : Index) (q : Index) result ↔ result = tempPath d (pathText new ++
      (pathText (lastNames old ++ rest)).drop (pathText (lastNames old)).length) := by
  obtain ⟨mid, rfl⟩ := habove
  obtain rfl : rest = mid ++ path.relPathElements := by
    rw [List.append_assoc] at hrest
    exact (List.append_cancel_left hrest).symm
  rw [replaceParent_iff hd hindex hi hbase hrel hold hnew, lastNames_append hshort.2,
    lastNames_of_le hshort.1, List.append_assoc]
  refine and_iff_right ?_
  rw [pathText_length, pathText_length, weight_append]
  omega

/-- `ReplaceParent` gives the path below the new parent iff the paths are not too long and no slash
is missing. -/
theorem spells_iff (hd : d.Built) (hinit : init.Extends d) (hindex : path.index = (i : Index))
    (hi : d.Named i base) (hbase : PathNames base) (hrel : PathNames path.relPathElements)
    (hold : d.Named o old) (hnew : d.Named q new) (hnames : PathNames new) (habove : old <+: base)
    (hrest : base ++ path.relPathElements = old ++ rest) :
    (∃ result, ReplaceParent d path (o : Index) (q : Index) result ∧ Spells d result (new ++ rest)) ↔
      (new.length ≤ maxPath ∧ (base.length ≤ maxPath ∨ old = base)) ∧
        (old = [] → new = [] ∨ rest = []) := by
  have hrestNames : PathNames rest := fun e he =>
    (List.mem_append.mp (hrest ▸ List.mem_append_right old he)).elim (hbase e) (hrel e)
  by_cases hshort : new.length ≤ maxPath ∧ (base.length ≤ maxPath ∨ old = base)
  · have hiff := fun result => @replaceParent_iff_of_short d path result i o q base old new rest hd
      hindex hi hbase hrel hold hnew habove hrest hshort
    have hspells := fun (result : CDictionaryBasedTempPath) hresult =>
      @spells_iff_of_short d result new rest (lastNames old) hd hinit hnames hrestNames hresult
    rw [and_iff_right hshort, ← lastNames_eq_nil]
    constructor
    · rintro ⟨result, hresult, h⟩
      exact (hspells result ((hiff result).mp hresult)).mp h
    · exact fun h => ⟨_, (hiff _).mpr rfl, (hspells _ rfl).mpr h⟩
  · refine iff_of_false ?_ fun h => hshort h.1
    rintro ⟨result, hresult, hspells⟩
    obtain ⟨mid, rfl⟩ := habove
    obtain rfl : rest = mid ++ path.relPathElements := by
      rw [List.append_assoc] at hrest
      exact (List.append_cancel_left hrest).symm
    exact not_spells_of_long hd hinit hbase hrel hnames hshort
      ((replaceParent_iff hd hindex hi hbase hrel hold hnew).mp hresult).2 hspells

/-- The condition on the root: it is both parents or none of them, or what is wrong with it does not
matter. -/
def RootFits (d : CPathDictionary) (old new rest : List (List UInt8)) : Prop :=
  old = [] ∧ new = [] ∧ rest ≠ [] ∨ old = [] ∧ new ≠ [] ∧ rest = [] ∨ old ≠ [] ∧ new ≠ [] ∨
    old ≠ [] ∧ new = [] ∧ ∀ k, ¬ d.Named k rest

theorem rootFits_iff : RootFits d old new rest ↔ (old = [] → new = [] ∨ rest = []) ∧
    (new ≠ [] ∨ old = [] ∧ rest ≠ [] ∨ ∀ k, ¬ d.Named k (new ++ rest)) := by
  unfold RootFits
  by_cases hnew : new = []
  · rw [hnew, List.nil_append]
    by_cases hold : old = []
    · by_cases hrest : rest = []
      · rw [hrest]
        have hroot : ¬ ∀ k, ¬ d.Named k [] := fun h => h 0 .root
        simp [hold, hroot]
      · simp [hold, hrest]
    · simp [hold]
  · by_cases hold : old = [] <;> simp [hnew, hold]

/-- **`ReplaceParent` gives the path below the new parent iff the paths are not too long and the root
is both parents or none of them**, except that the root may be the old parent when nothing follows
it, and the new one when the path is not in the dictionary. -/
theorem follows_iff (hd : d.Built) (hinit : init.Extends d) (hindex : path.index = (i : Index))
    (hi : d.Named i base) (hbase : PathNames base) (hrel : PathNames path.relPathElements)
    (hold : d.Named o old) (hnew : d.Named q new) (hnames : PathNames new) (habove : old <+: base)
    (hrest : base ++ path.relPathElements = old ++ rest) :
    Follows d path (o : Index) (q : Index) (new ++ rest) ↔
      (new.length ≤ maxPath ∧ (base.length ≤ maxPath ∨ old = base)) ∧ RootFits d old new rest := by
  have hrestNames : PathNames rest := fun e he =>
    (List.mem_append.mp (hrest ▸ List.mem_append_right old he)).elim (hbase e) (hrel e)
  have hspells := spells_iff hd hinit hindex hi hbase hrel hold hnew hnames habove hrest
  rw [rootFits_iff, ← and_assoc, ← hspells]
  constructor
  · rintro ⟨result, hresult, hresultSpells, hcached⟩
    have hboth := hspells.mp ⟨result, hresult, hresultSpells⟩
    refine ⟨⟨result, hresult, hresultSpells⟩, ?_⟩
    rw [replaceParent_iff_of_short hd hindex hi hbase hrel hold hnew habove hrest hboth.1] at hresult
    rw [← lastNames_eq_nil] at hboth ⊢
    exact (cached_iff_of_spells hd hinit hnames hrestNames hresult hboth.2).mp hcached
  · rintro ⟨⟨result, hresult, hresultSpells⟩, hroot⟩
    have hboth := hspells.mp ⟨result, hresult, hresultSpells⟩
    refine ⟨result, hresult, hresultSpells, ?_⟩
    rw [replaceParent_iff_of_short hd hindex hi hbase hrel hold hnew habove hrest hboth.1] at hresult
    rw [← lastNames_eq_nil] at hboth hroot
    exact (cached_iff_of_spells hd hinit hnames hrestNames hresult hboth.2).mpr hroot

end Replacing

/-- The dictionary of the path `/a`. -/
def onePath : CPathDictionary := (init.parsePath [47, 97]).1

theorem canonicallyBuilt_onePath : CanonicallyBuilt onePath :=
  @CanonicallyBuilt.parsePath init [[97]] .init ⟨by decide, by decide, by decide⟩

theorem onePath_named : onePath.Named 1 [[97]] :=
  (Built.init.parsePath [47, 97]).2.2

/-- The path `/a/b`, when `/a` is replaced by itself. -/
theorem follows_iff_same :
    Follows onePath ⟨(1 : ℕ), [[98]]⟩ (1 : ℕ) (1 : ℕ) [[97], [98]] := by
  obtain ⟨hbuilt, hinit⟩ := Built.init.grows canonicallyBuilt_onePath.grows
  exact (@follows_iff onePath ⟨(1 : ℕ), [[98]]⟩ 1 1 1 [[97]] [[97]] [[97]] [[98]] hbuilt hinit rfl
    onePath_named (by decide) (by decide) onePath_named onePath_named (by decide)
    (List.prefix_refl _) rfl).mpr
      ⟨⟨by decide, .inr rfl⟩, .inr (.inr (.inl ⟨by decide, by decide⟩))⟩

/-- When the root is replaced by `/a`, the path `/b` becomes `/ab`. -/
theorem replaceParent_glues : ¬ ∀ d, d.Built → init.Extends d →
    ∀ (path : CDictionaryBasedTempPath) (i o q : ℕ) (base old new rest : List (List UInt8)),
      path.index = (i : Index) → d.Named i base → PathNames base → PathNames path.relPathElements →
      d.Named o old → d.Named q new → PathNames new → old <+: base →
      base ++ path.relPathElements = old ++ rest →
      Follows d path (o : Index) (q : Index) (new ++ rest) := by
  intro h
  obtain ⟨hbuilt, hinit⟩ := Built.init.grows canonicallyBuilt_onePath.grows
  have hrel : PathNames [[98]] := by decide
  have hroot : PathNames [] := by decide
  obtain ⟨result, hreplace, ⟨i, base, hindex, hi, hspells⟩, -⟩ :=
    h onePath hbuilt hinit ⟨(0 : ℕ), [[98]]⟩ 0 0 1 [] [] [[97]] [[98]] rfl .root hroot hrel .root
      onePath_named (by decide) (List.prefix_refl _) rfl
  have hresult := ((@replaceParent_iff onePath ⟨(0 : ℕ), [[98]]⟩ result 0 0 1 [] [] [[97]] hbuilt
    rfl .root hroot hrel .root onePath_named).mp hreplace).2
  have htemp : tempPath onePath [47, 97, 98] = ⟨(0 : ℕ), [[97, 98]]⟩ := by decide
  have hglued : result = ⟨(0 : ℕ), [[97, 98]]⟩ := hresult.trans htemp
  rw [hglued] at hindex hspells
  obtain rfl : 0 = i := Nat.cast_injective (R := Index) hindex
  obtain rfl := hi.unique .root
  exact absurd hspells (by decide)

end CDictionaryBasedTempPath

end TortoiseSvn.LogCache
