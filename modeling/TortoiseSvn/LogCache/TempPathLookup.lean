import TortoiseSvn.LogCache.PathParsing
import TortoiseSvn.LogCache.TempPath

/-!
# Repeated lookup

When the dictionary has grown, `RepeatLookup` moves elements of a path from its text into its base.
The path keeps its elements, and its base is as long as possible afterwards.

`GetPath` prints the last `MAX_PATH` elements of the base only, but all elements behind it. A path
that is too long therefore loses a part of its string when more of it gets cached.

Main result: `repeatLookup_spec`.
-/

namespace TortoiseSvn.LogCache

open TortoiseSvn.Lib

namespace CPathDictionary

/-! ### The string of a list of names -/

/-- All names behind slashes, the root being a single slash. -/
def pathText (ns : List (List UInt8)) : List UInt8 := if ns = [] then [47] else canonicalPath ns

/-- What `GetPath` prints of a long list of names. -/
def lastNames (ns : List (List UInt8)) : List (List UInt8) := ns.drop (ns.length - maxPath)

section Texts

variable {ns ms : List (List UInt8)}

theorem pathString_eq (ns : List (List UInt8)) : pathString ns = pathText (lastNames ns) := rfl

@[simp] theorem pathText_nil : pathText [] = [47] := rfl

theorem pathText_of_ne (h : ns ≠ []) : pathText ns = canonicalPath ns := if_neg h

theorem canonicalPath_append (ns ms : List (List UInt8)) :
    canonicalPath (ns ++ ms) = canonicalPath ns ++ canonicalPath ms := List.flatMap_append

theorem canonicalPath_singleton (e : List UInt8) : canonicalPath [e] = 47 :: e := by
  rw [canonicalPath, List.flatMap_singleton]

theorem canonicalPath_length (ns : List (List UInt8)) :
    (canonicalPath ns).length = (ns.map fun e => e.length + 1).sum := by
  rw [canonicalPath, List.length_flatMap]
  rfl

theorem lastNames_of_le (h : ns.length ≤ maxPath) : lastNames ns = ns := by
  rw [lastNames, Nat.sub_eq_zero_of_le h, List.drop_zero]

theorem lastNames_eq_nil : lastNames ns = [] ↔ ns = [] := by
  rw [lastNames, List.drop_eq_nil_iff, ← List.length_eq_zero_iff]
  unfold maxPath
  omega

end Texts

end CPathDictionary

namespace CDictionaryBasedTempPath

open CPathDictionary

/-! ### Operations -/

/-- Look up a path, with the elements that are not there as text.
Source: `DictionaryBasedTempPath.cpp` `CDictionaryBasedTempPath::CDictionaryBasedTempPath` -/
def tempPath (d : CPathDictionary) (path : List UInt8) : CDictionaryBasedTempPath :=
  let s := parse false true d path
  ⟨s.index, s.relPathElements⟩

/-- The loop of `GetPath`: no slash is added if the base path is a slash.
Source: `DictionaryBasedTempPath.cpp` `CDictionaryBasedTempPath::GetPath` -/
def appendElements : List UInt8 → List (List UInt8) → List UInt8
  | result, [] => result
  | result, e :: rest =>
    let result := if 1 < result.length then result ++ [47] else result
    appendElements (result ++ e) rest

/-- Source: `DictionaryBasedTempPath.cpp` `CDictionaryBasedTempPath::GetPath` -/
def GetPath (d : CPathDictionary) (path : CDictionaryBasedTempPath) (text : List UInt8) : Prop :=
  ∃ base, d.GetPath path.index base ∧ text = appendElements base path.relPathElements

/-- Match the elements with cached paths, step by step: the index reached and the elements left.
Source: `DictionaryBasedTempPath.cpp` `CDictionaryBasedTempPath::RepeatLookup`, the loop -/
def lookupLoop (d : CPathDictionary) (currentIndex : Index) :
    List (List UInt8) → Index × List (List UInt8)
  | [] => (currentIndex, [])
  | e :: rest =>
    match d.find currentIndex (cString e 0) with
    | some nextIndex => lookupLoop d nextIndex rest
    | none => (currentIndex, e :: rest)

/-- Source: `DictionaryBasedTempPath.cpp` `CDictionaryBasedTempPath::RepeatLookup` -/
def repeatLookup (d : CPathDictionary) (path : CDictionaryBasedTempPath) :
    CDictionaryBasedTempPath :=
  match path.relPathElements with
  | [] => path
  | _ =>
    match lookupLoop d path.index path.relPathElements with
    | (currentIndex, []) =>
      -- a full match
      if path.index ≠ currentIndex then ⟨currentIndex, []⟩ else path
    | (currentIndex, rest) =>
      -- was there any progress?
      if rest.length ≠ path.relPathElements.length then ⟨currentIndex, rest⟩ else path

/-! ### Strings -/

section Strings

variable {d : CPathDictionary} {path : CDictionaryBasedTempPath} {i : ℕ}
  {base es ns : List (List UInt8)}

theorem appendElements_canonicalPath (h : 1 < (canonicalPath ns).length) (es : List (List UInt8)) :
    appendElements (canonicalPath ns) es = canonicalPath (ns ++ es) := by
  induction es generalizing ns with
  | nil => rw [List.append_nil]; rfl
  | cons e rest ih =>
    rw [appendElements, if_pos h, List.append_assoc, List.singleton_append,
      ← canonicalPath_singleton, ← canonicalPath_append, ih, List.append_assoc,
      List.singleton_append]
    rw [canonicalPath_append, List.length_append]
    exact Nat.lt_add_right _ h

/-- Behind the root, empty elements leave no trace before the first name. -/
theorem appendElements_root (es : List (List UInt8)) :
    appendElements [47] es = pathText (es.dropWhile fun e => e = []) := by
  induction es with
  | nil => rfl
  | cons e rest ih =>
    rw [appendElements]
    by_cases he : e = []
    · rw [he, List.dropWhile_cons_of_pos (by simp), ← ih]
      rfl
    · rw [List.dropWhile_cons_of_neg (by simpa using he), pathText_of_ne (List.cons_ne_nil _ _)]
      have hlong : 1 < (canonicalPath [e]).length := by
        rw [canonicalPath_singleton, List.length_cons]
        exact Nat.succ_lt_succ (List.length_pos_iff.mpr he)
      have happend := appendElements_canonicalPath hlong rest
      rw [canonicalPath_singleton] at happend
      exact happend

theorem one_lt_canonicalPath (hne : ns ≠ []) (hns : ∀ e ∈ ns, e ≠ []) :
    1 < (canonicalPath ns).length := by
  obtain ⟨e, rest, rfl⟩ := List.exists_cons_of_ne_nil hne
  have he := List.length_pos_iff.mpr (hns e List.mem_cons_self)
  rw [canonicalPath_length, List.map_cons, List.sum_cons]
  omega

/-- The string of a base and the elements behind it. -/
theorem appendElements_pathText (hns : ∀ e ∈ ns ++ es, e ≠ []) :
    appendElements (pathText ns) es = pathText (ns ++ es) := by
  obtain ⟨hns, hes⟩ := List.forall_mem_append.mp hns
  rcases eq_or_ne ns [] with rfl | hne
  · rw [pathText_nil, appendElements_root, List.nil_append]
    congr 1
    cases es with
    | nil => rfl
    | cons e rest =>
      exact List.dropWhile_cons_of_neg (by simpa using hes e List.mem_cons_self)
  · rw [pathText_of_ne hne, pathText_of_ne (List.append_ne_nil_of_left_ne_nil hne _)]
    exact appendElements_canonicalPath (one_lt_canonicalPath hne hns) es

theorem getPath_iff (hd : d.Built) (hindex : path.index = (i : Index)) (hi : d.Named i base)
    {text : List UInt8} :
    GetPath d path text ↔ text = appendElements (pathString base) path.relPathElements := by
  rw [GetPath, hindex]
  constructor
  · rintro ⟨s, hs, rfl⟩
    rw [(hd.getPath_iff hi).mp hs]
  · exact fun htext => ⟨_, (hd.getPath_iff hi).mpr rfl, htext⟩

/-- A path without empty elements is printed without the elements that its base has too many. -/
theorem getPath_iff_drop (hd : d.Built) (hindex : path.index = (i : Index)) (hi : d.Named i base)
    (hne : ∀ e ∈ base ++ path.relPathElements, e ≠ []) {text : List UInt8} :
    GetPath d path text ↔
      text = pathText ((base ++ path.relPathElements).drop (base.length - maxPath)) := by
  have hdrop : (base ++ path.relPathElements).drop (base.length - maxPath) =
      lastNames base ++ path.relPathElements :=
    List.drop_append_of_le_length (Nat.sub_le _ _)
  rw [getPath_iff hd hindex hi, pathString_eq, hdrop, appendElements_pathText]
  rw [← hdrop]
  exact fun e he => hne e (List.mem_of_mem_drop he)

/-- A string gets shorter when names are left out. -/
theorem pathText_drop_inj (hne : ∀ e ∈ ns, e ≠ []) {m n : ℕ} (hmn : m < n) (hn : n < ns.length) :
    pathText (ns.drop m) ≠ pathText (ns.drop n) := by
  have hsplit : ns.drop m = (ns.drop m).take (n - m) ++ ns.drop n := by
    conv_lhs => rw [← List.take_append_drop (n - m) (ns.drop m)]
    rw [List.drop_drop, Nat.add_sub_cancel' hmn.le]
  have hleft : (ns.drop m).take (n - m) ≠ [] := by
    rw [ne_eq, List.take_eq_nil_iff, List.drop_eq_nil_iff]
    omega
  have hright : ns.drop n ≠ [] := by
    rw [ne_eq, List.drop_eq_nil_iff]
    omega
  intro heq
  have hlength := congrArg List.length heq
  rw [pathText_of_ne hright, hsplit, pathText_of_ne (List.append_ne_nil_of_left_ne_nil hleft _),
    canonicalPath_append, List.length_append] at hlength
  have hpos := one_lt_canonicalPath hleft fun e he =>
    hne e (List.mem_of_mem_drop (List.mem_of_mem_take he))
  omega

end Strings

/-! ### Repeated lookup -/

section Repeat

variable {d d' : CPathDictionary} {path : CDictionaryBasedTempPath} {i : ℕ}
  {base es ns : List (List UInt8)}

/-- A text without a terminator is a C string. -/
theorem cString_eq {e : List UInt8} (h : (0 : UInt8) ∉ e) : cString e 0 = e := by
  rw [cString, List.drop_zero, List.takeWhile_eq_self_iff]
  exact fun b hb => decide_eq_true fun h0 => h (h0 ▸ hb)

/-- The loop moves elements into the index until one is not there. -/
theorem lookupLoop_spec (hd : d.Built) (hi : d.Named i ns) (hes : CStringDictionary.NulFree es) :
    ∃ (k : ℕ) (moved rest : List (List UInt8)), lookupLoop d (i : Index) es = ((k : Index), rest) ∧
      es = moved ++ rest ∧ d.Named k (ns ++ moved) ∧
      (∀ e rest', rest = e :: rest' → ∀ j, ¬ d.Named j (ns ++ moved ++ [e])) ∧
      (moved = [] ↔ k = i) := by
  induction es generalizing i ns with
  | nil => exact ⟨i, [], [], rfl, rfl, by rwa [List.append_nil], nofun, iff_of_true rfl rfl⟩
  | cons e rest ih =>
    obtain ⟨he, hrest⟩ := List.forall_mem_cons.mp hes
    rw [lookupLoop, cString_eq he]
    cases hfind : d.find (i : Index) e with
    | none =>
      refine ⟨i, [], e :: rest, rfl, rfl, by rwa [List.append_nil], ?_, iff_of_true rfl rfl⟩
      rintro e' rest' heq
      rw [← (List.cons.inj heq).1, List.append_nil]
      exact (hd.find_eq_none hi).mp hfind
    | some j =>
      have hj := hd.named_of_find hi hfind
      obtain ⟨k, moved, rest', hloop, hsplit, hk, hmax, -⟩ := ih hj hrest
      have happend : ns ++ e :: moved = ns ++ [e] ++ moved := List.append_cons ns e moved
      refine ⟨k, e :: moved, rest', hloop, by rw [hsplit, List.cons_append], by rwa [happend], ?_,
        iff_of_false (List.cons_ne_nil _ _) ?_⟩
      · rw [happend]
        exact hmax
      · rintro rfl
        have hlen := congrArg List.length (hk.unique hi)
        simp at hlen

/-- The path keeps its elements, and its base becomes as long as it can be. -/
theorem repeatLookup_denotes (hd : d.Built) (hindex : path.index = (i : Index))
    (hi : d.Named i base) (hrel : CStringDictionary.NulFree path.relPathElements) :
    ∃ (i' : ℕ) (moved : List (List UInt8)),
      Denotes d (repeatLookup d path) i' (base ++ moved) (base ++ path.relPathElements) ∧
      (moved = [] → repeatLookup d path = path) := by
  obtain ⟨index, rel⟩ := path
  subst hindex
  rw [repeatLookup]
  dsimp only at hrel ⊢
  cases rel with
  | nil => exact ⟨i, [], by rw [List.append_nil]; exact denotes_cached hi, fun _ => rfl⟩
  | cons e es =>
    obtain ⟨k, moved, rest, hloop, hsplit, hk, hmax, hmoved⟩ := lookupLoop_spec hd hi hrel
    have hdenotes : Denotes d ⟨(k : Index), rest⟩ k (base ++ moved) (base ++ (e :: es)) :=
      ⟨rfl, hk, by rw [hsplit, List.append_assoc], hmax⟩
    refine ⟨k, moved, ?_, ?_⟩
    all_goals
      dsimp only
      rw [hloop]
    · cases rest with
      | nil =>
        dsimp only
        have hne : ¬ k = i := fun hki => by
          rw [hmoved.mpr hki] at hsplit
          exact absurd hsplit (List.cons_ne_nil _ _)
        rw [if_pos fun hik => hne (Nat.cast_injective (R := Index) hik).symm]
        exact hdenotes
      | cons e' rest =>
        dsimp only
        split
        · exact hdenotes
        · rename_i hlen
          have hnil : moved = [] := by
            rw [← List.length_eq_zero_iff]
            rw [hsplit, List.length_append] at hlen
            omega
          obtain rfl := hmoved.mp hnil
          rw [← show e :: es = e' :: rest by rw [hsplit, hnil]; rfl] at hdenotes
          exact hdenotes
    · intro hnil
      rw [hmoved.mp hnil]
      have hrest : rest = e :: es := by rw [hsplit, hnil, List.nil_append]
      rw [hrest]
      dsimp only
      rw [if_neg (not_not.mpr rfl)]

/-- A base that is as long as possible stays. -/
theorem Denotes.repeatLookup (h : Denotes d path i base ns) (hd : d.Built)
    (hrel : CStringDictionary.NulFree path.relPathElements) :
    CDictionaryBasedTempPath.repeatLookup d path = path := by
  obtain ⟨i', moved, hdenotes, hsame⟩ := repeatLookup_denotes hd h.index h.named hrel
  apply hsame
  have hpre := h.prefix_base hdenotes.named (h.names ▸ hdenotes.base_prefix)
  simpa using hpre.length_le

/-- **`RepeatLookup` keeps the elements of a path and makes its base as long as possible.** The
string of the path stays the same iff not too many elements are cached afterwards, or none was
moved. -/
theorem repeatLookup_spec (hd : d.Built) (hlater : Grows d d') (hindex : path.index = (i : Index))
    (hi : d.Named i base)
    (hnames : ∀ e ∈ base ++ path.relPathElements, e ≠ [] ∧ (0 : UInt8) ∉ e) :
    ∃ (i' : ℕ) (base' : List (List UInt8)),
      Denotes d' (repeatLookup d' path) i' base' (base ++ path.relPathElements) ∧
      repeatLookup d' (repeatLookup d' path) = repeatLookup d' path ∧
      ((∀ text, GetPath d' (repeatLookup d' path) text ↔ GetPath d' path text) ↔
        base'.length ≤ maxPath ∨ repeatLookup d' path = path) := by
  obtain ⟨hd', hext⟩ := hd.grows hlater
  have hi' := hi.extends hd hext
  have hrel : CStringDictionary.NulFree path.relPathElements := fun e he =>
    (hnames e (List.mem_append_right _ he)).2
  obtain ⟨k, moved, hdenotes, hsame⟩ := repeatLookup_denotes hd' hindex hi' hrel
  have hsub : ∀ e ∈ (repeatLookup d' path).relPathElements,
      e ∈ base ++ path.relPathElements := by
    intro e he
    rw [hdenotes.names]
    exact List.mem_append_right _ he
  refine ⟨k, base ++ moved, hdenotes, ?_, ?_⟩
  · exact hdenotes.repeatLookup hd' fun e he => (hnames e (hsub e he)).2
  have hne : ∀ e ∈ base ++ path.relPathElements, e ≠ [] := fun e he => (hnames e he).1
  have hbefore : ∀ text, GetPath d' path text ↔
      text = pathText ((base ++ path.relPathElements).drop (base.length - maxPath)) := fun text =>
    getPath_iff_drop hd' hindex hi' hne
  have hafter : ∀ text, GetPath d' (repeatLookup d' path) text ↔
      text = pathText ((base ++ path.relPathElements).drop
        ((base ++ moved).length - maxPath)) := by
    intro text
    rw [hdenotes.names]
    exact getPath_iff_drop hd' hdenotes.index hdenotes.named (by rw [← hdenotes.names]; exact hne)
  simp only [hbefore, hafter]
  rw [List.length_append]
  constructor
  · intro hall
    have heq := (hall _).mp rfl
    by_contra hcon
    obtain ⟨hlong, hmoved⟩ := not_or.mp hcon
    have hpos : 0 < moved.length := List.length_pos_iff.mpr fun hnil => hmoved (hsame hnil)
    have hlen := hdenotes.base_prefix.length_le
    rw [List.length_append] at hlen
    refine pathText_drop_inj hne ?_ ?_ heq.symm
    · unfold maxPath at hlong ⊢
      omega
    · unfold maxPath at hlong ⊢
      omega
  · rintro (hshort | hsame') text
    · rw [Nat.sub_eq_zero_of_le hshort,
        Nat.sub_eq_zero_of_le ((Nat.le_add_right _ _).trans hshort)]
    · have h := hafter text
      rw [hsame', List.length_append] at h
      exact h.symm.trans (hbefore text)

end Repeat

/-- A path is looked up again when it has been added. -/
theorem repeatLookup_spec_child : ∃ i base,
    Denotes (init.autoInsert (0 : ℕ) [97]).1
      (repeatLookup (init.autoInsert (0 : ℕ) [97]).1 ⟨(0 : ℕ), [[97]]⟩) i base [[97]] := by
  have hgrows : Grows init (init.autoInsert (0 : ℕ) [97]).1 :=
    .autoInsert .refl (by decide) (by decide)
  obtain ⟨i, base, hdenotes, -⟩ := @repeatLookup_spec _ _ ⟨(0 : ℕ), [[97]]⟩ 0 [] .init hgrows rfl
    .root (by decide)
  exact ⟨i, base, hdenotes⟩

/-- One name more than `GetPath` has room for. -/
def deepNames : List (List UInt8) := List.replicate (maxPath + 1) [97]

theorem pathNames_deepNames : PathNames deepNames := by
  intro e he
  rw [List.eq_of_mem_replicate he]
  decide

/-- A long path that gets cached as a whole loses its first element. -/
theorem repeatLookup_changes_path : ¬ ∀ d d', d.Built → Grows d d' →
    ∀ (path : CDictionaryBasedTempPath) (i : ℕ) (base : List (List UInt8)),
      path.index = (i : Index) → d.Named i base →
      (∀ e ∈ base ++ path.relPathElements, e ≠ [] ∧ (0 : UInt8) ∉ e) →
      ∀ text, GetPath d' path text → GetPath d' (repeatLookup d' path) text := by
  intro h
  have hlength : deepNames.length = maxPath + 1 := List.length_replicate
  have hne : deepNames ≠ [] := List.ne_nil_of_length_pos (hlength ▸ Nat.succ_pos _)
  have hnames : ∀ e ∈ deepNames, e ≠ [] := fun e he => (pathNames_deepNames e he).1
  obtain ⟨hbuilt, -, hdeep⟩ := Built.init.parsePath (canonicalPath deepNames)
  rw [pathNames_deepNames.namesOf hne] at hdeep
  have hgrows : Grows init (init.parsePath (canonicalPath deepNames)).1 := .parsePath .refl
  generalize (init.parsePath (canonicalPath deepNames)).1 = d' at hbuilt hdeep hgrows
  obtain ⟨k, moved, hdenotes, -⟩ := @repeatLookup_denotes d' ⟨(0 : ℕ), deepNames⟩ 0 [] hbuilt rfl
    .root fun e he => (pathNames_deepNames e he).2.2
  -- the whole path is cached afterwards
  obtain rfl : moved = deepNames :=
    (hdenotes.base_prefix.eq_of_length_le (hdenotes.prefix_base hdeep (List.prefix_refl _)).length_le)
  have hbefore := (@getPath_iff_drop d' ⟨(0 : ℕ), deepNames⟩ 0 [] hbuilt rfl .root hnames _).mpr rfl
  have hafter := h _ _ .init hgrows ⟨(0 : ℕ), deepNames⟩ 0 [] rfl .root
    (fun e he => ⟨hnames e he, (pathNames_deepNames e he).2.2⟩) _ hbefore
  rw [getPath_iff_drop hbuilt hdenotes.index hdenotes.named (by rw [← hdenotes.names]; exact hnames),
    ← hdenotes.names] at hafter
  refine pathText_drop_inj hnames ?_ ?_ hafter
  · rw [List.nil_append, hlength]
    decide
  · rw [List.nil_append, hlength]
    decide

end CDictionaryBasedTempPath

end TortoiseSvn.LogCache
