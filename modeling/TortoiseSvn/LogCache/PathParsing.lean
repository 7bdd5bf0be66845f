import TortoiseSvn.LogCache.PathRuns

/-!
# Parsing paths

`ParsePath` works on a copy of the path, in which it overwrites each slash by a terminator before it
looks up the element that ends there. What happens to an element that is not found depends on the
caller: it is added, it is kept as text, or it ends the parsing.

Main results: `parseBody_returns`, the scanning gives the parts of the path between the slashes, and
`parse_and_print`, the index of a canonical path gives that path back for ever.
-/

namespace TortoiseSvn.LogCache

open TortoiseSvn.Lib

namespace CPathDictionary

/-! ### The elements of a path -/

/-- What `ParsePath` has found so far: the dictionary, the index of the path object, the elements
that are kept as text, and the index to go on from. -/
structure ParseState where
  dictionary : CPathDictionary
  index : Index
  relPathElements : List (List UInt8)
  currentIndex : Index
  deriving DecidableEq

/-- Try to move to the next sub-path; the result is `none` when this is the end. The flags say which
of the pointers `writableDictionary` and `relPath` is set.
Source: `PathDictionary.cpp` `CDictionaryBasedPath::ParsePath`, one round -/
def parseElement (writable relative : Bool) (s : ParseState) (pathElement : List UInt8) :
    Option ParseState :=
  match s.dictionary.find s.currentIndex pathElement with
  | some nextIndex => some { s with index := nextIndex, currentIndex := nextIndex }
  | none =>
    if writable then
      let (dictionary, nextIndex) := s.dictionary.insert s.currentIndex pathElement
      some { s with dictionary := dictionary, index := nextIndex, currentIndex := nextIndex }
    else if relative then
      some { s with relPathElements := s.relPathElements ++ [pathElement], currentIndex := ⊤ }
    else none

/-- The path elements one after the other. -/
def parseElements (writable relative : Bool) : ParseState → List (List UInt8) → ParseState
  | s, [] => s
  | s, pathElement :: rest =>
    match parseElement writable relative s pathElement with
    | none => s
    | some s' => parseElements writable relative s' rest

/-- Parse a path from the root on.
Source: `PathDictionary.cpp` `CDictionaryBasedPath::ParsePath` -/
def parse (writable relative : Bool) (d : CPathDictionary) (path : List UInt8) : ParseState :=
  if path = [] then ⟨d, (0 : ℕ), [], (0 : ℕ)⟩
  else parseElements writable relative ⟨d, (0 : ℕ), [], (0 : ℕ)⟩ (elementsOf path)

/-- The index of a path, or of the last parent that is there.
Source: `PathDictionary.cpp` `CDictionaryBasedPath::CDictionaryBasedPath (aDictionary, path)` -/
def lookup (d : CPathDictionary) (path : List UInt8) : Index := (parse false false d path).index

/-! ### The scanning -/

/-- `std::string::find` of a slash. -/
def findSlash (temp : List UInt8) (pos : ℕ) : Option ℕ :=
  ((temp.drop pos).findIdx? fun b => b = 47).map fun n => pos + n

/-- The C string at a position. -/
def cString (temp : List UInt8) (pos : ℕ) : List UInt8 := (temp.drop pos).takeWhile fun b => b ≠ 0

/-- The local variables of `ParsePath`: `start` is `pos + 1`. -/
structure Scanner where
  state : ParseState
  temp : List UInt8
  start : ℕ
  nextPos : Option ℕ

/-- One round of the loop of `ParsePath`.
Source: `PathDictionary.cpp` `CDictionaryBasedPath::ParsePath` -/
def parseBody (writable relative : Bool) (s : Scanner) : Except Fault (Scanner ⊕ ParseState) :=
  -- terminate the current path element properly
  let temp := match s.nextPos with
    | some nextPos => s.temp.set nextPos 0
    | none => s.temp
  match parseElement writable relative s.state (cString temp s.start) with
  | none => .ok (.inr s.state)
  | some state =>
    match s.nextPos with
    | some nextPos => .ok (.inl ⟨state, temp, nextPos + 1, findSlash temp nextPos⟩)
    | none => .ok (.inr state)

/-- The loop begins behind a leading slash. -/
def scannerOf (state : ParseState) (path : List UInt8) : Scanner :=
  let start := if path.head? = some 47 then 1 else 0
  ⟨state, path, start, findSlash path start⟩

section Scanning

variable {writable relative : Bool}

theorem findSlash_append (front rest : List UInt8) :
    findSlash (front ++ rest) front.length =
      (rest.findIdx? fun b => b = 47).map fun n => front.length + n := by
  rw [findSlash, List.drop_left]

theorem cString_append (front rest : List UInt8) :
    cString (front ++ rest) front.length = rest.takeWhile fun b => b ≠ 0 := by
  rw [cString, List.drop_left]

/-- What is up to the next slash, cut at a terminator. -/
theorem cString_terminated (front part rest : List UInt8) :
    cString (front ++ (part ++ 0 :: rest)) front.length = part.takeWhile fun b => b ≠ 0 := by
  rw [cString_append]
  induction part with
  | nil => rfl
  | cons b part ih => simp only [List.cons_append, List.takeWhile_cons, ih]

/-- A text has no slash or begins with a part up to its first one. -/
theorem slash_cases (rest : List UInt8) : (47 : UInt8) ∉ rest ∨
    ∃ part rest', rest = part ++ 47 :: rest' ∧ (47 : UInt8) ∉ part := by
  by_cases hmem : (47 : UInt8) ∈ rest
  · obtain ⟨part, rest', rfl, hpart⟩ := List.eq_append_cons_of_mem hmem
    exact .inr ⟨part, rest', rfl, hpart⟩
  · exact .inl hmem

theorem findIdx?_slash_none {rest : List UInt8} (h : (47 : UInt8) ∉ rest) :
    (rest.findIdx? fun b => b = 47) = none := by
  rw [List.findIdx?_eq_none_iff]
  intro b hb
  exact decide_eq_false fun heq => h (heq ▸ hb)

theorem findIdx?_slash {part : List UInt8} (h : (47 : UInt8) ∉ part) (rest : List UInt8) :
    ((part ++ 47 :: rest).findIdx? fun b => b = 47) = some part.length := by
  rw [List.findIdx?_append, findIdx?_slash_none h, List.findIdx?_cons, if_pos (by decide),
    Option.none_or, Option.map_some, Nat.zero_add]

/-- A slash that was overwritten is not found again. -/
theorem findSlash_terminated (front rest : List UInt8) :
    findSlash (front ++ 0 :: rest) front.length =
      findSlash ((front ++ [0]) ++ rest) (front ++ [0]).length := by
  rw [findSlash_append, findSlash_append, List.findIdx?_cons, if_neg (by decide), Option.map_map,
    List.length_append, List.length_singleton]
  congr 1
  funext n
  simp only [Function.comp_apply]
  omega

/-- The scanning of what is left of a path. -/
theorem parseBody_loop (s : ParseState) (front rest : List UInt8) :
    Returns (parseBody writable relative)
      ⟨s, front ++ rest, front.length, findSlash (front ++ rest) front.length⟩
      (parseElements writable relative s
        ((rest.splitOn 47).map (List.takeWhile fun b => b ≠ 0))) := by
  induction hn : rest.length using Nat.strong_induction_on generalizing s front rest with
  | _ n ih =>
    rcases slash_cases rest with hmem | ⟨part, rest', rfl, hpart⟩
    · -- the last element
      rw [findSlash_append, findIdx?_slash_none hmem, List.splitOn_eq_singleton hmem]
      refine .leave ?_
      rw [parseBody]
      simp only [Option.map_none, List.map_cons, List.map_nil, parseElements, cString_append]
      cases parseElement writable relative s (rest.takeWhile fun b => b ≠ 0) <;> rfl
    · have hset : (front ++ (part ++ 47 :: rest')).set (front.length + part.length) 0 =
          front ++ (part ++ 0 :: rest') := by
        rw [List.set_append_right _ _ (Nat.le_add_right _ _), Nat.add_sub_cancel_left,
          List.set_append_right _ _ le_rfl, Nat.sub_self, List.set_cons_zero]
      rw [findSlash_append, findIdx?_slash hpart, List.splitOn_append_cons_self_of_not_mem hpart,
        List.map_cons, parseElements, Option.map_some]
      cases hs : parseElement writable relative s (part.takeWhile fun b => b ≠ 0) with
      | none =>
        refine .leave ?_
        rw [parseBody]
        simp only [hset, cString_terminated, hs]
      | some s' =>
        -- the slash is a terminator now, so the search goes on behind it
        have hnext := findSlash_terminated (front ++ part) rest'
        have htemp : front ++ (part ++ 0 :: rest') = (front ++ part ++ [0]) ++ rest' := by simp
        have hstart : front.length + part.length + 1 = (front ++ part ++ [0]).length := by
          simp [Nat.add_assoc]
        refine .round ?_ (ih rest'.length ?_ s' (front ++ part ++ [0]) rest' rfl)
        · rw [parseBody]
          simp only [hset, cString_terminated, hs]
          rw [← List.append_assoc, ← List.length_append, hnext, List.append_assoc, htemp,
            List.length_append, hstart]
        · rw [← hn, List.length_append, List.length_cons]
          omega

/-- **The scanning of a path gives its elements one after the other.** -/
theorem parseBody_returns (d : CPathDictionary) {path : List UInt8} (hpath : path ≠ []) :
    Returns (parseBody writable relative) (scannerOf ⟨d, (0 : ℕ), [], (0 : ℕ)⟩ path)
      (parse writable relative d path) := by
  rw [parse, if_neg hpath, scannerOf, elementsOf]
  by_cases hslash : path.head? = some 47
  · obtain ⟨rest, rfl⟩ : ∃ rest, path = [47] ++ rest := by
      cases path with
      | nil => exact absurd rfl hpath
      | cons b rest => exact ⟨rest, by rw [Option.some.inj hslash]; rfl⟩
    rw [if_pos hslash, if_pos hslash]
    exact parseBody_loop ⟨d, (0 : ℕ), [], (0 : ℕ)⟩ [47] rest
  · rw [if_neg hslash, if_neg hslash]
    exact parseBody_loop ⟨d, (0 : ℕ), [], (0 : ℕ)⟩ [] path

/-- The path "/a/b" in a new dictionary to which paths are added. -/
theorem parseBody_returns_two :
    Returns (parseBody true false) (scannerOf ⟨.init, (0 : ℕ), [], (0 : ℕ)⟩ [47, 97, 47, 98])
      (parse true false .init [47, 97, 47, 98]) :=
  parseBody_returns .init (by decide)

/-- With a writable dictionary, what is not there is added. -/
theorem parseElements_writable (elements : List (List UInt8)) (d : CPathDictionary) (i : ℕ) :
    parseElements true relative ⟨d, (i : Index), [], (i : Index)⟩ elements =
      ⟨(d.descend i elements).1, ((d.descend i elements).2 : Index), [],
        ((d.descend i elements).2 : Index)⟩ := by
  induction elements generalizing d i with
  | nil => rfl
  | cons e rest ih =>
    rw [parseElements, parseElement, descend]
    dsimp only
    cases d.find (i : Index) e with
    | some k => exact ih d k
    | none => exact ih _ _

theorem parse_writable (d : CPathDictionary) (path : List UInt8) :
    parse true relative d path = ⟨(d.parsePath path).1, ((d.parsePath path).2 : Index), [],
      ((d.parsePath path).2 : Index)⟩ := by
  rw [parse, CPathDictionary.parsePath]
  split
  · rfl
  · exact parseElements_writable (elementsOf path) d 0

end Scanning

/-! ### Looking up names -/

section Lookup

variable {d d' : CPathDictionary} {i k : ℕ} {ns es : List (List UInt8)}

/-- A pair is found at its position. -/
theorem Built.find_of_named (h : d.Built) (hi : d.Named i ns) {s : List UInt8}
    (hk : d.Named k (ns ++ [s])) : d.find i s = some k := by
  generalize hms : ns ++ [s] = ms at hk
  cases hk with
  | root => exact absurd hms (List.append_ne_nil_of_right_ne_nil _ (List.cons_ne_nil _ _))
  | @child _ j e ns' hpos hp hj =>
    obtain ⟨rfl, hget⟩ := List.append_inj' hms rfl
    obtain rfl := h.named_inj hi hj
    obtain ⟨e', he', hsize⟩ := h.elements k _ hpos hp
    obtain rfl := Nat.cast_injective (R := Index) he'
    unfold CPathDictionary.find
    cases hfind : d.pathElements.find s with
    | none =>
      have hnone := List.find?_eq_none.mp hfind e (List.mem_range.mpr hsize)
      exact absurd (decide_eq_true (List.cons.inj hget).1.symm) hnone
    | some e' =>
      obtain ⟨hlt, heq⟩ := h.pool.find hfind
      obtain rfl := h.pool.get_inj hsize hlt ((List.cons.inj hget).1.symm.trans heq.symm)
      exact Pool.find_of_getElem? h.nodup hp

theorem Built.find_eq_none (h : d.Built) (hi : d.Named i ns) {s : List UInt8} :
    d.find i s = none ↔ ∀ k, ¬ d.Named k (ns ++ [s]) := by
  constructor
  · intro hnone k hk
    rw [h.find_of_named hi hk] at hnone
    exact nomatch hnone
  · intro hall
    cases hfind : d.find i s with
    | none => rfl
    | some k => exact absurd (h.named_of_find hi hfind) (hall k)

/-- `GetDepth` counts the names. -/
theorem Named.depth_loop (hi : d.Named i ns) (n : ℕ) :
    Returns d.depthBody ((i : Index), n) (n + ns.length) := by
  induction hi generalizing n with
  | root => exact .leave rfl
  | @child i j e ns hpos hp _ ih =>
    have hparent : d.getParent (i : Index) = .ok (j : Index) := by
      rw [CPathDictionary.getParent, entry_coe hp]
      rfl
    have hrest := ih (n + 1)
    rw [Nat.add_right_comm, Nat.add_assoc] at hrest
    rw [List.length_append, List.length_singleton]
    refine .round ?_ hrest
    simp [depthBody, hparent, hpos.ne', bind, Except.bind, pure, Except.pure]

theorem Named.getDepth_iff (hi : d.Named i ns) {n : ℕ} :
    d.GetDepth (i : Index) n ↔ n = ns.length := by
  have hloop := hi.depth_loop 0
  rw [Nat.zero_add] at hloop
  exact ⟨fun hn => Returns.unique hn hloop, fun hn => hn ▸ hloop⟩

theorem Built.getPath_iff (h : d.Built) (hi : d.Named i ns) {path : List UInt8} :
    d.GetPath (i : Index) path ↔ path = pathString ns := by
  constructor
  · rintro ⟨elements, hr, hpath⟩
    obtain ⟨elements', hr', hpath'⟩ := h.getPath hi
    obtain rfl := hr.unique hr'
    rw [hpath, hpath']
  · intro hpath
    rw [hpath]
    exact h.getPath hi

/-- Elements that are all there lead to the path with these names. -/
theorem Built.parseElements_named (h : d.Built) {writable relative : Bool} (hi : d.Named i ns)
    (hk : d.Named k (ns ++ es)) (rel : List (List UInt8)) :
    parseElements writable relative ⟨d, (i : Index), rel, (i : Index)⟩ es =
      ⟨d, (k : Index), rel, (k : Index)⟩ := by
  induction es generalizing i ns with
  | nil =>
    rw [List.append_nil] at hk
    rw [h.named_inj hi hk]
    rfl
  | cons e rest ih =>
    rw [List.append_cons] at hk
    obtain ⟨j, hj⟩ := hk.of_prefix (List.prefix_append (ns ++ [e]) rest)
    rw [parseElements, parseElement, h.find_of_named hi hj]
    exact ih hj hk

/-- A path that is there is found, whatever is done with the elements that are not. -/
theorem Built.parse_named (h : d.Built) {writable relative : Bool} {path : List UInt8}
    (hk : d.Named k (namesOf path)) :
    parse writable relative d path = ⟨d, (k : Index), [], (k : Index)⟩ := by
  rw [parse]
  unfold namesOf at hk
  split at hk
  · rename_i hpath
    rw [if_pos hpath, h.named_inj hk .root]
  · rename_i hpath
    rw [if_neg hpath]
    exact h.parseElements_named .root hk []

end Lookup

/-! ### Canonical paths -/

/-- Names that can stand between slashes. -/
abbrev PathNames (es : List (List UInt8)) : Prop :=
  ∀ e ∈ es, e ≠ [] ∧ (47 : UInt8) ∉ e ∧ (0 : UInt8) ∉ e

/-- The elements of a canonical path: there are some, but not too many, and each is a name. -/
structure Canonical (es : List (List UInt8)) : Prop where
  nonempty : es ≠ []
  short : es.length ≤ maxPath
  names : PathNames es

/-- Every element behind a slash. -/
def canonicalPath (es : List (List UInt8)) : List UInt8 := es.flatMap (47 :: ·)

section Canonical

variable {es : List (List UInt8)}

theorem canonicalPath_eq (h : es ≠ []) : canonicalPath es = 47 :: [47].intercalate es := by
  unfold canonicalPath
  induction es with
  | nil => exact absurd rfl h
  | cons e rest ih =>
    cases rest with
    | nil => simp
    | cons e' rest =>
      rw [List.flatMap_cons, ih (List.cons_ne_nil _ _), List.intercalate_cons_cons]
      simp

/-- No name is cut. -/
theorem PathNames.map_takeWhile (h : PathNames es) :
    es.map (List.takeWhile fun b => b ≠ 0) = es := by
  conv_rhs => rw [← List.map_id es]
  refine List.map_congr_left fun e he => ?_
  rw [List.takeWhile_eq_self_iff.mpr]
  · rfl
  · intro b hb
    exact decide_eq_true fun h0 => (h e he).2.2 (h0 ▸ hb)

theorem PathNames.splitOn (h : PathNames es) (hne : es ≠ []) :
    (([47].intercalate es).splitOn 47).map (List.takeWhile fun b => b ≠ 0) = es := by
  rw [List.splitOn_intercalate 47 (fun e he => (h e he).2.1) hne, h.map_takeWhile]

/-- A canonical path has its elements as names. -/
theorem PathNames.namesOf (h : PathNames es) (hne : es ≠ []) :
    namesOf (canonicalPath es) = es := by
  rw [canonicalPath_eq hne, CPathDictionary.namesOf, if_neg (List.cons_ne_nil _ _),
    elementsOf, List.head?_cons, if_pos rfl, List.tail_cons, h.splitOn hne]

/-- The leading slash may be left out. -/
theorem PathNames.namesOf_tail (h : PathNames es) (hne : es ≠ []) :
    CPathDictionary.namesOf (canonicalPath es).tail = es := by
  have htail : (canonicalPath es).tail = [47].intercalate es := by
    rw [canonicalPath_eq hne, List.tail_cons]
  obtain ⟨e, rest, rfl⟩ := List.exists_cons_of_ne_nil hne
  obtain ⟨hne', hslash, -⟩ := h e List.mem_cons_self
  obtain ⟨b, e', rfl⟩ := List.exists_cons_of_ne_nil hne'
  -- the path begins with a character of its first element
  have hhead : ∃ tail, [47].intercalate ((b :: e') :: rest) = b :: tail := by
    cases rest with
    | nil => exact ⟨e', List.intercalate_singleton⟩
    | cons e'' rest => exact ⟨_, List.intercalate_cons_cons_left⟩
  obtain ⟨tail, hhead⟩ := hhead
  have hb : ¬ (b :: tail).head? = some 47 := by
    rw [List.head?_cons, Option.some_inj]
    rintro rfl
    exact hslash List.mem_cons_self
  have hsplit := h.splitOn hne
  rw [hhead] at hsplit
  rw [htail, hhead, CPathDictionary.namesOf, if_neg (List.cons_ne_nil _ _), elementsOf, if_neg hb,
    hsplit]

/-- `GetPath` prints a canonical path. -/
theorem Canonical.pathString (h : Canonical es) : pathString es = canonicalPath es := by
  rw [CPathDictionary.pathString, Nat.sub_eq_zero_of_le h.short, List.drop_zero, if_neg h.nonempty,
    canonicalPath]

end Canonical

/-! ### Insertions -/

/-- A dictionary to which paths are added, either below a path that is there or as a whole. -/
inductive Grows (d : CPathDictionary) : CPathDictionary → Prop
  | refl : Grows d d
  | autoInsert {d' : CPathDictionary} {parent : ℕ} {pathElement : List UInt8} : Grows d d' →
    parent < d'.size → (0 : UInt8) ∉ pathElement → Grows d (d'.autoInsert parent pathElement).1
  | parsePath {d' : CPathDictionary} {path : List UInt8} : Grows d d' →
    Grows d (d'.parsePath path).1

theorem Built.grows {d d' : CPathDictionary} (h : d.Built) (hgrows : Grows d d') :
    d'.Built ∧ d.Extends d' := by
  induction hgrows with
  | refl => exact ⟨h, .refl d⟩
  | autoInsert _ hparent hs ih =>
    obtain ⟨ns, hns⟩ := ih.1.exists_named hparent
    obtain ⟨hbuilt, hext, -⟩ := ih.1.autoInsert hns hs
    exact ⟨hbuilt, ih.2.trans hext⟩
  | @parsePath d' path _ ih =>
    obtain ⟨hbuilt, hext, -⟩ := ih.1.parsePath path
    exact ⟨hbuilt, ih.2.trans hext⟩

end CPathDictionary

end TortoiseSvn.LogCache
