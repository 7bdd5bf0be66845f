import TortoiseSvn.LogCache.TempPathLookup

/-!
# Printing a path into a buffer

`GetPath (char*, size_t)` leaves out leading elements until the path fits into the buffer and copies
the others, each behind a slash, in chunks of eight bytes. The memory behind `result` is the list of
the bytes that were stored there; a chunk may end up to seven bytes behind its element.

Main result: `printsPath_iff`. When an element is left out, its slash is still counted, and nothing
is printed for the root.
-/

namespace TortoiseSvn.LogCache

open TortoiseSvn.Lib

namespace CPathDictionary

open CStringDictionary

/-! ### Collecting the elements -/

/-- Where a path element begins, and its size. -/
def elementPointer (e : CStringDictionary) (element : Index) : Except Fault (ℕ × ℕ) :=
  match element with
  | ⊤ => .error .undefined
  | (i : ℕ) => if i < e.size then .ok (e.offset i, e.getLength i) else .error .undefined

/-- One round of the loop that fills `pathElements` and `sizes`. They are filled bottom-up, so the
head of the list is their last entry.
Source: `PathDictionary.cpp` `CDictionaryBasedPath::CollectPathElements` -/
def collectPointersBody (d : CPathDictionary) :
    Index × List (ℕ × ℕ) → Except Fault ((Index × List (ℕ × ℕ)) ⊕ List (ℕ × ℕ))
  | (currentIndex, elements) =>
    if currentIndex ≠ (0 : ℕ) ∧ elements.length < maxPath then do
      let element ← d.getPathElementID currentIndex
      let pointer ← elementPointer d.pathElements element
      let parent ← d.getParent currentIndex
      return .inl (parent, pointer :: elements)
    else .ok (.inr elements)

/-- The result of `CollectPathElements`: the sizes, and one for each slash. -/
def totalSize (elements : List (ℕ × ℕ)) : ℕ := (elements.map Prod.snd).sum + elements.length

/-! ### Copying them -/

/-- Bytes are stored behind those that are in the memory already, or over them. -/
def store (memory : List UInt8) (target : ℕ) (bytes : List UInt8) : List UInt8 :=
  memory.take target ++ bytes ++ memory.drop (target + bytes.length)

/-- The "chunky" copy operation, as many rounds as it needs.
Source: `PathDictionary.cpp` `CDictionaryBasedPath::CopyPathElements` -/
def copyChunks (packed : List UInt8) : ℕ → ℕ → ℕ → List UInt8 → Except Fault (List UInt8)
  | 0, _, _, memory => .ok memory
  | n + 1, source, dest, memory =>
    if source + chunkSize ≤ packed.length then
      copyChunks packed n (source + chunkSize) (dest + chunkSize)
        (store memory dest ((packed.drop source).take chunkSize))
    else .error .undefined

/-- The memory, and the end of what is printed.
Source: `PathDictionary.cpp` `CDictionaryBasedPath::CopyPathElements` -/
def copyPathElements (packed : List UInt8) :
    List (ℕ × ℕ) → List UInt8 × ℕ → Except Fault (List UInt8 × ℕ)
  | [], printed => .ok printed
  | (source, elementSize) :: elements, (memory, target) => do
    let memory ← copyChunks packed ((elementSize + 7) / chunkSize) source (target + 1)
      (store memory target [47])
    copyPathElements packed elements (memory, target + 1 + elementSize)

/-- The loop that makes the path fit. It must not go on without elements.
Source: `PathDictionary.cpp` `CDictionaryBasedPath::GetPath (char*, size_t)` -/
def leaveOut (maxSize : ℕ) : List (ℕ × ℕ) → ℕ → Except Fault (List (ℕ × ℕ) × ℕ)
  | [], size => if size ≤ maxSize then .ok ([], size) else .error .undefined
  | element :: elements, size =>
    if size ≤ maxSize then .ok (element :: elements, size)
    else leaveOut maxSize elements (size - element.2)

/-- What is known after a call: the memory from `result` on, the end of the printed characters and
the pointer that is returned, both counted from `result`. -/
structure Printed where
  memory : List UInt8
  target : ℕ
  result : ℕ
  deriving DecidableEq

/-- The printed characters. -/
def Printed.text (p : Printed) : List UInt8 := p.memory.take p.target

/-- The path is made to fit and copied. -/
def printPointers (packed : List UInt8) (maxSize : ℕ) (elements : List (ℕ × ℕ)) :
    Except Fault Printed := do
  let (elements, size) ← leaveOut maxSize elements (totalSize elements)
  let (memory, target) ← copyPathElements packed elements ([], 0)
  return ⟨memory, target, size⟩

/-- `GetPath` of a valid path. Behind the packed strings, their container has some reserved memory.
Source: `PathDictionary.cpp` `CDictionaryBasedPath::GetPath (char*, size_t)` -/
def GetPathInto (d : CPathDictionary) (reserved : List UInt8) (index : Index) (maxSize : ℕ)
    (p : Printed) : Prop :=
  ∃ elements, Returns d.collectPointersBody (index, []) elements ∧
    printPointers (d.pathElements.packedStrings ++ reserved) maxSize elements = .ok p

/-! ### The memory -/

section Memory

variable {packed memory text bytes : List UInt8}

theorem store_nil (memory : List UInt8) (target : ℕ) : store memory target [] = memory := by
  rw [store, List.append_nil, List.length_nil, Nat.add_zero, List.take_append_drop]

/-- Two stores, one behind the other, are one. -/
theorem store_store {target : ℕ} (h : target ≤ memory.length) (xs ys : List UInt8) :
    store (store memory target xs) (target + xs.length) ys = store memory target (xs ++ ys) := by
  have hfront : (memory.take target ++ xs).length = target + xs.length := by
    rw [List.length_append, List.length_take_of_le h]
  unfold store
  rw [← hfront, List.take_left, List.drop_append, hfront, List.drop_eq_nil_of_le (by omega),
    List.nil_append, List.drop_drop, List.length_append, ← List.append_assoc]
  congr 2
  omega

/-- What was printed so far is not touched. -/
theorem store_prefix (h : text <+: memory) :
    text ++ bytes <+: store memory text.length bytes := by
  obtain ⟨rest, rfl⟩ := h
  rw [store, List.take_left]
  exact List.prefix_append _ _

theorem store_length {target : ℕ} (h : target ≤ memory.length) :
    (store memory target bytes).length = max memory.length (target + bytes.length) := by
  rw [store, List.length_append, List.length_append, List.length_take_of_le h, List.length_drop]
  omega

/-- The chunks are stored one behind the other. -/
theorem copyChunks_spec {n source target : ℕ} (hsource : source + n * chunkSize ≤ packed.length)
    (h : target ≤ memory.length) :
    copyChunks packed n source target memory =
      .ok (store memory target ((packed.drop source).take (n * chunkSize))) := by
  induction n generalizing source target memory with
  | zero => rw [copyChunks, Nat.zero_mul, List.take_zero, store_nil]
  | succ n ih =>
    rw [Nat.succ_mul] at hsource ⊢
    set chunk := (packed.drop source).take chunkSize with hchunk
    have hlength : chunk.length = chunkSize := by
      rw [hchunk, List.length_take_of_le]
      rw [List.length_drop]
      omega
    have hroom : target + chunkSize ≤ (store memory target chunk).length := by
      rw [store_length h, hlength]
      exact le_max_right _ _
    have hsplit : (packed.drop source).take (n * chunkSize + chunkSize) =
        chunk ++ (packed.drop (source + chunkSize)).take (n * chunkSize) := by
      rw [Nat.add_comm (n * chunkSize), List.take_add, List.drop_drop]
    rw [copyChunks, if_pos (by omega), ih (by omega) hroom, hsplit, ← store_store h, hlength]

end Memory

/-! ### The printed elements -/

/-- A name stands where its pointer says, and whole chunks can be read there. -/
structure Points (packed : List UInt8) (pointer : ℕ × ℕ) (name : List UInt8) : Prop where
  size : pointer.2 = name.length
  bytes : name <+: packed.drop pointer.1
  room : pointer.1 + name.length + 7 ≤ packed.length

section Elements

variable {packed memory text name : List UInt8} {pointer : ℕ × ℕ} {elements : List (ℕ × ℕ)}
  {names : List (List UInt8)}

/-- One element is printed behind a slash. -/
theorem Points.copy (h : Points packed pointer name) (htext : text <+: memory) :
    ∃ memory', copyChunks packed ((pointer.2 + 7) / chunkSize) pointer.1 (text.length + 1)
        (store memory text.length [47]) = .ok memory' ∧ text ++ 47 :: name <+: memory' ∧
      memory'.length ≤ max memory.length (text.length + 1 + name.length + 7) := by
  obtain ⟨hsize, ⟨rest, hbytes⟩, hroom⟩ := h
  have hslash : text ++ [47] <+: store memory text.length [47] := store_prefix htext
  have hlength : (text ++ [47]).length = text.length + 1 := List.length_append
  have hrounds : (name.length + 7) / chunkSize * chunkSize ≤ name.length + 7 :=
    Nat.div_mul_le_self _ _
  have henough : name.length ≤ (name.length + 7) / chunkSize * chunkSize := by
    unfold chunkSize
    omega
  set chunks := (packed.drop pointer.1).take ((name.length + 7) / chunkSize * chunkSize) with hchunks
  have hname : name <+: chunks := by
    rw [hchunks, ← hbytes, List.take_append, List.take_of_length_le henough]
    exact List.prefix_append _ _
  have hstored : text ++ 47 :: chunks <+:
      store (store memory text.length [47]) (text.length + 1) chunks := by
    rw [← hlength, ← List.singleton_append, ← List.append_assoc]
    exact store_prefix hslash
  refine ⟨store (store memory text.length [47]) (text.length + 1) chunks, ?_, ?_, ?_⟩
  · rw [hsize]
    exact copyChunks_spec (by omega) (hlength ▸ hslash.length_le)
  · exact ((List.prefix_append_right_inj text).mpr (List.prefix_cons_inj 47 |>.mpr hname)).trans
      hstored
  · rw [store_length (hlength ▸ hslash.length_le), store_length htext.length_le]
    have hchunk : chunks.length ≤ name.length + 7 :=
      (List.length_take_le _ _).trans hrounds
    rw [List.length_singleton]
    omega

/-- All elements are printed. -/
theorem copyPathElements_spec (h : List.Forall₂ (Points packed) elements names)
    (htext : text <+: memory) :
    ∃ memory', copyPathElements packed elements (memory, text.length) =
        .ok (memory', (text ++ canonicalPath names).length) ∧
      text ++ canonicalPath names <+: memory' ∧
      memory'.length ≤ max memory.length ((text ++ canonicalPath names).length + 7) := by
  induction h generalizing text memory with
  | nil =>
    rw [canonicalPath, List.flatMap_nil, List.append_nil]
    exact ⟨memory, rfl, htext, le_max_left _ _⟩
  | @cons pointer name elements names hpoints _ ih =>
    obtain ⟨memory₁, hcopy, hprefix, hlength₁⟩ := hpoints.copy htext
    obtain ⟨memory', hrest, hprefix', hlength'⟩ := ih hprefix
    have hsplit : text ++ canonicalPath (name :: names) =
        text ++ 47 :: name ++ canonicalPath names := by
      rw [canonicalPath, List.flatMap_cons, ← List.append_assoc]
      rfl
    have htarget : text.length + 1 + pointer.2 = (text ++ 47 :: name).length := by
      rw [hpoints.size, List.length_append, List.length_cons]
      omega
    rw [hsplit]
    refine ⟨memory', ?_, hprefix', hlength'.trans ?_⟩
    · rw [copyPathElements, hcopy]
      simp only [bind, Except.bind]
      rw [htarget, hrest]
    · have hmid : text.length + 1 + name.length = (text ++ 47 :: name).length := by
        rw [List.length_append, List.length_cons]
        omega
      rw [@List.length_append _ _ (canonicalPath names)] at hlength' ⊢
      omega

theorem totalSize_eq (h : List.Forall₂ (Points packed) elements names) :
    totalSize elements = (canonicalPath names).length := by
  rw [canonicalPath_length]
  induction h with
  | nil => rfl
  | cons hpoints _ ih =>
    rw [List.map_cons, List.sum_cons, ← ih, totalSize, totalSize, List.map_cons, List.sum_cons,
      List.length_cons, hpoints.size]
    omega

theorem leaveOut_fits {maxSize size : ℕ} (h : size ≤ maxSize) :
    leaveOut maxSize elements size = .ok (elements, size) := by
  cases elements with
  | nil => exact if_pos h
  | cons element elements => exact if_pos h

/-- The slashes of the elements that are left out are still counted. -/
theorem leaveOut_ok {maxSize k : ℕ} {rest : List (ℕ × ℕ)} {size : ℕ}
    (h : leaveOut maxSize elements (totalSize elements + k) = .ok (rest, size)) :
    ∃ front, elements = front ++ rest ∧ size = totalSize rest + front.length + k ∧
      (front = [] → totalSize elements + k ≤ maxSize) := by
  induction elements generalizing k with
  | nil =>
    rw [leaveOut] at h
    split at h
    · rename_i hle
      obtain ⟨rfl, rfl⟩ := Prod.mk.inj (Except.ok.inj h)
      exact ⟨[], rfl, rfl, fun _ => hle⟩
    · exact nomatch h
  | cons element elements ih =>
    rw [leaveOut] at h
    split at h
    · rename_i hle
      obtain ⟨rfl, rfl⟩ := Prod.mk.inj (Except.ok.inj h)
      exact ⟨[], rfl, rfl, fun _ => hle⟩
    · have hsize : totalSize (element :: elements) + k - element.2 = totalSize elements + (k + 1) := by
        unfold totalSize
        rw [List.map_cons, List.sum_cons, List.length_cons]
        omega
      rw [hsize] at h
      obtain ⟨front, rfl, rfl, -⟩ := ih h
      refine ⟨element :: front, rfl, ?_, fun hnil => absurd hnil (List.cons_ne_nil _ _)⟩
      rw [List.length_cons]
      omega

end Elements

/-! ### The printed path -/

section Printing

variable {d : CPathDictionary} {reserved : List UInt8} {i : ℕ} {ns : List (List UInt8)}

/-- The pointer of an element of the dictionary. -/
theorem Built.points (h : d.Built) (hreserved : chunkSize ≤ reserved.length) {e : ℕ}
    (he : e < d.pathElements.size) :
    Points (d.pathElements.packedStrings ++ reserved)
      (d.pathElements.offset e, d.pathElements.getLength e) (d.pathElements.get e) := by
  have hlt := h.pool.ordered.lt e he
  have hle := h.pool.ordered.le (e + 1) he
  have hcopy := h.pool.copyTo he
  have hlength : (d.pathElements.get e).length = d.pathElements.getLength e := by
    rw [← hcopy, copyTo, List.length_take_of_le]
    rw [List.length_drop, getLength]
    omega
  unfold chunkSize at hreserved
  refine ⟨hlength.symm, ?_, ?_⟩
  · rw [List.drop_append_of_le_length (by omega), ← hcopy, copyTo]
    exact (List.take_prefix _ _).trans (List.prefix_append _ _)
  · rw [List.length_append, hlength]
    unfold getLength
    dsimp only
    omega

/-- The last elements are collected, as many as there is room for. -/
theorem Built.collectPointers (h : d.Built) (hreserved : chunkSize ≤ reserved.length)
    (hi : d.Named i ns) (elements : List (ℕ × ℕ)) :
    ∃ pointers, Returns d.collectPointersBody ((i : Index), elements) (pointers ++ elements) ∧
      List.Forall₂ (Points (d.pathElements.packedStrings ++ reserved)) pointers
        (ns.drop (ns.length - (maxPath - elements.length))) := by
  induction hi generalizing elements with
  | root =>
    refine ⟨[], .leave (by simp [collectPointersBody]), ?_⟩
    rw [List.drop_nil]
    exact .nil
  | @child i j e ns hpos hp _ ih =>
    obtain ⟨e', he', hlt⟩ := h.elements i _ hpos hp
    obtain rfl := Nat.cast_injective (R := Index) he'
    have hid : d.getPathElementID (i : Index) = .ok (e : Index) := by
      rw [getPathElementID, entry_coe hp]
      rfl
    have hparent : d.getParent (i : Index) = .ok (j : Index) := by
      rw [CPathDictionary.getParent, entry_coe hp]
      rfl
    have hpointer : elementPointer d.pathElements (e : Index) =
        .ok (d.pathElements.offset e, d.pathElements.getLength e) := if_pos hlt
    by_cases hlen : elements.length < maxPath
    · obtain ⟨pointers, hreturns, hpoints⟩ :=
        ih ((d.pathElements.offset e, d.pathElements.getLength e) :: elements)
      rw [List.length_cons] at hpoints
      have hdrop : (ns ++ [d.pathElements.get e]).drop ((ns ++ [d.pathElements.get e]).length -
          (maxPath - elements.length)) =
            ns.drop (ns.length - (maxPath - (elements.length + 1))) ++ [d.pathElements.get e] := by
        rw [List.length_append, List.length_singleton,
          ← List.drop_append_of_le_length (Nat.sub_le _ _)]
        congr 1
        omega
      refine ⟨pointers ++ [(d.pathElements.offset e, d.pathElements.getLength e)], ?_, ?_⟩
      · rw [List.append_assoc, List.singleton_append]
        refine .round ?_ hreturns
        simp [collectPointersBody, hpos.ne', hlen, hid, hparent, hpointer, bind, Except.bind, pure,
          Except.pure]
      · rw [hdrop]
        exact List.rel_append hpoints (.cons (h.points hreserved hlt) .nil)
    · refine ⟨[], .leave ?_, ?_⟩
      · rw [collectPointersBody, if_neg fun hgo => hlen hgo.2, List.nil_append]
      · rw [Nat.sub_eq_zero_of_le (not_lt.mp hlen), Nat.sub_zero, List.drop_length]
        exact .nil

/-- The printed characters are at most as many as there is room for and form a path of elements of
the path; the returned pointer is behind them; and they are the whole path if that fits. -/
structure IsBounded (ns : List (List UInt8)) (maxSize : ℕ) (p : Printed) : Prop where
  target_le : p.target ≤ maxSize
  elements : ∃ ms, ms.Sublist ns ∧ p.text = canonicalPath ms ∧ p.target = (canonicalPath ms).length
  result : p.result = p.target
  same : (pathString ns).length ≤ maxSize → p.text = pathString ns

/-- What `GetPath` prints: some of the last elements, and nothing but the end of a chunk behind
them. -/
theorem Built.getPathInto (h : d.Built) (hreserved : chunkSize ≤ reserved.length)
    (hi : d.Named i ns) {maxSize : ℕ} {p : Printed}
    (hp : d.GetPathInto reserved (i : Index) maxSize p) :
    ∃ front rest, lastNames ns = front ++ rest ∧ p.text = canonicalPath rest ∧
      p.target = (canonicalPath rest).length ∧ p.result = p.target + front.length ∧
      p.memory.length ≤ p.target + 7 ∧
      (front = [] → (canonicalPath (lastNames ns)).length ≤ maxSize) := by
  obtain ⟨elements, hreturns, hprint⟩ := hp
  obtain ⟨pointers, hcollect, hpoints⟩ := h.collectPointers hreserved hi []
  rw [List.append_nil] at hcollect
  obtain rfl := hcollect.unique hreturns
  change List.Forall₂ _ pointers (lastNames ns) at hpoints
  rw [printPointers, bind_eq_ok] at hprint
  obtain ⟨⟨kept, size⟩, hleave, hprint⟩ := hprint
  obtain ⟨front, rfl, hsize, hfits⟩ := leaveOut_ok (k := 0) hleave
  have hkept := List.forall₂_drop front.length hpoints
  rw [List.drop_left] at hkept
  obtain ⟨memory, hcopy, hprefix, hlength⟩ :=
    copyPathElements_spec hkept (List.nil_prefix (l := ([] : List UInt8)))
  rw [List.nil_append] at hcopy hprefix hlength
  rw [List.length_nil] at hcopy
  simp only [hcopy, bind, Except.bind, pure, Except.pure, Except.ok.injEq] at hprint
  obtain rfl := hprint.symm
  have htotal := totalSize_eq hkept
  have hcount : ((lastNames ns).take front.length).length = front.length := by
    rw [List.length_take_of_le]
    rw [← hpoints.length_eq, List.length_append]
    exact Nat.le_add_right _ _
  refine ⟨(lastNames ns).take front.length, (lastNames ns).drop front.length,
    (List.take_append_drop _ _).symm, (List.prefix_iff_eq_take.mp hprefix).symm, rfl, ?_, ?_, ?_⟩
  · rw [hcount, hsize, htotal, Nat.add_zero]
  · exact hlength.trans (max_le (Nat.zero_le _) le_rfl)
  · intro hnil
    obtain rfl : front = [] := List.eq_nil_of_length_eq_zero (by rw [← hcount, hnil, List.length_nil])
    rw [← totalSize_eq hpoints]
    exact hfits rfl

/-- A path that fits is printed. -/
theorem Built.exists_getPathInto (h : d.Built) (hreserved : chunkSize ≤ reserved.length)
    (hi : d.Named i ns) {maxSize : ℕ} (hfits : (canonicalPath (lastNames ns)).length ≤ maxSize) :
    ∃ p, d.GetPathInto reserved (i : Index) maxSize p ∧ p.text = canonicalPath (lastNames ns) ∧
      p.target = (canonicalPath (lastNames ns)).length ∧ p.result = p.target := by
  obtain ⟨pointers, hcollect, hpoints⟩ := h.collectPointers hreserved hi []
  rw [List.append_nil] at hcollect
  change List.Forall₂ _ pointers (lastNames ns) at hpoints
  generalize lastNames ns = names at hfits hpoints ⊢
  obtain ⟨memory, hcopy, hprefix, -⟩ :=
    copyPathElements_spec hpoints (List.nil_prefix (l := ([] : List UInt8)))
  rw [List.nil_append] at hcopy hprefix
  rw [List.length_nil] at hcopy
  have htotal := totalSize_eq hpoints
  refine ⟨⟨memory, (canonicalPath names).length, totalSize pointers⟩, ⟨pointers, hcollect, ?_⟩,
    (List.prefix_iff_eq_take.mp hprefix).symm, rfl, htotal⟩
  rw [printPointers, leaveOut_fits (htotal ▸ hfits)]
  simp only [hcopy, bind, Except.bind, pure, Except.pure]

end Printing

end CPathDictionary

end TortoiseSvn.LogCache
