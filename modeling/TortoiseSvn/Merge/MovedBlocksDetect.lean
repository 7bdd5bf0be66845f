import TortoiseSvn.Merge.StickyHunks

/-!
# Moved blocks are moved

All entries of the list of moved blocks describe a hunk: the lines of the hunk are equal to those
that the entry names. The passes cut hunks, and keep that.

Main result: `movedBlocksDetect_sound`.
-/

namespace TortoiseSvn.Merge.CDiffData

variable {d : CDiffData} {dwIgnoreWS : ℕ} {hunks : List SvnDiffNode} {x : DiffExtensions}
  {p q base : ℕ} {line movedTo movedFrom : ℤ}

/-! ### What an entry says -/

/-- An entry is about a hunk, and names equal lines. -/
def Describes (d : CDiffData) (dwIgnoreWS : ℕ) (hunks : List SvnDiffNode) (base : ℕ)
    (movedTo movedFrom : ℤ) : Prop :=
  ∃ h ∈ hunks, h.address = base ∧
    (∀ j : ℕ, movedTo = j → ∀ k < h.original,
      SameLine d dwIgnoreWS (h.originalStart + k) (j + k)) ∧
    ∀ i : ℕ, movedFrom = i → ∀ k < h.modified,
      SameLine d dwIgnoreWS (i + k) (h.modifiedStart + k)

theorem minusOne_ne (j : ℕ) : (-1 : ℤ) ≠ j := by omega

theorem describes_nothing (h : ∃ h ∈ hunks, h.address = base) :
    Describes d dwIgnoreWS hunks base (-1) (-1) := by
  obtain ⟨h, hmem, hbase⟩ := h
  exact ⟨h, hmem, hbase, fun j hj => absurd hj (minusOne_ne j), fun i hi => absurd hi (minusOne_ne i)⟩

theorem Describes.forgetTo (h : Describes d dwIgnoreWS hunks base movedTo movedFrom) :
    Describes d dwIgnoreWS hunks base (-1) movedFrom := by
  obtain ⟨h, hmem, hbase, -, hfrom⟩ := h
  exact ⟨h, hmem, hbase, fun j hj => absurd hj (minusOne_ne j), hfrom⟩

/-- All entries describe hunks, and all pointers are to entries. -/
structure Entries (d : CDiffData) (dwIgnoreWS : ℕ) (hunks : List SvnDiffNode) (x : DiffExtensions) :
    Prop where
  describes : ∀ p < x.free,
    Describes d dwIgnoreWS hunks (x.base p) (x.movedTo p) (x.movedFrom p)
  next : ∀ p < x.free, ∀ q, x.next p = some q → q < x.free
  head : ∀ p, x.head = some p → p < x.free
  existing : ∀ p, x.existing = some p → p < x.free
  tail : ∀ p, x.tail = some p → p < x.free

namespace Entries

theorem create (h : Entries d dwIgnoreWS hunks x) (hbase : ∃ h ∈ hunks, h.address = base) :
    Entries d dwIgnoreWS hunks (x.createDiffExtension base) := by
  refine ⟨fun p hp => ?_, fun p hp q hq => ?_, fun p hp => (h.head p hp).trans (Nat.lt_succ_self _),
    fun p hp => (h.existing p hp).trans (Nat.lt_succ_self _),
    fun p hp => (h.tail p hp).trans (Nat.lt_succ_self _)⟩
  · show Describes d dwIgnoreWS hunks (Function.update x.base x.free base p)
      (Function.update x.movedTo x.free (-1) p) (Function.update x.movedFrom x.free (-1) p)
    rcases Nat.lt_succ_iff_lt_or_eq.mp hp with hp | rfl
    · rw [Function.update_of_ne hp.ne, Function.update_of_ne hp.ne, Function.update_of_ne hp.ne]
      exact h.describes p hp
    · rw [Function.update_self, Function.update_self, Function.update_self]
      exact describes_nothing hbase
  · replace hq : Function.update x.next x.free none p = some q := hq
    rcases Nat.lt_succ_iff_lt_or_eq.mp hp with hp | rfl
    · rw [Function.update_of_ne hp.ne] at hq
      exact (h.next p hp q hq).trans (Nat.lt_succ_self _)
    · rw [Function.update_self] at hq
      exact nomatch hq

/-- One entry says something else. -/
theorem change (h : Entries d dwIgnoreWS hunks x) {base : ℕ → ℕ} {movedFrom movedTo : ℕ → ℤ}
    (hother : ∀ q ≠ p, base q = x.base q ∧ movedTo q = x.movedTo q ∧ movedFrom q = x.movedFrom q)
    (hp : Describes d dwIgnoreWS hunks (base p) (movedTo p) (movedFrom p)) :
    Entries d dwIgnoreWS hunks { x with base, movedFrom, movedTo } := by
  refine ⟨fun q hq => ?_, h.next, h.head, h.existing, h.tail⟩
  by_cases hqp : q = p
  · rw [hqp]
    exact hp
  · obtain ⟨hbase, hto, hfrom⟩ := hother q hqp
    show Describes d dwIgnoreWS hunks (base q) (movedTo q) (movedFrom q)
    rw [hbase, hto, hfrom]
    exact h.describes q hq

theorem setBase (h : Entries d dwIgnoreWS hunks x)
    (hp : Describes d dwIgnoreWS hunks base (x.movedTo p) (x.movedFrom p)) :
    Entries d dwIgnoreWS hunks (x.setBase p base) := by
  refine h.change (fun q hq => ⟨Function.update_of_ne hq _ _, rfl, rfl⟩) ?_
  rw [Function.update_self]
  exact hp

theorem setMovedTo (h : Entries d dwIgnoreWS hunks x)
    (hp : Describes d dwIgnoreWS hunks (x.base p) line (x.movedFrom p)) :
    Entries d dwIgnoreWS hunks (x.setMovedTo p line) := by
  refine h.change (fun q hq => ⟨rfl, Function.update_of_ne hq _ _, rfl⟩) ?_
  rw [Function.update_self]
  exact hp

theorem setMovedFrom (h : Entries d dwIgnoreWS hunks x)
    (hp : Describes d dwIgnoreWS hunks (x.base p) (x.movedTo p) line) :
    Entries d dwIgnoreWS hunks (x.setMovedFrom p line) := by
  refine h.change (fun q hq => ⟨rfl, rfl, Function.update_of_ne hq _ _⟩) ?_
  rw [Function.update_self]
  exact hp

/-- A change of the links among entries. -/
theorem relink (h : Entries d dwIgnoreWS hunks x) {next : ℕ → Option ℕ}
    {head existing tail : Option ℕ}
    (hnext : ∀ p < x.free, ∀ q, next p = some q → q < x.free)
    (hhead : ∀ p, head = some p → p < x.free) (hexisting : ∀ p, existing = some p → p < x.free)
    (htail : ∀ p, tail = some p → p < x.free) :
    Entries d dwIgnoreWS hunks { x with next, head, existing, tail } :=
  ⟨h.describes, hnext, hhead, hexisting, htail⟩

theorem setTail (h : Entries d dwIgnoreWS hunks x) (hp : p < x.free) :
    Entries d dwIgnoreWS hunks { x with tail := some p } :=
  h.relink h.next h.head h.existing fun _ hq => Option.some.inj hq ▸ hp

theorem next_update (h : Entries d dwIgnoreWS hunks x) {target : Option ℕ}
    (htarget : ∀ q, target = some q → q < x.free) :
    ∀ r < x.free, ∀ q, Function.update x.next p target r = some q → q < x.free := by
  intro r hr q hq
  by_cases hrp : r = p
  · rw [hrp, Function.update_self] at hq
    exact htarget q hq
  · rw [Function.update_of_ne hrp] at hq
    exact h.next r hr q hq

theorem insertBehind (h : Entries d dwIgnoreWS hunks x) (hp : p < x.free) (hq : q < x.free) :
    Entries d dwIgnoreWS hunks (x.insertBehind p q) := by
  have hfirst := h.relink (h.next_update (p := q) fun r hr => h.next p hp r hr) h.head h.existing
    h.tail
  exact hfirst.relink (hfirst.next_update fun r hr => Option.some.inj hr ▸ hq) h.head h.existing
    h.tail

theorem adjustExistingAndTail (h : Entries d dwIgnoreWS hunks x) (tempdiff : ℕ) :
    Entries d dwIgnoreWS hunks (x.adjustExistingAndTail tempdiff) := by
  unfold DiffExtensions.adjustExistingAndTail
  rcases hexisting : x.existing with _ | existing
  · exact h
  have hlt := h.existing existing hexisting
  dsimp only
  split
  · refine h.relink ?_ h.head (fun q hq => h.next existing hlt q hq)
      fun q hq => Option.some.inj hq ▸ hlt
    cases x.tail with
    | none => exact h.next
    | some tail =>
      dsimp only
      split
      · exact h.next_update fun q hq => Option.some.inj hq ▸ hlt
      · exact h.next
  · exact h

end Entries

/-! ### The state between two rounds -/

/-- The groups have equal lines, all lines of modified hunks have groups, and the entries describe
hunks that have addresses of their own. -/
structure Sound (d : CDiffData) (dwIgnoreWS : ℕ) (s : Detection) (hunks : List SvnDiffNode) : Prop
    where
  grouped : Grouped d dwIgnoreWS s.map
  allGrouped : ∀ h ∈ hunks, h.type = .diffModified → AllGrouped d dwIgnoreWS s.map h
  distinct : (hunks.map fun h => h.address).Nodup
  used : ∀ h ∈ hunks, h.address < s.free
  entries : Entries d dwIgnoreWS hunks s.list

section Cut

variable {h first : SvnDiffNode} {more done rest : List SvnDiffNode} {free free' o m o' m' : ℕ}

/-- The hunks of a partition are within its bounds. -/
theorem within (hcons : Consecutive o m hunks o' m') {t : SvnDiffNode} (ht : t ∈ hunks) :
    o ≤ t.originalStart ∧ t.originalStart + t.original ≤ o' ∧
      m ≤ t.modifiedStart ∧ t.modifiedStart + t.modified ≤ m' := by
  induction hunks generalizing o m with
  | nil => exact absurd ht List.not_mem_nil
  | cons a rest ih =>
    obtain ⟨rfl, rfl, hrest⟩ := hcons
    have hend : a.originalStart + a.original ≤ o' ∧ a.modifiedStart + a.modified ≤ m' := by
      clear ih ht
      generalize a.originalStart + a.original = o at hrest
      generalize a.modifiedStart + a.modified = m at hrest
      induction rest generalizing o m with
      | nil =>
        obtain ⟨rfl, rfl⟩ := hrest
        exact ⟨le_rfl, le_rfl⟩
      | cons b rest ih =>
        obtain ⟨-, -, hrest⟩ := hrest
        obtain ⟨ho, hm⟩ := ih _ _ hrest
        exact ⟨(Nat.le_add_right _ _).trans ho, (Nat.le_add_right _ _).trans hm⟩
    rcases List.mem_cons.mp ht with rfl | ht
    · exact ⟨le_rfl, hend.1, le_rfl, hend.2⟩
    · obtain ⟨ho, ho', hm, hm'⟩ := ih hrest ht
      exact ⟨by omega, ho', by omega, hm'⟩

/-- What was said about a hunk holds of its first piece. -/
theorem Describes.cut (hcut : Cut h free free' first more)
    (hdescribes : Describes d dwIgnoreWS (done ++ h :: rest) base movedTo movedFrom) :
    Describes d dwIgnoreWS (done ++ (first :: more ++ rest)) base movedTo movedFrom := by
  obtain ⟨t, ht, hbase, hto, hfrom⟩ := hdescribes
  by_cases hth : t = h
  · subst hth
    obtain ⟨ho, hm, -⟩ := hcut.consecutive
    refine ⟨first, List.mem_append_right _ (List.mem_append_left _ List.mem_cons_self),
      hcut.address.trans hbase, fun j hj k hk => ?_, fun i hi k hk => ?_⟩
    · rw [ho]
      exact hto j hj k (hk.trans_le hcut.original_le)
    · rw [hm]
      exact hfrom i hi k (hk.trans_le hcut.modified_le)
  · refine ⟨t, ?_, hbase, hto, hfrom⟩
    rcases List.mem_append.mp ht with ht | ht
    · exact List.mem_append_left _ ht
    · exact List.mem_append_right _
        (List.mem_append_right _ ((List.mem_cons.mp ht).resolve_left hth))

/-- Cutting a hunk, with new entries for the pieces. -/
theorem Sound.cut {s : Detection} (hs : Sound d dwIgnoreWS s (done ++ h :: rest))
    (hcut : Cut h s.free free' first more) :
    Sound d dwIgnoreWS { s with free := free' } (done ++ (first :: more ++ rest)) := by
  have hmem : h ∈ done ++ h :: rest := List.mem_append_right _ List.mem_cons_self
  -- a hunk is a piece, or was there before
  have hpieces : ∀ t ∈ done ++ (first :: more ++ rest),
      t ∈ first :: more ∨ t ∈ done ++ h :: rest := by
    intro t ht
    rcases List.mem_append.mp ht with ht | ht
    · exact Or.inr (List.mem_append_left _ ht)
    · rcases List.mem_append.mp ht with ht | ht
      · exact Or.inl ht
      · exact Or.inr (List.mem_append_right _ (List.mem_cons_of_mem _ ht))
  refine ⟨hs.grouped, fun t ht htype => ?_, ?_, fun t ht => ?_, ?_⟩
  · rcases hpieces t ht with hpiece | hold
    · have hall := hs.allGrouped h hmem hcut.type
      obtain ⟨ho, ho', hm, hm'⟩ := within hcut.consecutive hpiece
      refine ⟨fun k hk => ?_, fun k hk => ?_⟩
      · have hgroup := hall.left (t.originalStart - h.originalStart + k) (by omega)
        rwa [← Nat.add_assoc, Nat.add_sub_cancel' ho] at hgroup
      · have hgroup := hall.right (t.modifiedStart - h.modifiedStart + k) (by omega)
        rwa [← Nat.add_assoc, Nat.add_sub_cancel' hm] at hgroup
    · exact hs.allGrouped t hold htype
  · have hdistinct := hs.distinct
    rw [List.map_append, List.map_cons] at hdistinct
    rw [List.map_append, List.map_append, List.map_cons, hcut.address]
    have hnew : ∀ a ∈ more.map fun t => t.address,
        a ∉ (done.map fun t => t.address) ++ h.address :: rest.map fun t => t.address := by
      intro a ha hold
      obtain ⟨t, ht, rfl⟩ := List.mem_map.mp ha
      rw [← List.map_cons (f := fun t : SvnDiffNode => t.address), ← List.map_append] at hold
      obtain ⟨t', ht', heq⟩ := List.mem_map.mp hold
      exact absurd (hcut.news t ht).1 (Nat.not_le.mpr (heq ▸ hs.used t' ht'))
    have hmiddle : ((h.address :: more.map fun t => t.address) ++ (rest.map fun t => t.address)).Perm
        ((more.map fun t => t.address) ++ h.address :: rest.map fun t => t.address) :=
      List.perm_middle.symm
    have hperm := (hmiddle.append_left (done.map fun t => t.address)).trans
      (List.perm_append_comm_assoc _ _ _)
    refine hperm.nodup_iff.mpr (List.nodup_append'.mpr ⟨hcut.distinct, hdistinct, ?_⟩)
    exact fun a ha hold => hnew a ha hold
  · rcases hpieces t ht with hpiece | hold
    · rcases List.mem_cons.mp hpiece with rfl | hpiece
      · rw [hcut.address]
        exact (hs.used h hmem).trans_le hcut.free_le
      · exact (hcut.news t hpiece).2
    · exact (hs.used t hold).trans_le hcut.free_le
  · exact ⟨fun p hp => (hs.entries.describes p hp).cut hcut, hs.entries.next, hs.entries.head,
      hs.entries.existing, hs.entries.tail⟩

end Cut

/-! ### Walking through the hunks -/

/-- What a pass keeps of the hunks that it began with. -/
structure Kept (old hunks : List SvnDiffNode) : Prop where
  consecutive : ∀ o m o' m', Consecutive o m old o' m' → Consecutive o m hunks o' m'
  sticked : sticked true hunks = sticked true old

theorem Kept.refl (hunks : List SvnDiffNode) : Kept hunks hunks := ⟨fun _ _ _ _ h => h, rfl⟩

theorem Kept.cut {old done rest more : List SvnDiffNode} {h first : SvnDiffNode} {free free' : ℕ}
    (hkept : Kept old (done ++ h :: rest)) (hcut : Cut h free free' first more) :
    Kept old (done ++ (first :: more ++ rest)) := by
  refine ⟨fun o m o' m' hold => ?_, ?_⟩
  · obtain ⟨o₁, m₁, hdone, hrest⟩ := consecutive_append.mp (hkept.consecutive o m o' m' hold)
    exact consecutive_append.mpr ⟨o₁, m₁, hdone, hrest.cut hcut⟩
  · rw [← hkept.sticked]
    clear hkept
    induction done with
    | nil => exact sticked_cut hcut rest
    | cons a done ih =>
      show Merge.sticked true (a :: (done ++ (first :: more ++ rest))) =
        Merge.sticked true (a :: (done ++ h :: rest))
      rw [sticked_cons, sticked_cons, ih]

/-- What holds between two rounds. -/
structure Fine (d : CDiffData) (dwIgnoreWS : ℕ) (old : List SvnDiffNode) (s : Detection)
    (hunks : List SvnDiffNode) : Prop where
  sound : Sound d dwIgnoreWS s hunks
  kept : Kept old hunks

section Break

variable {old done rest : List SvnDiffNode} {t : SvnDiffNode} {s : Detection} {i1 i2 j1 j2 : ℕ}

/-- Other groups and entries. -/
theorem Fine.setList (h : Fine d dwIgnoreWS old s hunks) (hentries : Entries d dwIgnoreWS hunks x) :
    Fine d dwIgnoreWS old { s with list := x } hunks :=
  ⟨⟨h.sound.grouped, h.sound.allGrouped, h.sound.distinct, h.sound.used, hentries⟩, h.kept⟩

theorem Fine.setMap (h : Fine d dwIgnoreWS old s hunks) {map : LineToGroupMap}
    (hgrouped : Grouped d dwIgnoreWS map) (hkeeps : Keeps s.map map) :
    Fine d dwIgnoreWS old { s with map } hunks :=
  ⟨⟨hgrouped, fun t ht htype => (h.sound.allGrouped t ht htype).keeps hkeeps, h.sound.distinct,
    h.sound.used, h.sound.entries⟩, h.kept⟩

theorem Fine.cut {first : SvnDiffNode} {more : List SvnDiffNode} {free' : ℕ}
    (h : Fine d dwIgnoreWS old s (done ++ t :: rest)) (hcut : Cut t s.free free' first more) :
    Fine d dwIgnoreWS old { s with free := free' } (done ++ first :: (more ++ rest)) :=
  ⟨h.sound.cut hcut, h.kept.cut hcut⟩

theorem Fine.cutPair {first second : SvnDiffNode} {free' : ℕ}
    (h : Fine d dwIgnoreWS old s (done ++ t :: rest)) (hcut : Cut t s.free free' first [second]) :
    Fine d dwIgnoreWS old { s with free := free' } (done ++ [first] ++ second :: rest) := by
  rw [List.append_assoc]
  exact h.cut hcut

/-- Before the left side of a block. -/
theorem Fine.breakBeforeLeft (h : Fine d dwIgnoreWS old s (done ++ t :: rest))
    (htype : t.type = .diffModified) (hstart : t.originalStart ≤ i1)
    (hend : i1 ≤ t.originalStart + t.original) :
    ∃ front part free', t.breakBeforeLeft i1 s.free = (front, part, free') ∧
      Fine d dwIgnoreWS old { s with free := free' } (done ++ front ++ part :: rest) ∧
      part.type = .diffModified ∧ part.originalStart = i1 ∧
      part.original = t.originalStart + t.original - i1 ∧
      ∃ a ∈ front ++ [part], a.address = t.address := by
  rw [SvnDiffNode.breakBeforeLeft]
  by_cases hbefore : i1 - t.originalStart ≠ 0
  · rw [if_pos hbefore]
    refine ⟨_, _, _, rfl, ?_, rfl, rfl, by dsimp only; omega, _, List.mem_cons_self, rfl⟩
    refine h.cutPair ?_
    exact .pair htype rfl htype rfl rfl rfl rfl (Nat.add_sub_of_le hstart).symm rfl
      (Nat.add_sub_of_le (by omega : i1 - t.originalStart ≤ t.original)) (Nat.add_zero _)
  · rw [if_neg hbefore]
    refine ⟨_, _, _, rfl, ?_, htype, by omega, by omega, t, List.mem_singleton_self t, rfl⟩
    rw [List.append_nil]
    exact h

/-- Behind the left side of a block. -/
theorem Fine.breakBehindLeft (h : Fine d dwIgnoreWS old s (done ++ t :: rest))
    (htype : t.type = .diffModified) (hstart : t.originalStart < i2)
    (hend : i2 ≤ t.originalStart + t.original) :
    ∃ moved newob free', t.breakBehindLeft i2 s.free = (moved, newob, free') ∧
      Fine d dwIgnoreWS old { s with free := free' } (done ++ moved :: (newob.toList ++ rest)) ∧
      moved.address = t.address ∧ moved.originalStart = t.originalStart ∧
      moved.original = i2 - t.originalStart ∧ ∀ n ∈ newob, n.original < t.original := by
  rw [SvnDiffNode.breakBehindLeft]
  by_cases hsuffix : t.original - (i2 - t.originalStart) ≠ 0
  · rw [if_pos hsuffix]
    refine ⟨_, _, _, rfl, ?_, rfl, rfl, by dsimp only; omega, fun n hn => ?_⟩
    · refine h.cut ?_
      exact .pair htype rfl htype rfl rfl rfl rfl (by dsimp only; omega) rfl
        (by dsimp only; omega) (Nat.zero_add _)
    · obtain rfl := Option.some.inj hn
      dsimp only
      omega
  · rw [if_neg hsuffix]
    exact ⟨_, _, _, rfl, h, rfl, rfl, by omega, nofun⟩

/-- Before the right side of a block. -/
theorem Fine.breakBeforeRight (h : Fine d dwIgnoreWS old s (done ++ t :: rest))
    (htype : t.type = .diffModified) (hstart : t.modifiedStart ≤ j1)
    (hend : j1 ≤ t.modifiedStart + t.modified) :
    ∃ front part free', t.breakBeforeRight j1 s.free = (front, part, free') ∧
      Fine d dwIgnoreWS old { s with free := free' } (done ++ front ++ part :: rest) ∧
      part.type = .diffModified ∧ part.modifiedStart = j1 ∧
      part.modified = t.modifiedStart + t.modified - j1 ∧
      (∃ a ∈ front ++ [part], a.address = t.address) ∧ (front = [] → part = t) := by
  rw [SvnDiffNode.breakBeforeRight]
  by_cases hbefore : j1 - t.modifiedStart ≠ 0
  · rw [if_pos hbefore]
    refine ⟨_, _, _, rfl, ?_, rfl, rfl, by dsimp only; omega, ⟨_, List.mem_cons_self, rfl⟩, nofun⟩
    refine h.cutPair ?_
    exact .pair htype rfl htype rfl rfl rfl rfl rfl (Nat.add_sub_of_le hstart).symm (Nat.add_zero _)
      (Nat.add_sub_of_le (by omega : j1 - t.modifiedStart ≤ t.modified))
  · rw [if_neg hbefore]
    refine ⟨_, _, _, rfl, ?_, htype, by omega, by omega, ⟨t, List.mem_singleton_self t, rfl⟩,
      fun _ => rfl⟩
    rw [List.append_nil]
    exact h

/-- Behind the right side of a block; the left side goes with what is behind. -/
theorem Fine.breakBehindRight (h : Fine d dwIgnoreWS old s (done ++ t :: rest))
    (htype : t.type = .diffModified) (hstart : t.modifiedStart < j2)
    (hend : j2 ≤ t.modifiedStart + t.modified) :
    ∃ moved newob free', t.breakBehindRight j2 s.free = (moved, newob, free') ∧
      Fine d dwIgnoreWS old { s with free := free' } (done ++ moved :: (newob.toList ++ rest)) ∧
      moved.address = t.address ∧ moved.modifiedStart = t.modifiedStart ∧
      moved.modified = j2 - t.modifiedStart ∧ (∀ n ∈ newob, n.modified < t.modified ∧
        n.originalStart = t.originalStart ∧ n.original = t.original) := by
  rw [SvnDiffNode.breakBehindRight]
  by_cases hsuffix : t.modified - (j2 - t.modifiedStart) ≠ 0
  · rw [if_pos hsuffix]
    refine ⟨_, _, _, rfl, ?_, rfl, rfl, by dsimp only; omega, fun n hn => ?_⟩
    · refine h.cut ?_
      exact .pair htype rfl htype rfl rfl rfl rfl rfl (by dsimp only; omega) (Nat.zero_add _)
        (by dsimp only; omega)
    · obtain rfl := Option.some.inj hn
      refine ⟨?_, rfl, rfl⟩
      dsimp only
      omega
  · rw [if_neg hsuffix]
    exact ⟨_, _, _, rfl, h, rfl, rfl, by omega, nofun⟩

end Break

/-- A walk keeps what its steps keep, and ends when what a step leaves is smaller. -/
theorem walk_spec (P : Detection → List SvnDiffNode → Prop) (size : SvnDiffNode → ℕ)
    {step : Detection → SvnDiffNode →
      Except DiffFailure (Detection × List SvnDiffNode × Option SvnDiffNode)}
    (hstep : ∀ s done t rest, P s (done ++ t :: rest) → ∃ s' out newob,
      step s t = .ok (s', out, newob) ∧ P s' (done ++ (out ++ newob.toList ++ rest)) ∧
        ∀ n ∈ newob, size n < size t) (fuel : ℕ) {s : Detection} {done hunks : List SvnDiffNode}
    (h : P s (done ++ hunks)) (hfuel : (hunks.map fun t => size t + 1).sum ≤ fuel) :
    ∃ s' hunks', walk step fuel s hunks = .ok (s', hunks') ∧ P s' (done ++ hunks') := by
  induction fuel generalizing s done hunks with
  | zero =>
    cases hunks with
    | nil => exact ⟨s, [], by rw [walk], h⟩
    | cons t rest =>
      rw [List.map_cons, List.sum_cons] at hfuel
      omega
  | succ fuel ih =>
    cases hunks with
    | nil => exact ⟨s, [], by rw [walk], h⟩
    | cons t rest =>
      obtain ⟨s₁, out, newob, hrun, h₁, hsize⟩ := hstep s done t rest h
      rw [List.append_assoc, ← List.append_assoc] at h₁
      rw [List.map_cons, List.sum_cons] at hfuel
      obtain ⟨s', hunks', hwalk, h'⟩ := ih h₁ (by
        cases newob with
        | none =>
          rw [Option.toList_none, List.nil_append]
          omega
        | some n =>
          have hlt := hsize n rfl
          rw [Option.toList_some, List.singleton_append, List.map_cons, List.sum_cons]
          omega)
      refine ⟨s', out ++ hunks', ?_, by rwa [List.append_assoc] at h'⟩
      rw [walk, hrun]
      dsimp only [bind, Except.bind]
      rw [hwalk]
      rfl

/-! ### The left pass -/

section Left

variable {s : Detection} {t moved : SvnDiffNode} {done rest : List SvnDiffNode} {b : MovedBlock}

/-- Entries have been put at the end of the list. -/
def HasTail (x : DiffExtensions) : Prop := x.head ≠ none → x.tail ≠ none

/-- The new entry of a moved hunk. -/
theorem Entries.append (h : Entries d dwIgnoreWS hunks x) (htail : HasTail x)
    (hbase : ∃ h ∈ hunks, h.address = base) (hmoved : moved ∈ hunks) {j1 : ℕ}
    (hlines : ∀ k < moved.original, SameLine d dwIgnoreWS (moved.originalStart + k) (j1 + k)) :
    ∃ x', (x.createDiffExtension base).append x.free = .ok x' ∧ x'.tail ≠ none ∧
      Entries d dwIgnoreWS hunks ((x'.setBase x.free moved.address).setMovedTo x.free j1) := by
  have hcreate := h.create hbase
  set y := x.createDiffExtension base with hy
  have hnew : x.free < y.free := Nat.lt_succ_self _
  have hto : y.movedTo x.free = -1 := Function.update_self _ _ _
  have hfrom : y.movedFrom x.free = -1 := Function.update_self _ _ _
  have hdescribes : Describes d dwIgnoreWS hunks moved.address j1 (-1) :=
    ⟨moved, hmoved, rfl, fun j hj k hk => Int.natCast_inj.mp hj ▸ hlines k hk,
      fun i hi => absurd hi (minusOne_ne i)⟩
  -- whatever the links are
  have hall : ∀ x', Entries d dwIgnoreWS hunks x' → x'.movedTo = y.movedTo →
      x'.movedFrom = y.movedFrom →
      Entries d dwIgnoreWS hunks ((x'.setBase x.free moved.address).setMovedTo x.free j1) := by
    intro x' hx' hmt hmf
    refine (hx'.setBase ?_).setMovedTo ?_
    · rw [hmt, hmf, hto, hfrom]
      exact describes_nothing ⟨moved, hmoved, rfl⟩
    · show Describes d dwIgnoreWS hunks (Function.update x'.base x.free moved.address x.free) j1
        (x'.movedFrom x.free)
      rw [Function.update_self, hmf, hfrom]
      exact hdescribes
  rw [DiffExtensions.append]
  rcases hhead : y.head with _ | head
  · refine ⟨_, rfl, nofun, hall _ (hcreate.relink hcreate.next ?_ hcreate.existing ?_) rfl rfl⟩
    · exact fun q hq => Option.some.inj hq ▸ hnew
    · exact fun q hq => Option.some.inj hq ▸ hnew
  · obtain ⟨tail, htail'⟩ : ∃ tail, y.tail = some tail := by
      refine Option.ne_none_iff_exists'.mp (htail ?_)
      show y.head ≠ none
      rw [hhead]
      exact Option.some_ne_none head
    rw [htail']
    refine ⟨_, rfl, nofun, hall _ (hcreate.relink ?_ ?_ hcreate.existing ?_) rfl rfl⟩
    · exact hcreate.next_update fun q hq => Option.some.inj hq ▸ hnew
    · exact fun q hq => hcreate.head q (hhead.trans hq)
    · exact fun q hq => Option.some.inj hq ▸ hnew

/-- A block of the left side becomes a hunk of its own. -/
theorem cutLeft_spec {old : List SvnDiffNode} (h : Fine d dwIgnoreWS old s (done ++ t :: rest))
    (htype : t.type = .diffModified) (htail : HasTail s.list) (hstart : t.originalStart ≤ b.i1)
    (hlt : b.i1 < b.i2) (hend : b.i2 ≤ t.originalStart + t.original)
    (hlines : ∀ k, b.i1 + k < b.i2 → SameLine d dwIgnoreWS (b.i1 + k) (b.j1 + k)) :
    ∃ s' out newob, cutLeft s t b = .ok (s', out, newob) ∧
      Fine d dwIgnoreWS old s' (done ++ (out ++ newob.toList ++ rest)) ∧ HasTail s'.list ∧
      ∀ n ∈ newob, n.original < t.original := by
  obtain ⟨front, part, free₁, hbefore, h₁, htype₁, hpart, hsize, a, ha, haddress⟩ :=
    h.breakBeforeLeft htype hstart (hlt.le.trans hend)
  obtain ⟨moved, newob, free₂, hbehind, h₂, hmoved, hmovedStart, hmovedSize, hnewob⟩ :=
    h₁.breakBehindLeft htype₁ (hpart ▸ hlt) (by omega)
  have hmem : moved ∈ done ++ front ++ moved :: (newob.toList ++ rest) :=
    List.mem_append_right _ List.mem_cons_self
  -- the first piece has the address of the hunk
  have hfirst : ∃ a ∈ done ++ front ++ moved :: (newob.toList ++ rest), a.address = t.address := by
    rcases List.mem_append.mp ha with ha | ha
    · exact ⟨a, List.mem_append_left _ (List.mem_append_right _ ha), haddress⟩
    · exact ⟨moved, hmem, by rw [hmoved, ← List.mem_singleton.mp ha, haddress]⟩
  have hmovedLines : ∀ k < moved.original,
      SameLine d dwIgnoreWS (moved.originalStart + k) (b.j1 + k) := by
    intro k hk
    rw [hmovedStart, hpart]
    exact hlines k (by omega)
  obtain ⟨list, happend, hlistTail, hentries⟩ :=
    h₂.sound.entries.append htail hfirst hmem hmovedLines
  refine ⟨⟨s.map, (list.setBase s.list.free part.address).setMovedTo s.list.free b.j1, free₂⟩,
    front ++ [moved], newob, ?_, ?_, fun _ => hlistTail,
    fun n hn => (hnewob n hn).trans_le (by omega)⟩
  · rw [cutLeft, happend]
    dsimp only [bind, Except.bind]
    rw [hbefore]
    dsimp only
    rw [hbehind]
    rfl
  · rw [hmoved] at hentries
    have hlist := h₂.setList hentries
    simpa using hlist

theorem leftHunk_spec {old : List SvnDiffNode} (h : Fine d dwIgnoreWS old s (done ++ t :: rest))
    (htail : HasTail s.list) :
    ∃ s' out newob, d.leftHunk dwIgnoreWS s t = .ok (s', out, newob) ∧
      (Fine d dwIgnoreWS old s' (done ++ (out ++ newob.toList ++ rest)) ∧ HasTail s'.list) ∧
      ∀ n ∈ newob, n.original < t.original := by
  rw [leftHunk]
  by_cases htype : t.type = .diffModified
  · rw [if_neg (not_not.mpr htype)]
    have hall := h.sound.allGrouped t (List.mem_append_right _ List.mem_cons_self) htype
    obtain ⟨r, hfind, hr⟩ := findPerfectMatch_spec hall.left
    rw [hfind]
    dsimp only [bind, Except.bind]
    rcases r with _ | ⟨i, pGroup⟩
    · exact ⟨s, [t], none, rfl, ⟨h, htail⟩, nofun⟩
    · obtain ⟨hle, hlt, hperfect, line, hline, hgroup⟩ := hr i pGroup rfl
      have hgroups : ∀ i', t.originalStart ≤ i' → i' < t.originalStart + t.original →
          HasGroup dwIgnoreWS d.arBaseFile s.map i' := by
        intro i' hle' hlt'
        have hat := hall.left (i' - t.originalStart) (by omega)
        rwa [Nat.add_sub_cancel' hle'] at hat
      obtain ⟨b, map, hblock, hb, hgrouped, hkeeps⟩ := findBlock_spec h.sound.grouped
        (sameLine_left h.sound.grouped hline hgroup hperfect) hle (Nat.zero_le _)
        (fun i' j' hle' hlt' _ _ => Or.inl (hgroups i' hle' (hlt'.trans hlt)))
        (n := t.originalStart + t.original - (i + 1))
        fun k hk => Or.inl (hgroups (i + 1 + k) (by omega) (by omega))
      obtain ⟨s', out, newob, hcut, hfine, htail', hnewob⟩ := cutLeft_spec
        (h.setMap hgrouped hkeeps) htype htail hb.startLeft_le (hb.i1_le.trans_lt hb.lt_i2)
        (by have hend := hb.i2_le; omega) hb.lines
      refine ⟨s', out, newob, ?_, ⟨hfine, htail'⟩, hnewob⟩
      dsimp only
      rw [hblock]
      exact hcut
  · rw [if_pos htype]
    exact ⟨s, [t], none, rfl, ⟨h, htail⟩, nofun⟩

end Left

/-! ### The right pass -/

section Right

variable {s : Detection} {t n : SvnDiffNode} {done rest : List SvnDiffNode} {b : MovedBlock}
  {tail newob : ℕ}

/-- The entry of a hunk. It is the existing one, or says nothing yet. -/
theorem Entries.entryOf (h : Entries d dwIgnoreWS hunks x)
    (hbase : ∃ h ∈ hunks, h.address = base) :
    Entries d dwIgnoreWS hunks (x.entryOf base).2 ∧
      (x.entryOf base).1 < (x.entryOf base).2.free ∧
      (x.entryOf base).2.base (x.entryOf base).1 = base ∧
      ((x.entryOf base).2.existing = some (x.entryOf base).1 ∨
        (x.entryOf base).2.movedTo (x.entryOf base).1 = -1 ∧
          (x.entryOf base).2.movedFrom (x.entryOf base).1 = -1) := by
  unfold DiffExtensions.entryOf
  rcases hfilter : x.existing.filter fun existing => x.base existing = base with _ | existing
  · have hcreate := h.create hbase
    have hnew : x.free < (x.createDiffExtension base).free := Nat.lt_succ_self _
    have hnewBase : (x.createDiffExtension base).base x.free = base := Function.update_self _ _ _
    have hblank : (x.createDiffExtension base).movedTo x.free = -1 ∧
        (x.createDiffExtension base).movedFrom x.free = -1 :=
      ⟨Function.update_self _ _ _, Function.update_self _ _ _⟩
    dsimp only
    split
    · exact ⟨hcreate.relink hcreate.next (fun q hq => Option.some.inj hq ▸ hnew) hcreate.existing
        fun q hq => Option.some.inj hq ▸ hnew, hnew, hnewBase, Or.inr hblank⟩
    · exact ⟨hcreate.setTail hnew, hnew, hnewBase, Or.inr hblank⟩
    · rename_i head tail hhead htail
      exact ⟨(hcreate.insertBehind (hcreate.tail tail htail) hnew).setTail hnew, hnew, hnewBase,
        Or.inr hblank⟩
  · obtain ⟨hexisting, hof⟩ := Option.filter_eq_some_iff.mp hfilter
    have hlt := h.existing existing hexisting
    exact ⟨h.setTail hlt, hlt, of_decide_eq_true hof, Or.inl hexisting⟩

/-- The entry of the moved part, which says nothing yet. -/
theorem Entries.moveEntry (h : Entries d dwIgnoreWS hunks x) (htail : tail < x.free)
    (hnewob : ∃ h ∈ hunks, h.address = newob)
    (hblank : x.existing = some tail ∨ x.movedTo tail = -1 ∧ x.movedFrom tail = -1) :
    Entries d dwIgnoreWS hunks (x.moveEntry tail newob).2 ∧
      (x.moveEntry tail newob).1 < (x.moveEntry tail newob).2.free ∧
      (x.moveEntry tail newob).2.base (x.moveEntry tail newob).1 = newob := by
  unfold DiffExtensions.moveEntry
  by_cases hexisting : x.existing = some tail
  · rw [if_pos hexisting]
    have hcreate := h.create hnewob
    have hnew : x.free < (x.createDiffExtension newob).free := Nat.lt_succ_self _
    have hinsert := (hcreate.insertBehind (htail.trans hnew) hnew).setTail hnew
    refine ⟨hinsert.setBase ?_, hnew, Function.update_self _ _ _⟩
    have hblank' : (x.createDiffExtension newob).movedTo x.free = -1 ∧
        (x.createDiffExtension newob).movedFrom x.free = -1 :=
      ⟨Function.update_self _ _ _, Function.update_self _ _ _⟩
    show Describes d dwIgnoreWS hunks newob ((x.createDiffExtension newob).movedTo x.free)
      ((x.createDiffExtension newob).movedFrom x.free)
    rw [hblank'.1, hblank'.2]
    exact describes_nothing hnewob
  · rw [if_neg hexisting]
    obtain ⟨hto, hfrom⟩ := hblank.resolve_left hexisting
    refine ⟨h.setBase ?_, htail, Function.update_self _ _ _⟩
    rw [hto, hfrom]
    exact describes_nothing hnewob

/-- What is known about the left side goes to the entry of what is behind the moved part. -/
theorem Entries.splitEntry (h : Entries d dwIgnoreWS hunks x) (htail : tail < x.free) (hn : n ∈ hunks)
    (hlines : ∀ j : ℕ, x.movedTo tail = j → ∀ k < n.original,
      SameLine d dwIgnoreWS (n.originalStart + k) (j + k)) :
    Entries d dwIgnoreWS hunks (x.splitEntry tail n.address) := by
  unfold DiffExtensions.splitEntry
  have hcreate := h.create ⟨n, hn, rfl⟩
  set y := x.createDiffExtension n.address with hy
  have hnew : x.free < y.free := Nat.lt_succ_self _
  have hbase : y.base x.free = n.address := Function.update_self _ _ _
  have hto : y.movedTo tail = x.movedTo tail := Function.update_of_ne htail.ne _ _
  have hblank : y.movedTo x.free = -1 := Function.update_self _ _ _
  have hfrom : Entries d dwIgnoreWS hunks (y.setMovedFrom x.free (-1)) := by
    refine hcreate.setMovedFrom ?_
    rw [hbase, hblank]
    exact describes_nothing ⟨n, hn, rfl⟩
  have hmoved : Entries d dwIgnoreWS hunks
      ((y.setMovedFrom x.free (-1)).setMovedTo x.free (y.movedTo tail)) := by
    refine hfrom.setMovedTo ?_
    show Describes d dwIgnoreWS hunks (y.base x.free) (y.movedTo tail)
      (Function.update y.movedFrom x.free (-1) x.free)
    rw [hbase, Function.update_self, hto]
    exact ⟨n, hn, rfl, hlines, fun i hi => absurd hi (minusOne_ne i)⟩
  have hforget := hmoved.setMovedTo (hmoved.describes tail (htail.trans hnew)).forgetTo
  have hinsert := hforget.insertBehind (htail.trans hnew) hnew
  exact hinsert.relink hinsert.next hinsert.head (fun q hq => Option.some.inj hq ▸ hnew)
    fun q hq => Option.some.inj hq ▸ hnew

/-- The hunk with an address is the one that an entry describes. -/
theorem Sound.lines_of_describes (h : Sound d dwIgnoreWS s hunks) (hn : n ∈ hunks)
    (hdescribes : Describes d dwIgnoreWS hunks n.address movedTo movedFrom) {j : ℕ}
    (hj : movedTo = j) : ∀ k < n.original, SameLine d dwIgnoreWS (n.originalStart + k) (j + k) := by
  obtain ⟨t, ht, haddress, hto, -⟩ := hdescribes
  obtain rfl := List.inj_on_of_nodup_map h.distinct ht hn haddress
  exact hto j hj

/-- A block of the right side becomes a hunk of its own. -/
theorem cutRight_spec {old : List SvnDiffNode} (h : Fine d dwIgnoreWS old s (done ++ t :: rest))
    (htype : t.type = .diffModified) (hstart : t.modifiedStart ≤ b.j1)
    (hlt : b.j1 < b.j2) (hend : b.j2 ≤ t.modifiedStart + t.modified)
    (hlines : ∀ k, b.j1 + k < b.j2 → SameLine d dwIgnoreWS (b.i1 + k) (b.j1 + k)) :
    ∃ s' out newob, cutRight s t b = (s', out, newob) ∧
      Fine d dwIgnoreWS old s' (done ++ (out ++ newob.toList ++ rest)) ∧
      ∀ n ∈ newob, n.modified < t.modified := by
  obtain ⟨front, part, free₁, hbefore, h₁, htype₁, hpart, hsize, ⟨a, ha, haddress⟩, hfront⟩ :=
    h.breakBeforeRight htype hstart (hlt.le.trans hend)
  have hpartMem : part ∈ done ++ front ++ part :: rest := List.mem_append_right _ List.mem_cons_self
  have hfirst : ∃ a ∈ done ++ front ++ part :: rest, a.address = t.address := by
    rcases List.mem_append.mp ha with ha | ha
    · exact ⟨a, List.mem_append_left _ (List.mem_append_right _ ha), haddress⟩
    · exact ⟨part, hpartMem, by rw [← List.mem_singleton.mp ha, haddress]⟩
  obtain ⟨hentry, hentryLt, hentryBase, hblank⟩ := h₁.sound.entries.entryOf hfirst
  -- the entry of the moved part
  obtain ⟨tail, list, hlist, hentries, htail, htailBase⟩ : ∃ tail list,
      (if front = [] then ((s.list.entryOf t.address).1, (s.list.entryOf t.address).2)
        else (s.list.entryOf t.address).2.moveEntry (s.list.entryOf t.address).1 part.address) =
          (tail, list) ∧ Entries d dwIgnoreWS (done ++ front ++ part :: rest) list ∧
        tail < list.free ∧ list.base tail = part.address := by
    by_cases hnil : front = []
    · rw [if_pos hnil]
      exact ⟨_, _, rfl, hentry, hentryLt, by rw [hfront hnil]; exact hentryBase⟩
    · rw [if_neg hnil]
      obtain ⟨hmove, hmoveLt, hmoveBase⟩ := hentry.moveEntry hentryLt ⟨part, hpartMem, rfl⟩ hblank
      exact ⟨_, _, rfl, hmove, hmoveLt, hmoveBase⟩
  have h₁' := h₁.setList hentries
  have hleft : ∀ j : ℕ, list.movedTo tail = j → ∀ k < part.original,
      SameLine d dwIgnoreWS (part.originalStart + k) (j + k) := by
    intro j hj
    have hdescribes := hentries.describes tail htail
    rw [htailBase] at hdescribes
    exact h₁'.sound.lines_of_describes hpartMem hdescribes hj
  obtain ⟨moved, newob, free₂, hbehind, h₂, hmoved, hmovedStart, hmovedSize, hnewob⟩ :=
    h₁'.breakBehindRight htype₁ (hpart ▸ hlt) (by omega)
  have hmem : moved ∈ done ++ front ++ moved :: (newob.toList ++ rest) :=
    List.mem_append_right _ List.mem_cons_self
  have hfrom : Entries d dwIgnoreWS (done ++ front ++ moved :: (newob.toList ++ rest))
      (list.setMovedFrom tail b.i1) := by
    refine h₂.sound.entries.setMovedFrom ?_
    have hdescribes := h₂.sound.entries.describes tail htail
    replace hdescribes : Describes d dwIgnoreWS _ (list.base tail) (list.movedTo tail)
      (list.movedFrom tail) := hdescribes
    show Describes d dwIgnoreWS _ (list.base tail) (list.movedTo tail) b.i1
    rw [htailBase, ← hmoved] at hdescribes ⊢
    refine ⟨moved, hmem, rfl, fun j hj => h₂.sound.lines_of_describes hmem hdescribes hj,
      fun i hi k hk => ?_⟩
    rw [hmovedStart, hpart, ← Int.natCast_inj.mp hi]
    exact hlines k (by omega)
  have hentries' : Entries d dwIgnoreWS (done ++ front ++ moved :: (newob.toList ++ rest))
      ((list.setMovedFrom tail b.i1).splitEntryFor tail newob) := by
    cases newob with
    | none => exact hfrom
    | some n =>
      obtain ⟨-, hstart', hsize'⟩ := hnewob n rfl
      refine hfrom.splitEntry htail ?_ fun j hj => ?_
      · exact List.mem_append_right _ (List.mem_cons_of_mem _ List.mem_cons_self)
      · rw [hstart', hsize']
        exact hleft j hj
  refine ⟨⟨s.map, ((list.setMovedFrom tail b.i1).splitEntryFor tail newob).adjustExistingAndTail
      moved.address, free₂⟩, front ++ [moved], newob, ?_, ?_,
    fun n hn => (hnewob n hn).1.trans_le (by omega)⟩
  · rw [cutRight]
    dsimp only
    rw [hbefore]
    dsimp only
    rw [hlist]
    dsimp only
    rw [hbehind]
  · have hfine := h₂.setList (hentries'.adjustExistingAndTail moved.address)
    simpa using hfine

theorem rightHunk_spec {old : List SvnDiffNode} (h : Fine d dwIgnoreWS old s (done ++ t :: rest)) :
    ∃ s' out newob, d.rightHunk dwIgnoreWS s t = .ok (s', out, newob) ∧
      Fine d dwIgnoreWS old s' (done ++ (out ++ newob.toList ++ rest)) ∧
      ∀ n ∈ newob, n.modified < t.modified := by
  rw [rightHunk]
  by_cases htype : t.type = .diffModified
  · rw [if_neg (not_not.mpr htype)]
    have hall := h.sound.allGrouped t (List.mem_append_right _ List.mem_cons_self) htype
    obtain ⟨r, hfind, hr⟩ := findPerfectMatch_spec hall.right
    rw [hfind]
    dsimp only [bind, Except.bind]
    rcases r with _ | ⟨j, pGroup⟩
    · exact ⟨_, [t], none, rfl, h.setList (h.sound.entries.adjustExistingAndTail t.address), nofun⟩
    · obtain ⟨hle, hlt, hperfect, line, hline, hgroup⟩ := hr j pGroup rfl
      dsimp only
      by_cases hzero : pGroup.linesLeft.getSingle = 0
      · rw [if_pos hzero]
        exact ⟨s, [t], none, rfl, h, nofun⟩
      have hgroups : ∀ j', t.modifiedStart ≤ j' → j' < t.modifiedStart + t.modified →
          HasGroup dwIgnoreWS d.arYourFile s.map j' := by
        intro j' hle' hlt'
        have hat := hall.right (j' - t.modifiedStart) (by omega)
        rwa [Nat.add_sub_cancel' hle'] at hat
      obtain ⟨b, map, hblock, hb, hgrouped, hkeeps⟩ := findBlock_spec h.sound.grouped
        (sameLine_right h.sound.grouped hline hgroup hperfect) (Nat.zero_le _) hle
        (fun i' j' _ _ hle' hlt' => Or.inr (hgroups j' hle' (hlt'.trans hlt)))
        (n := t.modifiedStart + t.modified - (j + 1))
        fun k hk => Or.inr (hgroups (j + 1 + k) (by omega) (by omega))
      obtain ⟨s', out, newob, hcut, hfine, hnewob⟩ := cutRight_spec
        (h.setMap hgrouped hkeeps) htype hb.startRight_le (hb.j1_le.trans_lt hb.lt_j2)
        (by have hend := hb.j2_le; omega)
        fun k hk => hb.lines k (by have hlengths := hb.lengths; omega)
      refine ⟨s', out, newob, ?_, hfine, hnewob⟩
      rw [if_neg hzero, hblock]
      exact congrArg Except.ok hcut
  · rw [if_pos htype]
    exact ⟨s, [t], none, rfl, h, nofun⟩

end Right

/-! ### Both passes -/

/-- A list of hunks as the diff gives it: common and modified hunks in turn, each in its own place in
memory. -/
structure IsDiff (hunks : List SvnDiffNode) : Prop where
  types : ∀ h ∈ hunks, h.type = .common ∨ h.type = .diffModified
  alternating : hunks.IsChain fun a b => a.type ≠ b.type
  distinct : (hunks.map fun h => h.address).Nodup

/-- Entry `p` is in the list of moved blocks. -/
inductive Listed (x : DiffExtensions) : ℕ → Prop
  | head {p : ℕ} : x.head = some p → Listed x p
  | next {p q : ℕ} : Listed x p → x.next p = some q → Listed x q

theorem Entries.listed (h : Entries d dwIgnoreWS hunks x) (hp : Listed x p) : p < x.free := by
  induction hp with
  | head hp => exact h.head _ hp
  | next _ hq ih => exact h.next _ ih _ hq

theorem lt_freeAddress {h : SvnDiffNode} (hh : h ∈ hunks) :
    h.address < (hunks.map fun h => h.address + 1).foldr max 0 := by
  induction hunks with
  | nil => exact absurd hh List.not_mem_nil
  | cons a rest ih =>
    rw [List.map_cons, List.foldr_cons, lt_max_iff]
    rcases List.mem_cons.mp hh with rfl | hh
    · exact Or.inl (Nat.lt_succ_self _)
    · exact Or.inr (ih hh)

/-- **Moved blocks are moved.** `MovedBlocksDetect` ends. The hunks that it leaves partition the same
ranges, stick together to the hunks that it was given, and each entry of its list is about one of
them, whose lines are equal to the ones that the entry names. -/
theorem movedBlocksDetect_sound (d : CDiffData) (dwIgnoreWS : ℕ) (hunks : List SvnDiffNode)
    (hdiff : IsDiff hunks) : ∃ hunks' x, d.movedBlocksDetect dwIgnoreWS hunks = .ok (hunks', x) ∧
      (∀ o m o' m', Consecutive o m hunks o' m' → Consecutive o m hunks' o' m') ∧
      sticked true hunks' = hunks.map (fun h => (h.type, h.original, h.modified)) ∧
      (hunks'.map fun h => h.address).Nodup ∧
      ∀ p, Listed x p → ∃ h ∈ hunks', h.address = x.base p ∧
        (∀ j : ℕ, x.movedTo p = j → ∀ k < h.original,
          SameLine d dwIgnoreWS (h.originalStart + k) (j + k)) ∧
        ∀ i : ℕ, x.movedFrom p = i → ∀ k < h.modified,
          SameLine d dwIgnoreWS (i + k) (h.modifiedStart + k) := by
  have hempty : Grouped d dwIgnoreWS fun _ => none := grouped_empty
  have hsticked := sticked_of_alternating hdiff.alternating
  obtain ⟨r, hfill, hr⟩ := fillMap_spec hempty hunks
  rw [movedBlocksDetect, hfill]
  dsimp only [bind, Except.bind]
  rcases r with _ | map
  · refine ⟨hunks, {}, rfl, fun _ _ _ _ hcons => hcons, hsticked, hdiff.distinct, fun p hp => ?_⟩
    -- there are no entries
    exfalso
    induction hp with
    | head hp => exact nomatch hp
    | next _ _ ih => exact ih
  · obtain ⟨hgrouped, -, hall⟩ := hr map rfl
    have hstart : Fine d dwIgnoreWS hunks
        ⟨map, {}, (hunks.map fun h => h.address + 1).foldr max 0⟩ ([] ++ hunks) :=
      ⟨⟨hgrouped, hall, hdiff.distinct, fun h hh => lt_freeAddress hh, nofun, nofun, nofun, nofun,
        nofun⟩, .refl hunks⟩
    obtain ⟨s₁, hunks₁, hleft, hfine₁, -⟩ := walk_spec
      (fun s l => Fine d dwIgnoreWS hunks s l ∧ HasTail s.list) (fun t => t.original)
      (fun s done t rest h => leftHunk_spec h.1 h.2) _ ⟨hstart, fun hhead => absurd rfl hhead⟩ le_rfl
    have hentries := hfine₁.sound.entries
    have hrestart : Entries d dwIgnoreWS ([] ++ hunks₁)
        { s₁.list with existing := s₁.list.head, tail := none } :=
      hentries.relink hentries.next hentries.head hentries.head nofun
    obtain ⟨s₂, hunks₂, hright, hfine⟩ := walk_spec (Fine d dwIgnoreWS hunks) (fun t => t.modified)
      (fun s done t rest h => rightHunk_spec h) _ (hfine₁.setList hrestart) le_rfl
    refine ⟨hunks₂, s₂.list, ?_, hfine.kept.consecutive, hfine.kept.sticked.trans hsticked,
      hfine.sound.distinct, fun p hp => hfine.sound.entries.describes p (hfine.sound.entries.listed hp)⟩
    dsimp only
    rw [leftPass, hleft]
    dsimp only
    rw [rightPass, hright]
    rfl

/-- Line `m` has moved to the front. -/
def movedLine : CDiffData where
  options := ⟨0, false, false, false, true, 3⟩
  arBaseFile := [⟨"k", .lf⟩, ⟨"m", .lf⟩, ⟨"e", .lf⟩]
  arTheirFile := []
  arYourFile := [⟨"m", .lf⟩, ⟨"k", .lf⟩, ⟨"e", .lf⟩]

def movedLineHunks : List SvnDiffNode :=
  [{ type := .diffModified, original := 0, modified := 1, latest := 0, address := 0,
     originalStart := 0, modifiedStart := 0 },
   { type := .common, original := 1, modified := 1, latest := 0, address := 1,
     originalStart := 0, modifiedStart := 1 },
   { type := .diffModified, original := 1, modified := 0, latest := 0, address := 2,
     originalStart := 1, modifiedStart := 2 },
   { type := .common, original := 1, modified := 1, latest := 0, address := 3,
     originalStart := 2, modifiedStart := 2 }]

/-- The moved line has an entry. -/
example : (movedLine.movedBlocksDetect 0 movedLineHunks).map
    (fun r => (r.2.head, r.2.base 0, r.2.movedTo 0)) = .ok (some 0, 2, 0) := by decide

theorem movedBlocksDetect_sound_movedLine : ∃ hunks' x,
    movedLine.movedBlocksDetect 0 movedLineHunks = .ok (hunks', x) ∧
      (∀ o m o' m', Consecutive o m movedLineHunks o' m' → Consecutive o m hunks' o' m') ∧
      sticked true hunks' = movedLineHunks.map (fun h => (h.type, h.original, h.modified)) ∧
      (hunks'.map fun h => h.address).Nodup ∧
      ∀ p, Listed x p → ∃ h ∈ hunks', h.address = x.base p ∧
        (∀ j : ℕ, x.movedTo p = j → ∀ k < h.original,
          SameLine movedLine 0 (h.originalStart + k) (j + k)) ∧
        ∀ i : ℕ, x.movedFrom p = i → ∀ k < h.modified,
          SameLine movedLine 0 (i + k) (h.modifiedStart + k) :=
  movedBlocksDetect_sound movedLine 0 movedLineHunks ⟨by decide, by decide, by decide⟩

end TortoiseSvn.Merge.CDiffData
