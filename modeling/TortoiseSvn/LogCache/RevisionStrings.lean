import TortoiseSvn.LogCache.RevisionRuns

/-!
# The strings of the revisions

Authors, comments and user properties refer to pools and containers of strings. Most operations
leave them alone.

Main result: `Reached.authors`. Whatever was called, the author numbers are those of strings in the
author pool.
-/

namespace TortoiseSvn.LogCache

open TortoiseSvn.Lib

/-! ### Merged pools -/

/-- The mapping of a merge has indices of the merged dictionary. -/
theorem CStringDictionary.Unique.merge_lt {d source : CStringDictionary} (h : d.Unique)
    (hs : source.Unique) {i j : ℕ} (hj : (d.merge source).2[i]? = some j) :
    j < (d.merge source).1.size := by
  obtain ⟨-, -, hall⟩ := h.merge hs
  obtain ⟨src, rfl, hfree, -⟩ := hs
  obtain ⟨ws, rfl, hfree', -⟩ := h
  have hi : i < (pack src).size := by
    rw [merge_pack hfree' hfree] at hj
    have hlt := (List.getElem?_eq_some_iff.mp hj).1
    rwa [Pool.merge_length, ← pack_size src] at hlt
  obtain ⟨j', hj', hlt, -⟩ := hall i hi
  obtain rfl := Option.some.inj (hj.symm.trans hj')
  exact hlt

namespace CRevisionInfoContainer

/-- What a container has about strings. -/
structure StringColumns where
  authorPool : CStringDictionary
  authors : List ℕ
  comments : CTokenizedStringContainer
  userRevPropsPool : CStringDictionary
  userRevPropNames : List ℕ
  userRevPropValues : CTokenizedStringContainer

/-- The columns of the strings. -/
def stringColumns (c : CRevisionInfoContainer) : StringColumns where
  authorPool := c.authorPool
  authors := c.authors
  comments := c.comments
  userRevPropsPool := c.userRevPropsPool
  userRevPropNames := c.userRevPropNames
  userRevPropValues := c.userRevPropValues

/-! ### Operations that leave the strings alone -/

section Same

variable {c c' newData : CRevisionInfoContainer} {delimiter : UInt8 → Bool} {m : IndexMapping}
  {flags : UInt8} {keep : Bool}

theorem addChange_strings {action : TChangeAction} {pathType fromRevision : ℕ}
    {path fromPath : List UInt8} {textModified propsModified : UInt8}
    (h : c.addChange action pathType path fromPath fromRevision textModified propsModified =
      .ok c') : c'.stringColumns = c.stringColumns := by
  unfold CRevisionInfoContainer.addChange at h
  split at h
  · exact nomatch h
  split at h
  · obtain ⟨_, _, _, _, -, -, -, -, rfl⟩ := addChangedPath_ok h
    rfl
  · obtain ⟨c₁, h₁, h₂⟩ := bind_eq_ok.mp h
    obtain ⟨_, _, _, _, -, -, -, -, rfl⟩ := addChangedPath_ok h₁
    obtain ⟨_, -, rfl⟩ := addCopySource_ok h₂
    rfl

theorem addMergedRevision_strings {fromPath toPath : List UInt8} {revisionStart revisionDelta : ℕ}
    (h : c.addMergedRevision fromPath toPath revisionStart revisionDelta = .ok c') :
    c'.stringColumns = c.stringColumns := by
  unfold CRevisionInfoContainer.addMergedRevision at h
  split at h
  · exact nomatch h
  obtain ⟨_, -, hc⟩ := bind_eq_ok.mp h
  obtain rfl := Except.ok.inj hc
  rfl

theorem updateTimeStamps_strings (h : c.updateTimeStamps newData m keep = .ok c') :
    c'.stringColumns = c.stringColumns := by
  obtain ⟨timeStamps, -, hc⟩ := bind_eq_ok.mp h
  obtain rfl := Except.ok.inj hc
  rfl

theorem copyChanges_strings {mapping : List ℕ} {s : ℕ} (h : c.copyChanges newData mapping s = .ok c') :
    c'.stringColumns = c.stringColumns := by
  unfold copyChanges at h
  simp only [bind_eq_ok] at h
  obtain ⟨_, -, _, -, _, -, _, -, _, -, _, -, _, -, _, -, _, -, hc⟩ := h
  obtain rfl := Except.ok.inj hc
  rfl

theorem copyCopies_strings {mapping : List ℕ} {s : ℕ} (h : c.copyCopies newData mapping s = .ok c') :
    c'.stringColumns = c.stringColumns := by
  unfold copyCopies at h
  simp only [bind_eq_ok] at h
  obtain ⟨_, -, _, -, _, -, _, -, _, -, _, -, hc⟩ := h
  obtain rfl := Except.ok.inj hc
  rfl

theorem takeChanges_strings {mapping : List ℕ} {i s : ℕ}
    (h : c.takeChanges newData mapping i s = .ok c') : c'.stringColumns = c.stringColumns := by
  unfold takeChanges at h
  simp only [bind_eq_ok] at h
  obtain ⟨c₁, h₁, c₂, h₂, _, -, _, -, _, -, _, -, _, -, hc⟩ := h
  obtain rfl := Except.ok.inj hc
  exact (copyCopies_strings h₂).trans (copyChanges_strings h₁)

theorem keepChanges_strings {old : CRevisionInfoContainer} {first last firstCopy lastCopy : ℕ}
    (h : c.keepChanges old first last firstCopy lastCopy = .ok c') :
    c'.stringColumns = c.stringColumns := by
  unfold keepChanges at h
  simp only [bind_eq_ok] at h
  obtain ⟨_, -, _, -, _, -, _, -, _, -, hc⟩ := h
  split at hc
  · obtain rfl := Except.ok.inj hc
    rfl
  · obtain ⟨_, -, hc⟩ := bind_eq_ok.mp hc
    obtain ⟨_, -, hc⟩ := bind_eq_ok.mp hc
    obtain rfl := Except.ok.inj hc
    rfl

theorem updateChangesLoop_strings {old : CRevisionInfoContainer} {mapping : List ℕ}
    {n i first copy : ℕ}
    (h : updateChangesLoop newData old m mapping keep n i first copy c = .ok c') :
    c'.stringColumns = c.stringColumns := by
  induction n generalizing i first copy c with
  | zero =>
    obtain rfl := Except.ok.inj h
    rfl
  | succ n ih =>
    rw [updateChangesLoop] at h
    obtain ⟨⟨c₁, first₁, copy₁⟩, hround, h⟩ := bind_eq_ok.mp h
    refine (ih h).trans ?_
    unfold updateChangesRound at hround
    simp only [bind_eq_ok] at hround
    obtain ⟨_, -, _, -, source, -, c₂, hc₂, c₃, hc₃, hround⟩ := hround
    obtain ⟨rfl, -⟩ := Prod.mk.inj (Except.ok.inj hround)
    unfold storeChangeOffsets at hc₃
    simp only [bind_eq_ok] at hc₃
    obtain ⟨_, -, _, -, hc₃⟩ := hc₃
    obtain rfl := Except.ok.inj hc₃
    have hsame : c₂.stringColumns = c.stringColumns := by
      cases source with
      | some s => exact takeChanges_strings hc₂
      | none => exact keepChanges_strings hc₂
    exact hsame

theorem updateChanges_strings {mapping : List ℕ}
    (h : c.updateChanges newData m mapping keep = .ok c') : c'.stringColumns = c.stringColumns := by
  have hloop := updateChangesLoop_strings h
  exact hloop

theorem takeMerges_strings {mapping : List ℕ} {s : ℕ} (h : c.takeMerges newData mapping s = .ok c') :
    c'.stringColumns = c.stringColumns := by
  unfold takeMerges at h
  simp only [bind_eq_ok] at h
  obtain ⟨_, -, _, -, _, -, _, -, _, -, _, -, _, -, _, -, _, -, hc⟩ := h
  obtain rfl := Except.ok.inj hc
  rfl

theorem keepMerges_strings {old : CRevisionInfoContainer} {first last : ℕ}
    (h : c.keepMerges old first last = .ok c') : c'.stringColumns = c.stringColumns := by
  unfold keepMerges at h
  simp only [bind_eq_ok] at h
  obtain ⟨_, -, _, -, _, -, _, -, hc⟩ := h
  obtain rfl := Except.ok.inj hc
  rfl

theorem updateMergersLoop_strings {old : CRevisionInfoContainer} {mapping : List ℕ} {n i first : ℕ}
    (h : updateMergersLoop newData old m mapping keep n i first c = .ok c') :
    c'.stringColumns = c.stringColumns := by
  induction n generalizing i first c with
  | zero =>
    obtain rfl := Except.ok.inj h
    rfl
  | succ n ih =>
    rw [updateMergersLoop] at h
    obtain ⟨⟨c₁, first₁⟩, hround, h⟩ := bind_eq_ok.mp h
    refine (ih h).trans ?_
    unfold updateMergersRound at hround
    simp only [bind_eq_ok] at hround
    obtain ⟨_, -, source, -, c₂, hc₂, _, -, hround⟩ := hround
    obtain ⟨rfl, -⟩ := Prod.mk.inj (Except.ok.inj hround)
    have hsame : c₂.stringColumns = c.stringColumns := by
      cases source with
      | some s => exact takeMerges_strings hc₂
      | none => exact keepMerges_strings hc₂
    exact hsame

theorem updateMergers_strings {mapping : List ℕ}
    (h : c.updateMergers newData m mapping keep = .ok c') : c'.stringColumns = c.stringColumns := by
  have hloop := updateMergersLoop_strings h
  exact hloop

theorem updatePresenceFlags_strings (h : c.updatePresenceFlags newData m flags keep = .ok c') :
    c'.stringColumns = c.stringColumns := by
  obtain ⟨presenceFlags, -, hc⟩ := bind_eq_ok.mp h
  obtain rfl := Except.ok.inj hc
  rfl

theorem writeChanges_strings {ys : List SPerChangeInfo} {iter : CChangesIterator}
    (h : writeChanges ys iter c = .ok c') : c'.stringColumns = c.stringColumns := by
  induction ys generalizing iter c with
  | nil =>
    obtain rfl := Except.ok.inj h
    rfl
  | cons y ys ih =>
    rw [writeChanges] at h
    simp only [bind_eq_ok] at h
    obtain ⟨_, -, _, -, _, -, _, -, _, -, h⟩ := h
    split at h
    · simp only [bind_eq_ok] at h
      obtain ⟨_, -, _, -, h⟩ := h
      have hrest := ih h
      exact hrest
    · have hrest := ih h
      exact hrest

theorem optimizeChangeOrder_strings {sort : List SPerChangeInfo → List SPerChangeInfo}
    (h : c.optimizeChangeOrder sort = .ok c') : c'.stringColumns = c.stringColumns := by
  unfold optimizeChangeOrder at h
  generalize c.size = n at h
  generalize 0 = i at h
  induction n generalizing i c with
  | zero =>
    obtain rfl := Except.ok.inj h
    rfl
  | succ n ih =>
    rw [optimizeChangeOrderLoop] at h
    simp only [bind_eq_ok] at h
    obtain ⟨_, -, _, -, c₁, hc₁, h⟩ := h
    exact (ih _ h).trans (writeChanges_strings hc₁)

end Same

/-! ### Authors -/

/-- The author columns of a container fit together: each author is a string of the pool, which begins
with the empty string. -/
structure ConsistentAuthors (c : CRevisionInfoContainer) : Prop where
  pool : c.authorPool.Unique
  empty : 0 < c.authorPool.size ∧ c.authorPool.get 0 = []
  authors : ∀ a ∈ c.authors, a < c.authorPool.size

section Authors

variable {c c' newData : CRevisionInfoContainer} {delimiter : UInt8 → Bool} {m : IndexMapping}
  {flags : UInt8} {keep : Bool} {dateOf : List UInt8 → ℤ}

/-- Only the strings matter. -/
theorem ConsistentAuthors.congr (h : c.ConsistentAuthors)
    (hc : c'.stringColumns = c.stringColumns) : c'.ConsistentAuthors := by
  have hpool : c'.authorPool = c.authorPool := congrArg StringColumns.authorPool hc
  have hauthors : c'.authors = c.authors := congrArg StringColumns.authors hc
  refine ⟨hpool ▸ h.pool, hpool ▸ h.empty, ?_⟩
  rw [hpool, hauthors]
  exact h.authors

theorem init_authors : init.ConsistentAuthors where
  pool := .init
  empty := ⟨by decide, by decide⟩
  authors := fun _ h => absurd h List.not_mem_nil

/-- The pool got more strings, and the authors are known. -/
theorem ConsistentAuthors.extends (h : c.ConsistentAuthors) (hpool : c'.authorPool.Unique)
    (hext : c.authorPool.Extends c'.authorPool)
    (hauthors : ∀ a ∈ c'.authors, a ∈ c.authors ∨ a < c'.authorPool.size) :
    c'.ConsistentAuthors := by
  refine ⟨hpool, ⟨h.empty.1.trans_le hext.size, ?_⟩, fun a ha => ?_⟩
  · exact (hext.get 0 h.empty.1).trans h.empty.2
  · rcases hauthors a ha with hmem | hlt
    · exact (h.authors a hmem).trans_le hext.size
    · exact hlt

theorem nulFree_takeWhile (s : List UInt8) : (0 : UInt8) ∉ s.takeWhile (· ≠ 0) := by
  intro h
  have hne := List.mem_takeWhile_imp h
  exact absurd rfl (of_decide_eq_true hne)

theorem ConsistentAuthors.insert (h : c.ConsistentAuthors) {author comment : List UInt8}
    {timeStamp : ℤ} {index : ℕ}
    (hc : c.insert delimiter author comment timeStamp flags = .ok (c', index)) :
    c'.ConsistentAuthors := by
  obtain ⟨_, _, _, _, -, -, -, -, -, rfl⟩ := insert_ok hc
  obtain ⟨hunique, hext, hlt, -⟩ := h.pool.autoInsert (nulFree_takeWhile author)
  refine h.extends hunique hext fun a ha => ?_
  rcases List.mem_append.mp ha with ha | ha
  · exact .inl ha
  · obtain rfl := List.mem_singleton.mp ha
    exact .inr hlt

theorem mem_modifyBack {α : Type} {f : α → α} {l l' : List α} (h : modifyBack f l = .ok l') {a : α}
    (ha : a ∈ l') : a ∈ l ∨ ∃ b ∈ l, a = f b := by
  rcases List.eq_nil_or_concat l with rfl | ⟨l₀, b, rfl⟩
  · exact nomatch h
  · rw [List.concat_eq_append] at h ⊢
    rw [modifyBack_concat] at h
    obtain rfl := Except.ok.inj h
    rcases List.mem_append.mp ha with ha | ha
    · exact .inl (List.mem_append_left _ ha)
    · obtain rfl := List.mem_singleton.mp ha
      exact .inr ⟨b, List.mem_append_right _ List.mem_cons_self, rfl⟩

theorem ConsistentAuthors.addRevProp (h : c.ConsistentAuthors) {revProp value : List UInt8}
    (hc : c.addRevProp delimiter dateOf revProp value = .ok c') : c'.ConsistentAuthors := by
  unfold CRevisionInfoContainer.addRevProp at hc
  split at hc
  · obtain ⟨authors, hauthors, rfl⟩ := map_eq_ok.mp hc
    obtain ⟨hunique, hext, hlt, -⟩ := h.pool.autoInsert (nulFree_takeWhile value)
    refine h.extends hunique hext fun a ha => ?_
    rcases mem_modifyBack hauthors ha with hmem | ⟨_, -, rfl⟩
    · exact .inl hmem
    · exact .inr hlt
  split at hc
  · obtain ⟨_, -, rfl⟩ := map_eq_ok.mp hc
    exact ⟨h.pool, h.empty, h.authors⟩
  split at hc
  · obtain ⟨_, -, rfl⟩ := map_eq_ok.mp hc
    exact ⟨h.pool, h.empty, h.authors⟩
  · unfold addUserRevProp at hc
    split at hc
    · exact nomatch hc
    · obtain ⟨_, -, hc⟩ := bind_eq_ok.mp hc
      obtain rfl := Except.ok.inj hc
      exact ⟨h.pool, h.empty, h.authors⟩

theorem ConsistentAuthors.appendNewEntries (h : c.ConsistentAuthors)
    (hc : c.appendNewEntries delimiter m = .ok c') : c'.ConsistentAuthors := by
  obtain ⟨-, rfl⟩ | ⟨-, _, _, _, _, -, -, -, -, rfl⟩ := appendNewEntries_ok hc rfl
  · exact h
  · refine h.extends h.pool (.refl _) fun a ha => ?_
    rcases List.mem_append.mp ha with ha | ha
    · exact .inl ha
    · obtain rfl := List.eq_of_mem_replicate ha
      exact .inr h.empty.1

theorem mem_store {α : Type} {l l' : List α} {i : ℕ} {a b : α} (h : store l i a = .ok l')
    (hb : b ∈ l') : b ∈ l ∨ b = a := by
  unfold store at h
  split at h
  · rw [← Except.ok.inj h] at hb
    exact List.mem_or_eq_of_mem_set hb
  · exact nomatch h

theorem mem_updateAuthorsLoop {mapping authors authors' : List ℕ}
    (h : updateAuthorsLoop newData keep mapping m authors = .ok authors') {a : ℕ}
    (ha : a ∈ authors') : a ∈ authors ∨ a ∈ mapping := by
  induction m generalizing authors with
  | nil =>
    obtain rfl := Except.ok.inj h
    exact .inl ha
  | cons e m ih =>
    rw [updateAuthorsLoop] at h
    obtain ⟨b, -, h⟩ := bind_eq_ok.mp h
    split at h
    · simp only [bind_eq_ok] at h
      obtain ⟨_, -, author, hauthor, _, hstore, h⟩ := h
      rcases ih h with hmem | hmem
      · rcases mem_store hstore hmem with hmem | rfl
        · exact .inl hmem
        · exact .inr (List.mem_of_getElem? (checked_eq_ok.mp hauthor))
      · exact .inr hmem
    · exact ih h

theorem ConsistentAuthors.updateAuthors (h : c.ConsistentAuthors) (hnew : newData.ConsistentAuthors)
    (hc : c.updateAuthors newData m keep = .ok c') : c'.ConsistentAuthors := by
  obtain ⟨authors, hauthors, hc⟩ := bind_eq_ok.mp hc
  obtain rfl := Except.ok.inj hc
  obtain ⟨hunique, hext, -⟩ := h.pool.merge hnew.pool
  refine h.extends hunique hext fun a ha => ?_
  rcases mem_updateAuthorsLoop hauthors ha with hmem | hmem
  · exact .inl hmem
  · obtain ⟨i, hi⟩ := List.getElem?_of_mem hmem
    exact .inr (h.pool.merge_lt hnew.pool hi)

theorem pass_cases {flag : UInt8} {f : CRevisionInfoContainer → Except Fault CRevisionInfoContainer}
    {p : CRevisionInfoContainer → Prop} (h : c.pass flags flag f = .ok c') (hp : p c)
    (hf : f c = .ok c' → p c') : p c' := by
  obtain ⟨-, hc⟩ | ⟨-, rfl⟩ := pass_ok h
  · exact hf hc
  · exact hp

theorem ConsistentAuthors.update (h : c.ConsistentAuthors) (hnew : newData.ConsistentAuthors)
    (hc : c.update delimiter newData m flags keep = .ok c') : c'.ConsistentAuthors := by
  unfold CRevisionInfoContainer.update at hc
  simp only [bind_eq_ok] at hc
  obtain ⟨c₁, happend, ⟨d, mapping⟩, -, c₂, hauthors, c₃, htimes, c₄, hcomments, c₅, hchanges,
    c₆, hmergers, c₇, hprops, hflags⟩ := hc
  have h₁ : ({ c₁ with paths := d } : CRevisionInfoContainer).ConsistentAuthors :=
    (h.appendNewEntries happend).congr rfl
  have h₂ := pass_cases hauthors h₁ fun hc => h₁.updateAuthors hnew hc
  have h₃ := pass_cases htimes h₂ fun hc => h₂.congr (updateTimeStamps_strings hc)
  have h₄ := pass_cases hcomments h₃ fun hc => by
    obtain ⟨_, -, hc⟩ := bind_eq_ok.mp hc
    obtain ⟨_, -, hc⟩ := bind_eq_ok.mp hc
    obtain rfl := Except.ok.inj hc
    exact ⟨h₃.pool, h₃.empty, h₃.authors⟩
  have h₅ := pass_cases hchanges h₄ fun hc => h₄.congr (updateChanges_strings hc)
  have h₆ := pass_cases hmergers h₅ fun hc => h₅.congr (updateMergers_strings hc)
  have h₇ := pass_cases hprops h₆ fun hc => by
    obtain ⟨_, -, hc⟩ := bind_eq_ok.mp hc
    obtain ⟨_, -, hc⟩ := bind_eq_ok.mp hc
    obtain ⟨_, -, hc⟩ := bind_eq_ok.mp hc
    obtain rfl := Except.ok.inj hc
    exact ⟨h₆.pool, h₆.empty, h₆.authors⟩
  exact h₇.congr (updatePresenceFlags_strings hflags)

/-- **Whatever was called**, each author is a string of the pool. -/
theorem Reached.authors (h : Reached delimiter dateOf c) : c.ConsistentAuthors := by
  induction h with
  | init => exact init_authors
  | insert _ hc ih => exact ih.insert hc
  | addChange _ hc ih => exact ih.congr (addChange_strings hc)
  | addMergedRevision _ hc ih => exact ih.congr (addMergedRevision_strings hc)
  | addRevProp _ hc ih => exact ih.addRevProp hc
  | update _ _ _ hc ih ihNew => exact ih.update ihNew hc
  | optimizeChangeOrder _ _ hc ih => exact ih.congr (optimizeChangeOrder_strings hc)

end Authors

end CRevisionInfoContainer

end TortoiseSvn.LogCache
