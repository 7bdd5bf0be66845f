import TortoiseSvn.LogCache.TokenizedStringCompress

/-!
# Runs on a tokenized string container

A container is meant to be a list of strings: `Insert` appends one, `Remove` takes one out and
`Compress` changes nothing. `Op.apply` says so, and `Runs` is what the code does.

Main results: `runs_insert_compress`, without `Remove` every string is read as it was inserted, and
`runs_keep`, with `Remove` it is as long as nothing is left over where a string is inserted.
-/

namespace TortoiseSvn.LogCache

open TortoiseSvn.Lib CPairPacker

namespace CTokenizedStringContainer

/-- The operations on a container. -/
inductive Op where
  | insert (s : List UInt8)
  | remove (index : ℕ)
  | compress
  deriving DecidableEq

/-- What the operations do to a list of strings. -/
def Op.apply (texts : List (List UInt8)) : Op → List (List UInt8)
  | .insert s => texts ++ [s]
  | .remove index => texts.eraseIdx index
  | .compress => texts

/-- The operation returns and leaves the container `c'`. -/
def Op.Leaves (delimiter : UInt8 → Bool) (c : CTokenizedStringContainer) :
    Op → CTokenizedStringContainer → Prop
  | .insert s, c' => c' = c.insert delimiter s
  | .remove index, c' => c.remove index = .ok c'
  | .compress, c' => c.Compress c'

/-- The operations return one after the other and leave the container `c'`. -/
def Runs (delimiter : UInt8 → Bool) :
    List Op → CTokenizedStringContainer → CTokenizedStringContainer → Prop
  | [], c, c' => c' = c
  | op :: ops, c, c' => ∃ c₁, op.Leaves delimiter c c₁ ∧ Runs delimiter ops c₁ c'

/-- In a run, `P` holds of every operation and the container it is applied to. -/
def AllSteps (delimiter : UInt8 → Bool) (P : CTokenizedStringContainer → Op → Prop) :
    List Op → CTokenizedStringContainer → Prop
  | [], _ => True
  | op :: ops, c => P c op ∧ ∀ c', op.Leaves delimiter c c' → AllSteps delimiter P ops c'

/-- The strings have no terminator inside. -/
def Op.NulFree : Op → Prop
  | .insert s => (0 : UInt8) ∉ s
  | _ => True

/-- The precondition of `Remove`: the last entry, or one that has tokens.
Source: `TokenizedStringContainer.cpp` `CTokenizedStringContainer::Remove`, the assertion -/
def Op.Allowed (c : CTokenizedStringContainer) : Op → Prop
  | .remove index => index + 2 = c.offsets.length ∨
      index + 2 < c.offsets.length ∧ c.offsets[index]? ≠ c.offsets[index + 1]?
  | _ => True

/-- The state before an operation that the operation is made for: `Insert` needs that the buffer ends
with the last string. -/
def Op.Fits (c : CTokenizedStringContainer) : Op → Prop
  | .insert _ => c.offsets.getLast? = some c.stringData.length
  | .remove _ => True
  | .compress => c.Compressible

/-- An operation leaves one container only. -/
theorem Op.Leaves.unique {delimiter : UInt8 → Bool} {op : Op} {c c₁ c₂ : CTokenizedStringContainer}
    (h₁ : op.Leaves delimiter c c₁) (h₂ : op.Leaves delimiter c c₂) : c₁ = c₂ := by
  cases op with
  | insert s => exact Eq.trans h₁ (Eq.symm h₂)
  | remove index => exact Except.ok.inj (Eq.trans (Eq.symm h₁) h₂)
  | compress => exact Compress.unique h₁ h₂

theorem Runs.unique {delimiter : UInt8 → Bool} {ops : List Op} {c c₁ c₂ : CTokenizedStringContainer}
    (h₁ : Runs delimiter ops c c₁) (h₂ : Runs delimiter ops c c₂) : c₁ = c₂ := by
  induction ops generalizing c with
  | nil => exact Eq.trans h₁ (Eq.symm h₂)
  | cons op ops ih =>
    obtain ⟨d₁, hd₁, hr₁⟩ := h₁
    obtain ⟨d₂, hd₂, hr₂⟩ := h₂
    obtain rfl := hd₁.unique hd₂
    exact ih hr₁ hr₂

/-! ### Removing a string -/

section

variable {c : CTokenizedStringContainer} {ws : List (List UInt8)} {front behind : List Token}
  {segs : List (List Token)} {texts : List (List UInt8)}

/-- Two lists that correspond, split at a position. -/
theorem forall₂_split {α β : Type} {R : α → β → Prop} {l : List α} {m : List β}
    (h : List.Forall₂ R l m) {i : ℕ} (hi : i < l.length) : ∃ l₁ a l₂ m₁ b m₂,
      l = l₁ ++ a :: l₂ ∧ m = m₁ ++ b :: m₂ ∧ l₁.length = i ∧ m₁.length = i ∧
      List.Forall₂ R l₁ m₁ ∧ R a b ∧ List.Forall₂ R l₂ m₂ := by
  induction h generalizing i with
  | nil => exact absurd hi (Nat.not_lt_zero i)
  | @cons a b l m hab hrest ih =>
    rcases i with _ | i
    · exact ⟨[], a, l, [], b, m, rfl, rfl, rfl, rfl, .nil, hab, hrest⟩
    · obtain ⟨l₁, a', l₂, m₁, b', m₂, rfl, rfl, hl, hm, h₁, hab', h₂⟩ := ih (Nat.lt_of_succ_lt_succ hi)
      exact ⟨a :: l₁, a', l₂, b :: m₁, b', m₂, rfl, rfl, by simp [hl], by simp [hm], .cons hab h₁, hab',
        h₂⟩

theorem eraseIdx_middle {α : Type} (l₁ l₂ : List α) (a : α) :
    (l₁ ++ a :: l₂).eraseIdx l₁.length = l₁ ++ l₂ := by
  rw [List.eraseIdx_append_of_length_le le_rfl, Nat.sub_self, List.eraseIdx_cons_zero]

/-- Removing the last string leaves its tokens behind. -/
theorem Stores.remove_last (h : c.Stores ws front segs behind texts) {i : ℕ}
    (hi : i + 2 = c.offsets.length) : ∃ c' segs' behind', c.remove i = .ok c' ∧
      c'.Stores ws front segs' behind' (texts.eraseIdx i) := by
  have hlen : i + 1 = segs.length := by
    have hoffsets := h.offsets
    rw [hoffsets, offsetsFrom_length] at hi
    omega
  obtain ⟨segs₁, seg, segs₂, texts₁, text, texts₂, rfl, rfl, hl, hm, h₁, -, h₂⟩ :=
    forall₂_split h.yields (i := i) (by omega)
  obtain rfl : segs₂ = [] := by
    rw [List.length_append, List.length_cons] at hlen
    exact List.length_eq_zero_iff.mp (by omega)
  obtain rfl : texts₂ = [] := by
    cases h₂
    rfl
  refine ⟨{ c with offsets := c.offsets.dropLast }, segs₁, seg ++ behind, ?_, ?_⟩
  · rw [remove, if_pos hi]
  · rw [← hm, eraseIdx_middle, List.append_nil]
    constructor
    · exact h.words
    · show c.stringData = _
      rw [h.data]
      simp
    · show c.offsets.dropLast = _
      rw [h.offsets, offsetsFrom_concat, List.dropLast_concat]
    · exact h.sound
    · exact h.nodup
    · exact h.known
    · exact h.hidden
    · exact fun seg hseg => h.folded seg (List.mem_append_left _ hseg)
    · exact h₁

/-- An emptied string is not read together with the one in front of it. -/
theorem folded_append_emptied {pairs : List (Token × Token)} (hpairs : NoEmptyPart pairs)
    {prev rest : List Token} {t : Token} (hprev : Folded pairs (scanned prev))
    (hseg : Folded pairs (scanned (t :: rest))) :
    Folded pairs (scanned (prev ++ .empty :: rest)) := by
  rcases prev with _ | ⟨a, prev⟩
  · have htail : Folded pairs (shown rest) := hseg.tail
    exact folded_cons (fun b _ hmem => (hpairs _ hmem).1 rfl) htail
  · rw [List.cons_append, scanned, shown_append_empty]
    exact hprev

/-- Removing another string empties its first token; what remains of it goes to the string in front,
or in front of all strings. -/
theorem Stores.remove_inner (h : c.Stores ws front segs behind texts) {i : ℕ}
    (hi : i + 2 < c.offsets.length) (hne : c.offsets[i]? ≠ c.offsets[i + 1]?) :
    ∃ c' front' segs', c.remove i = .ok c' ∧
      c'.Stores ws front' segs' behind (texts.eraseIdx i) := by
  have hlen : i + 1 < segs.length := by
    have hoffsets := h.offsets
    rw [hoffsets, offsetsFrom_length] at hi
    omega
  obtain ⟨segs₁, seg, segs₂, texts₁, text, texts₂, rfl, rfl, rfl, hm, h₁, -, h₂⟩ :=
    forall₂_split h.yields (i := i) (by omega)
  have hfirst : c.offsets[segs₁.length]? = some (front.length + segs₁.flatten.length) := by
    rw [h.offsets, offsetsFrom_getElem? (by simp), offsetOf, List.take_left]
  have hlast : c.offsets[segs₁.length + 1]? =
      some (front.length + (segs₁.flatten.length + seg.length)) := by
    rw [h.offsets, offsetsFrom_getElem? (by simp), offsetOf_succ (l := seg) (by simp), offsetOf,
      List.take_left]
  rw [hfirst, hlast] at hne
  -- the string has a token
  obtain ⟨t, rest, rfl⟩ : ∃ t rest, seg = t :: rest := by
    cases seg with
    | nil => exact absurd rfl hne
    | cons t rest => exact ⟨t, rest, rfl⟩
  have hdata : c.stringData =
      front ++ segs₁.flatten ++ t :: (rest ++ segs₂.flatten ++ behind) := by
    rw [h.data]
    simp
  have hknown : ∀ u ∈ front ++ segs₁.flatten ++ .empty :: (rest ++ segs₂.flatten ++ behind),
      ∃ s, (textOf ws c.pairs).Expands u s := by
    intro u hu
    rw [List.mem_append, List.mem_cons] at hu
    rcases hu with hu | rfl | hu
    · exact h.known u (hdata ▸ List.mem_append_left _ hu)
    · exact ⟨[], .value (by simp [textOf, h.sound.root, checked, Except.map])⟩
    · exact h.known u (hdata ▸ List.mem_append_right _ (List.mem_cons_of_mem _ hu))
  have hremove : c.remove segs₁.length = .ok { c with
      stringData := front ++ segs₁.flatten ++ .empty :: (rest ++ segs₂.flatten ++ behind)
      offsets := c.offsets.eraseIdx segs₁.length } := by
    have hset : c.stringData.set (front.length + segs₁.flatten.length) .empty =
        front ++ segs₁.flatten ++ .empty :: (rest ++ segs₂.flatten ++ behind) := by
      rw [hdata, ← List.length_append, List.set_append_right _ _ le_rfl, Nat.sub_self,
        List.set_cons_zero]
    have hinside : front.length + segs₁.flatten.length < c.stringData.length := by
      rw [hdata, List.length_append, List.length_append, List.length_cons]
      omega
    rw [remove, if_neg hi.ne, hfirst, hlast]
    dsimp only
    rw [if_neg (not_or.mpr ⟨fun he => hne (congrArg some he), Nat.not_le.mpr hinside⟩), hset]
  have hkept : ∀ seg ∈ segs₁ ++ segs₂, Folded c.pairs (scanned seg) := fun seg hseg =>
    h.folded seg (by
      rcases List.mem_append.mp hseg with hseg | hseg
      · exact List.mem_append_left _ hseg
      · exact List.mem_append_right _ (List.mem_cons_of_mem _ hseg))
  have hoffsets := h.offsets
  rcases Nat.eq_zero_or_pos segs₁.length with hzero | hpos
  · -- the first string: its tokens go to the front
    obtain rfl : segs₁ = [] := List.length_eq_zero_iff.mp hzero
    obtain rfl : texts₁ = [] := List.length_eq_zero_iff.mp hm
    refine ⟨_, front ++ .empty :: rest, segs₂, hremove, ?_⟩
    constructor
    · exact h.words
    · simp
    · show c.offsets.eraseIdx 0 = _
      rw [hoffsets]
      simp [offsetsFrom]
    · exact h.sound
    · exact h.nodup
    · exact hknown
    · intro u hu
      cases front with
      | nil => exact (Option.some.inj hu).symm
      | cons v front => exact h.hidden u hu
    · exact fun seg hseg => hkept seg (List.mem_append_right _ hseg)
    · exact h₂
  · -- the string in front of it takes its tokens
    obtain ⟨segs₃, prev, segs₄, texts₃, text', texts₄, rfl, rfl, hl, -, h₃, hprev, h₄⟩ :=
      forall₂_split h₁ (i := segs₁.length - 1) (by omega)
    obtain rfl : segs₄ = [] := by
      rw [List.length_append, List.length_cons] at hl
      exact List.length_eq_zero_iff.mp (by omega)
    obtain rfl : texts₄ = [] := by
      cases h₄
      rfl
    refine ⟨_, front, segs₃ ++ (prev ++ .empty :: rest) :: segs₂, hremove, ?_⟩
    have htexts : (texts₃ ++ [text'] ++ text :: texts₂).eraseIdx (segs₃ ++ [prev]).length =
        texts₃ ++ text' :: texts₂ := by
      rw [← hm, eraseIdx_middle, List.append_assoc, List.singleton_append]
    rw [htexts]
    constructor
    · exact h.words
    · simp
    · show c.offsets.eraseIdx (segs₃ ++ [prev]).length = _
      have hsplit : offsetsFrom front.length (segs₃ ++ [prev] ++ (t :: rest) :: segs₂) =
          offsetsFrom front.length segs₃ ++ (front.length + (segs₃ ++ [prev]).flatten.length) ::
            offsetsFrom (front.length + (segs₃ ++ [prev]).flatten.length + (rest.length + 1)) segs₂ := by
        rw [offsetsFrom_append, offsetsFrom_concat, List.append_assoc]
        rfl
      have hlength : (segs₃ ++ [prev]).length = (offsetsFrom front.length segs₃).length := by simp
      rw [hoffsets, hsplit, hlength, eraseIdx_middle, offsetsFrom_append]
      simp [offsetsFrom, Nat.add_assoc]
    · exact h.sound
    · exact h.nodup
    · exact hknown
    · exact h.hidden
    · intro seg hseg
      rcases List.mem_append.mp hseg with hseg | hseg
      · exact hkept seg (List.mem_append_left _ (List.mem_append_left _ hseg))
      · rcases List.mem_cons.mp hseg with rfl | hseg
        · exact folded_append_emptied h.sound.noEmptyPart (hkept prev (by simp))
            (h.folded (t :: rest) (by simp))
        · exact hkept seg (List.mem_append_right _ hseg)
    · refine List.rel_append h₃ (.cons ?_ h₂)
      rwa [shown_append_empty]

/-! ### Runs -/

/-- The container holds the strings `texts`. -/
def Holds (c : CTokenizedStringContainer) (texts : List (List UInt8)) : Prop :=
  ∃ ws front segs behind, c.Stores ws front segs behind texts

theorem Holds.getAt (h : c.Holds texts) {i : ℕ} {s : List UInt8} (hi : texts[i]? = some s) :
    c.GetAt i s := by
  obtain ⟨ws, front, segs, behind, hstores⟩ := h
  exact ⟨_, hstores.getAt hi⟩

theorem Holds.length_offsets (h : c.Holds texts) : c.offsets.length = texts.length + 1 := by
  obtain ⟨ws, front, segs, behind, hstores⟩ := h
  exact hstores.length_offsets

/-- An operation does to the strings of a container that fits it what it does to a list. -/
theorem Holds.step (delimiter : UInt8 → Bool) (h : c.Holds texts) {op : Op} (hnul : op.NulFree)
    (hallowed : op.Allowed c) (hfits : op.Fits c) :
    ∃ c', op.Leaves delimiter c c' ∧ c'.Holds (op.apply texts) := by
  obtain ⟨ws, front, segs, behind, hstores⟩ := h
  cases op with
  | insert s =>
    obtain rfl := hstores.behind_eq_nil_iff.mp hfits
    exact ⟨_, rfl, _, _, _, _, hstores.insert hnul⟩
  | remove index =>
    rcases hallowed with hlast | ⟨hlt, hne⟩
    · obtain ⟨c', segs', behind', hremove, hstores'⟩ := hstores.remove_last hlast
      exact ⟨c', hremove, _, _, _, _, hstores'⟩
    · obtain ⟨c', front', segs', hremove, hstores'⟩ := hstores.remove_inner hlt hne
      exact ⟨c', hremove, _, _, _, _, hstores'⟩
  | compress =>
    obtain ⟨c', front', segs', behind', hcompress, hstores', -⟩ := hstores.compress hfits
    exact ⟨c', hcompress, _, _, _, _, hstores'⟩

theorem Holds.runs {delimiter : UInt8 → Bool} {ops : List Op} (h : c.Holds texts)
    (hnul : ∀ op ∈ ops, op.NulFree) (hallowed : AllSteps delimiter Op.Allowed ops c)
    (hfits : AllSteps delimiter Op.Fits ops c) :
    ∃ c', Runs delimiter ops c c' ∧ c'.Holds (ops.foldl Op.apply texts) := by
  induction ops generalizing c texts with
  | nil => exact ⟨c, rfl, h⟩
  | cons op ops ih =>
    obtain ⟨c₁, hleaves, h₁⟩ := h.step delimiter (hnul op List.mem_cons_self) hallowed.1 hfits.1
    obtain ⟨c', hruns, h'⟩ := ih h₁ (fun o ho => hnul o (List.mem_cons_of_mem _ ho))
      (hallowed.2 c₁ hleaves) (hfits.2 c₁ hleaves)
    exact ⟨c', ⟨c₁, hleaves, hruns⟩, h'⟩

theorem AllSteps.of_prefix {delimiter : UInt8 → Bool} {P : CTokenizedStringContainer → Op → Prop}
    {ops done : List Op} (h : AllSteps delimiter P ops c) (hpre : done <+: ops) :
    AllSteps delimiter P done c := by
  induction done generalizing ops c with
  | nil => trivial
  | cons op done ih =>
    obtain ⟨rest, rfl⟩ := hpre
    exact ⟨h.1, fun c' hc' => ih (h.2 c' hc') (List.prefix_append _ _)⟩

/-! ### Runs without `Remove` -/

/-- The strings that were inserted, in order. -/
def inserted (ops : List Op) : List (List UInt8) :=
  ops.filterMap fun op => match op with
    | .insert s => some s
    | _ => none

/-- The container holds nothing but the strings `texts`. -/
def Clean (c : CTokenizedStringContainer) (texts : List (List UInt8)) : Prop :=
  ∃ ws segs, c.Stores ws [] segs [] texts ∧ ∀ seg ∈ segs, seg.head? ≠ some .empty

theorem Clean.holds (h : c.Clean texts) : c.Holds texts := by
  obtain ⟨ws, segs, hstores, -⟩ := h
  exact ⟨ws, [], segs, [], hstores⟩

theorem Clean.compressible (h : c.Clean texts) : c.Compressible := by
  obtain ⟨ws, segs, hstores, hheads⟩ := h
  refine .inr ⟨hstores.behind_eq_nil_iff.mpr rfl, fun q hq hempty => ?_⟩
  have hcount := (mem_added.mp hq).2
  obtain ⟨i, -, hmem⟩ := List.mem_flatMap.mp (List.count_pos_iff.mp (Nat.zero_lt_of_lt hcount))
  rw [hstores.scannedStrings, stringAt, List.getElem?_map] at hmem
  rcases hi : segs[i]? with _ | seg
  · rw [hi] at hmem
    exact absurd hmem List.not_mem_nil
  · rw [hi, Option.map_some, Option.getD_some] at hmem
    have hfirst := (mem_of_neighbours hmem).1
    have hhead := hheads seg (List.mem_of_getElem? hi)
    rw [hempty] at hfirst
    cases seg with
    | nil => exact List.not_mem_nil hfirst
    | cons t seg =>
      rcases List.mem_cons.mp hfirst with ht | htail
      · exact hhead (congrArg some ht.symm)
      · exact empty_not_mem_shown seg htail

theorem Clean.insert (delimiter : UInt8 → Bool) (h : c.Clean texts) {s : List UInt8}
    (hs : (0 : UInt8) ∉ s) : (c.insert delimiter s).Clean (texts ++ [s]) := by
  obtain ⟨ws, segs, hstores, hheads⟩ := h
  refine ⟨_, _, hstores.insert hs, fun seg hseg => ?_⟩
  rcases List.mem_append.mp hseg with hseg | hseg
  · exact hheads seg hseg
  · rw [List.mem_singleton.mp hseg]
    exact fun hhead => (tokenize_spec delimiter hstores.sound hs).2.2.1
      (List.mem_of_mem_head? hhead)

/-- The last string has no tokens. -/
def LastEmpty (c : CTokenizedStringContainer) : Prop :=
  c.offsets.dropLast.getLast? = c.offsets.getLast?

/-- Nothing is left over from a last string that has no tokens. -/
theorem Clean.remove_last {s : List UInt8} (h : c.Clean (texts ++ [s])) (hlast : c.LastEmpty) :
    ∃ c', c.remove texts.length = .ok c' ∧ c'.Clean texts := by
  obtain ⟨ws, segs, hstores, hheads⟩ := h
  obtain ⟨front, seg, rfl⟩ : ∃ front seg, segs = front ++ [seg] := by
    rcases List.eq_nil_or_concat segs with rfl | ⟨front, seg, rfl⟩
    · exact absurd (List.forall₂_nil_left_iff.mp hstores.yields)
        (List.append_ne_nil_of_right_ne_nil _ (List.cons_ne_nil _ _))
    · exact ⟨front, seg, List.concat_eq_append⟩
  have hlength : front.length = texts.length := by
    have hboth := hstores.yields.length_eq
    rw [List.length_append, List.length_append] at hboth
    exact Nat.add_right_cancel hboth
  have hdrop : c.offsets.dropLast = offsetsFrom 0 front := by
    rw [hstores.offsets, List.length_nil, offsetsFrom_concat, List.dropLast_concat]
  obtain rfl : seg = [] := by
    obtain ⟨l, hl⟩ := offsetsFrom_eq_concat front
    rw [LastEmpty, hdrop, hstores.offsets, List.length_nil, offsetsFrom_concat, List.getLast?_concat, hl,
      List.getLast?_concat, Option.some_inj] at hlast
    rw [List.flatten_append, List.length_append, Nat.zero_add] at hlast
    simpa using hlast
  refine ⟨{ c with offsets := c.offsets.dropLast }, ?_, ws, front, ?_, fun seg hseg =>
    hheads seg (List.mem_append_left _ hseg)⟩
  · rw [remove, if_pos]
    rw [hstores.offsets, offsetsFrom_length, List.length_append, hlength]
    rfl
  · have hdata : c.stringData = [] ++ front.flatten ++ [] := by
      simpa using hstores.data
    refine ⟨hstores.words, hdata, hdrop, hstores.sound, hstores.nodup, hstores.known, hstores.hidden,
      fun seg hseg => hstores.folded seg (List.mem_append_left _ hseg), ?_⟩
    have hyields := List.forall₂_take_append _ texts [s] hstores.yields
    rwa [← hlength, List.take_left' rfl] at hyields

theorem Clean.runs (delimiter : UInt8 → Bool) {ops : List Op} (h : c.Clean texts)
    (hnul : ∀ s, Op.insert s ∈ ops → (0 : UInt8) ∉ s) (hkeep : ∀ index, Op.remove index ∉ ops) :
    ∃ c', Runs delimiter ops c c' ∧ c'.Clean (texts ++ inserted ops) := by
  induction ops generalizing c texts with
  | nil => exact ⟨c, rfl, by simpa [inserted] using h⟩
  | cons op ops ih =>
    have hnul' : ∀ s, Op.insert s ∈ ops → (0 : UInt8) ∉ s := fun s hs =>
      hnul s (List.mem_cons_of_mem _ hs)
    have hkeep' : ∀ index, Op.remove index ∉ ops := fun index hi =>
      hkeep index (List.mem_cons_of_mem _ hi)
    cases op with
    | insert s =>
      obtain ⟨c', hruns, h'⟩ := ih (h.insert delimiter (hnul s List.mem_cons_self)) hnul' hkeep'
      rw [List.append_assoc] at h'
      exact ⟨c', ⟨_, rfl, hruns⟩, h'⟩
    | remove index => exact absurd List.mem_cons_self (hkeep index)
    | compress =>
      have hcompressible := h.compressible
      obtain ⟨ws, segs, hstores, hheads⟩ := h
      obtain ⟨c₁, front', segs', behind', hcompress, hstores', hfront, hbehind, hheads'⟩ :=
        hstores.compress hcompressible
      obtain rfl := hfront rfl
      obtain rfl := hbehind rfl
      obtain ⟨c', hruns, h'⟩ := ih ⟨ws, segs', hstores', hheads' hheads⟩ hnul' hkeep'
      exact ⟨c', ⟨c₁, hcompress, hruns⟩, h'⟩

/-- The pairs of a container that holds strings lead to no cycle. -/
theorem Holds.acyclic (h : c.Holds texts) (t : Token) :
    ¬ Relation.TransGen c.appendToken.Part t t := by
  obtain ⟨ws, front, segs, behind, hstores⟩ := h
  intro hcycle
  -- a token on a cycle is a pair of the table
  obtain ⟨u, -, p, hrule, -⟩ := Relation.TransGen.tail'_iff.mp hcycle
  obtain ⟨i, rfl, hi⟩ := rule_pair hrule
  obtain ⟨s, hs⟩ := hstores.sound.expands i (List.getElem?_eq_some_iff.mp hi).1
  rw [← appendToken_pack hstores.words] at hs
  exact hs.acyclic .refl hcycle

/-- **Compression preserves content**. The operations return, so that no pair is ever inserted into
the pair dictionary that is there already (`insertPair` would fail). What they leave gives back every
string that was inserted, its pairs lead to no cycle, and the expansion of its tokens ends. -/
theorem runs_insert_compress (delimiter : UInt8 → Bool) (ops : List Op)
    (hnul : ∀ s, Op.insert s ∈ ops → (0 : UInt8) ∉ s) (hkeep : ∀ index, Op.remove index ∉ ops) :
    ∃ c, (∀ c', Runs delimiter ops init c' ↔ c' = c) ∧ c.offsets.length = (inserted ops).length + 1 ∧
      (∀ i s, (inserted ops)[i]? = some s → c.GetAt i s) ∧ c.pairs.Nodup ∧
      (∀ t, ¬ Relation.TransGen c.appendToken.Part t t) ∧
      ∀ t ∈ c.stringData, ∃ fuel s, c.appendToken.expand fuel t = some (.ok s) := by
  have hinit : init.Clean [] :=
    ⟨_, _, init_stores, fun seg hseg => absurd hseg List.not_mem_nil⟩
  obtain ⟨c, hruns, hclean⟩ := hinit.runs delimiter hnul hkeep
  rw [List.nil_append] at hclean
  have hholds := hclean.holds
  obtain ⟨ws, segs, hstores, -⟩ := hclean
  refine ⟨c, fun c' => ⟨fun h' => h'.unique hruns, fun he => he ▸ hruns⟩, hholds.length_offsets,
    fun i s hi => hholds.getAt hi, hstores.nodup, hholds.acyclic, fun t ht => ?_⟩
  obtain ⟨s, hs⟩ := hstores.known t ht
  rw [← appendToken_pack hstores.words] at hs
  obtain ⟨fuel, hfuel⟩ := hs.exists_fuel
  exact ⟨fuel, s, hfuel⟩

theorem runs_insert_compress_two :
    ∃ c, (∀ c', Runs (· == 32) [.insert [97, 32, 98], .compress, .insert [98]] init c' ↔ c' = c) ∧
      c.offsets.length =
        (inserted [.insert [97, 32, 98], .compress, .insert [98]]).length + 1 ∧
      (∀ i s, (inserted [.insert [97, 32, 98], .compress, .insert [98]])[i]? = some s →
        c.GetAt i s) ∧ c.pairs.Nodup ∧
      (∀ t, ¬ Relation.TransGen c.appendToken.Part t t) ∧
      ∀ t ∈ c.stringData, ∃ fuel s, c.appendToken.expand fuel t = some (.ok s) :=
  runs_insert_compress (· == 32) [.insert [97, 32, 98], .compress, .insert [98]]
    (by
      intro s hs
      simp only [List.mem_cons, List.not_mem_nil, Op.insert.injEq, reduceCtorEq, or_false,
        false_or] at hs
      rcases hs with rfl | rfl <;> decide)
    (fun index => by simp)

/-- **A container is the list of its strings** in every run in which nothing is left over where a
string is inserted, and `Compress` meets a container it works on. -/
theorem runs_keep (delimiter : UInt8 → Bool) (ops : List Op) (hnul : ∀ op ∈ ops, op.NulFree)
    (hallowed : AllSteps delimiter Op.Allowed ops init) (hfits : AllSteps delimiter Op.Fits ops init)
    (done : List Op) (hdone : done <+: ops) :
    ∃ c, (∀ c', Runs delimiter done init c' ↔ c' = c) ∧
      c.offsets.length = (done.foldl Op.apply []).length + 1 ∧
      ∀ i s, (done.foldl Op.apply [])[i]? = some s → c.GetAt i s := by
  have hinit : init.Holds [] := ⟨_, _, _, _, init_stores⟩
  obtain ⟨c, hruns, hholds⟩ := hinit.runs (fun op hop => hnul op (hdone.subset hop))
    (hallowed.of_prefix hdone) (hfits.of_prefix hdone)
  exact ⟨c, fun c' => ⟨fun h' => h'.unique hruns, fun he => he ▸ hruns⟩, hholds.length_offsets,
    fun i s hi => hholds.getAt hi⟩

theorem wordsOf_singleton (delimiter : UInt8 → Bool) (b : UInt8) :
    wordsOf delimiter [b] = [[b]] := by
  simp [wordsOf, splitWords, nextWord]

/-- Inserting a string of one character. -/
theorem insert_singleton (delimiter : UInt8 → Bool) (c : CTokenizedStringContainer) (b : UInt8) :
    c.insert delimiter [b] =
      { words := (appendWords c.pairs [[b]] c.words [] .empty).1
        pairs := c.pairs
        stringData := c.stringData ++ (appendWords c.pairs [[b]] c.words [] .empty).2.reverse
        offsets := c.offsets ++
          [(c.stringData ++ (appendWords c.pairs [[b]] c.words [] .empty).2.reverse).length] } := by
  unfold CTokenizedStringContainer.insert append
  rw [wordsOf_singleton]

/-- Removing the first of two strings and compressing meets all conditions. -/
theorem runs_keep_remove_first :
    ∃ c, (∀ c', Runs (fun _ => false) [.insert [97], .insert [98], .remove 0, .compress] init c' ↔
        c' = c) ∧
      c.offsets.length =
        ([.insert [97], .insert [98], .remove 0, .compress].foldl Op.apply []).length + 1 ∧
      ∀ i s, ([.insert [97], .insert [98], .remove 0, .compress].foldl Op.apply [])[i]? = some s →
        c.GetAt i s := by
  refine runs_keep (fun _ => false) [.insert [97], .insert [98], .remove 0, .compress] ?_ ?_ ?_ _
    (List.prefix_refl _)
  · simp [Op.NulFree]
  · refine ⟨trivial, fun c₁ h₁ => ⟨trivial, fun c₂ h₂ => ⟨?_, fun c₃ _ => ⟨trivial, fun _ _ => trivial⟩⟩⟩⟩
    change c₁ = init.insert _ _ at h₁
    change c₂ = c₁.insert _ _ at h₂
    rw [insert_singleton] at h₁ h₂
    subst h₁ h₂
    exact .inr (by decide)
  · refine ⟨rfl, fun c₁ h₁ => ⟨?_, fun c₂ h₂ => ⟨trivial, fun c₃ h₃ => ⟨.inl ?_, fun _ _ => trivial⟩⟩⟩⟩
    · change c₁ = init.insert _ _ at h₁
      rw [insert_singleton] at h₁
      subst h₁
      rfl
    · change c₁ = init.insert _ _ at h₁
      change c₂ = c₁.insert _ _ at h₂
      rw [insert_singleton] at h₁ h₂
      subst h₁ h₂
      obtain rfl := Except.ok.inj (Eq.trans (Eq.symm h₃) rfl)
      decide

/-- The tokens of the last string are still there behind `Remove`, and the next string gets them:
what was inserted as "b" is read as "ab". -/
theorem insert_after_remove_last : ¬ ∀ (delimiter : UInt8 → Bool) (ops : List Op),
    (∀ op ∈ ops, op.NulFree) → AllSteps delimiter Op.Allowed ops init →
    ∃ c, Runs delimiter ops init c ∧
      ∀ i s, (ops.foldl Op.apply [])[i]? = some s → c.GetAt i s := by
  intro h
  let c : CTokenizedStringContainer :=
    ⟨⟨[0, 97, 0, 98, 0], [0, 1, 3, 5]⟩, [], [.word 1, .word 2], [0, 2]⟩
  have hruns : Runs (fun _ => false) [.insert [97], .remove 0, .insert [98]] init c := by
    refine ⟨⟨⟨[0, 97, 0], [0, 1, 3]⟩, [], [.word 1], [0, 1]⟩, ?_,
      ⟨⟨[0, 97, 0], [0, 1, 3]⟩, [], [.word 1], [0]⟩, rfl, c, ?_, rfl⟩
    · exact Eq.trans (by decide) (Eq.symm (insert_singleton _ _ _))
    · exact Eq.trans (by decide) (Eq.symm (insert_singleton _ _ _))
  have hread : ∀ fuel, c.getAt (fuel + 1) 0 = some (.ok [97, 98]) := fun _ => rfl
  obtain ⟨c', hruns', hget⟩ := h (fun _ => false) [.insert [97], .remove 0, .insert [98]]
    (by simp [Op.NulFree]) (by
      refine ⟨trivial, fun c₁ h₁ => ⟨.inl ?_, fun _ _ => ⟨trivial, fun _ _ => trivial⟩⟩⟩
      change c₁ = init.insert _ _ at h₁
      rw [insert_singleton] at h₁
      subst h₁
      decide)
  obtain rfl := hruns'.unique hruns
  obtain ⟨_ | fuel, hfuel⟩ := hget 0 [98] rfl
  · exact absurd hfuel (by decide)
  · rw [hread] at hfuel
    exact absurd hfuel (by decide)

end

end CTokenizedStringContainer

end TortoiseSvn.LogCache
