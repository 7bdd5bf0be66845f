import TortoiseSvn.LogCache.TokenizedStringRuns

/-!
# Replacing strings of a tokenized string container

`Replace` builds the token buffer anew: strings whose index is mapped are taken from another container
and cut into tokens again, the tokens of the others are copied. Mapped indices behind the end are
appended.

Main result: `Clean.replace`. Behind `Replace` the strings are those of `IndexMapping.update`.
-/

namespace TortoiseSvn.LogCache

open TortoiseSvn.Lib CStringDictionary

namespace CTokenizedStringContainer

/-! ### Texts without a terminator -/

/-- What a token stands for is made of words. -/
theorem nulFree_of_expands {ws : List (List UInt8)} {pairs : List (Token × Token)} (hws : NulFree ws)
    {t : Token} {s : List UInt8} (h : (textOf ws pairs).Expands t s) : (0 : UInt8) ∉ s := by
  induction h with
  | @value t s h =>
    have hword : ∀ i : ℕ, (checked ws[i]?).map Sum.inl =
        (.ok (.inl s) : Except Fault (List UInt8 ⊕ Token × Token)) → (0 : UInt8) ∉ s := by
      intro i hi
      rcases hw : ws[i]? with _ | w
      · rw [hw] at hi
        cases hi
      · rw [hw] at hi
        obtain rfl := Sum.inl.inj (Except.ok.inj hi)
        exact hws _ (List.mem_of_getElem? hw)
    cases t with
    | empty => exact hword 0 h
    | word i => exact hword i h
    | pair i =>
      rcases hp : pairs[i]? with _ | p
      · have herror : (checked pairs[i]?).map Sum.inr =
            (.ok (.inl s) : Except Fault (List UInt8 ⊕ Token × Token)) := h
        rw [hp] at herror
        cases herror
      · have hpair : (checked pairs[i]?).map Sum.inr =
            (.ok (.inl s) : Except Fault (List UInt8 ⊕ Token × Token)) := h
        rw [hp] at hpair
        cases hpair
  | pair h _ _ ih₁ ih₂ => exact fun hmem => (List.mem_append.mp hmem).elim ih₁ ih₂

theorem nulFree_of_yields {ws : List (List UInt8)} {pairs : List (Token × Token)} (hws : NulFree ws)
    {ts : List Token} {s : List UInt8} (h : (textOf ws pairs).Yields ts s) : (0 : UInt8) ∉ s := by
  obtain ⟨ss, hs, rfl⟩ := h
  intro hmem
  obtain ⟨u, hu, hmem⟩ := List.mem_flatten.mp hmem
  obtain ⟨i, hi, rfl⟩ := List.getElem_of_mem hu
  obtain ⟨hlen, hget⟩ := List.forall₂_iff_get.mp hs
  exact nulFree_of_expands hws (hget i (hlen ▸ hi) hi) hmem

section

variable {c source : CTokenizedStringContainer} {texts news : List (List UInt8)}
  {delimiter : UInt8 → Bool}

theorem Clean.nulFree (h : c.Clean texts) {s : List UInt8} (hs : s ∈ texts) : (0 : UInt8) ∉ s := by
  obtain ⟨ws, segs, hstores, -⟩ := h
  obtain ⟨i, hi, rfl⟩ := List.getElem_of_mem hs
  obtain ⟨hlen, hget⟩ := List.forall₂_iff_get.mp hstores.yields
  exact nulFree_of_yields hstores.sound.nulFree (hget i (hlen ▸ hi) hi)

theorem init_clean : init.Clean [] := ⟨_, _, init_stores, fun _ hseg => absurd hseg List.not_mem_nil⟩

theorem Clean.get (h : c.Clean texts) {i : ℕ} {s : List UInt8} (hi : texts[i]? = some s) :
    c.get i = .ok s := by
  obtain ⟨ws, segs, hstores, -⟩ := h
  rw [CTokenizedStringContainer.get, hstores.getAt hi, Option.getD_some]

theorem Clean.length_offsets (h : c.Clean texts) : c.offsets.length = texts.length + 1 :=
  h.holds.length_offsets

/-- An empty string has no tokens, so it is not inserted at all. -/
theorem insertCount_nil (c : CTokenizedStringContainer) (count : ℕ) :
    c.insertCount delimiter [] count = c := by
  have happend : c.append delimiter [] = c := by
    have hwords : appendWords c.pairs (wordsOf delimiter []) c.words [] .empty = (c.words, []) := by
      rw [wordsOf, splitWords, appendWords]
      rfl
    unfold append
    rw [hwords]
    simp
  unfold insertCount
  split
  · rfl
  · rw [happend]
    simp

/-! ### Building the buffer anew -/

/-- While the buffer is built anew: it holds the strings `texts` at the offsets `os`, with the old
pairs, and the old words `ws₀` are still there. -/
def Rebuilds (ws₀ : List (List UInt8)) (pairs : List (Token × Token)) (c : CTokenizedStringContainer)
    (os : List ℕ) (texts : List (List UInt8)) : Prop :=
  ∃ ws segs, ws₀ <+: ws ∧ c.pairs = pairs ∧
    ({ c with offsets := os } : CTokenizedStringContainer).Stores ws [] segs [] texts ∧
      ∀ seg ∈ segs, seg.head? ≠ some .empty

/-- A stored string that can be copied. -/
structure Copied (ws₀ : List (List UInt8)) (pairs : List (Token × Token)) (seg : List Token)
    (s : List UInt8) : Prop where
  known : ∀ t ∈ seg, ∃ u, (textOf ws₀ pairs).Expands t u
  folded : Folded pairs (scanned seg)
  head : seg.head? ≠ some .empty
  yields : (textOf ws₀ pairs).Yields (shown seg) s

variable {ws₀ : List (List UInt8)} {pairs : List (Token × Token)} {os : List ℕ} {s : List UInt8}

theorem append_offsets (c : CTokenizedStringContainer) (os : List ℕ) (s : List UInt8) :
    ({ c with offsets := os } : CTokenizedStringContainer).append delimiter s =
      { c.append delimiter s with offsets := os } := by
  unfold append
  rcases appendWords c.pairs (wordsOf delimiter s) c.words [] .empty with ⟨words, stack⟩
  rfl

theorem append_pairs (c : CTokenizedStringContainer) (s : List UInt8) :
    (c.append delimiter s).pairs = c.pairs := by
  unfold append
  rcases appendWords c.pairs (wordsOf delimiter s) c.words [] .empty with ⟨words, stack⟩
  rfl

/-- A string from elsewhere is cut into tokens. -/
theorem Rebuilds.append (delimiter : UInt8 → Bool) (h : Rebuilds ws₀ pairs c os texts)
    (hs : (0 : UInt8) ∉ s) : Rebuilds ws₀ pairs (c.append delimiter s)
      (os ++ [(c.append delimiter s).stringData.length]) (texts ++ [s]) := by
  obtain ⟨ws, segs, hpre, hpairs, hstores, hheads⟩ := h
  obtain ⟨hpre', -, hne, -, -⟩ := tokenize_spec delimiter hstores.sound hs
  have hinsert : (CTokenizedStringContainer.insert delimiter _ s).Stores _ _ _ _ _ := hstores.insert hs
  rw [CTokenizedStringContainer.insert, append_offsets] at hinsert
  refine ⟨_, _, hpre.trans hpre', (append_pairs c s).trans hpairs, hinsert, fun seg hseg => ?_⟩
  rcases List.mem_append.mp hseg with hseg | hseg
  · exact hheads seg hseg
  · rw [List.mem_singleton.mp hseg]
    exact fun hhead => hne (List.mem_of_mem_head? hhead)

/-- The tokens of an old string are copied. -/
theorem Rebuilds.copy (h : Rebuilds ws₀ pairs c os texts) {seg : List Token}
    (hseg : Copied ws₀ pairs seg s) :
    Rebuilds ws₀ pairs { c with stringData := c.stringData ++ seg }
      (os ++ [(c.stringData ++ seg).length]) (texts ++ [s]) := by
  obtain ⟨ws, segs, hpre, rfl, hstores, hheads⟩ := h
  have hdata : c.stringData = segs.flatten := by
    rw [hstores.data, List.nil_append, List.append_nil]
  have hmono := textOf_mono hpre c.pairs
  refine ⟨ws, segs ++ [seg], hpre, rfl, ⟨hstores.words, ?_, ?_, hstores.sound, hstores.nodup, ?_,
    hstores.hidden, ?_, ?_⟩, ?_⟩
  · show c.stringData ++ seg = _
    rw [hdata, List.nil_append, List.append_nil, List.flatten_append, List.flatten_singleton]
  · show os ++ _ = _
    rw [show os = offsetsFrom 0 segs from hstores.offsets, List.length_nil, offsetsFrom_concat,
      hdata, List.length_append, Nat.zero_add, List.flatten_append, List.flatten_singleton,
      List.length_append]
  · intro t ht
    rcases List.mem_append.mp ht with ht | ht
    · exact hstores.known t ht
    · obtain ⟨u, hu⟩ := hseg.known t ht
      exact ⟨u, hu.mono rfl hmono⟩
  · intro seg' hmem
    rcases List.mem_append.mp hmem with hmem | hmem
    · exact hstores.folded seg' hmem
    · rw [List.mem_singleton.mp hmem]
      exact hseg.folded
  · exact List.rel_append hstores.yields (.cons (hseg.yields.mono rfl hmono) .nil)
  · intro seg' hmem
    rcases List.mem_append.mp hmem with hmem | hmem
    · exact hheads seg' hmem
    · rw [List.mem_singleton.mp hmem]
      exact hseg.head

/-! ### The two loops -/

variable {m : IndexMapping}

/-- The first loop replaces the strings that are mapped and copies the others. -/
theorem spliceStrings_spec (delimiter : UInt8 → Bool)
    (hget : ∀ e ∈ m, source.get e.2 = .ok (news.getD e.2 []))
    (hnul : ∀ e ∈ m, (0 : UInt8) ∉ news.getD e.2 []) {rest : List (List Token)}
    {restTexts : List (List UInt8)} (hrest : List.Forall₂ (Copied ws₀ pairs) rest restTexts)
    (h : Rebuilds ws₀ pairs c os texts) (front : List Token) (i : ℕ) :
    ∃ c' ends, spliceStrings delimiter source m (front ++ rest.flatten) i front.length
        (offsetsFrom front.length rest).tail c = .ok (c', ends) ∧
      Rebuilds ws₀ pairs c' (os ++ ends)
        (texts ++ m.splice (fun v => news.getD v []) i restTexts) := by
  induction hrest generalizing c os texts front i with
  | nil => exact ⟨c, [], rfl, by simpa [IndexMapping.splice] using h⟩
  | @cons seg s rest restTexts hseg _ ih =>
    rw [offsetsFrom, List.tail_cons, offsetsFrom_eq_cons, spliceStrings, List.flatten_cons,
      ← List.append_assoc, ← List.length_append, IndexMapping.splice]
    cases hfind : m.find i with
    | some v =>
      have hmem := IndexMapping.mem_of_find hfind
      obtain ⟨c', ends, hrun, h'⟩ := ih (h.append delimiter (hnul _ hmem))
        (front ++ seg) (i + 1)
      refine ⟨c', (c.append delimiter (news.getD v [])).stringData.length :: ends, ?_, ?_⟩
      · dsimp only
        rw [hget _ hmem]
        simp only [Except.map, bind, Except.bind]
        rw [hrun]
        rfl
      · rw [List.append_assoc, List.append_assoc] at h'
        exact h'
    | none =>
      obtain ⟨c', ends, hrun, h'⟩ := ih (h.copy hseg) (front ++ seg) (i + 1)
      have hsegment : segment (front ++ seg ++ rest.flatten) front.length (front ++ seg).length =
          seg := by
        rw [List.length_append]
        exact segment_middle front seg rest.flatten
      refine ⟨c', (c.stringData ++ seg).length :: ends, ?_, ?_⟩
      · dsimp only
        rw [if_pos ⟨by simp, by simp⟩, hsegment]
        simp only [bind, Except.bind]
        rw [hrun]
        rfl
      · rw [List.append_assoc, List.append_assoc] at h'
        exact h'

/-- The second loop appends the strings whose index is behind the end. -/
theorem insertNew_spec (delimiter : UInt8 → Bool)
    (hget : ∀ e ∈ m, source.get e.2 = .ok (news.getD e.2 []))
    (hnul : ∀ e ∈ m, (0 : UInt8) ∉ news.getD e.2 []) (h : c.Clean texts) (count : ℕ) :
    ∃ c', insertNew delimiter source count m c = .ok c' ∧
      c'.Clean (texts ++ m.appended (fun v => news.getD v []) count) := by
  induction m generalizing c texts with
  | nil => exact ⟨c, rfl, by simpa [IndexMapping.appended] using h⟩
  | cons e m ih =>
    obtain ⟨key, v⟩ := e
    have ih' := fun {c : CTokenizedStringContainer} {texts : List (List UInt8)} (h : c.Clean texts) =>
      ih (fun e he => hget e (List.mem_cons_of_mem _ he))
        (fun e he => hnul e (List.mem_cons_of_mem _ he)) h
    rw [insertNew]
    by_cases hkey : count ≤ key
    · obtain ⟨c', hrun, h'⟩ := ih' (h.insert delimiter (hnul _ List.mem_cons_self))
      refine ⟨c', ?_, ?_⟩
      · rw [if_pos hkey, hget _ List.mem_cons_self]
        exact hrun
      · rw [List.append_assoc] at h'
        rw [IndexMapping.appended, List.filter_cons_of_pos (by simpa using hkey), List.map_cons]
        exact h'
    · obtain ⟨c', hrun, h'⟩ := ih' h
      refine ⟨c', ?_, ?_⟩
      · rw [if_neg hkey]
        exact hrun
      · rw [IndexMapping.appended, List.filter_cons_of_neg (by simpa using hkey)]
        exact h'

/-- **Behind `Replace`, the strings are those of the update of a list.** -/
theorem Clean.replace (delimiter : UInt8 → Bool) (h : c.Clean texts) (hsource : source.Clean news)
    (hm : ∀ e ∈ m, e.2 < news.length) : ∃ c', c.replace delimiter source m = .ok c' ∧
      c'.Clean (m.update (fun v => news.getD v []) texts) := by
  have hsrc : ∀ e ∈ m, news[e.2]? = some (news.getD e.2 []) := by
    intro e he
    rw [List.getD_eq_getElem?_getD, List.getElem?_eq_getElem (hm e he)]
    rfl
  have hget : ∀ e ∈ m, source.get e.2 = .ok (news.getD e.2 []) := fun e he => hsource.get (hsrc e he)
  have hnul : ∀ e ∈ m, (0 : UInt8) ∉ news.getD e.2 [] := fun e he =>
    hsource.nulFree (List.mem_of_getElem? (hsrc e he))
  obtain ⟨ws, segs, hstores, hheads⟩ := h
  have hdata : c.stringData = segs.flatten := by
    rw [hstores.data, List.nil_append, List.append_nil]
  have hcopied : List.Forall₂ (Copied ws c.pairs) segs texts := by
    refine List.forall₂_iff_get.mpr ⟨hstores.yields.length_eq, fun i hi hi' => ?_⟩
    have hmem := List.get_mem segs ⟨i, hi⟩
    refine ⟨fun t ht => hstores.known t ?_, hstores.folded _ hmem, hheads _ hmem,
      (List.forall₂_iff_get.mp hstores.yields).2 i hi hi'⟩
    rw [hdata]
    exact List.mem_flatten_of_mem hmem ht
  have hstart : Rebuilds ws c.pairs { c with stringData := [] } [0] [] :=
    ⟨ws, [], List.prefix_refl _, rfl, ⟨hstores.words, rfl, rfl, hstores.sound, hstores.nodup,
      fun t ht => absurd ht List.not_mem_nil, hstores.hidden,
      fun seg hseg => absurd hseg List.not_mem_nil, .nil⟩,
      fun seg hseg => absurd hseg List.not_mem_nil⟩
  obtain ⟨c₁, ends, hrun, ws₁, segs₁, -, -, hstores₁, hheads₁⟩ :=
    spliceStrings_spec delimiter hget hnul hcopied hstart [] 0
  have hclean : ({ c₁ with offsets := 0 :: ends } : CTokenizedStringContainer).Clean
      (m.splice (fun v => news.getD v []) 0 texts) := ⟨ws₁, segs₁, hstores₁, hheads₁⟩
  obtain ⟨c', hnew, h'⟩ := insertNew_spec delimiter hget hnul hclean texts.length
  have hoffsets : c.offsets = 0 :: (offsetsFrom 0 segs).tail :=
    hstores.offsets.trans (offsetsFrom_eq_cons 0 segs)
  have hcount : (offsetsFrom 0 segs).tail.length = texts.length := by
    rw [List.length_tail, offsetsFrom_length, Nat.add_sub_cancel, hstores.yields.length_eq]
  refine ⟨c', ?_, h'⟩
  unfold CTokenizedStringContainer.replace
  rw [hoffsets, hdata]
  dsimp only
  rw [List.nil_append, List.length_nil, hoffsets] at hrun
  rw [hrun]
  simp only [bind, Except.bind]
  rw [hcount]
  exact hnew

end

end CTokenizedStringContainer

end TortoiseSvn.LogCache
