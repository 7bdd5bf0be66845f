import Mathlib.Data.List.TakeWhile
import TortoiseSvn.LogCache.TokenizedStringContainer

/-!
# What a tokenized string container holds

`Stores` lists the words of a container and the segments of its buffer, and says which texts their
tokens spell. A segment ends with tokens that nobody sees when the strings behind it were removed.

Main results: `Stores.getAt`, reading gives these texts, and `Stores.insert`, inserting appends one.
-/

namespace TortoiseSvn.LogCache

open TortoiseSvn.Lib CStringDictionary CIndexPairDictionary

namespace CTokenizedStringContainer

/-! ### The texts of tokens -/

/-- The texts of tokens over given words and pairs. -/
def textOf (ws : List (List UInt8)) (pairs : List (Token × Token)) :
    PairGrammar Fault Token (List UInt8) where
  rule
    | .empty => (checked ws[0]?).map .inl
    | .word index => (checked ws[index]?).map .inl
    | .pair index => (checked pairs[index]?).map .inr
  join := (· ++ ·)

theorem copyWord_pack (ws : List (List UInt8)) (i : ℕ) :
    copyWord (pack ws) i = checked ws[i]? := by
  unfold copyWord
  rcases h : ws[i]? with _ | w
  · have hi : ¬ i < ws.length := by simpa using h
    simp [hi, checked]
  · have hi := (List.getElem?_eq_some_iff.mp h).1
    have hstep := offsetOf_succ (terminated_getElem? h)
    have hle := offsetOf_le (terminated ws) (i + 1)
    rw [if_pos, copyTo_pack h]
    · rfl
    · rw [pack_size, offset_pack ws hi.le, offset_pack ws hi, hstep]
      refine ⟨hi, by simp, ?_⟩
      rwa [← hstep]

theorem appendToken_pack {c : CTokenizedStringContainer} {ws : List (List UInt8)}
    (h : c.words = pack ws) : c.appendToken = textOf ws c.pairs := by
  unfold appendToken textOf
  congr 1
  funext t
  cases t <;> simp [subTokens, h, copyWord_pack]

/-- The tokens that stand for a pair. -/
def pairTokens (pairs : List (Token × Token)) : Finset Token :=
  (Finset.range pairs.length).image .pair

@[simp] theorem pairTokens_card (pairs : List (Token × Token)) :
    (pairTokens pairs).card = pairs.length := by
  rw [pairTokens, Finset.card_image_of_injective _ fun i j h => Token.pair.inj h, Finset.card_range]

theorem rule_pair {c : CTokenizedStringContainer} {α : Type}
    {wordValue : CStringDictionary → ℕ → Except Fault α} {t : Token} {p : Token × Token}
    (h : c.subTokens wordValue t = .ok (.inr p)) : ∃ i, t = .pair i ∧ c.pairs[i]? = some p := by
  cases t with
  | empty => rcases hw : wordValue c.words 0 with e | a <;> simp [subTokens, hw, Except.map] at h
  | word i => rcases hw : wordValue c.words i with e | a <;> simp [subTokens, hw, Except.map] at h
  | pair i =>
    rcases hp : c.pairs[i]? with _ | q
    · simp [subTokens, hp, checked, Except.map] at h
    · obtain rfl : q = p := by simpa [subTokens, hp, checked, Except.map] using h
      exact ⟨i, rfl, hp⟩

theorem rule_mem_pairTokens {c : CTokenizedStringContainer} {α : Type}
    {wordValue : CStringDictionary → ℕ → Except Fault α} (t : Token) (p : Token × Token)
    (h : c.subTokens wordValue t = .ok (.inr p)) : t ∈ pairTokens c.pairs := by
  obtain ⟨i, rfl, hi⟩ := rule_pair h
  exact Finset.mem_image_of_mem _ (Finset.mem_range.mpr (List.getElem?_eq_some_iff.mp hi).1)

theorem copyWord_length {words : CStringDictionary} {i : ℕ} {w : List UInt8}
    (h : copyWord words i = .ok w) : wordLength words i = .ok w.length := by
  unfold copyWord at h
  split at h
  · rename_i hi
    obtain rfl := Except.ok.inj h
    obtain ⟨hlt, hlo, hhi⟩ := hi
    have hlen : (words.copyTo i).length = words.getLength i := by
      rw [copyTo, List.length_take, List.length_drop, getLength]
      omega
    rw [wordLength, if_pos hlt, hlen]
  · simp at h

/-- Computing the length of a token gives the length of its text. -/
theorem expands_length {c : CTokenizedStringContainer} {t : Token} {s : List UInt8}
    (hs : c.appendToken.Expands t s) : c.getTokenLength.Expands t s.length := by
  refine hs.hom (fun a b => List.length_append) (fun t w ht => ?_) fun t p ht => ?_
  · have hval : ∀ i, (copyWord c.words i).map Sum.inl =
        (.ok (.inl w) : Except Fault (List UInt8 ⊕ Token × Token)) →
        (wordLength c.words i).map Sum.inl =
          (.ok (.inl w.length) : Except Fault (ℕ ⊕ Token × Token)) := by
      intro i hi
      rcases hw : copyWord c.words i with e | v
      · simp [hw, Except.map] at hi
      · obtain rfl : v = w := by simpa [hw, Except.map] using hi
        rw [copyWord_length hw]
        rfl
    cases t with
    | empty => exact hval 0 ht
    | word i => exact hval i ht
    | pair i => rcases hp : c.pairs[i]? with _ | q <;>
        simp [appendToken, subTokens, hp, checked, Except.map] at ht
  · obtain ⟨i, rfl, hi⟩ := rule_pair ht
    simp [getTokenLength, subTokens, hi, checked, Except.map]

/-- Reading gives the texts of the tokens of the string. -/
theorem getAt_of_spells {c : CTokenizedStringContainer} {index : ℕ} {ts : List Token}
    {ss : List (List UInt8)} (hts : c.tokensAt index = .ok ts) (hss : c.appendToken.Spells ts ss) :
    c.getAt (c.pairs.length + 1) index = some (.ok ss.flatten) := by
  have hlen : c.getTokenLength.Spells ts (ss.map List.length) := by
    rw [PairGrammar.Spells, List.forall₂_map_right_iff]
    exact hss.imp fun _ _ h => expands_length h
  have h₁ := hlen.expandAll_card rule_mem_pairTokens
  have h₂ := hss.expandAll_card rule_mem_pairTokens
  rw [pairTokens_card] at h₁ h₂
  simp only [getAt, hts, h₁, h₂]
  rw [if_pos (by rw [List.length_flatten])]
  simp [resize, List.length_flatten]

theorem getAt_of_yields {c : CTokenizedStringContainer} {ws : List (List UInt8)}
    (hw : c.words = pack ws) {index : ℕ} {ts : List Token} {s : List UInt8}
    (hts : c.tokensAt index = .ok ts) (hs : (textOf ws c.pairs).Yields ts s) :
    c.getAt (c.pairs.length + 1) index = some (.ok s) := by
  rw [← appendToken_pack hw] at hs
  obtain ⟨ss, hss, rfl⟩ := hs
  exact getAt_of_spells hts hss

/-! ### Folding -/

/-- No two neighbouring tokens are a pair that has a token of its own. -/
abbrev Folded (pairs : List (Token × Token)) (ts : List Token) : Prop :=
  ts.IsChain fun a b => (a, b) ∉ pairs

/-- Fold a token into the tokens before it, the latest first. -/
def foldWord (pairs : List (Token × Token)) : List Token → Token → List Token
  | [], t => [t]
  | a :: stack, t =>
    match findPair pairs (a, t) with
    | some i => foldWord pairs stack (.pair i)
    | none => t :: a :: stack

/-- No pair has the empty token as a part. -/
def NoEmptyPart (pairs : List (Token × Token)) : Prop := ∀ p ∈ pairs, p.1 ≠ .empty ∧ p.2 ≠ .empty

theorem pushToken_head (stack : List Token) (h : .empty ∉ stack) :
    pushToken (stack.headD .empty) stack.tail = stack := by
  cases stack with
  | nil => rfl
  | cons a stack =>
    have ha : a ≠ .empty := fun h' => h (by simp [h'])
    simp [pushToken, Token.isToken, ha]

theorem findPair_empty {pairs : List (Token × Token)} (h : NoEmptyPart pairs) (t : Token) :
    findPair pairs (.empty, t) = none :=
  Pool.find_eq_none.mpr fun hm => (h _ hm).1 rfl

/-- The inner loop of `Append` on tokens of which the latest is `lastToken`. -/
theorem foldPairs_eq {pairs : List (Token × Token)} (hp : NoEmptyPart pairs) :
    ∀ (fuel : ℕ) (stack : List Token) (t : Token), .empty ∉ stack → stack.length < fuel →
      ∃ stack' t', foldPairs pairs fuel stack.tail (stack.headD .empty) t =
          (stack'.tail, stack'.headD .empty, t') ∧ stack' <:+ stack ∧
        t' :: stack' = foldWord pairs stack t
  | fuel + 1, [], t, _, _ => ⟨[], t, by simp [foldPairs, findPair_empty hp], List.suffix_refl _, rfl⟩
  | fuel + 1, a :: stack, t, hne, hlt => by
    rcases hf : findPair pairs (a, t) with _ | i
    · exact ⟨a :: stack, t, by simp [foldPairs, hf], List.suffix_refl _, by simp [foldWord, hf]⟩
    · obtain ⟨stack', t', h, hsuf, hfold⟩ := foldPairs_eq hp fuel stack (.pair i)
        (fun h => hne (List.mem_cons_of_mem _ h)) (by simpa using hlt)
      refine ⟨stack', t', ?_, hsuf.trans (List.suffix_cons _ _), ?_⟩
      · rw [foldPairs, List.headD_cons, hf]
        exact h
      · rw [hfold, foldWord, hf]

theorem foldWord_no_empty (pairs : List (Token × Token)) {stack : List Token} {t : Token}
    (hstack : .empty ∉ stack) (ht : t ≠ .empty) : .empty ∉ foldWord pairs stack t := by
  induction stack generalizing t with
  | nil => simpa [foldWord] using ht.symm
  | cons a stack ih =>
    rw [foldWord]
    split
    · exact ih (fun h => hstack (List.mem_cons_of_mem _ h)) (by simp)
    · rw [List.mem_cons, not_or]
      exact ⟨ht.symm, hstack⟩

theorem foldWord_folded {pairs : List (Token × Token)} {stack : List Token} {t : Token}
    (h : Folded pairs stack.reverse) : Folded pairs (foldWord pairs stack t).reverse := by
  induction stack generalizing t with
  | nil => exact List.isChain_singleton _
  | cons a stack ih =>
    rw [foldWord]
    split
    · rw [List.reverse_cons] at h
      exact ih h.left_of_append
    · rename_i hf
      rw [List.reverse_cons]
      refine h.append (List.isChain_singleton _) fun x hx y hy => ?_
      obtain rfl : a = x := by simpa using hx
      obtain rfl : t = y := by simpa using hy
      exact Pool.find_eq_none.mp hf

theorem foldWord_yields {ws : List (List UInt8)} {pairs : List (Token × Token)} {stack : List Token}
    {t : Token} {s : List UInt8} (h : (textOf ws pairs).Yields (stack.reverse ++ [t]) s) :
    (textOf ws pairs).Yields (foldWord pairs stack t).reverse s := by
  induction stack generalizing t with
  | nil => exact h
  | cons a stack ih =>
    rw [foldWord]
    split
    · rename_i i hf
      have hrule : (textOf ws pairs).rule (.pair i) = .ok (.inr (a, t)) := by
        simp [textOf, Pool.getElem?_of_find hf, checked, Except.map]
      refine ih (PairGrammar.Yields.fold rfl hrule ?_)
      simpa using h
    · simpa using h

/-! ### Appending a string -/

/-- The words and the tokens behind appending a string. -/
def tokenize (delimiter : UInt8 → Bool) (ws : List (List UInt8)) (pairs : List (Token × Token))
    (s : List UInt8) : List (List UInt8) × List Token :=
  ((Pool.merge ws (wordsOf delimiter s)).1,
    (((Pool.merge ws (wordsOf delimiter s)).2.map Token.ofWord).foldl (foldWord pairs) []).reverse)

theorem splitWords_flatten (delimiter : UInt8 → Bool) (inDelimiter : Bool) (s : List UInt8) :
    (splitWords delimiter inDelimiter s).flatten = s := by
  induction inDelimiter, s using splitWords.induct delimiter with
  | case1 => simp [splitWords]
  | case2 inDelimiter c s ih =>
    rw [splitWords, List.flatten_cons, ih, nextWord_append]

theorem splitWords_ne_nil (delimiter : UInt8 → Bool) (inDelimiter : Bool) (s : List UInt8) :
    ∀ w ∈ splitWords delimiter inDelimiter s, w ≠ [] := by
  induction inDelimiter, s using splitWords.induct delimiter with
  | case1 => simp [splitWords]
  | case2 inDelimiter c s ih =>
    rw [splitWords]
    intro w hw
    rcases List.mem_cons.mp hw with rfl | hw
    · exact nextWord_ne_nil delimiter inDelimiter c s
    · exact ih w hw

theorem wordsOf_flatten (delimiter : UInt8 → Bool) (s : List UInt8) :
    (wordsOf delimiter s).flatten = s := splitWords_flatten _ _ _

theorem appendWords_eq {pairs : List (Token × Token)} (hp : NoEmptyPart pairs)
    {wds ws : List (List UInt8)} (hws : NulFree ws) (hwds : NulFree wds)
    (hroot : ws[0]? = some []) (hne : ∀ w ∈ wds, w ≠ []) {stack : List Token}
    (hstack : .empty ∉ stack) :
    appendWords pairs wds (pack ws) stack.tail (stack.headD .empty) =
      (pack (Pool.merge ws wds).1,
        ((Pool.merge ws wds).2.map Token.ofWord).foldl (foldWord pairs) stack) := by
  induction wds generalizing ws stack with
  | nil =>
    rw [appendWords, pushToken_head stack hstack]
    rfl
  | cons w wds ih =>
    have hw : w.takeWhile (· ≠ 0) = w := by
      rw [List.takeWhile_eq_self_iff]
      intro c hc
      have hc0 : c ≠ 0 := fun h0 => hwds w List.mem_cons_self (h0 ▸ hc)
      simpa using hc0
    obtain ⟨stack', t', hfold, hsuf, hword⟩ := foldPairs_eq hp
      (stack.tail.length + pairs.length + 2) stack (.ofWord (Pool.autoInsert ws w).2) hstack
      (by rw [List.length_tail]; omega)
    have hindex : Token.ofWord (Pool.autoInsert ws w).2 ≠ .empty := by
      rcases hi : (Pool.autoInsert ws w).2 with _ | i
      · have hget := Pool.autoInsert_getElem? ws w
        obtain ⟨tail, htail⟩ := Pool.prefix_autoInsert ws w
        have hlt := (List.getElem?_eq_some_iff.mp hroot).1
        rw [hi, ← htail, List.getElem?_append_left hlt, hroot] at hget
        exact absurd (Option.some.inj hget).symm (hne w List.mem_cons_self)
      · simp [Token.ofWord]
    have hnext : .empty ∉ t' :: stack' := hword ▸ foldWord_no_empty pairs hstack hindex
    have hstack' : .empty ∉ stack' := fun h => hnext (List.mem_cons_of_mem _ h)
    have hroot' : (Pool.autoInsert ws w).1[0]? = some [] := by
      obtain ⟨tail, htail⟩ := Pool.prefix_autoInsert ws w
      rw [← htail, List.getElem?_append_left (List.getElem?_eq_some_iff.mp hroot).1, hroot]
    have hrest := ih (hws.autoInsert (hwds w List.mem_cons_self))
      (fun v hv => hwds v (List.mem_cons_of_mem _ hv)) hroot'
      (fun v hv => hne v (List.mem_cons_of_mem _ hv)) hnext
    rw [appendWords]
    simp only [hw, autoInsert_pack hws, hfold, pushToken_head stack' hstack']
    rw [List.tail_cons, List.headD_cons] at hrest
    rw [hrest, hword]
    rfl

theorem nulFree_wordsOf (delimiter : UInt8 → Bool) {s : List UInt8} (hs : (0 : UInt8) ∉ s) :
    NulFree (wordsOf delimiter s) := fun _ hw h0 =>
  hs (wordsOf_flatten delimiter s ▸ List.mem_flatten_of_mem hw h0)

/-- The dictionaries of a container: words without terminators, the empty one first, and pairs
that all have a text. -/
structure Sound (ws : List (List UInt8)) (pairs : List (Token × Token)) : Prop where
  nulFree : NulFree ws
  root : ws[0]? = some []
  noEmptyPart : NoEmptyPart pairs
  expands : ∀ i < pairs.length, ∃ s, (textOf ws pairs).Expands (.pair i) s

/-- More words do not change the texts. -/
theorem textOf_mono {ws ws' : List (List UInt8)} (h : ws <+: ws') (pairs : List (Token × Token))
    (t : Token) (p : List UInt8 ⊕ Token × Token) (ht : (textOf ws pairs).rule t = .ok p) :
    (textOf ws' pairs).rule t = .ok p := by
  obtain ⟨tail, rfl⟩ := h
  have hword : ∀ i : ℕ, (checked ws[i]?).map Sum.inl =
      (.ok p : Except Fault (List UInt8 ⊕ Token × Token)) →
      (checked (ws ++ tail)[i]?).map Sum.inl =
        (.ok p : Except Fault (List UInt8 ⊕ Token × Token)) := by
    intro i hi
    rcases hw : ws[i]? with _ | w
    · simp [hw, checked, Except.map] at hi
    · rwa [List.getElem?_append_left (List.getElem?_eq_some_iff.mp hw).1]
  cases t with
  | empty => exact hword 0 ht
  | word i => exact hword i ht
  | pair i => exact ht

/-- More pairs do not change the texts. -/
theorem textOf_mono_pairs (ws : List (List UInt8)) {pairs pairs' : List (Token × Token)}
    (h : pairs <+: pairs') (t : Token) (p : List UInt8 ⊕ Token × Token)
    (ht : (textOf ws pairs).rule t = .ok p) : (textOf ws pairs').rule t = .ok p := by
  obtain ⟨tail, rfl⟩ := h
  cases t with
  | empty => exact ht
  | word i => exact ht
  | pair i =>
    rcases hi : pairs[i]? with _ | q
    · simp [textOf, hi, checked, Except.map] at ht
    · have hlt := (List.getElem?_eq_some_iff.mp hi).1
      simpa [textOf, List.getElem?_append_left hlt] using ht

/-- A pair that has a text is in the table, and so are its parts. -/
theorem expands_pair {ws : List (List UInt8)} {pairs : List (Token × Token)} {i : ℕ}
    {s : List UInt8} (h : (textOf ws pairs).Expands (.pair i) s) : ∃ p u v, pairs[i]? = some p ∧
      (textOf ws pairs).Expands p.1 u ∧ (textOf ws pairs).Expands p.2 v ∧ s = u ++ v := by
  cases h with
  | value h => rcases hi : pairs[i]? with _ | q <;> simp [textOf, hi, checked, Except.map] at h
  | @pair _ t₁ t₂ a b h h₁ h₂ =>
    rcases hi : pairs[i]? with _ | q
    · simp [textOf, hi, checked, Except.map] at h
    · obtain rfl : q = (t₁, t₂) := by simpa [textOf, hi, checked, Except.map] using h
      exact ⟨_, a, b, rfl, h₁, h₂, rfl⟩

theorem Sound.more_words {ws ws' : List (List UInt8)} {pairs : List (Token × Token)}
    (h : Sound ws pairs) (hpre : ws <+: ws') (hfree : NulFree ws') : Sound ws' pairs where
  nulFree := hfree
  root := by
    obtain ⟨tail, rfl⟩ := hpre
    rw [List.getElem?_append_left (List.getElem?_eq_some_iff.mp h.root).1, h.root]
  noEmptyPart := h.noEmptyPart
  expands := fun i hi => by
    obtain ⟨s, hs⟩ := h.expands i hi
    exact ⟨s, hs.mono rfl (textOf_mono hpre pairs)⟩

theorem foldl_foldWord (ws : List (List UInt8)) (pairs : List (Token × Token)) {tokens : List Token}
    (hne : .empty ∉ tokens) {stack : List Token} (hstack : .empty ∉ stack) :
    .empty ∉ tokens.foldl (foldWord pairs) stack ∧
    (Folded pairs stack.reverse → Folded pairs (tokens.foldl (foldWord pairs) stack).reverse) ∧
    ∀ s, (textOf ws pairs).Yields (stack.reverse ++ tokens) s →
      (textOf ws pairs).Yields (tokens.foldl (foldWord pairs) stack).reverse s := by
  induction tokens generalizing stack with
  | nil => exact ⟨hstack, id, fun s h => by simpa using h⟩
  | cons t tokens ih =>
    have ht : t ≠ .empty := fun h => hne (by simp [h])
    obtain ⟨h₁, h₂, h₃⟩ := ih (fun h => hne (List.mem_cons_of_mem _ h))
      (foldWord_no_empty pairs hstack ht)
    refine ⟨h₁, fun h => h₂ (foldWord_folded h), fun s h => h₃ s ?_⟩
    rw [← List.singleton_append, ← List.append_assoc] at h
    obtain ⟨u, v, hu, hv, rfl⟩ := PairGrammar.yields_append.mp h
    exact PairGrammar.yields_append.mpr ⟨u, v, foldWord_yields hu, hv, rfl⟩

/-- The tokens of non-empty words yield them. -/
theorem ofWord_yields {ws : List (List UInt8)} (pairs : List (Token × Token))
    (hroot : ws[0]? = some []) {is : List ℕ} {wds : List (List UInt8)}
    (h : List.Forall₂ (fun i w => ws[i]? = some w) is wds) (hne : ∀ w ∈ wds, w ≠ []) :
    .empty ∉ is.map Token.ofWord ∧ (textOf ws pairs).Yields (is.map Token.ofWord) wds.flatten := by
  induction h with
  | nil => exact ⟨List.not_mem_nil, PairGrammar.yields_nil.mpr rfl⟩
  | @cons i w is wds hw _ ih =>
    obtain ⟨ihne, ihy⟩ := ih fun v hv => hne v (List.mem_cons_of_mem _ hv)
    obtain ⟨i, rfl⟩ : ∃ k, i = k + 1 := by
      refine Nat.exists_eq_succ_of_ne_zero fun h0 => hne w List.mem_cons_self ?_
      rw [h0, hroot] at hw
      exact (Option.some.inj hw).symm
    have hexp : (textOf ws pairs).Expands (.word (i + 1)) w :=
      .value (by simp [textOf, hw, checked, Except.map])
    refine ⟨by simpa [Token.ofWord] using ihne, ?_⟩
    exact PairGrammar.yields_cons.mpr ⟨w, _, hexp, ihy, rfl⟩

/-- The tokens of a string yield it and are folded. -/
theorem tokenize_spec (delimiter : UInt8 → Bool) {ws : List (List UInt8)}
    {pairs : List (Token × Token)} (h : Sound ws pairs) {s : List UInt8} (hs : (0 : UInt8) ∉ s) :
    ws <+: (tokenize delimiter ws pairs s).1 ∧ Sound (tokenize delimiter ws pairs s).1 pairs ∧
    .empty ∉ (tokenize delimiter ws pairs s).2 ∧ Folded pairs (tokenize delimiter ws pairs s).2 ∧
    (textOf (tokenize delimiter ws pairs s).1 pairs).Yields (tokenize delimiter ws pairs s).2 s := by
  have hpre := Pool.prefix_merge ws (wordsOf delimiter s)
  have hfree : NulFree (Pool.merge ws (wordsOf delimiter s)).1 := by
    intro w hw
    rcases Pool.mem_merge.mp hw with hw | hw
    · exact h.nulFree w hw
    · exact nulFree_wordsOf delimiter hs w hw
  have hsound := h.more_words hpre hfree
  obtain ⟨hne, hy⟩ := ofWord_yields pairs hsound.root (Pool.merge_forall₂ ws (wordsOf delimiter s))
    (splitWords_ne_nil _ _ _)
  rw [wordsOf_flatten] at hy
  obtain ⟨h₁, h₂, h₃⟩ := foldl_foldWord (Pool.merge ws (wordsOf delimiter s)).1 pairs hne
    List.not_mem_nil
  exact ⟨hpre, hsound, by simpa [tokenize] using h₁, h₂ List.isChain_nil, h₃ s hy⟩

theorem append_pack (delimiter : UInt8 → Bool) {c : CTokenizedStringContainer}
    {ws : List (List UInt8)} (hc : c.words = pack ws) (h : Sound ws c.pairs) {s : List UInt8}
    (hs : (0 : UInt8) ∉ s) : c.append delimiter s =
      { c with
        words := pack (tokenize delimiter ws c.pairs s).1
        stringData := c.stringData ++ (tokenize delimiter ws c.pairs s).2 } := by
  have hwords := appendWords_eq h.noEmptyPart h.nulFree (nulFree_wordsOf delimiter hs)
    h.root (splitWords_ne_nil _ _ _) (List.not_mem_nil : Token.empty ∉ [])
  simp only [List.tail_nil, List.headD_nil] at hwords
  unfold append
  rw [hc, hwords]
  rfl

/-! ### The strings of a container -/

/-- What reading a stored string looks at: its tokens up to an empty one. -/
def shown (seg : List Token) : List Token := seg.takeWhile Token.isToken

/-- What compressing a stored string looks at: its first token, and the others up to an empty one. -/
def scanned : List Token → List Token
  | [] => []
  | t :: ts => t :: shown ts

/-- The container stores a string at each of the segments `segs`; what stands in front of them and
behind them is left over from strings that were removed. -/
structure Stores (c : CTokenizedStringContainer) (ws : List (List UInt8)) (front : List Token)
    (segs : List (List Token)) (behind : List Token) (texts : List (List UInt8)) : Prop where
  words : c.words = pack ws
  data : c.stringData = front ++ segs.flatten ++ behind
  offsets : c.offsets = offsetsFrom front.length segs
  sound : Sound ws c.pairs
  nodup : c.pairs.Nodup
  known : ∀ t ∈ c.stringData, ∃ s, (textOf ws c.pairs).Expands t s
  hidden : ∀ t ∈ front.head?, t = .empty
  folded : ∀ seg ∈ segs, Folded c.pairs (scanned seg)
  yields : List.Forall₂ (fun seg => (textOf ws c.pairs).Yields (shown seg)) segs texts

theorem shown_of_not_mem {seg : List Token} (h : .empty ∉ seg) : shown seg = seg := by
  apply List.takeWhile_eq_self_iff.mpr
  intro t ht
  have hne : t ≠ .empty := fun he => h (he ▸ ht)
  simp [Token.isToken, hne]

theorem empty_not_mem_shown (seg : List Token) : .empty ∉ shown seg := fun h => by
  have htoken := List.mem_takeWhile_imp h
  simp [Token.isToken] at htoken

theorem scanned_of_not_mem {seg : List Token} (h : .empty ∉ seg) : scanned seg = seg := by
  cases seg with
  | nil => rfl
  | cons t ts => rw [scanned, shown_of_not_mem fun hts => h (List.mem_cons_of_mem _ hts)]

theorem shown_append_empty (seg rest : List Token) : shown (seg ++ .empty :: rest) = shown seg := by
  unfold shown
  induction seg with
  | nil => rfl
  | cons t seg ih =>
    rw [List.cons_append, List.takeWhile_cons, List.takeWhile_cons, ih]

theorem init_stores : init.Stores [[]] [] [] [] [] where
  words := init_eq_pack
  data := rfl
  offsets := rfl
  sound := ⟨by simp [NulFree], rfl, fun p hp => absurd hp List.not_mem_nil,
    fun i hi => absurd hi (Nat.not_lt_zero i)⟩
  nodup := List.nodup_nil
  known := fun t ht => absurd ht List.not_mem_nil
  hidden := fun t ht => nomatch ht
  folded := fun seg hseg => absurd hseg List.not_mem_nil
  yields := .nil

theorem tokensUpTo_shown (seg rest : List Token) (iter : ℕ) :
    tokensUpTo (iter + seg.length) iter (seg ++ rest) = .ok (shown seg) := by
  induction seg generalizing iter with
  | nil => cases rest <;> simp [tokensUpTo, shown]
  | cons t seg ih =>
    have hrest := ih (iter + 1)
    rw [Nat.add_right_comm, Nat.add_assoc] at hrest
    have hlt : iter ≠ iter + (seg.length + 1) := by omega
    rw [List.cons_append, tokensUpTo, List.length_cons, shown, List.takeWhile_cons]
    by_cases ht : t.isToken = true
    · rw [if_neg (not_or.mpr ⟨hlt, not_not.mpr ht⟩), if_pos ht, hrest]
      rfl
    · rw [if_pos (.inr ht), if_neg ht]

section

variable {c : CTokenizedStringContainer} {ws : List (List UInt8)} {front behind : List Token}
  {segs : List (List Token)} {texts : List (List UInt8)} {delimiter : UInt8 → Bool}

theorem Stores.tokensAt (h : c.Stores ws front segs behind texts) {i : ℕ} {seg : List Token}
    (hi : segs[i]? = some seg) : c.tokensAt i = .ok (shown seg) := by
  obtain ⟨hlt, rfl⟩ := List.getElem?_eq_some_iff.mp hi
  have hdata : c.stringData.drop (front.length + offsetOf segs i) =
      segs[i] ++ ((segs.drop (i + 1)).flatten ++ behind) := by
    rw [h.data, List.append_assoc, List.drop_length_add_append,
      List.drop_append_of_le_length (offsetOf_le segs i), drop_offsetOf,
      List.drop_eq_getElem_cons hlt, List.flatten_cons, List.append_assoc]
  unfold CTokenizedStringContainer.tokensAt
  rw [h.offsets, offsetsFrom_getElem? hlt.le, offsetsFrom_getElem? hlt]
  dsimp only
  rw [hdata, offsetOf_succ hi, ← Nat.add_assoc]
  exact tokensUpTo_shown _ _ _

/-- Reading a string gives its text. -/
theorem Stores.getAt (h : c.Stores ws front segs behind texts) {i : ℕ} {s : List UInt8}
    (hi : texts[i]? = some s) : c.getAt (c.pairs.length + 1) i = some (.ok s) := by
  obtain ⟨hlen, hget⟩ := List.forall₂_iff_get.mp h.yields
  obtain ⟨hlt, rfl⟩ := List.getElem?_eq_some_iff.mp hi
  have hlt' : i < segs.length := hlen ▸ hlt
  exact getAt_of_yields h.words (h.tokensAt (List.getElem?_eq_getElem hlt')) (hget i hlt' hlt)

theorem Stores.length_offsets (h : c.Stores ws front segs behind texts) :
    c.offsets.length = texts.length + 1 := by
  rw [h.offsets, offsetsFrom_length, h.yields.length_eq]

/-- Texts that were spelled stay what they are when words are added. -/
theorem yields_more_words {ws' : List (List UInt8)} {pairs : List (Token × Token)}
    (hpre : ws <+: ws')
    (h : List.Forall₂ (fun seg => (textOf ws pairs).Yields (shown seg)) segs texts) :
    List.Forall₂ (fun seg => (textOf ws' pairs).Yields (shown seg)) segs texts :=
  h.imp fun _ _ hy => hy.mono rfl (textOf_mono hpre pairs)

/-- Inserting a string appends it, if nothing is left over there. -/
theorem Stores.insert (h : c.Stores ws front segs [] texts) {s : List UInt8} (hs : (0 : UInt8) ∉ s) :
    (c.insert delimiter s).Stores (tokenize delimiter ws c.pairs s).1 front
      (segs ++ [(tokenize delimiter ws c.pairs s).2]) [] (texts ++ [s]) := by
  obtain ⟨hpre, hsound, hne, hfolded, hy⟩ := tokenize_spec delimiter h.sound hs
  have hdata := h.data
  rw [List.append_nil] at hdata
  unfold CTokenizedStringContainer.insert
  rw [append_pack delimiter h.words h.sound hs]
  generalize tokenize delimiter ws c.pairs s = new at hpre hsound hne hfolded hy
  constructor
  · rfl
  · show c.stringData ++ new.2 = _
    rw [hdata, List.append_nil, List.flatten_append, List.flatten_singleton, List.append_assoc]
  · show c.offsets ++ [(c.stringData ++ new.2).length] = _
    rw [offsetsFrom_concat, h.offsets, hdata, List.flatten_append, List.flatten_singleton,
      List.append_assoc, List.length_append]
  · exact hsound
  · exact h.nodup
  · intro t ht
    rcases List.mem_append.mp ht with ht | ht
    · obtain ⟨u, hu⟩ := h.known t ht
      exact ⟨u, hu.mono rfl (textOf_mono hpre c.pairs)⟩
    · exact hy.expands ht
  · exact h.hidden
  · intro seg hseg
    rcases List.mem_append.mp hseg with hseg | hseg
    · exact h.folded seg hseg
    · rw [List.mem_singleton.mp hseg, scanned_of_not_mem hne]
      exact hfolded
  · refine List.rel_append (yields_more_words hpre h.yields) (.cons ?_ .nil)
    rw [shown_of_not_mem hne]
    exact hy

end

end CTokenizedStringContainer

end TortoiseSvn.LogCache
