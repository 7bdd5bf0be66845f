import TortoiseSvn.LogCache.TokenizedStringLayout

/-!
# Reading a tokenized string container

`operator>>` checks that every token is an index of its table and that the offsets are in order,
the last one excepted. Reading the strings of an accepted container relies on more than that.

Main result: `load_safe_iff`. Every string of an accepted container can be read inside the tables
iff there is an offset, the last string ends behind its beginning and inside the buffer or is cut
off by an empty token, there is a word if there are tokens at all, and the pairs that are used do
not lead back to themselves.
-/

namespace TortoiseSvn.LogCache

open TortoiseSvn.Lib Relation

namespace CTokenizedStringContainer

/-- Source: `TokenizedStringContainer.cpp` `CTokenizedStringContainer::IsValidTokenIndex` -/
def isValidTokenIndex (c : CTokenizedStringContainer) : Token → Bool
  | .empty => true
  | .word index => index < c.words.size
  | .pair index => index < c.pairs.length

/-- The loop over the offsets but the last; the result is `last_offset`.
Source: `TokenizedStringContainer.cpp` `operator>>` -/
def validateOffsets (dataSize : ℕ) : ℕ → List ℕ → Except Fault ℕ
  | lastOffset, offset :: next :: rest =>
    if dataSize ≤ offset ∧ offset ≠ next then
      .error (.containerException "invalid offset in tokenized string container")
    else if offset < lastOffset then
      .error (.containerException "invalid offset in tokenized string container")
    else validateOffsets dataSize offset (next :: rest)
  | lastOffset, _ => .ok lastOffset

/-- The checks behind reading.
Source: `TokenizedStringContainer.cpp` `operator>>` -/
def validate : LoadM CTokenizedStringContainer Unit := do
  let c ← Trial.get
  Trial.require (∀ p ∈ c.pairs, c.isValidTokenIndex p.1 ∧ c.isValidTokenIndex p.2)
    (.containerException "invalid token reference")
  Trial.require (∀ t ∈ c.stringData, c.isValidTokenIndex t)
    (.containerException "invalid token reference")
  let lastOffset ← Trial.lift (validateOffsets c.stringData.length 0 c.offsets)
  Trial.require (lastOffset ≤ c.stringData.length)
    (.containerException "invalid offset in tokenized string container")

/-- Source: `TokenizedStringContainer.cpp` `operator>>` -/
def load (s : InStream) : LoadM CTokenizedStringContainer Unit := do
  let wordsStream ← Trial.lift (s.getSubStream 1)
  Trial.zoom words (fun c w => { c with words := w }) (CStringDictionary.load wordsStream)
  let pairsStream ← Trial.lift (s.getSubStream 2)
  Trial.zoom pairs (fun c p => { c with pairs := p })
    (CIndexPairDictionary.load Token.ofRaw pairsStream)
  let stringsStream ← Trial.lift (s.getSubStreamAs 3 .packedInteger)
  Trial.zoom stringData (fun c d => { c with stringData := d })
    (loadVector CPackedDWORDInStream.getSizeValue CPackedIntegerInStream.getValue (Token.ofRaw 0)
      (fun _ v => Token.ofRaw v) ⟨stringsStream.content, 0, 0⟩)
  let offsetsStream ← Trial.lift (s.getSubStreamAs 4 .diffDWORD)
  Trial.zoom offsets (fun c o => { c with offsets := o })
    (loadVector CDiffInStream.getSizeValue CDiffDWORDInStream.getValue 0 (fun _ v => v)
      ⟨⟨offsetsStream.content, 0, 0⟩, 0⟩)
  validate

/-! ### What the streams hold -/

/-- The content of the four sub-streams. -/
structure Stored where
  /-- The number of words. -/
  words : ℕ
  pairs : List (Token × Token)
  tokens : List Token
  offsets : List ℕ

/-- The content of the four sub-streams, if they can be read. -/
def stored (s : InStream) : Except Fault Stored := do
  let wordsStream ← s.getSubStream 1
  let wordOffsets ← wordsStream.getSubStreamAs 2 .diffDWORD
  let (wordOffsetCount, _) ← CPackedDWORDInStream.getSizeValue ⟨wordOffsets.content, 0, 0⟩
  let pairsStream ← s.getSubStream 2
  let pairs ← CIndexPairDictionary.stored pairsStream
  let stringsStream ← s.getSubStreamAs 3 .packedInteger
  let tokens ← storedVector CPackedDWORDInStream.getSizeValue CPackedIntegerInStream.getValue
    ⟨stringsStream.content, 0, 0⟩
  let offsetsStream ← s.getSubStreamAs 4 .diffDWORD
  let offsets ← storedVector CDiffInStream.getSizeValue CDiffDWORDInStream.getValue
    ⟨⟨offsetsStream.content, 0, 0⟩, 0⟩
  return ⟨wordOffsetCount - 1, pairs.map fun p => (Token.ofRaw p.1, Token.ofRaw p.2),
    tokens.map Token.ofRaw, offsets⟩

/-- `u` is a part of the pair that `t` stands for. -/
def PartOf (pairs : List (Token × Token)) (u t : Token) : Prop :=
  ∃ (i : ℕ) (p : Token × Token), t = .pair i ∧ pairs[i]? = some p ∧ (u = p.1 ∨ u = p.2)

/-- The tokens that are met from one offset on, up to another one or the first empty token. -/
def met (tokens : List Token) (first last : ℕ) : List Token :=
  (if first ≤ last then (tokens.drop first).take (last - first) else tokens.drop first).takeWhile
    Token.isToken

namespace Stored

/-- A token of one of the strings. -/
def Uses (x : Stored) (t : Token) : Prop :=
  ∃ (i first last : ℕ), x.offsets[i]? = some first ∧ x.offsets[i + 1]? = some last ∧
    t ∈ met x.tokens first last

/-- What safe reading needs beyond the checks of `operator>>`. -/
structure Readable (x : Stored) : Prop where
  offsets : x.offsets ≠ []
  last : ∀ pre first last, x.offsets = pre ++ [first, last] →
    (first ≤ last ∧ last ≤ x.tokens.length) ∨ .empty ∈ x.tokens.drop first
  words : x.words = 0 → ∀ t, ¬ x.Uses t
  acyclic : ∀ t u, x.Uses t → ReflTransGen (PartOf x.pairs) u t → ¬ TransGen (PartOf x.pairs) u u

end Stored

/-- Reading any string of the container ends without leaving the tables. -/
def Safe (c : CTokenizedStringContainer) : Prop := ∀ index < c.size, ∃ s, c.GetAt index s

/-! ### What was accepted -/

/-- All offsets but the last are in order. -/
theorem validateOffsets_ok {dataSize lastOffset n : ℕ} {os : List ℕ}
    (h : validateOffsets dataSize lastOffset os = .ok n) : lastOffset ≤ n ∧
    (∀ i first : ℕ, os[i]? = some first → i + 1 < os.length → lastOffset ≤ first ∧ first ≤ n) ∧
    ∀ i first second : ℕ, os[i]? = some first → os[i + 1]? = some second → i + 2 < os.length →
      first ≤ second := by
  induction os generalizing lastOffset with
  | nil =>
    obtain rfl := Except.ok.inj h
    simp
  | cons o os ih =>
    rcases os with _ | ⟨o', rest⟩
    · obtain rfl := Except.ok.inj h
      simp
    · rw [validateOffsets] at h
      split at h
      · simp at h
      · split at h
        · simp at h
        · rename_i hlast
          obtain ⟨hn, hfirst, hsecond⟩ := ih h
          have hle : lastOffset ≤ o := Nat.not_lt.mp hlast
          refine ⟨hle.trans hn, fun i first hi hlt => ?_, fun i first second hi hi' hlt => ?_⟩
          · rcases i with _ | i
            · obtain rfl : o = first := by simpa using hi
              exact ⟨hle, hn⟩
            · obtain ⟨h₁, h₂⟩ := hfirst i first (by simpa using hi) (by simpa using hlt)
              exact ⟨hle.trans h₁, h₂⟩
          · rcases i with _ | i
            · obtain rfl : o = first := by simpa using hi
              exact (hfirst 0 second (by simpa using hi') (by simpa using hlt)).1
            · exact hsecond i first second (by simpa using hi) (by simpa using hi')
                (by simpa using hlt)

/-- What the checks of `operator>>` establish. -/
structure Checked (c : CTokenizedStringContainer) : Prop where
  pairs : ∀ p ∈ c.pairs, c.isValidTokenIndex p.1 ∧ c.isValidTokenIndex p.2
  tokens : ∀ t ∈ c.stringData, c.isValidTokenIndex t
  inside : ∀ i first : ℕ, c.offsets[i]? = some first → i + 1 < c.offsets.length →
    first ≤ c.stringData.length
  sorted : ∀ i first second : ℕ, c.offsets[i]? = some first → c.offsets[i + 1]? = some second →
    i + 2 < c.offsets.length → first ≤ second

theorem validate_ok {c c' : CTokenizedStringContainer} (h : validate c = (.ok (), c')) :
    c' = c ∧ c.Checked := by
  rw [validate] at h
  obtain ⟨d, _, hget, h⟩ := Trial.bind_eq_ok h
  obtain ⟨hd, rfl⟩ := Prod.mk.inj hget
  obtain rfl := Except.ok.inj hd
  obtain ⟨_, _, hreq, h⟩ := Trial.bind_eq_ok h
  obtain ⟨hpairs, rfl⟩ := Trial.require_ok hreq
  obtain ⟨_, _, hreq, h⟩ := Trial.bind_eq_ok h
  obtain ⟨htokens, rfl⟩ := Trial.require_ok hreq
  obtain ⟨n, hn, h⟩ := Trial.lift_bind_eq_ok h
  obtain ⟨hle, rfl⟩ := Trial.require_ok h
  obtain ⟨-, hinside, hsorted⟩ := validateOffsets_ok hn
  exact ⟨rfl, hpairs, htokens, fun i first hi hlt => (hinside i first hi hlt).2.trans hle, hsorted⟩

/-- What an accepted container is known to satisfy. -/
structure Accepted (c : CTokenizedStringContainer) (x : Stored) : Prop extends c.Checked where
  ordered : c.words.Ordered
  words_eq : c.words.size = x.words
  pairs_eq : c.pairs = x.pairs
  tokens_eq : c.stringData = x.tokens
  offsets_eq : c.offsets = x.offsets
  count : x.offsets.length < 2 ^ 32

theorem load_accepted {s : InStream} {c₀ c : CTokenizedStringContainer}
    (h : load s c₀ = (.ok (), c)) : ∃ x, stored s = .ok x ∧ Accepted c x := by
  rw [load] at h
  obtain ⟨wordsStream, hws, h⟩ := Trial.lift_bind_eq_ok h
  obtain ⟨_, c₁, hwords, h⟩ := Trial.bind_eq_ok h
  obtain ⟨pairsStream, hps, h⟩ := Trial.lift_bind_eq_ok h
  obtain ⟨_, c₂, hpairs, h⟩ := Trial.bind_eq_ok h
  obtain ⟨stringsStream, hss, h⟩ := Trial.lift_bind_eq_ok h
  obtain ⟨_, c₃, hstrings, h⟩ := Trial.bind_eq_ok h
  obtain ⟨offsetsStream, hos, h⟩ := Trial.lift_bind_eq_ok h
  obtain ⟨_, c₄, hoffsets, h⟩ := Trial.bind_eq_ok h
  obtain ⟨rfl, hchecked⟩ := validate_ok h
  rw [Trial.zoom_run, Prod.mk.injEq] at hwords hpairs hstrings hoffsets
  obtain ⟨hok₁, rfl⟩ := hwords
  obtain ⟨hok₂, rfl⟩ := hpairs
  obtain ⟨hok₃, rfl⟩ := hstrings
  obtain ⟨hok₄, rfl⟩ := hoffsets
  obtain ⟨hordered, wordOffsets, count, rest, hwo, hcount, hsize⟩ :=
    CStringDictionary.load_ok (Prod.ext hok₁ rfl)
  obtain ⟨ps, hps', hpl⟩ := CIndexPairDictionary.load_ok (Prod.ext hok₂ rfl)
  obtain ⟨-, -, vs, -, hvs, -, hvl⟩ := loadVector_ok (Prod.ext hok₃ rfl)
  obtain ⟨n, t, os, hn, hos', rfl, hosl⟩ := loadVector_ok (Prod.ext hok₄ rfl)
  rw [List.map_id'] at hosl
  refine ⟨⟨count - 1, ps.map fun p => (Token.ofRaw p.1, Token.ofRaw p.2), vs.map Token.ofRaw, os⟩,
    ?_, hchecked, hordered, hsize, hpl, hvl, hosl, CDiffInStream.getSizeValue_lt hn⟩
  simp [stored, hws, hwo, hcount, hps, hps', hss, hvs, hos, hos', bind, Except.bind, pure,
    Except.pure]

/-! ### Which strings can be read -/

/-- Where the loops over the tokens of a string stay inside the buffer, and what they meet. -/
theorem tokensUpTo_eq (last iter : ℕ) (data : List Token) :
    tokensUpTo last iter data =
      if (iter ≤ last ∧ last ≤ iter + data.length) ∨ .empty ∈ data then
        .ok ((if iter ≤ last then data.take (last - iter) else data).takeWhile Token.isToken)
      else .error .undefined := by
  induction data generalizing iter with
  | nil =>
    by_cases h : iter = last
    · simp [tokensUpTo, h]
    · have hne : ¬ (iter ≤ last ∧ last ≤ iter) := by omega
      simp [tokensUpTo, h, hne]
  | cons t rest ih =>
    rw [tokensUpTo]
    by_cases h : iter = last
    · simp [h]
    by_cases ht : t = .empty
    · subst ht
      rcases Nat.lt_or_ge last iter with hlt | hge
      · simp [Token.isToken, Nat.not_le.mpr hlt]
      · obtain ⟨k, hk⟩ : ∃ k, last - iter = k + 1 := ⟨last - iter - 1, by omega⟩
        simp [Token.isToken, hge, hk]
    have htoken : t.isToken = true := by simp [Token.isToken, ht]
    have hcond : ((iter + 1 ≤ last ∧ last ≤ iter + 1 + rest.length) ∨ .empty ∈ rest) ↔
        (iter ≤ last ∧ last ≤ iter + (t :: rest).length) ∨ .empty ∈ t :: rest := by
      rw [List.mem_cons, List.length_cons]
      have := Ne.symm ht
      constructor
      · rintro (h' | h')
        · exact .inl (by omega)
        · exact .inr (.inr h')
      · rintro (h' | h' | h')
        · exact .inl (by omega)
        · exact absurd h' this
        · exact .inr h'
    rw [if_neg (by simp [h, htoken]), ih]
    simp only [hcond]
    split
    · rcases Nat.lt_or_ge last iter with hlt | hge
      · simp [Except.map, htoken, Nat.not_le.mpr hlt, Nat.not_le.mpr (hlt.trans (Nat.lt_succ_self _))]
      · obtain ⟨k, hk⟩ : ∃ k, last - iter = k + 1 := ⟨last - iter - 1, by omega⟩
        have hk' : last - (iter + 1) = k := by omega
        have hle : iter + 1 ≤ last := by omega
        simp [Except.map, htoken, hge, hk, hk', hle]
    · rfl

section Reading

variable {c : CTokenizedStringContainer} {x : Stored} {t u : Token}

theorem rule_pair_iff {i : ℕ} {p : Token × Token} :
    c.appendToken.rule (.pair i) = .ok (.inr p) ↔ c.pairs[i]? = some p := by
  rcases hp : c.pairs[i]? with _ | q <;> simp [appendToken, subTokens, hp, checked, Except.map]

theorem part_iff : c.appendToken.Part u t ↔ PartOf c.pairs u t := by
  constructor
  · rintro ⟨p, hp, hu⟩
    obtain ⟨i, rfl, hi⟩ := rule_pair hp
    exact ⟨i, p, rfl, hi, hu⟩
  · rintro ⟨i, p, rfl, hi, hu⟩
    exact ⟨p, rule_pair_iff.mpr hi, hu⟩

theorem part_eq (c : CTokenizedStringContainer) : c.appendToken.Part = PartOf c.pairs :=
  funext fun _ => funext fun _ => propext part_iff

/-- The parts of valid tokens are valid. -/
theorem Checked.reaches (h : c.Checked) (hu : ReflTransGen c.appendToken.Part u t)
    (ht : c.isValidTokenIndex t) : c.isValidTokenIndex u := by
  induction hu using ReflTransGen.head_induction_on with
  | refl => exact ht
  | head hpart _ ih =>
    obtain ⟨i, p, rfl, hi, rfl | rfl⟩ := part_iff.mp hpart
    · exact (h.pairs p (List.mem_of_getElem? hi)).1
    · exact (h.pairs p (List.mem_of_getElem? hi)).2

/-- With a word in the dictionary, valid tokens stand for something. -/
theorem rule_of_valid (hordered : c.words.Ordered) (hpos : c.words.size ≠ 0)
    (ht : c.isValidTokenIndex t) : ∃ p, c.appendToken.rule t = .ok p := by
  have hword : ∀ i, i < c.words.size → copyWord c.words i = .ok (c.words.copyTo i) := fun i hi =>
    if_pos ⟨hi, hordered.lt i hi, hordered.le (i + 1) hi⟩
  cases t with
  | empty =>
    refine ⟨.inl (c.words.copyTo 0), ?_⟩
    simp [appendToken, subTokens, hword 0 (Nat.pos_of_ne_zero hpos), Except.map]
  | word i =>
    refine ⟨.inl (c.words.copyTo i), ?_⟩
    have hi : i < c.words.size := by simpa [isValidTokenIndex] using ht
    simp [appendToken, subTokens, hword i hi, Except.map]
  | pair i =>
    have hi : i < c.pairs.length := by simpa [isValidTokenIndex] using ht
    exact ⟨.inr _, rule_pair_iff.mpr (List.getElem?_eq_getElem hi)⟩

/-- Without words, no token has a text. -/
theorem not_expands_of_empty (hsize : c.words.size = 0) (s : List UInt8) :
    ¬ c.appendToken.Expands t s := by
  intro h
  have hword : ∀ i, copyWord c.words i = .error .undefined := fun i =>
    if_neg fun h => by omega
  induction h with
  | @value t s h =>
    cases t with
    | empty => simp [appendToken, subTokens, hword, Except.map] at h
    | word i => simp [appendToken, subTokens, hword, Except.map] at h
    | pair i => rcases hp : c.pairs[i]? with _ | q <;>
        simp [appendToken, subTokens, hp, checked, Except.map] at h
  | pair _ _ _ ih => exact ih

/-- Where the tokens of a string are read, and which ones. -/
theorem tokensAt_eq_ok {index : ℕ} {ts : List Token} : c.tokensAt index = .ok ts ↔
    ∃ (first last : ℕ), c.offsets[index]? = some first ∧ c.offsets[index + 1]? = some last ∧
      ((first ≤ last ∧ last ≤ first + (c.stringData.drop first).length) ∨
        .empty ∈ c.stringData.drop first) ∧ ts = met c.stringData first last := by
  unfold tokensAt
  rcases h₁ : c.offsets[index]? with _ | first
  · simp
  · rcases h₂ : c.offsets[index + 1]? with _ | last
    · simp
    · simp only [tokensUpTo_eq]
      constructor
      · intro h
        split at h
        · rename_i hcond
          exact ⟨first, last, rfl, rfl, hcond, (Except.ok.inj h).symm⟩
        · simp at h
      · rintro ⟨first', last', hf, hl, hcond, rfl⟩
        obtain rfl := Option.some.inj hf
        obtain rfl := Option.some.inj hl
        rw [if_pos hcond]
        rfl

/-- A string that can be read has tokens that all have a text. -/
theorem GetAt.spells {index : ℕ} {s : List UInt8} (h : c.GetAt index s) :
    ∃ ts ss, c.tokensAt index = .ok ts ∧ c.appendToken.Spells ts ss := by
  obtain ⟨fuel, h⟩ := h
  unfold getAt at h
  rcases hts : c.tokensAt index with e | ts
  · simp [hts] at h
  · simp only [hts] at h
    rcases hl : c.getTokenLength.expandAll fuel ts with _ | e | ls
    · simp [hl] at h
    · simp [hl] at h
    · rcases hs : c.appendToken.expandAll fuel ts with _ | e | ss
      · simp [hl, hs] at h
      · simp [hl, hs] at h
      · exact ⟨ts, ss, rfl, PairGrammar.spells_of_expandAll hs⟩

theorem exists_spells {ts : List Token} (h : ∀ t ∈ ts, ∃ s, c.appendToken.Expands t s) :
    ∃ ss, c.appendToken.Spells ts ss := by
  induction ts with
  | nil => exact ⟨[], .nil⟩
  | cons t ts ih =>
    obtain ⟨s, hs⟩ := h t List.mem_cons_self
    obtain ⟨ss, hss⟩ := ih fun u hu => h u (List.mem_cons_of_mem _ hu)
    exact ⟨s :: ss, .cons hs hss⟩

theorem Spells.expands {ts : List Token} {ss : List (List UInt8)} (h : c.appendToken.Spells ts ss)
    (ht : t ∈ ts) : ∃ s, c.appendToken.Expands t s :=
  PairGrammar.Yields.expands ⟨ss, h, rfl⟩ ht

theorem Accepted.size (h : Accepted c x) (hne : x.offsets ≠ []) : c.size = x.offsets.length - 1 := by
  have hpos := List.length_pos_iff.mpr hne
  rw [CTokenizedStringContainer.size, h.offsets_eq, subU_of_le hpos h.count]

theorem Accepted.readable_of_safe (h : Accepted c x) (hsafe : c.Safe) : x.Readable := by
  have hne : x.offsets ≠ [] := by
    intro hnil
    obtain ⟨s, hs⟩ := hsafe 0 (by rw [CTokenizedStringContainer.size, h.offsets_eq, hnil]; decide)
    obtain ⟨ts, -, hts, -⟩ := hs.spells
    obtain ⟨first, -, hfirst, -⟩ := tokensAt_eq_ok.mp hts
    simp [h.offsets_eq, hnil] at hfirst
  have hread : ∀ (i first last : ℕ), x.offsets[i]? = some first → x.offsets[i + 1]? = some last →
      ((first ≤ last ∧ last ≤ first + (x.tokens.drop first).length) ∨
        .empty ∈ x.tokens.drop first) ∧
      ∀ t ∈ met x.tokens first last, ∃ s, c.appendToken.Expands t s := by
    intro i first last hfirst hlast
    have hi : i < c.size := by
      have := (List.getElem?_eq_some_iff.mp hlast).1
      rw [h.size hne]
      omega
    obtain ⟨s, hs⟩ := hsafe i hi
    obtain ⟨ts, ss, hts, hss⟩ := hs.spells
    obtain ⟨first', last', hfirst', hlast', hcond, rfl⟩ := tokensAt_eq_ok.mp hts
    rw [h.offsets_eq, hfirst, Option.some_inj] at hfirst'
    rw [h.offsets_eq, hlast, Option.some_inj] at hlast'
    subst hfirst' hlast'
    rw [h.tokens_eq] at hcond hss
    exact ⟨hcond, fun t ht => Spells.expands hss ht⟩
  have huses : ∀ t, x.Uses t → ∃ s, c.appendToken.Expands t s := by
    rintro t ⟨i, first, last, hfirst, hlast, ht⟩
    exact (hread i first last hfirst hlast).2 t ht
  refine ⟨hne, fun pre first last hpre => ?_, fun hwords t ht => ?_, fun t u ht hu => ?_⟩
  · have hfirst : x.offsets[pre.length]? = some first := by simp [hpre]
    have hlast : x.offsets[pre.length + 1]? = some last := by simp [hpre]
    have hin : first ≤ x.tokens.length := by
      rw [← h.tokens_eq]
      refine h.inside pre.length first (by rw [h.offsets_eq, hfirst]) ?_
      rw [h.offsets_eq, hpre]
      simp
    refine (hread _ first last hfirst hlast).1.imp_left fun ⟨h₁, h₂⟩ => ⟨h₁, ?_⟩
    rw [List.length_drop] at h₂
    omega
  · obtain ⟨s, hs⟩ := huses t ht
    exact not_expands_of_empty (h.words_eq.trans hwords) s hs
  · obtain ⟨s, hs⟩ := huses t ht
    rw [← h.pairs_eq, ← part_eq] at hu ⊢
    exact hs.acyclic hu

theorem Accepted.safe_of_readable (h : Accepted c x) (hx : x.Readable) : c.Safe := by
  intro index hindex
  rw [h.size hx.offsets] at hindex
  have hlt : index + 1 < x.offsets.length := by omega
  have hfirst := List.getElem?_eq_getElem (Nat.lt_of_succ_lt hlt)
  have hlast := List.getElem?_eq_getElem hlt
  have hcond : (x.offsets[index] ≤ x.offsets[index + 1] ∧
      x.offsets[index + 1] ≤ x.offsets[index] + (x.tokens.drop x.offsets[index]).length) ∨
      .empty ∈ x.tokens.drop x.offsets[index] := by
    have hin : x.offsets[index] ≤ x.tokens.length := by
      rw [← h.tokens_eq]
      exact h.inside index _ (by rw [h.offsets_eq, hfirst]) (by rwa [h.offsets_eq])
    rw [List.length_drop]
    rcases Nat.lt_or_ge (index + 2) x.offsets.length with hlt' | hge
    · have hsorted := h.sorted index _ _ (by rw [h.offsets_eq, hfirst])
        (by rw [h.offsets_eq, hlast]) (by rwa [h.offsets_eq])
      have hin' : x.offsets[index + 1] ≤ x.tokens.length := by
        rw [← h.tokens_eq]
        exact h.inside (index + 1) _ (by rw [h.offsets_eq, hlast]) (by rwa [h.offsets_eq])
      exact .inl ⟨hsorted, by omega⟩
    · refine (hx.last (x.offsets.take index) _ _ ?_).imp_left fun h' => ⟨h'.1, by omega⟩
      conv_lhs => rw [← List.take_append_drop index x.offsets]
      rw [List.drop_eq_getElem_cons (Nat.lt_of_succ_lt hlt), List.drop_eq_getElem_cons hlt,
        List.drop_eq_nil_of_le hge]
  have htext : ∀ t ∈ met x.tokens x.offsets[index] x.offsets[index + 1],
      ∃ s, c.appendToken.Expands t s := by
    intro t ht
    have huses : x.Uses t := ⟨index, _, _, hfirst, hlast, ht⟩
    have hvalid : c.isValidTokenIndex t := by
      refine h.tokens t ?_
      rw [h.tokens_eq]
      have hmem := (List.takeWhile_sublist _).subset ht
      split at hmem
      · exact List.mem_of_mem_drop (List.mem_of_mem_take hmem)
      · exact List.mem_of_mem_drop hmem
    have hpos : c.words.size ≠ 0 := fun h0 => hx.words (h.words_eq.symm.trans h0) t huses
    refine (PairGrammar.exists_expands_iff rule_mem_pairTokens).mpr fun u hu => ?_
    refine ⟨rule_of_valid h.ordered hpos (h.toChecked.reaches hu hvalid), ?_⟩
    rw [part_eq, h.pairs_eq] at hu ⊢
    exact hx.acyclic t u huses hu
  obtain ⟨ss, hss⟩ := exists_spells htext
  have htokens : c.tokensAt index = .ok (met x.tokens x.offsets[index] x.offsets[index + 1]) := by
    refine tokensAt_eq_ok.mpr ⟨_, _, by rw [h.offsets_eq, hfirst], by rw [h.offsets_eq, hlast], ?_, ?_⟩
    · rwa [h.tokens_eq]
    · rw [h.tokens_eq]
  exact ⟨_, _, getAt_of_spells htokens hss⟩

end Reading

/-- **Every string of an accepted container can be read, without leaving the tables and without an
endless recursion, iff the streams hold what safe reading needs.** -/
theorem load_safe_iff {s : InStream} {c₀ c : CTokenizedStringContainer}
    (h : load s c₀ = (.ok (), c)) : ∃ x, stored s = .ok x ∧ (c.Safe ↔ x.Readable) := by
  obtain ⟨x, hx, hacc⟩ := load_accepted h
  exact ⟨x, hx, hacc.readable_of_safe, hacc.safe_of_readable⟩

/-- The streams of a container with the empty word, and the given pairs, tokens and offsets. -/
def streamOf (wordChars : List UInt8) (words : ℕ) (pairs : List (ℕ × ℕ)) (tokens offsets : List ℕ) :
    InStream :=
  .compose [
    (1, .compose [(1, .leaf .blob wordChars), (2, .leaf .diffDWORD (internalAdd (words + 1)))]),
    (2, .compose [
      (1, .leaf .diffInteger (CDiffIntegerOutStream.write (pairs.length :: pairs.map Prod.fst))),
      (2, .leaf .diffInteger (CDiffIntegerOutStream.write (pairs.map Prod.snd)))]),
    (3, .leaf .packedInteger (internalAdd tokens.length ++
      CPackedDWORDOutStream.write (tokens.map foldSign))),
    (4, .leaf .diffDWORD (internalAdd offsets.length ++ CDiffDWORDOutStream.write offsets))]

/-- One word and one string that holds it. -/
theorem load_safe_iff_word : Safe ⟨⟨[0, 97, 0], [0, 1, 3]⟩, [], [.word 1], [0, 1]⟩ := by
  have hload : load (streamOf [0, 97, 0] 2 [] [4294967294] [0, 1]) init =
      (.ok (), ⟨⟨[0, 97, 0], [0, 1, 3]⟩, [], [.word 1], [0, 1]⟩) := by decide +kernel
  obtain ⟨x, hx, hiff⟩ := load_safe_iff hload
  have hx' : stored (streamOf [0, 97, 0] 2 [] [4294967294] [0, 1]) =
      .ok ⟨2, [], [.word 1], [0, 1]⟩ := by rfl
  obtain rfl := Except.ok.inj (hx.symm.trans hx')
  refine hiff.mpr ⟨by simp, fun pre first last hpre => ?_, by simp, fun t u _ _ hcyc => ?_⟩
  · obtain ⟨rfl, hpre⟩ : pre = [] ∧ [0, 1] = [first, last] := by
      rcases pre with _ | ⟨a, pre⟩
      · exact ⟨rfl, hpre⟩
      · have hlen := congrArg List.length hpre
        simp at hlen
    obtain ⟨rfl, rfl⟩ : 0 = first ∧ 1 = last := by simpa using hpre
    decide
  · obtain ⟨v, ⟨i, p, -, hi, -⟩, -⟩ := TransGen.head'_iff.mp hcyc
    simp at hi

/-- A pair that is its own part is accepted. -/
theorem load_accepts_recursion : ¬ ∀ (s : InStream) (c₀ c : CTokenizedStringContainer),
    load s c₀ = (.ok (), c) → c.Safe := by
  intro h
  have hload : load (streamOf [0] 1 [(0, 0)] [0] [0, 1]) init =
      (.ok (), ⟨⟨[0], [0, 1]⟩, [(.pair 0, .pair 0)], [.pair 0], [0, 1]⟩) := by decide +kernel
  obtain ⟨s, hs⟩ := h _ _ _ hload 0 (by decide)
  obtain ⟨ts, ss, hts, hss⟩ := hs.spells
  obtain rfl : [.pair 0] = ts := Except.ok.inj hts
  obtain ⟨u, hu⟩ := Spells.expands hss (List.mem_singleton_self _)
  refine hu.acyclic .refl (.single (part_iff.mpr ⟨0, _, rfl, rfl, .inl rfl⟩))

end CTokenizedStringContainer

end TortoiseSvn.LogCache
