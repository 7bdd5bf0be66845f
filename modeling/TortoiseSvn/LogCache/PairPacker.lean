import TortoiseSvn.Lib.Loop
import TortoiseSvn.LogCache.TokenizedStringLayout

/-!
# Compressing a tokenized string container

`Compress` looks for pairs of neighbouring tokens that occur more than four times, gives them
tokens of their own and writes these for the pairs, round after round, until nothing is replaced
any more. Then it removes the empty tokens that the strings were filled up with (`Compact`) and
renumbers the pairs in the order of their use (`OptimizePairs`).

Loops that the source leaves unbounded are `Lib.loop`s here, so that `Compress` is the relation
between a container and what compressing it returns. Assertions are checked.
-/

namespace TortoiseSvn.LogCache

open TortoiseSvn.Lib CIndexPairDictionary CTokenizedStringContainer

/-- Source: `TokenizedStringContainer.h` `CPairPacker` -/
structure CPairPacker where
  container : CTokenizedStringContainer
  /-- The indices of the strings that might be compressed further. -/
  strings : List ℕ
  /-- Pairs below that have been tried with each other before. -/
  minimumToken : ℕ := 0
  /-- The number of tokens saved so far. -/
  replacements : ℕ := 0

namespace CPairPacker

/-! ### One round -/

/-- The strings of two tokens or more, from string `i` on, whose offsets are given.
Source: `TokenizedStringContainer.cpp` `CPairPacker::Initialize` -/
def longStrings : ℕ → List ℕ → List ℕ
  | i, offset :: nextOffset :: rest =>
    if offset + 2 ≤ nextOffset then i :: longStrings (i + 1) (nextOffset :: rest)
    else longStrings (i + 1) (nextOffset :: rest)
  | _, _ => []

/-- Source: `TokenizedStringContainer.cpp` `CPairPacker::CPairPacker` -/
def start (c : CTokenizedStringContainer) : CPairPacker := ⟨c, longStrings 0 c.offsets, 0, 0⟩

/-- The first token of a string and the others.
Source: `TokenizedStringContainer.cpp` `CPairPacker::GetStringRange` -/
def stringRange (c : CTokenizedStringContainer) (index : ℕ) : Except Fault (ℕ × Token × List Token) :=
  match c.offsets[index]?, c.offsets[index + 1]? with
  | some first, some last =>
    if first ≤ last ∧ last ≤ c.stringData.length then
      match segment c.stringData first last with
      | token :: rest => .ok (first, token, rest)
      | [] => .error .undefined
    else .error .undefined
  | _, _ => .error .undefined

/-- `token >= minimumToken`: words come behind all pairs.
Source: `TokenizedStringContainer.cpp` `CPairPacker` -/
def reaches (minimumToken : ℕ) : Token → Bool
  | .pair i => minimumToken ≤ i
  | _ => true

/-- A pair that was not tried before. Source: `TokenizedStringContainer.cpp` `CPairPacker` -/
def untried (minimumToken : ℕ) (p : Token × Token) : Bool :=
  reaches minimumToken p.2 || reaches minimumToken p.1

/-- The pairs that were found and how often. Source: `TokenizedStringContainer.h` `CPairPacker` -/
abbrev Tally := List (Token × Token) × List ℕ

/-- Count a pair. Source: `TokenizedStringContainer.cpp` `CPairPacker::AccumulatePairs` -/
def countPair (tally : Tally) (p : Token × Token) : Tally :=
  let (newPairs, index) := Pool.autoInsert tally.1 p
  if tally.2.length ≤ index then (newPairs, tally.2 ++ [1])
  else (newPairs, tally.2.modify index (· + 1))

/-- Count the pairs of `lastToken` and the tokens behind it. A pair that is untried is not known.
Source: `TokenizedStringContainer.cpp` `CPairPacker::AccumulatePairs` -/
def accumulatePairs (pairs : List (Token × Token)) (minimumToken : ℕ) :
    Token → List Token → Tally → Except Fault Tally
  | _, [], tally => .ok tally
  | lastToken, token :: rest, tally =>
    if ¬ token.isToken then .ok tally
    else if untried minimumToken (lastToken, token) then
      match findPair pairs (lastToken, token) with
      | some _ => .error .assertion
      | none => accumulatePairs pairs minimumToken token rest (countPair tally (lastToken, token))
    else accumulatePairs pairs minimumToken token rest tally

/-- Count the pairs of some strings. Source: `TokenizedStringContainer.cpp` `CPairPacker::OneRound` -/
def accumulateAll (c : CTokenizedStringContainer) (minimumToken : ℕ) :
    List ℕ → Tally → Except Fault Tally
  | [], tally => .ok tally
  | index :: rest, tally => do
    let (_, token, tokens) ← stringRange c index
    let tally ← accumulatePairs c.pairs minimumToken token tokens tally
    accumulateAll c minimumToken rest tally

/-- Source: `TokenizedStringContainer.cpp` `CPairPacker::AddCompressablePairs` -/
def addCompressablePairs : List ((Token × Token) × ℕ) → List (Token × Token) →
    Except Fault (List (Token × Token))
  | [], pairs => .ok pairs
  | (p, count) :: rest, pairs =>
    if 4 < count then do
      let pairs ← insertPair pairs p
      addCompressablePairs rest pairs
    else addCompressablePairs rest pairs

/-- Write pair tokens for known pairs of `lastToken` and the tokens behind it: what is written up to
the last token, and the number of replacements. A string that ends with a pair has the empty token
for the last one.
Source: `TokenizedStringContainer.cpp` `CPairPacker::CompressString`, the loop -/
def combine (pairs : List (Token × Token)) (minimumToken : ℕ) :
    Token → List Token → List Token × ℕ
  | lastToken, [] => ([lastToken], 0)
  | lastToken, token :: rest =>
    if ¬ token.isToken then ([lastToken], 0)
    else
      match if untried minimumToken (lastToken, token) then findPair pairs (lastToken, token)
        else none with
      | none =>
        let (written, n) := combine pairs minimumToken token rest
        (lastToken :: written, n)
      | some pairIndex =>
        match rest with
        | [] => ([.pair pairIndex, .empty], 1)
        | next :: rest =>
          let (written, n) := combine pairs minimumToken next rest
          (.pair pairIndex :: written, n + 1)

/-- Rewrite a string in place, filling it up with empty tokens; the result tells the number of
replacements. Source: `TokenizedStringContainer.cpp` `CPairPacker::CompressString` -/
def compressString (c : CTokenizedStringContainer) (minimumToken index : ℕ) :
    Except Fault (CTokenizedStringContainer × ℕ) := do
  let (first, token, rest) ← stringRange c index
  let (written, n) := combine c.pairs minimumToken token rest
  let filled := written ++ List.replicate (rest.length + 1 - written.length) .empty
  return ({ c with
    stringData := c.stringData.take first ++ filled ++ c.stringData.drop (first + filled.length) }, n)

/-- Compress some strings. The result tells which of them had replacements, and the number of
these. Source: `TokenizedStringContainer.cpp` `CPairPacker::OneRound` -/
def compressAll (minimumToken : ℕ) : List ℕ → CTokenizedStringContainer →
    Except Fault (CTokenizedStringContainer × List ℕ × ℕ)
  | [], c => .ok (c, [], 0)
  | index :: rest, c => do
    let (c, n) ← compressString c minimumToken index
    let (c, strings, total) ← compressAll minimumToken rest c
    return (c, if 0 < n then index :: strings else strings, n + total)

/-- The packer behind a round, and the number of tokens the round saved.
Source: `TokenizedStringContainer.cpp` `CPairPacker::OneRound` -/
def oneRound (p : CPairPacker) : Except Fault (CPairPacker × ℕ) := do
  let (newPairs, counts) ← accumulateAll p.container p.minimumToken p.strings ([], [])
  let pairs ← addCompressablePairs (newPairs.zip counts) p.container.pairs
  let (c, strings, n) ← compressAll p.minimumToken p.strings { p.container with pairs := pairs }
  return (⟨c, strings, p.container.pairs.length, p.replacements + n⟩, n)

/-- `while (packer.OneRound() > 0);`
Source: `TokenizedStringContainer.cpp` `CTokenizedStringContainer::Compress` -/
def roundsBody (p : CPairPacker) : Except Fault (CPairPacker ⊕ CPairPacker) := do
  let (p, n) ← p.oneRound
  return if 0 < n then .inl p else .inr p

/-! ### Removing empty tokens -/

/-- The state of the loop of `Compact`: the read position, the offsets that were not reached yet,
the tokens written and the new offsets. -/
structure Compaction where
  iter : ℕ
  offsets : List ℕ
  target : List Token
  boundaries : List ℕ

/-- One round of the loop of `Compact`. Behind the last offset there is no next string.
Source: `TokenizedStringContainer.cpp` `CPairPacker::Compact` -/
def compactBody (data : List Token) (s : Compaction) : Except Fault (Compaction ⊕ Compaction) :=
  match data[s.iter]? with
  | none => if s.iter = data.length then .ok (.inr s) else .error .undefined
  | some token =>
    let crossed := s.offsets.takeWhile (· = s.iter)
    let boundaries := s.boundaries ++ List.replicate crossed.length s.target.length
    match s.offsets.drop crossed.length with
    | [] => .error .undefined
    | nextStringStart :: rest =>
      if token.isToken then
        .ok (.inl ⟨s.iter + 1, nextStringStart :: rest, s.target ++ [token], boundaries⟩)
      else .ok (.inl ⟨nextStringStart, nextStringStart :: rest, s.target, boundaries⟩)

/-- `Compact` leaves the container `c`.
Source: `TokenizedStringContainer.cpp` `CPairPacker::Compact` -/
def Compact (p : CPairPacker) (c : CTokenizedStringContainer) : Prop :=
  if p.replacements = 0 then c = p.container
  else ∃ s, Returns (compactBody p.container.stringData) ⟨0, p.container.offsets, [], []⟩ s ∧
    c = { p.container with
      stringData := s.target
      offsets := s.boundaries ++ List.replicate s.offsets.length s.target.length }

end CPairPacker

namespace CTokenizedStringContainer

/-! ### Renumbering the pairs -/

/-- The pairs found so far in their new order, and marks for them. -/
abbrev PairOrder := List ℕ × List Bool

/-- Put a pair behind the others unless it was found before.
Source: `TokenizedStringContainer.cpp` `CTokenizedStringContainer::OptimizePairs` -/
def markPair (order : PairOrder) : Token → Except Fault PairOrder
  | .pair token =>
    match order.2[token]? with
    | some true => .ok order
    | some false => .ok (order.1 ++ [token], order.2.set token true)
    | none => .error .undefined
  | _ => .ok order

/-- Mark the pairs among some tokens.
Source: `TokenizedStringContainer.cpp` `CTokenizedStringContainer::OptimizePairs`, the first loop -/
def markTokens : List Token → PairOrder → Except Fault PairOrder
  | [], order => .ok order
  | token :: rest, order => do
    let order ← markPair order token
    markTokens rest order

/-- Mark the parts of the pair at position `i`.
Source: `TokenizedStringContainer.cpp` `CTokenizedStringContainer::OptimizePairs`, the second loop -/
def markPartsBody (c : CTokenizedStringContainer) :
    ℕ × PairOrder → Except Fault ((ℕ × PairOrder) ⊕ PairOrder)
  | (i, order) =>
    match order.1[i]? with
    | none => .ok (.inr order)
    | some old => do
      let tokens ← checked c.pairs[old]?
      let order ← markPair order tokens.1
      let order ← markPair order tokens.2
      return .inl (i + 1, order)

/-- The new indices of the pairs.
Source: `TokenizedStringContainer.cpp` `CTokenizedStringContainer::OptimizePairs` -/
def old2New (count : ℕ) (new2Old : List ℕ) : List ℕ :=
  new2Old.zipIdx.foldl (fun map e => map.set e.1 e.2) (List.replicate count 0)

/-- A token under the new numbering.
Source: `TokenizedStringContainer.cpp` `CTokenizedStringContainer::OptimizePairs` -/
def renumber (map : List ℕ) : Token → Except Fault Token
  | .pair token => (checked map[token]?).map .pair
  | token => .ok token

/-- The pairs in their new order, inserted one by one.
Source: `TokenizedStringContainer.cpp` `CTokenizedStringContainer::OptimizePairs` -/
def reorderPairs (pairs : List (Token × Token)) (map : List ℕ) :
    List ℕ → List (Token × Token) → Except Fault (List (Token × Token))
  | [], temp => .ok temp
  | old :: rest, temp => do
    let tokens ← checked pairs[old]?
    let first ← renumber map tokens.1
    let second ← renumber map tokens.2
    let temp ← insertPair temp (first, second)
    reorderPairs pairs map rest temp

/-- The container under a new order of its pairs.
Source: `TokenizedStringContainer.cpp` `CTokenizedStringContainer::OptimizePairs` -/
def reorder (c : CTokenizedStringContainer) (new2Old : List ℕ) :
    Except Fault CTokenizedStringContainer := do
  let map := old2New c.pairs.length new2Old
  let pairs ← reorderPairs c.pairs map new2Old []
  let stringData ← c.stringData.mapM (renumber map)
  return { c with pairs := pairs, stringData := stringData }

/-- `OptimizePairs` leaves the container `c'`.
Source: `TokenizedStringContainer.cpp` `CTokenizedStringContainer::OptimizePairs` -/
def OptimizePairs (c c' : CTokenizedStringContainer) : Prop :=
  ∃ direct order, markTokens c.stringData ([], List.replicate c.pairs.length false) = .ok direct ∧
    Returns c.markPartsBody (0, direct) order ∧ c.reorder order.1 = .ok c'

/-- `Compress` leaves the container `c'`.
Source: `TokenizedStringContainer.cpp` `CTokenizedStringContainer::Compress` -/
def Compress (c c' : CTokenizedStringContainer) : Prop :=
  ∃ p compacted, Returns CPairPacker.roundsBody (.start c) p ∧ p.Compact compacted ∧
    compacted.OptimizePairs c'

end CTokenizedStringContainer

end TortoiseSvn.LogCache
