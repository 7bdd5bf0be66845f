import TortoiseSvn.Lib.PairGrammar
import TortoiseSvn.LogCache.IndexMapping
import TortoiseSvn.LogCache.IndexPairDictionary
import TortoiseSvn.LogCache.StringDictionary

/-!
# The tokenized string container

`CTokenizedStringContainer` keeps every string as a sequence of tokens. A token is a word of the
word dictionary, a pair of tokens, or the empty token that fills up shortened strings. The token
sequences stand back to back in `stringData`, with their offsets in `offsets`.

Reading a string expands its tokens, which is a recursion over a grammar of pairs (`appendToken`).
Inserting one cuts it into words and folds neighbouring tokens as long as they are a known pair.
-/

namespace TortoiseSvn.LogCache

open TortoiseSvn.Lib CIndexPairDictionary

/-- A token. The word at index 0 is the empty string, whose token is the empty one.
Source: `TokenizedStringContainer.h`, token coding -/
inductive Token where
  | empty
  | word (index : ℕ)
  | pair (index : ℕ)
  deriving DecidableEq, Repr

namespace Token

/-- The token an `index_t` stands for: words count down from the empty token, pairs take the lower
half of the range. Source: `TokenizedStringContainer.h`, token coding -/
def ofRaw (v : ℕ) : Token :=
  if v = noIndex then empty else if noIndex / 2 < v then word (noIndex - v) else pair v

/-- Source: `TokenizedStringContainer.h` `IsToken` -/
def isToken (t : Token) : Bool := t ≠ empty

/-- The overflow of the word and pair ranges is left out, as in the source.
Source: `TokenizedStringContainer.h` `GetWordToken` -/
def ofWord : ℕ → Token
  | 0 => empty
  | index + 1 => word (index + 1)

end Token

/-- Source: `TokenizedStringContainer.h` `CTokenizedStringContainer` -/
@[ext] structure CTokenizedStringContainer where
  words : CStringDictionary
  /-- The pairs of tokens that have a token of their own. -/
  pairs : List (Token × Token)
  /-- The tokens of all strings. -/
  stringData : List Token
  /-- Where the tokens of each string begin, and where those of the last one end. -/
  offsets : List ℕ
  deriving DecidableEq

namespace CTokenizedStringContainer

/-- Source: `TokenizedStringContainer.cpp`, the constructor -/
def init : CTokenizedStringContainer := ⟨.init, [], [], [0]⟩

/-- The entry at the front of the offsets stays; without it, erasing what is behind is undefined.
Source: `TokenizedStringContainer.cpp` `CTokenizedStringContainer::Clear` -/
def clear (c : CTokenizedStringContainer) : Except Fault CTokenizedStringContainer :=
  match c.offsets with
  | [] => .error .undefined
  | first :: _ => .ok ⟨.init, [], [], [first]⟩

/-- Source: `TokenizedStringContainer.h` `size` -/
def size (c : CTokenizedStringContainer) : ℕ := subU c.offsets.length 1

/-! ### Reading a string -/

/-- The characters of a word, if they lie inside the buffer.
Source: `StringDictonary.cpp` `CStringDictionary::CopyTo` -/
def copyWord (words : CStringDictionary) (index : ℕ) : Except Fault (List UInt8) :=
  if index < words.size ∧ words.offset index < words.offset (index + 1) ∧
      words.offset (index + 1) ≤ words.packedStrings.length then .ok (words.copyTo index)
  else .error .undefined

/-- Source: `StringDictonary.cpp` `CStringDictionary::GetLength` -/
def wordLength (words : CStringDictionary) (index : ℕ) : Except Fault ℕ :=
  if index < words.size then .ok (words.getLength index) else .error .undefined

/-- What a token stands for: a value of its word, or the sub-tokens of its pair. -/
def subTokens {α : Type} (c : CTokenizedStringContainer)
    (wordValue : CStringDictionary → ℕ → Except Fault α) : Token → Except Fault (α ⊕ Token × Token)
  | .empty => (wordValue c.words 0).map .inl
  | .word index => (wordValue c.words index).map .inl
  | .pair index => (checked c.pairs[index]?).map .inr

/-- The text of a token; the sub-tokens of a pair are added recursively.
Source: `TokenizedStringContainer.cpp` `CTokenizedStringContainer::AppendToken` -/
def appendToken (c : CTokenizedStringContainer) : PairGrammar Fault Token (List UInt8) :=
  ⟨c.subTokens copyWord, (· ++ ·)⟩

/-- Source: `TokenizedStringContainer.cpp` `CTokenizedStringContainer::GetTokenLength` -/
def getTokenLength (c : CTokenizedStringContainer) : PairGrammar Fault Token ℕ :=
  ⟨c.subTokens wordLength, (· + ·)⟩

/-- The tokens from position `iter` on, up to `last` or the first empty token.
Source: `TokenizedStringContainer.cpp` `CTokenizedStringContainer::GetAt`, the loops -/
def tokensUpTo (last : ℕ) : ℕ → List Token → Except Fault (List Token)
  | iter, [] => if iter = last then .ok [] else .error .undefined
  | iter, t :: rest =>
    if iter = last ∨ ¬ t.isToken then .ok []
    else (tokensUpTo last (iter + 1) rest).map (t :: ·)

/-- The tokens of a string. -/
def tokensAt (c : CTokenizedStringContainer) (index : ℕ) : Except Fault (List Token) :=
  match c.offsets[index]?, c.offsets[index + 1]? with
  | some first, some last => tokensUpTo last first (c.stringData.drop first)
  | _, _ => .error .undefined

/-- The string at an index; `none` when the fuel for the recursion over pairs is used up. The
characters go to a buffer of the length that was computed before.
Source: `TokenizedStringContainer.cpp` `CTokenizedStringContainer::GetAt` -/
def getAt (c : CTokenizedStringContainer) (fuel index : ℕ) : Option (Except Fault (List UInt8)) :=
  match c.tokensAt index with
  | .error e => some (.error e)
  | .ok tokens =>
    match c.getTokenLength.expandAll fuel tokens with
    | none => none
    | some (.error e) => some (.error e)
    | some (.ok lengths) =>
      match c.appendToken.expandAll fuel tokens with
      | none => none
      | some (.error e) => some (.error e)
      | some (.ok strings) =>
        if strings.flatten.length ≤ lengths.sum then some (.ok (resize lengths.sum 0 strings.flatten))
        else some (.error .undefined)

/-- `GetAt` returns `s`. -/
def GetAt (c : CTokenizedStringContainer) (index : ℕ) (s : List UInt8) : Prop :=
  ∃ fuel, c.getAt fuel index = some (.ok s)

/-- The string at an index. A recursion that is deeper than there are pairs never ends.
Source: `TokenizedStringContainer.cpp` `CTokenizedStringContainer::operator[]` -/
def get (c : CTokenizedStringContainer) (index : ℕ) : Except Fault (List UInt8) :=
  (c.getAt (c.pairs.length + 1) index).getD (.error .undefined)

/-! ### Inserting a string -/

/-- The first word of a non-empty string: the characters up to a change of the delimiter state, and
one more if the state changes again right behind it. The result is the word, the rest and the
state there.
Source: `TokenizedStringContainer.cpp` `CTokenizedStringContainer::Append`, the word extraction -/
def nextWord (delimiter : UInt8 → Bool) (inDelimiter : Bool) (c : UInt8) (s : List UInt8) :
    List UInt8 × List UInt8 × Bool :=
  let run := s.takeWhile fun b => delimiter b == inDelimiter
  match s.dropWhile fun b => delimiter b == inDelimiter with
  | b :: b' :: rest =>
    if delimiter b' != !inDelimiter then (c :: run ++ [b], b' :: rest, inDelimiter)
    else (c :: run, b :: b' :: rest, !inDelimiter)
  | rest => (c :: run, rest, !inDelimiter)

theorem nextWord_append (delimiter : UInt8 → Bool) (inDelimiter : Bool) (c : UInt8)
    (s : List UInt8) :
    (nextWord delimiter inDelimiter c s).1 ++ (nextWord delimiter inDelimiter c s).2.1 = c :: s := by
  have hs : s.takeWhile (fun b => delimiter b == inDelimiter) ++
      s.dropWhile (fun b => delimiter b == inDelimiter) = s := List.takeWhile_append_dropWhile
  unfold nextWord
  dsimp only
  split
  · rename_i b b' rest h
    rw [h] at hs
    split
    · simpa using hs
    · simp [hs]
  · simp [hs]

theorem nextWord_ne_nil (delimiter : UInt8 → Bool) (inDelimiter : Bool) (c : UInt8)
    (s : List UInt8) : (nextWord delimiter inDelimiter c s).1 ≠ [] := by
  unfold nextWord
  dsimp only
  split
  · split <;> exact List.cons_ne_nil _ _
  · exact List.cons_ne_nil _ _

theorem nextWord_length (delimiter : UInt8 → Bool) (inDelimiter : Bool) (c : UInt8)
    (s : List UInt8) : (nextWord delimiter inDelimiter c s).2.1.length ≤ s.length := by
  have h := congrArg List.length (nextWord_append delimiter inDelimiter c s)
  have hpos := List.length_pos_iff.mpr (nextWord_ne_nil delimiter inDelimiter c s)
  rw [List.length_append, List.length_cons] at h
  omega

/-- The words a string is cut into.
Source: `TokenizedStringContainer.cpp` `CTokenizedStringContainer::Append`, the loop over `pos` -/
def splitWords (delimiter : UInt8 → Bool) (inDelimiter : Bool) : List UInt8 → List (List UInt8)
  | [] => []
  | c :: s =>
    (nextWord delimiter inDelimiter c s).1 ::
      splitWords delimiter (nextWord delimiter inDelimiter c s).2.2
        (nextWord delimiter inDelimiter c s).2.1
termination_by s => s.length
decreasing_by
  exact Nat.lt_succ_of_le (nextWord_length delimiter inDelimiter c s)

/-- All words of a string; the first character gives the delimiter state of the first word.
Source: `TokenizedStringContainer.cpp` `CTokenizedStringContainer::Append` -/
def wordsOf (delimiter : UInt8 → Bool) (s : List UInt8) : List (List UInt8) :=
  splitWords delimiter (s.head?.any delimiter) s

/-- Fold tokens backwards as long as the last two are a pair. `stack` holds the tokens written for
this string, the latest first; without a previous token, the empty one takes its place. As no pair
begins with the empty token, the chain ends there, and the fuel is never used up.
Source: `TokenizedStringContainer.cpp` `CTokenizedStringContainer::Append`, the inner loop -/
def foldPairs (pairs : List (Token × Token)) :
    ℕ → List Token → Token → Token → List Token × Token × Token
  | 0, stack, lastToken, token => (stack, lastToken, token)
  | fuel + 1, stack, lastToken, token =>
    match findPair pairs (lastToken, token) with
    | some pairIndex => foldPairs pairs fuel stack.tail (stack.headD .empty) (.pair pairIndex)
    | none => (stack, lastToken, token)

/-- Source: `TokenizedStringContainer.cpp` `CTokenizedStringContainer::Append (index_t)` -/
def pushToken (token : Token) (stack : List Token) : List Token :=
  if token.isToken then token :: stack else stack

/-- The tokens of a string, the latest first, from its words, which are looked up as C strings.
Source: `TokenizedStringContainer.cpp` `CTokenizedStringContainer::Append` -/
def appendWords (pairs : List (Token × Token)) :
    List (List UInt8) → CStringDictionary → List Token → Token → CStringDictionary × List Token
  | [], words, stack, lastToken => (words, pushToken lastToken stack)
  | word :: rest, words, stack, lastToken =>
    let (words, index) := words.autoInsert (word.takeWhile (· ≠ 0))
    let (stack, lastToken, token) :=
      foldPairs pairs (stack.length + pairs.length + 2) stack lastToken (.ofWord index)
    appendWords pairs rest words (pushToken lastToken stack) token

/-- Append the tokens of a string, folded with the existing pairs only.
Source: `TokenizedStringContainer.cpp` `CTokenizedStringContainer::Append (const std::string&)` -/
def append (delimiter : UInt8 → Bool) (c : CTokenizedStringContainer) (s : List UInt8) :
    CTokenizedStringContainer :=
  let (words, stack) := appendWords c.pairs (wordsOf delimiter s) c.words [] .empty
  { c with words := words, stringData := c.stringData ++ stack.reverse }

/-- Source: `TokenizedStringContainer.cpp` `CTokenizedStringContainer::Insert (const std::string&)` -/
def insert (delimiter : UInt8 → Bool) (c : CTokenizedStringContainer) (s : List UInt8) :
    CTokenizedStringContainer :=
  let c := c.append delimiter s
  { c with offsets := c.offsets ++ [c.stringData.length] }

/-- Insert a string `count` times: it is written once, and its tokens are copied. A string without
tokens is not inserted at all.
Source: `TokenizedStringContainer.cpp`
`CTokenizedStringContainer::Insert (const std::string&, size_t)` -/
def insertCount (delimiter : UInt8 → Bool) (c : CTokenizedStringContainer) (s : List UInt8)
    (count : ℕ) : CTokenizedStringContainer :=
  if count = 0 then c
  else
    let c' := c.append delimiter s
    let item := c'.stringData.drop c.stringData.length
    { c' with
      stringData := c'.stringData ++ (List.replicate (count - 1) item).flatten
      offsets := c'.offsets ++ if item = [] then [] else
        (List.range count).map fun i => c'.stringData.length + i * item.length }

/-- The tokens of the last string stay behind the end of the container's strings.
Source: `TokenizedStringContainer.cpp` `CTokenizedStringContainer::Remove (index_t)` -/
def remove (c : CTokenizedStringContainer) (index : ℕ) : Except Fault CTokenizedStringContainer :=
  if index + 2 = c.offsets.length then .ok { c with offsets := c.offsets.dropLast }
  else
    match c.offsets[index]?, c.offsets[index + 1]? with
    | some first, some last =>
      if first = last ∨ c.stringData.length ≤ first then .error .undefined
      else .ok { c with
        stringData := c.stringData.set first .empty
        offsets := c.offsets.eraseIdx index }
    | _, _ => .error .undefined

/-- The loop over the strings from index `i` on, of which `oldOffset` and the offsets behind it are
given; the result holds the new offsets behind that.
Source: `TokenizedStringContainer.cpp` `CTokenizedStringContainer::Replace`, the first loop -/
def spliceStrings (delimiter : UInt8 → Bool) (source : CTokenizedStringContainer)
    (indexMap : IndexMapping) (oldData : List Token) :
    ℕ → ℕ → List ℕ → CTokenizedStringContainer → Except Fault (CTokenizedStringContainer × List ℕ)
  | _, _, [], c => .ok (c, [])
  | i, oldOffset, nextOffset :: ends, c => do
    let c ← match indexMap.find i with
      | some value => (source.get value).map (c.append delimiter)
      | none =>
        if oldOffset ≤ nextOffset ∧ nextOffset ≤ oldData.length then
          .ok { c with stringData := c.stringData ++ segment oldData oldOffset nextOffset }
        else .error .undefined
    let (c', ends) ← spliceStrings delimiter source indexMap oldData (i + 1) nextOffset ends c
    return (c', c.stringData.length :: ends)

/-- The second loop: append the strings whose target index is behind the last one.
Source: `TokenizedStringContainer.cpp` `CTokenizedStringContainer::Replace` -/
def insertNew (delimiter : UInt8 → Bool) (source : CTokenizedStringContainer) (count : ℕ) :
    IndexMapping → CTokenizedStringContainer → Except Fault CTokenizedStringContainer
  | [], c => .ok c
  | (key, value) :: rest, c => do
    let c ← if count ≤ key then (source.get value).map (c.insert delimiter) else .ok c
    insertNew delimiter source count rest c

/-- Source: `TokenizedStringContainer.cpp` `CTokenizedStringContainer::Replace` -/
def replace (delimiter : UInt8 → Bool) (c source : CTokenizedStringContainer)
    (indexMap : IndexMapping) : Except Fault CTokenizedStringContainer :=
  match c.offsets with
  | [] => .error .undefined
  | first :: ends => do
    let (c', ends') ← spliceStrings delimiter source indexMap c.stringData 0 first ends
      { c with stringData := [] }
    insertNew delimiter source ends.length indexMap { c' with offsets := first :: ends' }

end CTokenizedStringContainer

end TortoiseSvn.LogCache
