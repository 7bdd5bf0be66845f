import TortoiseSvn.Lib.Pool
import TortoiseSvn.LogCache.Globals
import TortoiseSvn.Streams.InStream

/-!
# The pair dictionary

A `CIndexPairDictionary` is a pool of pairs of indices, with a hash index that finds the index of a
pair. The path dictionary keeps its paths in one and the tokenized string container its pairs of
tokens, so the model is generic in what an `index_t` stands for.
-/

namespace TortoiseSvn.LogCache

open TortoiseSvn.Lib

namespace CIndexPairDictionary

/-- The index of a pair. Source: `IndexPairDictionary.cpp` `CIndexPairDictionary::Find` -/
def findPair {κ : Type} [DecidableEq κ] (pairs : List (κ × κ)) (p : κ × κ) : Option ℕ :=
  Pool.find pairs p

/-- `Insert` asserts that the pair is not there yet.
Source: `IndexPairDictionary.cpp` `CIndexPairDictionary::Insert` -/
def insertPair {κ : Type} [DecidableEq κ] (pairs : List (κ × κ)) (p : κ × κ) :
    Except Fault (List (κ × κ)) :=
  match findPair pairs p with
  | some _ => .error .assertion
  | none => .ok (pairs ++ [p])

/-- The first stream holds the number of pairs and their first elements, the second one their
second elements; `ofRaw` is what an `index_t` stands for.
Source: `IndexPairDictionary.cpp` `operator>>` -/
def load {κ : Type} (ofRaw : ℕ → κ) (s : InStream) : LoadM (List (κ × κ)) Unit := do
  let firstStream ← Trial.lift (s.getSubStreamAs 1 .diffInteger)
  let (count, firstStream) ← Trial.lift
    (CDiffIntegerInStream.getValue ⟨⟨firstStream.content, 0, 0⟩, 0⟩)
  Trial.modify (resize count (ofRaw 0, ofRaw 0))
  let _ ← fill CDiffIntegerInStream.getValue (fun p v => (ofRaw v, p.2)) firstStream
  let secondStream ← Trial.lift (s.getSubStreamAs 2 .diffInteger)
  let _ ← fill CDiffIntegerInStream.getValue (fun p v => (p.1, ofRaw v))
    ⟨⟨secondStream.content, 0, 0⟩, 0⟩
  pure ()

/-- The pairs a stream holds. -/
def stored (s : InStream) : Except Fault (List (ℕ × ℕ)) := do
  let firstStream ← s.getSubStreamAs 1 .diffInteger
  let (count, firstStream) ← CDiffIntegerInStream.getValue ⟨⟨firstStream.content, 0, 0⟩, 0⟩
  let (firsts, _) ← readValues CDiffIntegerInStream.getValue count firstStream
  let secondStream ← s.getSubStreamAs 2 .diffInteger
  let (seconds, _) ← readValues CDiffIntegerInStream.getValue count
    ⟨⟨secondStream.content, 0, 0⟩, 0⟩
  return firsts.zip seconds

theorem zipWith_fst {κ : Type} (ofRaw : ℕ → κ) (l : List (κ × κ)) (firsts seconds : List ℕ)
    (h1 : firsts.length = l.length) (h2 : seconds.length = l.length) :
    List.zipWith (fun p v => (p.1, ofRaw v))
      (List.zipWith (fun p v => (ofRaw v, p.2)) l firsts) seconds =
      (firsts.zip seconds).map fun p => (ofRaw p.1, ofRaw p.2) := by
  refine List.ext_getElem (by simp [h1, h2]) fun i hi hi' => ?_
  simp

/-- A pair dictionary that was read holds the pairs of its stream. -/
theorem load_ok {κ : Type} {ofRaw : ℕ → κ} {s : InStream} {l₀ l : List (κ × κ)}
    (h : load ofRaw s l₀ = (.ok (), l)) :
    ∃ ps, stored s = .ok ps ∧ l = ps.map fun p => (ofRaw p.1, ofRaw p.2) := by
  rw [load] at h
  obtain ⟨firstStream, hf, h⟩ := Trial.lift_bind_eq_ok h
  obtain ⟨⟨count, t₁⟩, hc, h⟩ := Trial.lift_bind_eq_ok h
  replace h := Trial.modify_bind_eq h
  obtain ⟨firsts, _, hread, hlen, h⟩ := fill_bind_eq_ok h
  obtain ⟨secondStream, hs, h⟩ := Trial.lift_bind_eq_ok h
  obtain ⟨seconds, _, hread', hlen', h⟩ := fill_bind_eq_ok h
  obtain ⟨-, rfl⟩ := Prod.mk.inj h
  simp only [resize_length, List.length_zipWith] at hlen hlen' hread hread'
  rw [hlen, min_self] at hread' hlen'
  refine ⟨firsts.zip seconds, ?_, ?_⟩
  · simp [stored, hf, hc, hread, hs, hread', bind, Except.bind, pure, Except.pure]
  · rw [zipWith_fst ofRaw _ _ _ (by simp [hlen]) (by simp [hlen'])]

end CIndexPairDictionary

end TortoiseSvn.LogCache
