import TortoiseSvn.Lib.Trial
import TortoiseSvn.Streams.PackedStreams

/-!
# Hierarchical streams

A cache file is a tree of typed streams. A stream is modelled by what its readers see of it: its
type, its decoded content and its sub-streams.
-/

namespace TortoiseSvn.LogCache

/-- Source: `StreamTypeIDs.h` -/
inductive StreamType where
  | root
  | composite
  | blob
  | binary
  | packedDWORD
  | packedInteger
  | diffInteger
  | diffDWORD
  | packedTime64
  deriving DecidableEq, Repr

/-- A stream of the tree: its type, its decoded content and its sub-streams by ID.
Source: `HierachicalInStreamBase.h` `CHierachicalInStreamBase` -/
inductive InStream where
  | node (type : StreamType) (content : List UInt8) (subStreams : List (ℕ × InStream))

namespace InStream

/-- The stream class that reads it. -/
def type : InStream → StreamType
  | node type _ _ => type

/-- The bytes between `first` and `last`. -/
def content : InStream → List UInt8
  | node _ content _ => content

/-- Of two sub-streams with one ID the first is kept.
Source: `HierachicalInStreamBase.cpp` `CHierachicalInStreamBase::GetSubStream` -/
def getSubStream (s : InStream) (id : ℕ) : Except Fault InStream :=
  match s with
  | node _ _ subStreams =>
    match subStreams.lookup id with
    | some sub => .ok sub
    | none => .error (.streamException "no such sub-stream")

/-- Source: `HierachicalInStreamBase.cpp` `CHierachicalInStreamBase::HasSubStream` -/
def hasSubStream (s : InStream) (id : ℕ) : Bool :=
  match s with
  | node _ _ subStreams => (subStreams.lookup id).isSome

/-- Source: `HierachicalInStreamBase.h` `IHierarchicalInStream::GetSubStream<S>` -/
def getSubStreamAs (s : InStream) (id : ℕ) (type : StreamType) : Except Fault InStream :=
  match s.getSubStream id with
  | .ok sub => if sub.type = type then .ok sub else .error (.streamException "stream type mismatch")
  | .error e => .error e

/-- A stream without sub-streams. -/
abbrev leaf (type : StreamType) (content : List UInt8) : InStream := node type content []

/-- The sub-streams a container writes, with their IDs. -/
abbrev compose (subStreams : List (ℕ × InStream)) : InStream := node .composite [] subStreams

end InStream

/-- An access that must stay inside a table. -/
def checked {α : Type} : Option α → Except Fault α
  | some a => .ok a
  | none => .error .undefined

/-- A load works on a container and keeps what was read before an exception. -/
abbrev LoadM (σ α : Type) := Lib.Trial Fault σ α

/-! ### Vectors

A reader first gives a vector its final size and then fills it, entry by entry, with the values of
a stream. When the stream ends early, the entries behind keep what `resize` left there. -/

/-- `std::vector::resize`. -/
def resize {α : Type} (n : ℕ) (a : α) (l : List α) : List α :=
  l.take n ++ List.replicate (n - l.length) a

@[simp] theorem resize_length {α : Type} (n : ℕ) (a : α) (l : List α) :
    (resize n a l).length = n := by
  simp [resize]
  omega

/-- Fill a vector with the values of a stream.
Source: `PackedDWORDInStream.h` `operator>>`, `ReadStream` -/
def readInto {α σ : Type} (get : σ → Except Fault (ℕ × σ)) (put : α → ℕ → α) :
    List α → σ → List α × Except Fault σ
  | [], s => ([], .ok s)
  | a :: l, s =>
    match get s with
    | .error e => (a :: l, .error e)
    | .ok (v, s) => (put a v :: (readInto get put l s).1, (readInto get put l s).2)

/-- A vector that was filled holds the values of the stream. -/
theorem readInto_ok {α σ : Type} {get : σ → Except Fault (ℕ × σ)} {put : α → ℕ → α} {l : List α}
    {s s' : σ} (h : (readInto get put l s).2 = .ok s') :
    ∃ vs, readValues get l.length s = .ok (vs, s') ∧ vs.length = l.length ∧
      (readInto get put l s).1 = List.zipWith put l vs := by
  induction l generalizing s with
  | nil =>
    obtain rfl := Except.ok.inj h
    exact ⟨[], rfl, rfl, rfl⟩
  | cons a l ih =>
    rw [readInto] at h ⊢
    rcases hget : get s with e | ⟨v, t⟩
    · simp [hget] at h
    · simp only [hget] at h ⊢
      obtain ⟨vs, hread, hlen, hl⟩ := ih h
      exact ⟨v :: vs, by simp [readValues, hget, hread, bind, Except.bind, pure, Except.pure],
        by simp [hlen], by simp [hl]⟩

/-- Fill the vector that is the state. -/
def fill {α σ : Type} (get : σ → Except Fault (ℕ × σ)) (put : α → ℕ → α) (s : σ) :
    LoadM (List α) σ := fun l =>
  ((readInto get put l s).2, (readInto get put l s).1)

theorem fill_bind_eq_ok {α β σ : Type} {get : σ → Except Fault (ℕ × σ)} {put : α → ℕ → α} {s : σ}
    {f : σ → LoadM (List α) β} {l l' : List α} {b : β}
    (h : (fill get put s >>= f) l = (.ok b, l')) :
    ∃ vs s', readValues get l.length s = .ok (vs, s') ∧ vs.length = l.length ∧
      f s' (List.zipWith put l vs) = (.ok b, l') := by
  obtain ⟨s', t, ht, hf⟩ := Lib.Trial.bind_eq_ok h
  obtain ⟨hok, rfl⟩ := Prod.mk.inj ht
  obtain ⟨vs, hread, hlen, hl⟩ := readInto_ok hok
  exact ⟨vs, s', hread, hlen, hl ▸ hf⟩

/-- Give a vector the size that a stream tells and fill it with the stream's values.
Source: `PackedDWORDInStream.h` `operator>>`, `ReadStream` -/
def loadVector {α σ : Type} (size get : σ → Except Fault (ℕ × σ)) (fresh : α) (put : α → ℕ → α)
    (s : σ) : LoadM (List α) Unit := do
  let (count, s) ← Lib.Trial.lift (size s)
  Lib.Trial.modify (resize count fresh)
  let _ ← fill get put s
  pure ()

/-- The values of the vector that a stream holds. -/
def storedVector {σ : Type} (size get : σ → Except Fault (ℕ × σ)) (s : σ) :
    Except Fault (List ℕ) := do
  let (count, s) ← size s
  let (values, _) ← readValues get count s
  return values

theorem loadVector_ok {α σ : Type} {size get : σ → Except Fault (ℕ × σ)} {fresh : α} {ofRaw : ℕ → α}
    {s : σ} {l l' : List α}
    (h : loadVector size get fresh (fun _ v => ofRaw v) s l = (.ok (), l')) :
    ∃ count t vs, size s = .ok (count, t) ∧ storedVector size get s = .ok vs ∧ vs.length = count ∧
      l' = vs.map ofRaw := by
  obtain ⟨⟨count, t⟩, hsize, h⟩ := Lib.Trial.lift_bind_eq_ok h
  replace h := Lib.Trial.modify_bind_eq h
  obtain ⟨vs, _, hread, hlen, h⟩ := fill_bind_eq_ok h
  obtain ⟨-, rfl⟩ := Prod.mk.inj h
  rw [resize_length] at hread hlen
  refine ⟨count, t, vs, hsize, ?_, hlen, ?_⟩
  · simp [storedVector, hsize, hread, bind, Except.bind, pure, Except.pure]
  · refine List.ext_getElem (by simp [hlen]) fun i h₁ h₂ => ?_
    simp

end TortoiseSvn.LogCache
