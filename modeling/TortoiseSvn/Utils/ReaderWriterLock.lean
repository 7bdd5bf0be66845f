import Mathlib.Logic.Function.Basic
import Mathlib.Tactic

/-!
# The reader-writer lock

The state of the lock is guarded by a critical section; what a thread does inside of it is one step.
Threads wait outside of it, writers for an event that lets one of them go on, readers for one that
stays set. The event objects exist only while somebody needs them.

A wait with a time limit may end at any moment. `CReaderWriterLock` knows how often each thread holds
the lock: a number of 32 bits, the reader locks in the lower half and the writer locks in the upper
one.
-/

namespace TortoiseSvn.Utils

/-! ### Events -/

/-- An event object: there is none, or it is set or not. -/
abbrev Event := Option Bool

namespace Event

/-- Nothing happens without an event object. -/
def set (e : Event) : Event := e.map fun _ => true

def reset (e : Event) : Event := e.map fun _ => false

/-- Create the event object if there is none. -/
def create (e : Event) : Event := some (e.getD false)

end Event

/-! ### The lock without reentrance -/

/-- Source: `ReaderWriterLock.h` `CReaderWriterLockNonReentrance` -/
structure CReaderWriterLockNonReentrance where
  /-- The auto-reset event. -/
  safeToWriteEvent : Event := none
  /-- The manual-reset event. -/
  safeToReadEvent : Event := none
  /-- "Total number of writers on this object", including those that wait. -/
  numOfWriter : ℤ := 0
  numOfReaderEntered : ℤ := 0
  numOfReaderWaiting : ℤ := 0
  deriving DecidableEq

namespace CReaderWriterLockNonReentrance

/-- A reader without a wait. Source: `ReaderWriterLock.cpp` `AcquireReaderLock` -/
def readerEnter (l : CReaderWriterLockNonReentrance) : CReaderWriterLockNonReentrance :=
  { l with numOfReaderEntered := l.numOfReaderEntered + 1 }

/-- Source: `ReaderWriterLock.cpp` `_ReaderWait`, up to the first wait -/
def readerWaitBegin (l : CReaderWriterLockNonReentrance) : CReaderWriterLockNonReentrance :=
  { l with
    numOfReaderWaiting := l.numOfReaderWaiting + 1
    safeToReadEvent := l.safeToReadEvent.create }

/-- Source: `ReaderWriterLock.cpp` `_ReaderWait`, behind the loops -/
def readerWaitEnd (l : CReaderWriterLockNonReentrance) : CReaderWriterLockNonReentrance :=
  let l := { l with numOfReaderWaiting := l.numOfReaderWaiting - 1 }
  if l.numOfReaderWaiting = 0 then { l with safeToReadEvent := none } else l

/-- Source: `ReaderWriterLock.cpp` `_ReaderRelease` -/
def readerRelease (l : CReaderWriterLockNonReentrance) : CReaderWriterLockNonReentrance :=
  let l := { l with numOfReaderEntered := l.numOfReaderEntered - 1 }
  if l.numOfReaderEntered = 0 then { l with safeToWriteEvent := l.safeToWriteEvent.set } else l

/-- A writer without a wait. Source: `ReaderWriterLock.cpp` `AcquireWriterLock` -/
def writerEnter (l : CReaderWriterLockNonReentrance) : CReaderWriterLockNonReentrance :=
  { l with numOfWriter := l.numOfWriter + 1 }

/-- Source: `ReaderWriterLock.cpp` `_WriterWaitAndLeaveCSIfSuccess`, up to the wait -/
def writerWaitBegin (l : CReaderWriterLockNonReentrance) : CReaderWriterLockNonReentrance :=
  let l := { l with numOfWriter := l.numOfWriter + 1 }
  let l := if l.numOfWriter = 1 then { l with safeToReadEvent := l.safeToReadEvent.reset } else l
  { l with safeToWriteEvent := l.safeToWriteEvent.create }

/-- "Undo what we changed after timeout"; whether the thread is a writer nevertheless.
Source: `ReaderWriterLock.cpp` `_WriterWaitAndLeaveCSIfSuccess`, behind a wait that failed -/
def writerTimedOut (l : CReaderWriterLockNonReentrance) : CReaderWriterLockNonReentrance × Bool :=
  let l := { l with numOfWriter := l.numOfWriter - 1 }
  if l.numOfWriter = 0 then
    let l := { l with safeToWriteEvent := none }
    if l.numOfReaderEntered = 0 then
      ({ l with numOfWriter := l.numOfWriter + 1 }, true)
    else ({ l with safeToReadEvent := l.safeToReadEvent.set }, false)
  else (l, false)

/-- Source: `ReaderWriterLock.cpp` `_WriterRelease` -/
def writerRelease (l : CReaderWriterLockNonReentrance) (downgrade : Bool) :
    CReaderWriterLockNonReentrance :=
  let l := if downgrade then { l with numOfReaderEntered := l.numOfReaderEntered + 1 } else l
  let l := { l with numOfWriter := l.numOfWriter - 1 }
  if l.numOfWriter = 0 then
    { l with safeToWriteEvent := none, safeToReadEvent := l.safeToReadEvent.set }
  else if downgrade then l
  else { l with safeToWriteEvent := l.safeToWriteEvent.set }

/-- The reader lock is given up for a writer lock.
Source: `ReaderWriterLock.cpp` `_UpgradeToWriterLockAndLeaveCS`, up to the wait -/
def upgradeBegin (l : CReaderWriterLockNonReentrance) : CReaderWriterLockNonReentrance :=
  writerWaitBegin { l with numOfReaderEntered := l.numOfReaderEntered - 1 }

/-- The only reader becomes the writer.
Source: `ReaderWriterLock.cpp` `_UpgradeToWriterLockAndLeaveCS`, behind `_ReaderWait` -/
def upgradeEnd (l : CReaderWriterLockNonReentrance) : CReaderWriterLockNonReentrance × Bool :=
  if l.numOfReaderEntered = 1 then ({ l with numOfReaderEntered := 0, numOfWriter := 1 }, true)
  else (l, false)

/-- One waiting writer goes on, and the event is reset. -/
def takeWriteEvent (l : CReaderWriterLockNonReentrance) : CReaderWriterLockNonReentrance :=
  { l with safeToWriteEvent := l.safeToWriteEvent.reset }

end CReaderWriterLockNonReentrance

/-! ### Threads -/

/-- How long a call may wait: `dwTimeout` is 0, a number or `INFINITE`. -/
inductive Timeout where
  | zero
  | finite
  | infinite
  deriving DecidableEq

/-- Where a thread is. Calls that upgrade a reader lock are told from others. -/
inductive Phase where
  /-- Outside of the lock; the last call returned this. -/
  | outside (result : Bool)
  /-- In `_ReaderWait`, in front of `WaitForSingleObject`. -/
  | readerWait (timeout : Timeout) (upgrade : Bool)
  /-- In `_ReaderWait`, behind `WaitForSingleObject`. -/
  | readerWoken (timeout : Timeout) (upgrade canRead : Bool)
  /-- In `_ReaderWait` with a limit, having found writers when it was woken in time. -/
  | readerChecksTime
  /-- In `_ReaderWait` with a limit, the time being over. -/
  | readerGivesUp
  /-- In `_WriterWaitAndLeaveCSIfSuccess`, in front of `WaitForSingleObject`. -/
  | writerWait (timeout : Timeout) (upgrade : Bool)
  /-- In `_WriterWaitAndLeaveCSIfSuccess`, behind a wait that failed. -/
  | writerTimedOut (upgrade : Bool)
  /-- Writing is safe now, but the caller was not told yet. -/
  | writerGranted (upgrade : Bool)
  deriving DecidableEq

/-- What a waiting reader does inside of the critical section when it was woken; `none` if it goes
on waiting.
Source: `ReaderWriterLock.cpp` `_ReaderWait`, the loops -/
def readerCheck (l : CReaderWriterLockNonReentrance) (timeout : Timeout) (canRead : Bool) :
    Option (CReaderWriterLockNonReentrance × Bool) :=
  if l.numOfWriter = 0 then some (l.readerEnter.readerWaitEnd, true)
  else if timeout = .infinite ∨ canRead then none
  else some (l.readerWaitEnd, false)

/-! ### The lock with reentrance -/

/-- Source: `ReaderWriterLock.cpp` `READER_RECURRENCE_UNIT` -/
def readerRecurrenceUnit : ℕ := 0x00000001

/-- Source: `ReaderWriterLock.cpp` `WRITER_RECURRENCE_UNIT` -/
def writerRecurrenceUnit : ℕ := 0x00010000

/-- A lock, and where the threads are that use it.
Source: `ReaderWriterLock.h` `CReaderWriterLock` -/
structure CReaderWriterLock (T : Type) where
  impl : CReaderWriterLockNonReentrance := {}
  map : T → Option ℕ := fun _ => none
  phase : T → Phase := fun _ => .outside true

namespace CReaderWriterLock

variable {T : Type} [DecidableEq T]

omit [DecidableEq T] in
/-- Source: `ReaderWriterLock.cpp` `GetCurrentThreadStatus` -/
def getCurrentThreadStatus (s : CReaderWriterLock T) (t : T) : ℕ := (s.map t).getD 0

/-- The state of a thread becomes another one. -/
def setMap (s : CReaderWriterLock T) (t : T) (state : Option ℕ) : CReaderWriterLock T :=
  { s with map := Function.update s.map t state }

def setPhase (s : CReaderWriterLock T) (t : T) (phase : Phase) : CReaderWriterLock T :=
  { s with phase := Function.update s.phase t phase }

/-- A sum in a `DWORD`. -/
def addState (state unit : ℕ) : ℕ := (state + unit) % 2 ^ 32

/-- Source: `ReaderWriterLock.cpp` `CReaderWriterLock::AcquireReaderLock` -/
def acquireReaderLock (s : CReaderWriterLock T) (t : T) (timeout : Timeout) : CReaderWriterLock T :=
  match s.map t with
  | some state =>
    -- "Current thread was already a WRITER or READER"
    (s.setMap t (some (addState state readerRecurrenceUnit))).setPhase t (.outside true)
  | none =>
    if s.impl.numOfWriter = 0 then
      { s.setMap t (some readerRecurrenceUnit) with impl := s.impl.readerEnter }.setPhase t
        (.outside true)
    else if timeout = .zero then s.setPhase t (.outside false)
    else { s with impl := s.impl.readerWaitBegin }.setPhase t (.readerWait timeout false)

/-- The thread must have a reader lock.
Source: `ReaderWriterLock.cpp` `CReaderWriterLock::ReleaseReaderLock` -/
def releaseReaderLock (s : CReaderWriterLock T) (t : T) : Option (CReaderWriterLock T) :=
  match s.map t with
  | none => none
  | some state =>
    if state % writerRecurrenceUnit = 0 then none
    else if state - readerRecurrenceUnit = 0 then
      some { s.setMap t none with impl := s.impl.readerRelease }
    else some (s.setMap t (some (state - readerRecurrenceUnit)))

/-- Source: `ReaderWriterLock.cpp` `CReaderWriterLock::AcquireWriterLock` -/
def acquireWriterLock (s : CReaderWriterLock T) (t : T) (timeout : Timeout) : CReaderWriterLock T :=
  match s.map t with
  | some state =>
    if writerRecurrenceUnit ≤ state then
      -- "Current thread was already a WRITER"
      (s.setMap t (some (addState state writerRecurrenceUnit))).setPhase t (.outside true)
    else if s.impl.numOfReaderEntered = 1 then
      -- "This object is owned by ONLY current thread for READ"
      { s.setMap t (some (addState state writerRecurrenceUnit)) with
        impl := { s.impl with numOfReaderEntered := 0, numOfWriter := s.impl.numOfWriter + 1 }
      }.setPhase t (.outside true)
    else if timeout = .zero then s.setPhase t (.outside false)
    else { s with impl := s.impl.upgradeBegin }.setPhase t (.writerWait timeout true)
  | none =>
    if s.impl.numOfWriter = 0 ∧ s.impl.numOfReaderEntered = 0 then
      { s.setMap t (some writerRecurrenceUnit) with impl := s.impl.writerEnter }.setPhase t
        (.outside true)
    else if timeout = .zero then s.setPhase t (.outside false)
    else { s with impl := s.impl.writerWaitBegin }.setPhase t (.writerWait timeout false)

/-- The thread must have a writer lock.
Source: `ReaderWriterLock.cpp` `CReaderWriterLock::ReleaseWriterLock` -/
def releaseWriterLock (s : CReaderWriterLock T) (t : T) : Option (CReaderWriterLock T) :=
  match s.map t with
  | none => none
  | some state =>
    if state < writerRecurrenceUnit then none
    else if state - writerRecurrenceUnit = 0 then
      some { s.setMap t none with impl := s.impl.writerRelease false }
    else if state - writerRecurrenceUnit < writerRecurrenceUnit then
      -- "Down-grading from writer to reader"
      some { s.setMap t (some (state - writerRecurrenceUnit)) with impl := s.impl.writerRelease true }
    else some (s.setMap t (some (state - writerRecurrenceUnit)))

/-- Source: `ReaderWriterLock.cpp` `CReaderWriterLock::ReleaseAllLocks` -/
def releaseAllLocks (s : CReaderWriterLock T) (t : T) : CReaderWriterLock T :=
  match s.map t with
  | none => s
  | some state =>
    if writerRecurrenceUnit ≤ state then
      { s.setMap t none with impl := s.impl.writerRelease false }
    else { s.setMap t none with impl := s.impl.readerRelease }

/-- A reader enters the critical section behind a wait.
Source: `ReaderWriterLock.cpp` `_ReaderWait`, `AcquireReaderLock`, `_UpgradeToWriterLockAndLeaveCS` -/
def readerBack (s : CReaderWriterLock T) (t : T) (upgrade : Bool)
    (r : CReaderWriterLockNonReentrance × Bool) : CReaderWriterLock T :=
  if upgrade then
    if r.1.upgradeEnd.2 then
      { s with impl := r.1.upgradeEnd.1 }.setPhase t (.writerGranted true)
    else { s with impl := r.1.upgradeEnd.1 }.setPhase t (.outside false)
  else if r.2 then
    { s.setMap t (some readerRecurrenceUnit) with impl := r.1 }.setPhase t (.outside true)
  else { s with impl := r.1 }.setPhase t (.outside false)

/-- A writer enters the critical section behind a wait that failed.
Source: `ReaderWriterLock.cpp` `_WriterWaitAndLeaveCSIfSuccess`, `AcquireWriterLock`,
`_UpgradeToWriterLockAndLeaveCS` -/
def writerBack (s : CReaderWriterLock T) (t : T) (upgrade : Bool) : CReaderWriterLock T :=
  let (impl, canWrite) := s.impl.writerTimedOut
  if canWrite then { s with impl := impl }.setPhase t (.writerGranted upgrade)
  else if upgrade then
    if impl.numOfWriter = 0 then
      -- "It's safe to be a reader again after failure"
      { s with impl := impl.readerEnter }.setPhase t (.outside false)
    else { s with impl := impl.readerWaitBegin }.setPhase t (.readerWait .infinite true)
  else { s with impl := impl }.setPhase t (.outside false)

/-- A new writer enters the critical section to be recorded.
Source: `ReaderWriterLock.cpp` `CReaderWriterLock::AcquireWriterLock` -/
def writerRecorded (s : CReaderWriterLock T) (t : T) (upgrade : Bool) : CReaderWriterLock T :=
  let state := if upgrade then addState (s.getCurrentThreadStatus t) writerRecurrenceUnit
    else writerRecurrenceUnit
  (s.setMap t (some state)).setPhase t (.outside true)

/-- The steps of the threads. -/
inductive Action (T : Type) where
  | acquireReaderLock (t : T) (timeout : Timeout)
  | releaseReaderLock (t : T)
  | acquireWriterLock (t : T) (timeout : Timeout)
  | releaseWriterLock (t : T)
  | releaseAllLocks (t : T)
  /-- `WaitForSingleObject` returns, because of the event or not. -/
  | waited (t : T) (signaled : Bool)
  /-- `EnterCS` behind a wait. -/
  | enterCS (t : T)
  /-- The time that was consumed is compared to the limit. -/
  | checksTime (t : T) (expired : Bool)

/-- The thread that makes a step. -/
def Action.thread {T : Type} : Action T → T
  | acquireReaderLock t _ => t
  | releaseReaderLock t => t
  | acquireWriterLock t _ => t
  | releaseWriterLock t => t
  | releaseAllLocks t => t
  | waited t _ => t
  | enterCS t => t
  | checksTime t _ => t

/-- A wait ends because of its event; otherwise because its time is over or because there is no
event. -/
def waitEnds (event : Event) (timeout : Timeout) (signaled : Bool) : Bool :=
  if signaled then event = some true else timeout = .finite ∨ event = none

/-- A thread calls the lock only when it is not in a call. -/
def call (s : CReaderWriterLock T) (t : T) (result : Option (CReaderWriterLock T)) :
    Option (CReaderWriterLock T) :=
  match s.phase t with
  | .outside _ => result
  | _ => none

/-- One step of a thread, if it can make it. -/
def step (s : CReaderWriterLock T) : Action T → Option (CReaderWriterLock T)
  | .acquireReaderLock t timeout => s.call t (some (s.acquireReaderLock t timeout))
  | .releaseReaderLock t => s.call t (s.releaseReaderLock t)
  | .acquireWriterLock t timeout => s.call t (some (s.acquireWriterLock t timeout))
  | .releaseWriterLock t => s.call t (s.releaseWriterLock t)
  | .releaseAllLocks t => s.call t (some (s.releaseAllLocks t))
  | .waited t signaled =>
    match s.phase t with
    | .readerWait timeout upgrade =>
      if waitEnds s.impl.safeToReadEvent timeout signaled then
        some (s.setPhase t (.readerWoken timeout upgrade signaled))
      else none
    | .writerWait timeout upgrade =>
      if waitEnds s.impl.safeToWriteEvent timeout signaled then
        if signaled then
          some ({ s with impl := s.impl.takeWriteEvent }.setPhase t (.writerGranted upgrade))
        else some (s.setPhase t (.writerTimedOut upgrade))
      else none
    | _ => none
  | .enterCS t =>
    match s.phase t with
    | .readerWoken timeout upgrade canRead =>
      match readerCheck s.impl timeout canRead with
      | some r => some (s.readerBack t upgrade r)
      | none =>
        if timeout = .infinite then some (s.setPhase t (.readerWait timeout upgrade))
        else some (s.setPhase t .readerChecksTime)
    | .readerGivesUp => some (s.readerBack t false (s.impl.readerWaitEnd, false))
    | .writerTimedOut upgrade => some (s.writerBack t upgrade)
    | .writerGranted upgrade => some (s.writerRecorded t upgrade)
    | _ => none
  | .checksTime t expired =>
    match s.phase t with
    | .readerChecksTime =>
      if expired then some (s.setPhase t .readerGivesUp)
      else some (s.setPhase t (.readerWait .finite false))
    | _ => none

/-- Some steps, one after the other. -/
def run (s : CReaderWriterLock T) : List (Action T) → Option (CReaderWriterLock T)
  | [] => some s
  | a :: actions => (s.step a).bind fun s' => s'.run actions

end CReaderWriterLock

end TortoiseSvn.Utils
