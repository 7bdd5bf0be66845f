import TortoiseSvn.Lib.Roles
import TortoiseSvn.Lib.SharedLock
import TortoiseSvn.Utils.ReaderWriterLock

/-!
# What the reader-writer lock guarantees

The counters of the lock are the numbers of the threads that write, wait to write, read and wait to
read. From them follows what the events say: a writer is let in only when nobody holds the lock, and
nobody waits for a lock that nobody holds.

Main results: `refines_sharedLock`, whatever the threads do and in whatever order, the lock is one for
readers and writers; `exists_holder`, no wake-up is lost.
-/

namespace TortoiseSvn.Utils

open TortoiseSvn.Lib

/-! ### The counters -/

namespace CReaderWriterLockNonReentrance

/-- The lock is right for so many threads that write, wait to write, read and wait to read. -/
structure Counted (l : CReaderWriterLockNonReentrance) (w ww r rw : ℕ) : Prop where
  writers : l.numOfWriter = w + ww
  readers : l.numOfReaderEntered = r
  waiting : l.numOfReaderWaiting = rw
  exclusive : w = 0 ∨ w = 1 ∧ r = 0
  /-- A writer is let in only when nobody holds the lock. -/
  signaled : l.safeToWriteEvent = some true → w = 0 ∧ r = 0
  closed : w + ww = 0 → l.safeToWriteEvent = none
  created : 0 < ww → l.safeToWriteEvent ≠ none
  /-- No writer waits for a lock that nobody holds. -/
  woken : 0 < ww → w = 0 → r = 0 → l.safeToWriteEvent = some true
  readCreated : l.safeToReadEvent = none ↔ rw = 0
  /-- No reader waits when there is no writer. -/
  readSet : w + ww = 0 → l.safeToReadEvent ≠ some false

variable {l : CReaderWriterLockNonReentrance} {w ww r rw : ℕ}

theorem counted_init : Counted {} 0 0 0 0 := by
  constructor <;> simp

theorem Counted.numOfWriter_eq_zero (h : l.Counted w ww r rw) :
    l.numOfWriter = 0 ↔ w = 0 ∧ ww = 0 := by
  have := h.writers
  omega

theorem Counted.readerEnter (h : l.Counted 0 0 r rw) : l.readerEnter.Counted 0 0 (r + 1) rw where
  writers := h.writers
  readers := by
    have := h.readers
    simp only [CReaderWriterLockNonReentrance.readerEnter]
    omega
  waiting := h.waiting
  exclusive := .inl rfl
  signaled := by
    intro hset
    have hnone : l.safeToWriteEvent = none := h.closed rfl
    exact absurd (hnone.symm.trans hset) (by simp)
  closed := h.closed
  created := h.created
  woken := by
    intro hpos
    exact absurd hpos (Nat.lt_irrefl 0)
  readCreated := h.readCreated
  readSet := h.readSet

theorem Counted.readerWaitBegin (h : l.Counted w ww r rw) (hwriter : w + ww ≠ 0) :
    l.readerWaitBegin.Counted w ww r (rw + 1) where
  writers := h.writers
  readers := h.readers
  waiting := by
    have := h.waiting
    simp only [CReaderWriterLockNonReentrance.readerWaitBegin]
    omega
  exclusive := h.exclusive
  signaled := h.signaled
  closed := h.closed
  created := h.created
  woken := h.woken
  readCreated := by simp [CReaderWriterLockNonReentrance.readerWaitBegin, Event.create]
  readSet := fun h0 => absurd h0 hwriter

theorem Counted.readerWaitEnd (h : l.Counted w ww r (rw + 1)) :
    l.readerWaitEnd.Counted w ww r rw := by
  have hwaiting := h.waiting
  rw [CReaderWriterLockNonReentrance.readerWaitEnd]
  by_cases hlast : rw = 0
  · -- the event object is not needed any more
    rw [if_pos (by simp only; omega)]
    exact ⟨h.writers, h.readers, by simp only; omega, h.exclusive, h.signaled, h.closed, h.created,
      h.woken, iff_of_true rfl hlast, fun _ hset => by simp at hset⟩
  · rw [if_neg (by simp only; omega)]
    have hsome : l.safeToReadEvent ≠ none := fun hnone => by
      have := h.readCreated.mp hnone
      omega
    exact ⟨h.writers, h.readers, by simp only; omega, h.exclusive, h.signaled, h.closed, h.created,
      h.woken, iff_of_false hsome hlast, h.readSet⟩

theorem Counted.readerRelease (h : l.Counted w ww (r + 1) rw) : l.readerRelease.Counted w ww r rw := by
  obtain rfl : w = 0 := by
    have := h.exclusive
    omega
  have hreaders := h.readers
  rw [CReaderWriterLockNonReentrance.readerRelease]
  by_cases hlast : r = 0
  · rw [if_pos (by simp only; omega)]
    refine ⟨h.writers, by simp only; omega, h.waiting, .inl rfl, fun _ => ⟨rfl, hlast⟩, ?_, ?_, ?_,
      h.readCreated, h.readSet⟩
    · intro h0
      simp only [h.closed h0]
      rfl
    · intro hpos
      have hsome := h.created hpos
      simp only [Event.set]
      exact fun hnone => hsome (Option.map_eq_none_iff.mp hnone)
    · intro hpos _ _
      obtain ⟨b, hb⟩ := Option.ne_none_iff_exists'.mp (h.created hpos)
      simp only [hb]
      rfl
  · rw [if_neg (by simp only; omega)]
    refine ⟨h.writers, by simp only; omega, h.waiting, .inl rfl, ?_, h.closed, h.created, ?_,
      h.readCreated, h.readSet⟩
    · intro hset
      exact absurd (h.signaled hset).2 (Nat.succ_ne_zero r)
    · intro _ _ h0
      exact absurd h0 hlast

theorem Counted.writerEnter (h : l.Counted 0 0 0 rw) : l.writerEnter.Counted 1 0 0 rw where
  writers := by
    have := h.writers
    simp only [CReaderWriterLockNonReentrance.writerEnter]
    omega
  readers := h.readers
  waiting := h.waiting
  exclusive := .inr ⟨rfl, rfl⟩
  signaled := by
    intro hset
    have hnone : l.safeToWriteEvent = none := h.closed rfl
    exact absurd (hnone.symm.trans hset) (by simp)
  closed := fun h0 => absurd h0 (by norm_num)
  created := fun hpos => absurd hpos (Nat.lt_irrefl 0)
  woken := fun hpos => absurd hpos (Nat.lt_irrefl 0)
  readCreated := h.readCreated
  readSet := fun h0 => absurd h0 (by norm_num)

theorem Counted.writerWaitBegin (h : l.Counted w ww r rw) (hbusy : ¬ (w = 0 ∧ ww = 0 ∧ r = 0)) :
    l.writerWaitBegin.Counted w (ww + 1) r rw := by
  have hwriters := h.writers
  have hread : ∀ e : Event, (e = l.safeToReadEvent ∨ e = l.safeToReadEvent.reset) →
      (e = none ↔ rw = 0) := by
    rintro e (rfl | rfl)
    · exact h.readCreated
    · exact Option.map_eq_none_iff.trans h.readCreated
  have hwrite : l.safeToWriteEvent.create = some true ↔ l.safeToWriteEvent = some true := by
    rcases l.safeToWriteEvent with _ | _ | _ <;> simp [Event.create]
  have hwoken : w = 0 → r = 0 → l.safeToWriteEvent = some true := by
    intro h0 hr
    exact h.woken (by omega) h0 hr
  rw [CReaderWriterLockNonReentrance.writerWaitBegin]
  split
  · exact ⟨by simp only; push_cast; omega, h.readers, h.waiting, h.exclusive,
      fun hset => h.signaled (hwrite.mp hset), fun h0 => by omega, fun _ => by simp [Event.create],
      fun _ h0 hr => hwrite.mpr (hwoken h0 hr), hread _ (.inr rfl), fun h0 => by omega⟩
  · exact ⟨by simp only; push_cast; omega, h.readers, h.waiting, h.exclusive,
      fun hset => h.signaled (hwrite.mp hset), fun h0 => by omega, fun _ => by simp [Event.create],
      fun _ h0 hr => hwrite.mpr (hwoken h0 hr), hread _ (.inl rfl), fun h0 => by omega⟩

/-- A reader that is not the only one waits to become a writer. -/
theorem Counted.upgradeBegin (h : l.Counted w ww (r + 1) rw) (hr : r ≠ 0) :
    l.upgradeBegin.Counted w (ww + 1) r rw := by
  have hreaders := h.readers
  have hexclusive := h.exclusive
  refine Counted.writerWaitBegin (w := w) (r := r) ⟨h.writers, by simp only; omega, h.waiting,
    by omega, fun hset => ?_, h.closed, h.created, fun _ _ h0 => absurd h0 hr, h.readCreated,
    h.readSet⟩ fun h0 => hr h0.2.2
  exact absurd (h.signaled hset).2 (Nat.succ_ne_zero r)

/-- The event lets one writer in. -/
theorem Counted.takeWriteEvent (h : l.Counted w (ww + 1) r rw) (hset : l.safeToWriteEvent = some true) :
    l.takeWriteEvent.Counted (w + 1) ww r rw := by
  obtain ⟨rfl, rfl⟩ := h.signaled hset
  have hwriters := h.writers
  have hevent : l.takeWriteEvent.safeToWriteEvent = some false := by
    simp [CReaderWriterLockNonReentrance.takeWriteEvent, hset, Event.reset]
  refine ⟨?_, h.readers, h.waiting, .inr ⟨rfl, rfl⟩, ?_, ?_, ?_, ?_, h.readCreated, ?_⟩
  · simp only [CReaderWriterLockNonReentrance.takeWriteEvent]
    push_cast at hwriters ⊢
    omega
  · rw [hevent]
    exact fun hne => absurd hne (by simp)
  · exact fun h0 => by omega
  · rw [hevent]
    exact fun _ => by simp
  · exact fun _ h0 => by omega
  · exact fun h0 => by omega

/-- A writer whose time is over is let in when it was the last one and nobody reads. -/
theorem Counted.writerTimedOut (h : l.Counted w (ww + 1) r rw) :
    (l.writerTimedOut.2 = true ∧ w = 0 ∧ ww = 0 ∧ r = 0 ∧ l.writerTimedOut.1.Counted 1 0 0 rw) ∨
      (l.writerTimedOut.2 = false ∧ l.writerTimedOut.1.Counted w ww r rw ∧
        (w = 0 ∧ ww = 0 → r ≠ 0)) := by
  have hwriters := h.writers
  have hreaders := h.readers
  push_cast at hwriters
  rw [CReaderWriterLockNonReentrance.writerTimedOut]
  by_cases hlast : w + ww = 0
  · obtain ⟨rfl, rfl⟩ : w = 0 ∧ ww = 0 := by omega
    rw [if_pos (by simp only; omega)]
    by_cases hfree : r = 0
    · subst hfree
      rw [if_pos (by simp only; omega)]
      refine .inl ⟨rfl, rfl, rfl, rfl, by simp only; omega, h.readers, h.waiting, .inr ⟨rfl, rfl⟩, ?_,
        fun h0 => absurd h0 (by norm_num), fun hpos => absurd hpos (Nat.lt_irrefl 0),
        fun hpos => absurd hpos (Nat.lt_irrefl 0), h.readCreated, fun h0 => absurd h0 (by norm_num)⟩
      exact fun hset => absurd hset (by simp)
    · rw [if_neg (by simp only; omega)]
      refine .inr ⟨rfl, ⟨by simp only; omega, h.readers, h.waiting, .inl rfl, ?_, fun _ => rfl,
        fun hpos => absurd hpos (Nat.lt_irrefl 0), fun hpos => absurd hpos (Nat.lt_irrefl 0),
        Option.map_eq_none_iff.trans h.readCreated, ?_⟩, fun _ => hfree⟩
      · exact fun hset => absurd hset (by simp)
      · intro _ hset
        rcases hevent : l.safeToReadEvent with _ | b <;> simp [Event.set, hevent] at hset
  · rw [if_neg (by simp only; omega)]
    refine .inr ⟨rfl, ⟨by simp only; omega, h.readers, h.waiting, h.exclusive, h.signaled,
      fun h0 => absurd h0 hlast, fun _ => h.created (Nat.succ_pos ww),
      fun _ => h.woken (Nat.succ_pos ww), h.readCreated, fun h0 => absurd h0 hlast⟩, by omega⟩

/-- The only reader goes on as the writer. -/
theorem Counted.becomeWriter (h : l.Counted w ww 1 rw) :
    Counted { l with numOfReaderEntered := 0, numOfWriter := l.numOfWriter + 1 } 1 ww 0 rw := by
  obtain rfl : w = 0 := by
    have := h.exclusive
    omega
  have hwriters := h.writers
  refine ⟨by simp only; omega, rfl, h.waiting, .inr ⟨rfl, rfl⟩, ?_, fun h0 => by omega, h.created,
    fun _ h0 => absurd h0 one_ne_zero, h.readCreated, fun h0 => by omega⟩
  exact fun hset => absurd (h.signaled hset).2 one_ne_zero

theorem Counted.upgradeEnd (h : l.Counted 0 0 (r + 1) rw) :
    (l.upgradeEnd.2 = true ∧ r = 0 ∧ l.upgradeEnd.1.Counted 1 0 0 rw) ∨
      (l.upgradeEnd.2 = false ∧ l.upgradeEnd.1.Counted 0 0 (r + 1) rw) := by
  have hwriters := h.writers
  have hreaders := h.readers
  rw [CReaderWriterLockNonReentrance.upgradeEnd]
  by_cases honly : r = 0
  · subst honly
    rw [if_pos (by omega)]
    have hcounted := h.becomeWriter
    rw [show l.numOfWriter = 0 by omega, zero_add] at hcounted
    exact .inl ⟨rfl, rfl, hcounted⟩
  · rw [if_neg (by omega)]
    exact .inr ⟨rfl, h⟩

theorem Counted.writerRelease_false (h : l.Counted (w + 1) ww r rw) :
    (l.writerRelease false).Counted w ww r rw := by
  obtain ⟨rfl, rfl⟩ : w = 0 ∧ r = 0 := by
    have := h.exclusive
    omega
  have hwriters := h.writers
  push_cast at hwriters
  rw [CReaderWriterLockNonReentrance.writerRelease]
  simp only [Bool.false_eq_true, if_false]
  by_cases hlast : ww = 0
  · subst hlast
    rw [if_pos (by omega)]
    refine ⟨by simp only; omega, h.readers, h.waiting, .inl rfl, fun hset => absurd hset (by simp),
      fun _ => rfl, fun hpos => absurd hpos (Nat.lt_irrefl 0),
      fun hpos => absurd hpos (Nat.lt_irrefl 0), Option.map_eq_none_iff.trans h.readCreated, ?_⟩
    intro _ hset
    rcases hevent : l.safeToReadEvent with _ | b <;> simp [Event.set, hevent] at hset
  · rw [if_neg (by omega)]
    obtain ⟨b, hb⟩ := Option.ne_none_iff_exists'.mp (h.created (Nat.pos_of_ne_zero hlast))
    refine ⟨by simp only; omega, h.readers, h.waiting, .inl rfl, fun _ => ⟨rfl, rfl⟩,
      fun h0 => by omega, ?_, ?_, h.readCreated, fun h0 => by omega⟩
    · exact fun _ => by simp [Event.set, hb]
    · exact fun _ _ _ => by simp [Event.set, hb]

theorem Counted.writerRelease_true (h : l.Counted (w + 1) ww r rw) :
    (l.writerRelease true).Counted w ww (r + 1) rw := by
  obtain ⟨rfl, rfl⟩ : w = 0 ∧ r = 0 := by
    have := h.exclusive
    omega
  have hwriters := h.writers
  have hreaders := h.readers
  push_cast at hwriters
  rw [CReaderWriterLockNonReentrance.writerRelease]
  simp only [if_true]
  by_cases hlast : ww = 0
  · subst hlast
    rw [if_pos (by omega)]
    refine ⟨by simp only; omega, by simp only; omega, h.waiting, .inl rfl,
      fun hset => absurd hset (by simp), fun _ => rfl, fun hpos => absurd hpos (Nat.lt_irrefl 0),
      fun hpos => absurd hpos (Nat.lt_irrefl 0), Option.map_eq_none_iff.trans h.readCreated, ?_⟩
    intro _ hset
    rcases hevent : l.safeToReadEvent with _ | b <;> simp [Event.set, hevent] at hset
  · rw [if_neg (by omega)]
    refine ⟨by simp only; omega, by simp only; omega, h.waiting, .inl rfl, ?_, fun h0 => by omega,
      h.created, fun _ _ h0 => absurd h0 (Nat.succ_ne_zero _), h.readCreated, fun h0 => by omega⟩
    exact fun hset => absurd (h.signaled hset).1 (Nat.succ_ne_zero 0)

end CReaderWriterLockNonReentrance

/-! ### The threads -/

/-- What a thread is to the lock. -/
inductive Role where
  | none
  | reader
  | writer
  | readerWaiting
  | writerWaiting
  deriving DecidableEq

/-- The thread has let go of its reader locks to get a writer lock. -/
def Phase.suspended : Phase → Bool
  | .readerWait _ upgrade | .readerWoken _ upgrade _ => upgrade
  | .writerWait _ upgrade | .writerTimedOut upgrade => upgrade
  | _ => false

/-- The thread writes already, which is not recorded yet. -/
def Phase.granted : Phase → Bool
  | .writerGranted _ => true
  | _ => false

/-- Whether the call that the thread is in upgrades a reader lock. -/
def Phase.upgrade : Phase → Option Bool
  | .outside _ => none
  | .readerWait _ upgrade | .readerWoken _ upgrade _ => some upgrade
  | .writerWait _ upgrade | .writerTimedOut upgrade | .writerGranted upgrade => some upgrade
  | .readerChecksTime | .readerGivesUp => some false

namespace CReaderWriterLock

open SharedLock CReaderWriterLockNonReentrance

def roleOf (state : Option ℕ) : Phase → Role
  | .outside _ =>
    match state with
    | none => .none
    | some n => if writerRecurrenceUnit ≤ n then .writer else .reader
  | .readerWait _ _ | .readerWoken _ _ _ | .readerChecksTime | .readerGivesUp => .readerWaiting
  | .writerWait _ _ | .writerTimedOut _ => .writerWaiting
  | .writerGranted _ => .writer

/-- What a thread holds: its reader locks are counted in the lower half of its state, its writer locks
in the upper one. -/
def holdOf (state : Option ℕ) (phase : Phase) : Hold where
  reads := state.getD 0 % writerRecurrenceUnit
  writes := state.getD 0 / writerRecurrenceUnit + if phase.granted then 1 else 0
  suspended := phase.suspended

/-- The state of a thread goes with what it is doing. -/
structure Fits (state : Option ℕ) (phase : Phase) : Prop where
  pos : ∀ n, state = some n → 0 < n ∧ n < 2 ^ 32
  plain : phase.upgrade = some false → state = none
  upgrade : phase.upgrade = some true → ∃ n, state = some n ∧ n < writerRecurrenceUnit
  /-- A thread that wants its reader locks back waits as long as it takes. -/
  wait : ∀ timeout, phase = .readerWait timeout true → timeout = .infinite
  woken : ∀ timeout canRead, phase = .readerWoken timeout true canRead → timeout = .infinite

theorem fits_outside {state : Option ℕ} (h : ∀ n, state = some n → 0 < n ∧ n < 2 ^ 32) (result : Bool) :
    Fits state (.outside result) :=
  ⟨h, by simp [Phase.upgrade], by simp [Phase.upgrade], by simp, by simp⟩

theorem fits_some {n : ℕ} (h : 0 < n) (hlt : n < 2 ^ 32) (result : Bool) :
    Fits (some n) (.outside result) :=
  fits_outside (fun m hm => by obtain rfl := Option.some.inj hm; exact ⟨h, hlt⟩) result

section Roles

variable {state : Option ℕ} {phase : Phase}

/-- The threads that write. -/
theorem Fits.writes_iff (h : Fits state phase) :
    (holdOf state phase).Writes ↔ roleOf state phase = .writer := by
  have hunit : writerRecurrenceUnit = 65536 := rfl
  have hcall : ∀ u, phase.upgrade = some u → phase.granted = false →
      ¬ (holdOf state phase).Writes := by
    intro u hu hgranted
    cases u with
    | false => simp [holdOf, Hold.Writes, h.plain hu, hgranted]
    | true =>
      obtain ⟨n, rfl, hn⟩ := h.upgrade hu
      simp [holdOf, Hold.Writes, hgranted, Nat.div_eq_of_lt hn]
  cases phase with
  | outside result =>
    rcases state with _ | n
    · simp [holdOf, Hold.Writes, roleOf, Phase.granted]
    · simp only [holdOf, Hold.Writes, roleOf, Phase.granted, Option.getD_some]
      by_cases hn : writerRecurrenceUnit ≤ n
      · simp only [if_pos hn]
        have := Nat.div_pos hn (by rw [hunit]; norm_num)
        simpa using this
      · simp only [if_neg hn, Nat.div_eq_of_lt (not_le.mp hn)]
        simp
  | writerGranted upgrade => simp [holdOf, Hold.Writes, roleOf, Phase.granted]
  | readerWait timeout upgrade => exact iff_of_false (hcall upgrade rfl rfl) (by simp [roleOf])
  | readerWoken timeout upgrade canRead => exact iff_of_false (hcall upgrade rfl rfl) (by simp [roleOf])
  | readerChecksTime => exact iff_of_false (hcall false rfl rfl) (by simp [roleOf])
  | readerGivesUp => exact iff_of_false (hcall false rfl rfl) (by simp [roleOf])
  | writerWait timeout upgrade => exact iff_of_false (hcall upgrade rfl rfl) (by simp [roleOf])
  | writerTimedOut upgrade => exact iff_of_false (hcall upgrade rfl rfl) (by simp [roleOf])

/-- The threads that keep others out. -/
theorem Fits.free_iff (h : Fits state phase) :
    (holdOf state phase).Free ↔ roleOf state phase ≠ .writer ∧ roleOf state phase ≠ .reader := by
  rw [Hold.Free, h.writes_iff]
  refine and_congr_right fun hwriter => not_congr ?_
  have hcall : ∀ u, phase.upgrade = some u → phase.suspended = u → ¬ (holdOf state phase).Reads := by
    rintro u hu hsuspended ⟨hreads, hactive⟩
    cases u with
    | false => simp [holdOf, h.plain hu] at hreads
    | true =>
      simp only [holdOf] at hactive
      rw [hsuspended] at hactive
      exact absurd hactive (by decide)
  cases phase with
  | outside result =>
    rcases state with _ | n
    · simp [holdOf, Hold.Reads, roleOf]
    · have hn := (h.pos n rfl).1
      by_cases hle : writerRecurrenceUnit ≤ n
      · exact absurd (by simp only [roleOf, if_pos hle]) hwriter
      · simp only [holdOf, Hold.Reads, roleOf, Phase.suspended, Option.getD_some, if_neg hle,
          Nat.mod_eq_of_lt (not_le.mp hle), and_true, iff_true]
        exact hn
  | writerGranted upgrade => exact absurd rfl hwriter
  | readerWait timeout upgrade => exact iff_of_false (hcall upgrade rfl rfl) (by simp [roleOf])
  | readerWoken timeout upgrade canRead => exact iff_of_false (hcall upgrade rfl rfl) (by simp [roleOf])
  | readerChecksTime => exact iff_of_false (hcall false rfl rfl) (by simp [roleOf])
  | readerGivesUp => exact iff_of_false (hcall false rfl rfl) (by simp [roleOf])
  | writerWait timeout upgrade => exact iff_of_false (hcall upgrade rfl rfl) (by simp [roleOf])
  | writerTimedOut upgrade => exact iff_of_false (hcall upgrade rfl rfl) (by simp [roleOf])

end Roles

/-! ### Consistent states -/

variable {T : Type} [DecidableEq T]

omit [DecidableEq T] in
/-- What a thread is. -/
def role (s : CReaderWriterLock T) (t : T) : Role := roleOf (s.map t) (s.phase t)

/-- What a thread holds. -/
def hold (s : CReaderWriterLock T) (t : T) : Hold := holdOf (s.map t) (s.phase t)

/-- One thread has made a step. -/
def put (s : CReaderWriterLock T) (t : T) (impl : CReaderWriterLockNonReentrance) (state : Option ℕ)
    (phase : Phase) : CReaderWriterLock T :=
  ⟨impl, Function.update s.map t state, Function.update s.phase t phase⟩

section Put

variable (s : CReaderWriterLock T) (t : T) (impl : CReaderWriterLockNonReentrance) (state : Option ℕ)
  (phase : Phase)

theorem setPhase_eq_put :
    ({ s with impl := impl } : CReaderWriterLock T).setPhase t phase = s.put t impl (s.map t) phase := by
  rw [put, Function.update_eq_self]
  rfl

theorem setMap_eq_put :
    { s.setMap t state with impl := impl } = s.put t impl state (s.phase t) := by
  rw [put, Function.update_eq_self]
  rfl

theorem setMap_setPhase_eq_put :
    ({ s.setMap t state with impl := impl } : CReaderWriterLock T).setPhase t phase =
      s.put t impl state phase := rfl

theorem hold_put : (s.put t impl state phase).hold = Function.update s.hold t (holdOf state phase) := by
  funext u
  by_cases hu : u = t
  · subst hu
    simp [hold, put]
  · simp [hold, put, Function.update_of_ne hu]

theorem role_put (u : T) :
    (s.put t impl state phase).role u = if u = t then roleOf state phase else s.role u := by
  by_cases hu : u = t
  · subst hu
    simp [role, put]
  · simp [role, put, hu]

end Put

/-- The counters, one thread being of this kind and so many others of each. -/
def With (l : CReaderWriterLockNonReentrance) (ρ : Role) (w ww r rw : ℕ) : Prop :=
  match ρ with
  | .none => l.Counted w ww r rw
  | .reader => l.Counted w ww (r + 1) rw
  | .writer => l.Counted (w + 1) ww r rw
  | .readerWaiting => l.Counted w ww r (rw + 1)
  | .writerWaiting => l.Counted w (ww + 1) r rw

variable [Fintype T]

/-- The counters are right, and every thread is where its state says. -/
structure Consistent (s : CReaderWriterLock T) : Prop where
  counted : s.impl.Counted (numberIn s.role .writer) (numberIn s.role .writerWaiting)
    (numberIn s.role .reader) (numberIn s.role .readerWaiting)
  fits : ∀ t, Fits (s.map t) (s.phase t)

/-- A consistent state as one thread sees it. -/
structure View (s : CReaderWriterLock T) (t : T) (w ww r rw : ℕ) : Prop where
  counted : With s.impl (s.role t) w ww r rw
  fits : Fits (s.map t) (s.phase t)
  noWriter : w = 0 → ∀ u, u ≠ t → ¬ (s.hold u).Writes
  free : w = 0 → r = 0 → ∀ u, u ≠ t → (s.hold u).Free
  /-- What this thread does is all right if the counters say so. -/
  put : ∀ impl state phase, Fits state phase → With impl (roleOf state phase) w ww r rw →
    Consistent (s.put t impl state phase)

omit [DecidableEq T] in
theorem consistent_init : Consistent ({} : CReaderWriterLock T) := by
  have hnone : ∀ ρ, ρ ≠ Role.none → numberIn ({} : CReaderWriterLock T).role ρ = 0 := by
    intro ρ hρ
    rw [← Nat.le_zero, ← not_lt, numberIn_pos_iff]
    rintro ⟨t, ht⟩
    exact hρ ht.symm
  refine ⟨?_, fun t => fits_outside (fun n hn => by simp at hn) true⟩
  rw [hnone _ (by decide), hnone _ (by decide), hnone _ (by decide), hnone _ (by decide)]
  exact counted_init

theorem with_iff (l : CReaderWriterLockNonReentrance) (t : T) (role : T → Role) :
    With l (role t) (othersIn t role .writer) (othersIn t role .writerWaiting)
      (othersIn t role .reader) (othersIn t role .readerWaiting) ↔
    l.Counted (numberIn role .writer) (numberIn role .writerWaiting) (numberIn role .reader)
      (numberIn role .readerWaiting) := by
  rw [numberIn_eq t role .writer, numberIn_eq t role .writerWaiting, numberIn_eq t role .reader,
    numberIn_eq t role .readerWaiting]
  cases role t <;> exact Iff.rfl

theorem Consistent.view {s : CReaderWriterLock T} (h : Consistent s) (t : T) :
    View s t (othersIn t s.role .writer) (othersIn t s.role .writerWaiting)
      (othersIn t s.role .reader) (othersIn t s.role .readerWaiting) where
  counted := (with_iff s.impl t s.role).mpr h.counted
  fits := h.fits t
  noWriter := by
    intro h0 u hu hwrites
    exact othersIn_eq_zero_iff.mp h0 u hu ((h.fits u).writes_iff.mp hwrites)
  free := by
    intro hw hr u hu
    exact (h.fits u).free_iff.mpr
      ⟨othersIn_eq_zero_iff.mp hw u hu, othersIn_eq_zero_iff.mp hr u hu⟩
  put := by
    intro impl state phase hfits hcounted
    have hothers : ∀ u, u ≠ t → (s.put t impl state phase).role u = s.role u := by
      intro u hu
      rw [role_put, if_neg hu]
    have hself : (s.put t impl state phase).role t = roleOf state phase := by
      rw [role_put, if_pos rfl]
    refine ⟨(with_iff impl t (s.put t impl state phase).role).mp ?_, fun u => ?_⟩
    · rw [othersIn_congr hothers, othersIn_congr hothers, othersIn_congr hothers,
        othersIn_congr hothers, hself]
      exact hcounted
    · by_cases hu : u = t
      · subst hu
        simpa [CReaderWriterLock.put] using hfits
      · simpa [CReaderWriterLock.put, Function.update_of_ne hu] using h.fits u

/-! ### What a step does -/

/-- A step keeps the state consistent, and it is one of a lock for readers and writers or changes
nothing for anybody. -/
structure Spec (s s' : CReaderWriterLock T) : Prop where
  consistent : Consistent s'
  refines : SharedLock.Step s.hold s'.hold ∨ s'.hold = s.hold

section Kinds

variable {s : CReaderWriterLock T} {t : T} {w ww r rw : ℕ} {impl : CReaderWriterLockNonReentrance}
  {state : Option ℕ} {phase : Phase}

theorem View.same (v : View s t w ww r rw) (hfits : Fits state phase)
    (hcounted : With impl (roleOf state phase) w ww r rw) (hhold : holdOf state phase = s.hold t) :
    Spec s (s.put t impl state phase) := by
  refine ⟨v.put impl state phase hfits hcounted, .inr ?_⟩
  rw [hold_put, hhold, Function.update_eq_self]

theorem View.leave (v : View s t w ww r rw) (hfits : Fits state phase)
    (hcounted : With impl (roleOf state phase) w ww r rw)
    (hbelow : (holdOf state phase).Below (s.hold t)) : Spec s (s.put t impl state phase) := by
  refine ⟨v.put impl state phase hfits hcounted, .inl ?_⟩
  rw [hold_put]
  exact .leave t _ hbelow

theorem View.read (v : View s t w ww r rw) (hfits : Fits state phase)
    (hcounted : With impl (roleOf state phase) w ww r rw) (hactive : (s.hold t).suspended = false)
    (hallowed : (s.hold t).Writes ∨ (s.hold t).Reads ∨ w = 0)
    (hhold : holdOf state phase = { s.hold t with reads := (s.hold t).reads + 1 }) :
    Spec s (s.put t impl state phase) := by
  refine ⟨v.put impl state phase hfits hcounted, .inl ?_⟩
  rw [hold_put, hhold]
  exact .read t hactive (hallowed.imp_right fun h => h.imp_right v.noWriter)

theorem View.write (v : View s t w ww r rw) (hfits : Fits state phase)
    (hcounted : With impl (roleOf state phase) w ww r rw) (hw : w = 0) (hr : r = 0)
    (hhold : holdOf state phase =
      { s.hold t with writes := (s.hold t).writes + 1, suspended := false }) :
    Spec s (s.put t impl state phase) := by
  refine ⟨v.put impl state phase hfits hcounted, .inl ?_⟩
  rw [hold_put, hhold]
  exact .write t (v.free hw hr)

theorem View.resume (v : View s t w ww r rw) (hfits : Fits state phase)
    (hcounted : With impl (roleOf state phase) w ww r rw) (hw : w = 0)
    (hhold : holdOf state phase = { s.hold t with suspended := false }) :
    Spec s (s.put t impl state phase) := by
  refine ⟨v.put impl state phase hfits hcounted, .inl ?_⟩
  rw [hold_put, hhold]
  exact .resume t (v.noWriter hw)

end Kinds

/-! ### States of a thread -/

section Arithmetic

variable {n : ℕ}

@[simp] theorem holdOf_outside (state : Option ℕ) (result : Bool) :
    holdOf state (.outside result) =
      ⟨state.getD 0 % writerRecurrenceUnit, state.getD 0 / writerRecurrenceUnit, false⟩ := rfl

theorem roleOf_some_of_le (h : writerRecurrenceUnit ≤ n) (result : Bool) :
    roleOf (some n) (.outside result) = .writer := if_pos h

theorem roleOf_some_of_lt (h : n < writerRecurrenceUnit) (result : Bool) :
    roleOf (some n) (.outside result) = .reader := if_neg (not_le.mpr h)

/-- One more reader lock, there being less than 65535. -/
theorem add_reader (hlt : n < 2 ^ 32) (h : n % writerRecurrenceUnit + 1 < writerRecurrenceUnit) :
    addState n readerRecurrenceUnit = n + 1 ∧
      (n + 1) % writerRecurrenceUnit = n % writerRecurrenceUnit + 1 ∧
      (n + 1) / writerRecurrenceUnit = n / writerRecurrenceUnit ∧ n + 1 < 2 ^ 32 := by
  unfold addState readerRecurrenceUnit writerRecurrenceUnit at *
  omega

/-- One reader lock less. -/
theorem sub_reader (h : n % writerRecurrenceUnit ≠ 0) :
    (n - readerRecurrenceUnit) % writerRecurrenceUnit ≤ n % writerRecurrenceUnit ∧
      (n - readerRecurrenceUnit) / writerRecurrenceUnit ≤ n / writerRecurrenceUnit ∧
      (writerRecurrenceUnit ≤ n → writerRecurrenceUnit ≤ n - readerRecurrenceUnit) := by
  unfold readerRecurrenceUnit writerRecurrenceUnit at *
  omega

/-- One more writer lock, there being less than 65535. -/
theorem add_writer (h : n / writerRecurrenceUnit + 1 < writerRecurrenceUnit) :
    addState n writerRecurrenceUnit = n + writerRecurrenceUnit ∧
      (n + writerRecurrenceUnit) % writerRecurrenceUnit = n % writerRecurrenceUnit ∧
      (n + writerRecurrenceUnit) / writerRecurrenceUnit = n / writerRecurrenceUnit + 1 ∧
      n + writerRecurrenceUnit < 2 ^ 32 := by
  unfold addState writerRecurrenceUnit at *
  omega

/-- One writer lock less. -/
theorem sub_writer (h : writerRecurrenceUnit ≤ n) :
    (n - writerRecurrenceUnit) % writerRecurrenceUnit = n % writerRecurrenceUnit ∧
      (n - writerRecurrenceUnit) / writerRecurrenceUnit ≤ n / writerRecurrenceUnit := by
  unfold writerRecurrenceUnit at *
  omega

end Arithmetic

/-! ### The calls -/

variable {s : CReaderWriterLock T} {t : T}

theorem acquireReaderLock_spec (h : Consistent s) {result : Bool} (hphase : s.phase t = .outside result)
    (timeout : Timeout) (hshallow : s.getCurrentThreadStatus t % writerRecurrenceUnit + 1 <
      writerRecurrenceUnit) : Spec s (s.acquireReaderLock t timeout) := by
  have v := h.view t
  have hcounted := v.counted
  have hhold : s.hold t = holdOf (s.map t) (.outside result) := by rw [hold, hphase]
  rw [role, hphase] at hcounted
  rw [getCurrentThreadStatus] at hshallow
  rw [acquireReaderLock]
  cases hmap : s.map t with
  | some n =>
    rw [hmap] at hcounted hhold
    rw [hmap, Option.getD_some] at hshallow
    obtain ⟨hpos, hlt⟩ := v.fits.pos n hmap
    obtain ⟨hadd, hmod, hdiv, hlt'⟩ := add_reader hlt hshallow
    show Spec s (s.put t s.impl (some (addState n readerRecurrenceUnit)) (.outside true))
    rw [hadd]
    have hrole : roleOf (some (n + 1)) (.outside true) = roleOf (some n) (.outside result) := by
      by_cases hn : writerRecurrenceUnit ≤ n
      · rw [roleOf_some_of_le hn, roleOf_some_of_le (by omega)]
      · rw [Nat.mod_eq_of_lt (not_le.mp hn)] at hshallow
        rw [roleOf_some_of_lt (not_le.mp hn), roleOf_some_of_lt hshallow]
    refine v.read (fits_some (Nat.succ_pos n) hlt' true) (hrole ▸ hcounted) (by rw [hhold]; rfl) ?_ ?_
    · -- the thread holds the lock already
      rw [hhold]
      by_cases hreads : n % writerRecurrenceUnit = 0
      · refine .inl (Nat.div_pos (show writerRecurrenceUnit ≤ n from ?_) (by decide))
        by_contra hn
        rw [Nat.mod_eq_of_lt (not_le.mp hn)] at hreads
        exact absurd hpos (by rw [hreads]; exact Nat.lt_irrefl 0)
      · exact .inr (.inl ⟨Nat.pos_of_ne_zero hreads, rfl⟩)
    · rw [hhold]
      simp only [holdOf_outside, Option.getD_some, hmod, hdiv]
  | none =>
    rw [hmap] at hcounted hhold
    by_cases hwriter : s.impl.numOfWriter = 0
    · obtain ⟨hw, hww⟩ := Counted.numOfWriter_eq_zero hcounted |>.mp hwriter
      simp only [if_pos hwriter]
      show Spec s (s.put t s.impl.readerEnter (some readerRecurrenceUnit) (.outside true))
      refine v.read (fits_some (by decide) (by decide) true) ?_ (by rw [hhold]; rfl)
        (.inr (.inr hw)) (by rw [hhold]; rfl)
      rw [hw, hww] at hcounted ⊢
      exact hcounted.readerEnter
    · simp only [if_neg hwriter]
      split
      · rw [setPhase_eq_put s t s.impl, hmap]
        exact v.same (fits_outside (by simp) false) hcounted (by rw [hhold]; rfl)
      · rw [setPhase_eq_put, hmap]
        refine v.same ⟨by simp, fun _ => rfl, by simp [Phase.upgrade], by simp, by simp⟩ ?_
          (by rw [hhold]; rfl)
        refine Counted.readerWaitBegin hcounted fun h0 => hwriter ?_
        exact (Counted.numOfWriter_eq_zero hcounted).mpr (by omega)

theorem releaseReaderLock_spec (h : Consistent s) {result : Bool} (hphase : s.phase t = .outside result)
    {s' : CReaderWriterLock T} (hrun : s.releaseReaderLock t = some s') : Spec s s' := by
  have v := h.view t
  have hcounted := v.counted
  have hhold : s.hold t = holdOf (s.map t) (.outside result) := by rw [hold, hphase]
  rw [role, hphase] at hcounted
  rw [releaseReaderLock] at hrun
  cases hmap : s.map t with
  | none => simp [hmap] at hrun
  | some n =>
    rw [hmap] at hcounted hhold
    obtain ⟨hpos, hlt⟩ := v.fits.pos n hmap
    simp only [hmap] at hrun
    by_cases hreads : n % writerRecurrenceUnit = 0
    · simp [hreads] at hrun
    rw [if_neg hreads] at hrun
    obtain ⟨hmod, hdiv, hwriter⟩ := sub_reader hreads
    have hone : readerRecurrenceUnit = 1 := rfl
    by_cases hlast : n - readerRecurrenceUnit = 0
    · obtain rfl : n = 1 := by omega
      rw [if_pos hlast, setMap_eq_put, hphase] at hrun
      obtain rfl := Option.some.inj hrun
      refine v.leave (fits_outside (by simp) result) ?_ ⟨Nat.zero_le _, Nat.zero_le _, ?_⟩
      · exact Counted.readerRelease hcounted
      · rw [hhold]
        exact fun hs => absurd hs (by simp)
    · rw [if_neg hlast, show s.setMap t (some (n - readerRecurrenceUnit)) =
        { s.setMap t (some (n - readerRecurrenceUnit)) with impl := s.impl } from rfl,
        setMap_eq_put, hphase] at hrun
      obtain rfl := Option.some.inj hrun
      have hrole : roleOf (some (n - readerRecurrenceUnit)) (.outside result) =
          roleOf (some n) (.outside result) := by
        by_cases hn : writerRecurrenceUnit ≤ n
        · rw [roleOf_some_of_le hn, roleOf_some_of_le (hwriter hn)]
        · rw [roleOf_some_of_lt (not_le.mp hn), roleOf_some_of_lt (by omega)]
      refine v.leave (fits_some (by omega) (by omega) result) (hrole ▸ hcounted) ⟨?_, ?_, ?_⟩
      · rw [hhold]
        exact hdiv
      · rw [hhold]
        exact hmod
      · rw [hhold]
        exact fun hs => absurd hs (by simp)

theorem acquireWriterLock_spec (h : Consistent s) {result : Bool} (hphase : s.phase t = .outside result)
    (timeout : Timeout) (hshallow : s.getCurrentThreadStatus t / writerRecurrenceUnit + 1 <
      writerRecurrenceUnit) : Spec s (s.acquireWriterLock t timeout) := by
  have v := h.view t
  have hcounted := v.counted
  have hhold : s.hold t = holdOf (s.map t) (.outside result) := by rw [hold, hphase]
  rw [role, hphase] at hcounted
  rw [getCurrentThreadStatus] at hshallow
  rw [acquireWriterLock]
  cases hmap : s.map t with
  | some n =>
    rw [hmap] at hcounted hhold
    rw [hmap, Option.getD_some] at hshallow
    obtain ⟨hpos, hlt⟩ := v.fits.pos n hmap
    obtain ⟨hadd, hmod, hdiv, hlt'⟩ := add_writer hshallow
    have hhold' : ∀ b, holdOf (some (n + writerRecurrenceUnit)) (.outside b) =
        { s.hold t with writes := (s.hold t).writes + 1, suspended := false } := by
      intro b
      rw [hhold]
      simp only [holdOf_outside, Option.getD_some, hmod, hdiv]
    have hfits := fits_some (n := n + writerRecurrenceUnit) (by omega) hlt' true
    have hrole : roleOf (some (n + writerRecurrenceUnit)) (.outside true) = .writer :=
      roleOf_some_of_le (Nat.le_add_left _ _) true
    simp only [hadd]
    by_cases hn : writerRecurrenceUnit ≤ n
    · rw [roleOf_some_of_le hn] at hcounted
      have hexclusive := Counted.exclusive hcounted
      rw [if_pos hn]
      refine v.write hfits ?_ (by omega) (by omega) (hhold' true)
      rw [hrole]
      exact hcounted
    · rw [roleOf_some_of_lt (not_le.mp hn)] at hcounted
      have hexclusive := Counted.exclusive hcounted
      have hreaders := Counted.readers hcounted
      rw [if_neg hn]
      by_cases honly : s.impl.numOfReaderEntered = 1
      · have hr : othersIn t s.role .reader = 0 := by omega
        have hw : othersIn t s.role .writer = 0 := by omega
        rw [if_pos honly, setMap_setPhase_eq_put]
        refine v.write hfits ?_ hw hr (hhold' true)
        rw [hrole, hw, hr]
        rw [hr] at hcounted
        exact Counted.becomeWriter hcounted
      · rw [if_neg honly]
        split
        · rw [setPhase_eq_put s t s.impl, hmap]
          refine v.same (fits_some hpos hlt false) ?_ (by rw [hhold]; rfl)
          rw [roleOf_some_of_lt (not_le.mp hn)]
          exact hcounted
        · rw [setPhase_eq_put, hmap]
          refine v.leave ⟨fun m hm => ?_, by simp [Phase.upgrade], fun _ => ⟨n, rfl, not_le.mp hn⟩,
            by simp, by simp⟩ (Counted.upgradeBegin hcounted (by omega)) ?_
          · obtain rfl := Option.some.inj hm
            exact ⟨hpos, hlt⟩
          · rw [hhold]
            exact ⟨Nat.le_refl _, Nat.le_refl _, fun _ => rfl⟩
  | none =>
    rw [hmap] at hcounted hhold
    by_cases hfree : s.impl.numOfWriter = 0 ∧ s.impl.numOfReaderEntered = 0
    · obtain ⟨hw, hww⟩ := (Counted.numOfWriter_eq_zero hcounted).mp hfree.1
      have hr : othersIn t s.role .reader = 0 := by
        have := Counted.readers hcounted
        omega
      simp only [if_pos hfree]
      show Spec s (s.put t s.impl.writerEnter (some writerRecurrenceUnit) (.outside true))
      refine v.write (fits_some (by decide) (by decide) true) ?_ hw hr
        (by rw [hhold]; simp [writerRecurrenceUnit])
      rw [hw, hww, hr] at hcounted ⊢
      exact Counted.writerEnter hcounted
    · simp only [if_neg hfree]
      split
      · rw [setPhase_eq_put s t s.impl, hmap]
        exact v.same (fits_outside (by simp) false) hcounted (by rw [hhold]; rfl)
      · rw [setPhase_eq_put, hmap]
        refine v.same ⟨by simp, fun _ => rfl, by simp [Phase.upgrade], by simp, by simp⟩ ?_
          (by rw [hhold]; rfl)
        refine Counted.writerWaitBegin hcounted fun h0 => hfree ?_
        refine ⟨(Counted.numOfWriter_eq_zero hcounted).mpr ⟨h0.1, h0.2.1⟩, ?_⟩
        have := Counted.readers hcounted
        omega

theorem releaseWriterLock_spec (h : Consistent s) {result : Bool} (hphase : s.phase t = .outside result)
    {s' : CReaderWriterLock T} (hrun : s.releaseWriterLock t = some s') : Spec s s' := by
  have v := h.view t
  have hcounted := v.counted
  have hhold : s.hold t = holdOf (s.map t) (.outside result) := by rw [hold, hphase]
  rw [role, hphase] at hcounted
  rw [releaseWriterLock] at hrun
  cases hmap : s.map t with
  | none => simp [hmap] at hrun
  | some n =>
    rw [hmap] at hcounted hhold
    obtain ⟨hpos, hlt⟩ := v.fits.pos n hmap
    simp only [hmap] at hrun
    by_cases hn : n < writerRecurrenceUnit
    · simp [hn] at hrun
    rw [if_neg hn] at hrun
    rw [not_lt] at hn
    obtain ⟨hmod, hdiv⟩ := sub_writer hn
    rw [roleOf_some_of_le hn] at hcounted
    have hbelow : ∀ b, (holdOf (some (n - writerRecurrenceUnit)) (.outside b)).Below (s.hold t) := by
      intro b
      rw [hhold, holdOf_outside, holdOf_outside, Option.getD_some, Option.getD_some]
      exact ⟨hdiv, hmod.le, fun hs => absurd hs (by simp)⟩
    by_cases hlast : n - writerRecurrenceUnit = 0
    · rw [if_pos hlast, setMap_eq_put, hphase] at hrun
      obtain rfl := Option.some.inj hrun
      refine v.leave (fits_outside (by simp) result) ?_ ⟨Nat.zero_le _, Nat.zero_le _, ?_⟩
      · exact Counted.writerRelease_false hcounted
      · rw [hhold]
        exact fun hs => absurd hs (by simp)
    · rw [if_neg hlast] at hrun
      have hfits : Fits (some (n - writerRecurrenceUnit)) (.outside result) :=
        fits_some (Nat.pos_of_ne_zero hlast) ((Nat.sub_le _ _).trans_lt hlt) result
      by_cases hreader : n - writerRecurrenceUnit < writerRecurrenceUnit
      · rw [if_pos hreader, setMap_eq_put, hphase] at hrun
        obtain rfl := Option.some.inj hrun
        refine v.leave hfits ?_ (hbelow result)
        rw [roleOf_some_of_lt hreader]
        exact Counted.writerRelease_true hcounted
      · rw [if_neg hreader, show s.setMap t (some (n - writerRecurrenceUnit)) =
          { s.setMap t (some (n - writerRecurrenceUnit)) with impl := s.impl } from rfl,
          setMap_eq_put, hphase] at hrun
        obtain rfl := Option.some.inj hrun
        refine v.leave hfits ?_ (hbelow result)
        rw [roleOf_some_of_le (not_lt.mp hreader)]
        exact hcounted

theorem releaseAllLocks_spec (h : Consistent s) {result : Bool} (hphase : s.phase t = .outside result) :
    Spec s (s.releaseAllLocks t) := by
  have v := h.view t
  have hcounted := v.counted
  have hhold : s.hold t = holdOf (s.map t) (.outside result) := by rw [hold, hphase]
  rw [role, hphase] at hcounted
  rw [releaseAllLocks]
  cases hmap : s.map t with
  | none => exact ⟨h, .inr rfl⟩
  | some n =>
    rw [hmap] at hcounted hhold
    have hbelow : (holdOf none (.outside result)).Below (s.hold t) := by
      rw [hhold]
      exact ⟨Nat.zero_le _, Nat.zero_le _, fun hs => absurd hs (by simp)⟩
    dsimp only
    by_cases hn : writerRecurrenceUnit ≤ n
    · rw [roleOf_some_of_le hn] at hcounted
      rw [if_pos hn, setMap_eq_put, hphase]
      exact v.leave (fits_outside (by simp) result) (Counted.writerRelease_false hcounted) hbelow
    · rw [roleOf_some_of_lt (not_le.mp hn)] at hcounted
      rw [if_neg hn, setMap_eq_put, hphase]
      exact v.leave (fits_outside (by simp) result) (Counted.readerRelease hcounted) hbelow

/-! ### The waits -/

/-- A wait ends, or the time is looked at: nobody else learns of it. -/
theorem phase_spec (h : Consistent s) {phase : Phase} (hfits : Fits (s.map t) phase)
    (hrole : roleOf (s.map t) phase = s.role t) (hgranted : phase.granted = (s.phase t).granted)
    (hsuspended : phase.suspended = (s.phase t).suspended) : Spec s (s.setPhase t phase) := by
  have v := h.view t
  rw [setPhase_eq_put s t s.impl]
  refine v.same hfits ?_ ?_
  · rw [hrole]
    exact v.counted
  · rw [holdOf, hold, holdOf, hgranted, hsuspended]

theorem readerBack_spec (h : Consistent s) {timeout : Timeout} {upgrade canRead : Bool}
    (hphase : s.phase t = .readerWoken timeout upgrade canRead) (hwriter : s.impl.numOfWriter = 0) :
    Spec s (s.readerBack t upgrade (s.impl.readerEnter.readerWaitEnd, true)) := by
  have v := h.view t
  have hcounted := v.counted
  have hfits := v.fits
  have hhold : s.hold t = holdOf (s.map t) (.readerWoken timeout upgrade canRead) := by
    rw [hold, hphase]
  rw [hphase] at hfits
  rw [role, hphase] at hcounted
  obtain ⟨hw, hww⟩ := (Counted.numOfWriter_eq_zero hcounted).mp hwriter
  have hentered : s.impl.readerEnter.readerWaitEnd.Counted 0 0 (othersIn t s.role .reader + 1)
      (othersIn t s.role .readerWaiting) := by
    have hcounted' : s.impl.Counted _ _ _ _ := hcounted
    rw [hw, hww] at hcounted'
    exact hcounted'.readerEnter.readerWaitEnd
  rw [readerBack]
  cases upgrade with
  | false =>
    have hmap := hfits.plain rfl
    simp only [Bool.false_eq_true, if_false, if_true]
    rw [setMap_setPhase_eq_put]
    refine v.read (fits_some (by decide) (by decide) true) ?_ (by rw [hhold]; rfl)
      (.inr (.inr hw)) (by rw [hhold, hmap]; rfl)
    rw [hw, hww]
    exact hentered
  | true =>
    obtain ⟨n, hmap, hn⟩ := hfits.upgrade rfl
    obtain ⟨hpos, hlt⟩ := hfits.pos n hmap
    rw [hmap] at hhold
    simp only [if_true]
    rcases hentered.upgradeEnd with ⟨hwrite, hr, hend⟩ | ⟨hread, hend⟩
    · -- "After wait, now it's safe to be writer"
      rw [if_pos hwrite, setPhase_eq_put, hmap]
      refine v.write ⟨fun m hm => ?_, by simp [Phase.upgrade], fun _ => ⟨n, rfl, hn⟩, by simp, by simp⟩
        ?_ hw hr (by rw [hhold]; rfl)
      · obtain rfl := Option.some.inj hm
        exact ⟨hpos, hlt⟩
      · rw [hw, hww, hr]
        exact hend
    · rw [hread]
      simp only [Bool.false_eq_true, if_false]
      rw [setPhase_eq_put, hmap]
      refine v.resume (fits_some hpos hlt false) ?_ hw (by rw [hhold]; rfl)
      rw [roleOf_some_of_lt hn, hw, hww]
      exact hend

/-- A reader that gives up. -/
theorem readerFails_spec (h : Consistent s) (hphase : s.role t = .readerWaiting)
    (hplain : (s.phase t).upgrade = some false) :
    Spec s (s.readerBack t false (s.impl.readerWaitEnd, false)) := by
  have v := h.view t
  have hcounted := v.counted
  have hmap := v.fits.plain hplain
  rw [hphase] at hcounted
  rw [readerBack]
  simp only [Bool.false_eq_true, if_false]
  rw [setPhase_eq_put, hmap]
  refine v.same (fits_outside (by simp) false) (Counted.readerWaitEnd hcounted) ?_
  have hsuspended : (s.phase t).suspended = false ∧ (s.phase t).granted = false := by
    rw [role] at hphase
    cases hp : s.phase t <;> simp_all [Phase.upgrade, Phase.suspended, Phase.granted, roleOf]
  rw [hold, hmap, holdOf, holdOf, hsuspended.1, hsuspended.2]
  rfl

theorem writerBack_spec (h : Consistent s) {upgrade : Bool}
    (hphase : s.phase t = .writerTimedOut upgrade) : Spec s (s.writerBack t upgrade) := by
  have v := h.view t
  have hcounted := v.counted
  have hfits := v.fits
  have hhold : s.hold t = holdOf (s.map t) (.writerTimedOut upgrade) := by rw [hold, hphase]
  rw [hphase] at hfits
  rw [role, hphase] at hcounted
  rw [writerBack]
  rcases Counted.writerTimedOut hcounted with ⟨hwrite, hw, hww, hr, hend⟩ | ⟨hfail, hend, -⟩
  · -- "Although it was timeout, it's still safe to be writer now"
    simp only [hwrite, if_true]
    rw [setPhase_eq_put]
    refine v.write ⟨hfits.pos, hfits.plain, hfits.upgrade, by simp, by simp⟩ ?_ hw hr
      (by rw [hhold]; rfl)
    rw [hw, hww, hr]
    exact hend
  · simp only [hfail, Bool.false_eq_true, if_false]
    cases upgrade with
    | false =>
      have hmap := hfits.plain rfl
      simp only [Bool.false_eq_true, if_false]
      rw [setPhase_eq_put, hmap]
      exact v.same (fits_outside (by simp) false) hend (by rw [hhold, hmap]; rfl)
    | true =>
      obtain ⟨n, hmap, hn⟩ := hfits.upgrade rfl
      obtain ⟨hpos, hlt⟩ := hfits.pos n hmap
      rw [hmap] at hhold
      simp only [if_true]
      by_cases hwriter : s.impl.writerTimedOut.1.numOfWriter = 0
      · obtain ⟨hw, hww⟩ := hend.numOfWriter_eq_zero.mp hwriter
        rw [if_pos hwriter, setPhase_eq_put, hmap]
        refine v.resume (fits_some hpos hlt false) ?_ hw (by rw [hhold]; rfl)
        rw [roleOf_some_of_lt hn]
        rw [hw, hww] at hend ⊢
        exact hend.readerEnter
      · rw [if_neg hwriter, setPhase_eq_put, hmap]
        refine v.same ⟨fun m hm => ?_, by simp [Phase.upgrade], fun _ => ⟨n, rfl, hn⟩,
          fun timeout ht => ?_, by simp⟩ ?_ (by rw [hhold]; rfl)
        · obtain rfl := Option.some.inj hm
          exact ⟨hpos, hlt⟩
        · injection ht with ht
          exact ht.symm
        · refine hend.readerWaitBegin fun h0 => hwriter ?_
          exact hend.numOfWriter_eq_zero.mpr (by omega)

theorem writerRecorded_spec (h : Consistent s) {upgrade : Bool}
    (hphase : s.phase t = .writerGranted upgrade) : Spec s (s.writerRecorded t upgrade) := by
  have v := h.view t
  have hcounted := v.counted
  have hfits := v.fits
  have hhold : s.hold t = holdOf (s.map t) (.writerGranted upgrade) := by rw [hold, hphase]
  rw [hphase] at hfits
  rw [role, hphase] at hcounted
  rw [writerRecorded, getCurrentThreadStatus]
  cases upgrade with
  | false =>
    have hmap := hfits.plain rfl
    simp only [Bool.false_eq_true, if_false]
    refine v.same (fits_some (by decide) (by decide) true) hcounted ?_
    rw [hhold, hmap]
    simp [holdOf, Phase.granted, Phase.suspended, writerRecurrenceUnit]
  | true =>
    obtain ⟨n, hmap, hn⟩ := hfits.upgrade rfl
    have hzero : n / writerRecurrenceUnit = 0 := Nat.div_eq_of_lt hn
    obtain ⟨hadd, hmod, hdiv, hlt⟩ := add_writer (n := n) (by rw [hzero]; decide)
    simp only [if_true, hmap, Option.getD_some]
    rw [hadd]
    refine v.same (fits_some (by omega) hlt true) ?_ ?_
    · rw [roleOf_some_of_le (Nat.le_add_left _ _)]
      exact hcounted
    · rw [hhold, hmap, holdOf_outside, Option.getD_some, hmod, hdiv]
      rfl

theorem waited_spec (h : Consistent s) {signaled : Bool} {s' : CReaderWriterLock T}
    (hrun : s.step (.waited t signaled) = some s') : Spec s s' := by
  have hfits := h.fits t
  rw [step] at hrun
  cases hphase : s.phase t with
  | readerWait timeout upgrade =>
    rw [hphase] at hfits
    simp only [hphase] at hrun
    split at hrun
    · obtain rfl := Option.some.inj hrun
      refine phase_spec h ⟨hfits.pos, hfits.plain, hfits.upgrade, by simp, fun limit canRead ht => ?_⟩
        (by rw [role, hphase]; rfl) (by rw [hphase]; rfl) (by rw [hphase]; rfl)
      injection ht with ht hu
      subst ht hu
      exact hfits.wait _ rfl
    · simp at hrun
  | writerWait timeout upgrade =>
    rw [hphase] at hfits
    simp only [hphase] at hrun
    cases signaled with
    | false =>
      simp only [Bool.false_eq_true, if_false] at hrun
      split at hrun
      · obtain rfl := Option.some.inj hrun
        exact phase_spec h ⟨hfits.pos, hfits.plain, hfits.upgrade, by simp, by simp⟩
          (by rw [role, hphase]; rfl) (by rw [hphase]; rfl) (by rw [hphase]; rfl)
      · simp at hrun
    | true =>
      have v := h.view t
      have hcounted := v.counted
      have hhold : s.hold t = holdOf (s.map t) (.writerWait timeout upgrade) := by rw [hold, hphase]
      rw [role, hphase] at hcounted
      simp only [if_true, waitEnds, decide_eq_true_eq] at hrun
      by_cases hset : s.impl.safeToWriteEvent = some true
      · rw [if_pos hset, setPhase_eq_put] at hrun
        obtain rfl := Option.some.inj hrun
        obtain ⟨hw, hr⟩ := Counted.signaled hcounted hset
        exact v.write ⟨hfits.pos, hfits.plain, hfits.upgrade, by simp, by simp⟩
          (Counted.takeWriteEvent hcounted hset) hw hr (by rw [hhold]; rfl)
      · rw [if_neg hset] at hrun
        simp at hrun
  | _ => simp [hphase] at hrun

theorem enterCS_spec (h : Consistent s) {s' : CReaderWriterLock T}
    (hrun : s.step (.enterCS t) = some s') : Spec s s' := by
  have hfits := h.fits t
  rw [step] at hrun
  cases hphase : s.phase t with
  | readerWoken timeout upgrade canRead =>
    rw [hphase] at hfits
    simp only [hphase, readerCheck] at hrun
    by_cases hwriter : s.impl.numOfWriter = 0
    · rw [if_pos hwriter] at hrun
      obtain rfl := Option.some.inj hrun
      exact readerBack_spec h hphase hwriter
    · rw [if_neg hwriter] at hrun
      by_cases hinfinite : timeout = .infinite
      · -- "There might be one or more Writers entered"
        simp only [hinfinite, true_or, if_true] at hrun
        obtain rfl := Option.some.inj hrun
        refine phase_spec h ⟨hfits.pos, hfits.plain, hfits.upgrade, fun limit ht => ?_, by simp⟩
          (by rw [role, hphase]; rfl) (by rw [hphase]; rfl) (by rw [hphase]; rfl)
        injection ht with ht
        exact ht.symm
      · obtain rfl : upgrade = false := by
          by_contra hu
          rw [Bool.not_eq_false] at hu
          subst hu
          exact hinfinite (hfits.woken timeout canRead rfl)
        simp only [hinfinite, false_or] at hrun
        cases canRead with
        | true =>
          simp only [if_true, if_false] at hrun
          obtain rfl := Option.some.inj hrun
          exact phase_spec h ⟨hfits.pos, fun _ => hfits.plain rfl, by simp [Phase.upgrade], by simp,
            by simp⟩ (by rw [role, hphase]; rfl) (by rw [hphase]; rfl) (by rw [hphase]; rfl)
        | false =>
          simp only [Bool.false_eq_true, if_false] at hrun
          obtain rfl := Option.some.inj hrun
          exact readerFails_spec h (by rw [role, hphase]; rfl) (by rw [hphase]; rfl)
  | readerGivesUp =>
    simp only [hphase] at hrun
    obtain rfl := Option.some.inj hrun
    exact readerFails_spec h (by rw [role, hphase]; rfl) (by rw [hphase]; rfl)
  | writerTimedOut upgrade =>
    simp only [hphase] at hrun
    obtain rfl := Option.some.inj hrun
    exact writerBack_spec h hphase
  | writerGranted upgrade =>
    simp only [hphase] at hrun
    obtain rfl := Option.some.inj hrun
    exact writerRecorded_spec h hphase
  | _ => simp [hphase] at hrun

theorem checksTime_spec (h : Consistent s) {expired : Bool} {s' : CReaderWriterLock T}
    (hrun : s.step (.checksTime t expired) = some s') : Spec s s' := by
  have hfits := h.fits t
  rw [step] at hrun
  cases hphase : s.phase t with
  | readerChecksTime =>
    rw [hphase] at hfits
    simp only [hphase] at hrun
    cases expired with
    | true =>
      simp only [if_true] at hrun
      obtain rfl := Option.some.inj hrun
      exact phase_spec h ⟨hfits.pos, hfits.plain, hfits.upgrade, by simp, by simp⟩
        (by rw [role, hphase]; rfl) (by rw [hphase]; rfl) (by rw [hphase]; rfl)
    | false =>
      simp only [Bool.false_eq_true, if_false] at hrun
      obtain rfl := Option.some.inj hrun
      exact phase_spec h ⟨hfits.pos, hfits.plain, hfits.upgrade, by simp, by simp⟩
        (by rw [role, hphase]; rfl) (by rw [hphase]; rfl) (by rw [hphase]; rfl)
  | _ => simp [hphase] at hrun

/-! ### Runs -/

omit [DecidableEq T] [Fintype T] in
theorem call_eq_some {result : Option (CReaderWriterLock T)} {s' : CReaderWriterLock T}
    (h : s.call t result = some s') : ∃ b, s.phase t = .outside b ∧ result = some s' := by
  rw [call] at h
  cases hphase : s.phase t with
  | outside b => exact ⟨b, rfl, by simpa [hphase] using h⟩
  | _ => simp [hphase] at h

omit [Fintype T] in
/-- A thread does not take the lock so often that its counters overflow. -/
def Shallow (s : CReaderWriterLock T) : Action T → Prop
  | .acquireReaderLock t _ =>
    s.getCurrentThreadStatus t % writerRecurrenceUnit + 1 < writerRecurrenceUnit
  | .acquireWriterLock t _ =>
    s.getCurrentThreadStatus t / writerRecurrenceUnit + 1 < writerRecurrenceUnit
  | _ => True

instance (s : CReaderWriterLock T) : (a : Action T) → Decidable (s.Shallow a)
  | .acquireReaderLock _ _ => inferInstanceAs (Decidable (_ < _))
  | .acquireWriterLock _ _ => inferInstanceAs (Decidable (_ < _))
  | .releaseReaderLock _ | .releaseWriterLock _ | .releaseAllLocks _ => .isTrue trivial
  | .waited _ _ | .enterCS _ | .checksTime _ _ => .isTrue trivial

theorem step_spec (h : Consistent s) {a : Action T} (hshallow : s.Shallow a) {s' : CReaderWriterLock T}
    (hrun : s.step a = some s') : Spec s s' := by
  cases a with
  | acquireReaderLock t timeout =>
    obtain ⟨result, hphase, hs⟩ := call_eq_some hrun
    obtain rfl := Option.some.inj hs
    exact acquireReaderLock_spec h hphase timeout hshallow
  | releaseReaderLock t =>
    obtain ⟨result, hphase, hs⟩ := call_eq_some hrun
    exact releaseReaderLock_spec h hphase hs
  | acquireWriterLock t timeout =>
    obtain ⟨result, hphase, hs⟩ := call_eq_some hrun
    obtain rfl := Option.some.inj hs
    exact acquireWriterLock_spec h hphase timeout hshallow
  | releaseWriterLock t =>
    obtain ⟨result, hphase, hs⟩ := call_eq_some hrun
    exact releaseWriterLock_spec h hphase hs
  | releaseAllLocks t =>
    obtain ⟨result, hphase, hs⟩ := call_eq_some hrun
    obtain rfl := Option.some.inj hs
    exact releaseAllLocks_spec h hphase
  | waited t signaled => exact waited_spec h hrun
  | enterCS t => exact enterCS_spec h hrun
  | checksTime t expired => exact checksTime_spec h hrun

omit [Fintype T] in
/-- The states that a lock gets into. A thread releases only what it holds, which is what the
assertions of the code say. -/
inductive Reached : CReaderWriterLock T → Prop
  | init : Reached {}
  | step {s s' : CReaderWriterLock T} {a : Action T} : Reached s → s.Shallow a → s.step a = some s' →
      Reached s'

theorem Reached.consistent (h : Reached s) : Consistent s := by
  induction h with
  | init => exact consistent_init
  | step _ hshallow hrun ih => exact (step_spec ih hshallow hrun).consistent

theorem Reached.refines (h : Reached s) :
    Relation.ReflTransGen SharedLock.Step (fun _ => {}) s.hold := by
  induction h with
  | init =>
    have hinit : ({} : CReaderWriterLock T).hold = fun _ => {} := by
      funext t
      simp [hold, holdOf, Phase.granted, Phase.suspended]
    rw [hinit]
  | step hreached hshallow hrun ih =>
    rcases (step_spec hreached.consistent hshallow hrun).refines with hstep | hsame
    · exact ih.tail hstep
    · rwa [hsame]

/-- **Whatever the threads do and in whatever order, the lock is one for readers and writers**: its
states are those of the abstract lock, and a thread that is recorded as a writer keeps out all other
threads that are recorded as readers or writers, unless these wait for an upgrade. -/
theorem refines_sharedLock (h : Reached s) :
    Relation.ReflTransGen SharedLock.Step (fun _ => {}) s.hold ∧
      ∀ t u, u ≠ t → writerRecurrenceUnit ≤ s.getCurrentThreadStatus t →
        s.getCurrentThreadStatus u = 0 ∨ (s.phase u).suspended = true := by
  refine ⟨h.refines, fun t u hne hstatus => ?_⟩
  have hexclusive : SharedLock.Exclusive s.hold :=
    SharedLock.exclusive_init.of_reachable h.refines
  have hwrites : (s.hold t).Writes :=
    Nat.add_pos_left (Nat.div_pos hstatus (by decide)) _
  obtain ⟨hnw, hnr⟩ := hexclusive t u hwrites hne
  by_cases hsuspended : (s.phase u).suspended = true
  · exact .inr hsuspended
  · left
    have hmod : s.getCurrentThreadStatus u % writerRecurrenceUnit = 0 := by
      by_contra hpos
      exact hnr ⟨Nat.pos_of_ne_zero hpos, by simpa [hold, holdOf] using hsuspended⟩
    have hdiv : s.getCurrentThreadStatus u / writerRecurrenceUnit = 0 := by
      by_contra hpos
      exact hnw (Nat.add_pos_left (Nat.pos_of_ne_zero hpos) _)
    rw [← Nat.div_add_mod (s.getCurrentThreadStatus u) writerRecurrenceUnit, hdiv, hmod,
      Nat.mul_zero]

/-- Two readers want to write; the second one may, while the first one waits. -/
theorem refines_sharedLock_upgrade : ∃ s : CReaderWriterLock Bool,
    ({} : CReaderWriterLock Bool).run [.acquireReaderLock true .infinite,
      .acquireReaderLock false .infinite, .acquireWriterLock true .infinite,
      .acquireWriterLock false .infinite] = some s ∧
    (s.getCurrentThreadStatus true = 0 ∨ (s.phase true).suspended = true) := by
  have h₁ : Reached (T := Bool) _ :=
    .step .init (show Shallow {} (.acquireReaderLock true .infinite) by decide) rfl
  have h₂ : Reached (T := Bool) _ :=
    .step h₁ (show Shallow _ (.acquireReaderLock false .infinite) by decide) rfl
  have h₃ : Reached (T := Bool) _ :=
    .step h₂ (show Shallow _ (.acquireWriterLock true .infinite) by decide) rfl
  have h₄ : Reached (T := Bool) _ :=
    .step h₃ (show Shallow _ (.acquireWriterLock false .infinite) by decide) rfl
  exact ⟨_, rfl, (refines_sharedLock h₄).2 false true (by decide) (by decide)⟩

/-! ### Wake-ups -/

/-- The thread waits for the lock. -/
def Waits (s : CReaderWriterLock T) (t : T) : Prop :=
  s.role t = .readerWaiting ∨ s.role t = .writerWaiting

/-- Some waiting threads go on until one has the lock. -/
def SomeGoOn (s : CReaderWriterLock T) : Prop :=
  ∃ actions s', (∀ a ∈ actions, s.Waits a.thread) ∧ s.run actions = some s' ∧
    ∃ u, ¬ (s'.hold u).Free

omit [Fintype T] in
/-- A thread goes on by itself. -/
theorem someGoOn_of_steps {actions : List (Action T)} {s' : CReaderWriterLock T} (hwaits : s.Waits t)
    (hthread : ∀ a ∈ actions, a.thread = t) (hrun : s.run actions = some s')
    (hhold : ¬ (s'.hold t).Free) : s.SomeGoOn :=
  ⟨actions, s', fun a ha => hthread a ha ▸ hwaits, hrun, t, hhold⟩

/-- A reader that was woken gets the lock if there is no writer. -/
theorem exists_enterCS (h : Consistent s) {timeout : Timeout} {upgrade canRead : Bool}
    (hphase : s.phase t = .readerWoken timeout upgrade canRead) (hwriter : s.impl.numOfWriter = 0) :
    ∃ s', s.step (.enterCS t) = some s' ∧ ¬ (s'.hold t).Free := by
  have hfits := h.fits t
  rw [hphase] at hfits
  refine ⟨s.readerBack t upgrade (s.impl.readerEnter.readerWaitEnd, true), ?_, ?_⟩
  · rw [step]
    simp only [hphase, readerCheck, if_pos hwriter]
  · rw [readerBack]
    cases upgrade with
    | false =>
      simp only [Bool.false_eq_true, if_false, if_true]
      rw [setMap_setPhase_eq_put, hold_put, Function.update_self]
      exact fun hfree => hfree.2 ⟨by decide, rfl⟩
    | true =>
      obtain ⟨n, hmap, hn⟩ := hfits.upgrade rfl
      have hpos := (hfits.pos n hmap).1
      simp only [if_true]
      split
      · rw [setPhase_eq_put, hold_put, Function.update_self]
        exact fun hfree => hfree.1 (Nat.succ_pos _)
      · rw [setPhase_eq_put, hold_put, Function.update_self, hmap]
        refine fun hfree => hfree.2 ⟨?_, rfl⟩
        rw [holdOf_outside, Option.getD_some, Nat.mod_eq_of_lt hn]
        exact hpos

/-- A reader that waits gets the lock if there is no writer and the event is set. -/
theorem exists_waited (h : Consistent s) {timeout : Timeout} {upgrade : Bool}
    (hphase : s.phase t = .readerWait timeout upgrade) (hwriter : s.impl.numOfWriter = 0)
    (hset : s.impl.safeToReadEvent = some true) :
    ∃ actions s', (∀ a ∈ actions, a.thread = t) ∧ s.run actions = some s' ∧
      ¬ (s'.hold t).Free := by
  have hstep : s.step (.waited t true) = some (s.setPhase t (.readerWoken timeout upgrade true)) := by
    rw [step]
    simp [hphase, waitEnds, hset]
  have hnext := (waited_spec h hstep).consistent
  have hwoken : (s.setPhase t (.readerWoken timeout upgrade true)).phase t =
      .readerWoken timeout upgrade true := by simp [setPhase]
  obtain ⟨s', hrun, hhold⟩ := exists_enterCS hnext hwoken hwriter
  refine ⟨[.waited t true, .enterCS t], s', ?_, ?_, hhold⟩
  · intro a ha
    rcases List.mem_cons.mp ha with rfl | ha
    · rfl
    · rw [List.mem_singleton.mp ha]
      rfl
  · simp [run, hstep, hrun]

omit [Fintype T] in
/-- A writer whose time is over does not wait as a writer any more. -/
theorem exists_writerBack (s : CReaderWriterLock T) (t : T) (upgrade : Bool) :
    ∃ impl phase, s.writerBack t upgrade = s.put t impl (s.map t) phase ∧
      roleOf (s.map t) phase ≠ .writerWaiting ∧
      (s.impl.writerTimedOut.2 = true → phase = .writerGranted upgrade) := by
  have houtside : roleOf (s.map t) (.outside false) ≠ .writerWaiting := by
    rcases s.map t with _ | n
    · simp [roleOf]
    · simp only [roleOf]
      split <;> simp
  rw [writerBack]
  cases hwrite : s.impl.writerTimedOut.2 with
  | true =>
    refine ⟨s.impl.writerTimedOut.1, .writerGranted upgrade, ?_, by simp [roleOf], fun _ => rfl⟩
    simp only [hwrite, if_true]
    exact setPhase_eq_put s t _ _
  | false =>
    simp only [hwrite, Bool.false_eq_true, if_false]
    cases upgrade with
    | false =>
      refine ⟨s.impl.writerTimedOut.1, .outside false, ?_, houtside, fun hne => absurd hne (by simp)⟩
      simp only [Bool.false_eq_true, if_false]
      exact setPhase_eq_put s t _ _
    | true =>
      by_cases hwriter : s.impl.writerTimedOut.1.numOfWriter = 0
      · refine ⟨s.impl.writerTimedOut.1.readerEnter, .outside false, ?_, houtside,
          fun hne => absurd hne (by simp)⟩
        simp only [if_true, if_pos hwriter]
        exact setPhase_eq_put s t _ _
      · refine ⟨s.impl.writerTimedOut.1.readerWaitBegin, .readerWait .infinite true, ?_,
          by simp [roleOf], fun hne => absurd hne (by simp)⟩
        simp only [if_true, if_neg hwriter]
        exact setPhase_eq_put s t _ _

/-- When nobody holds the lock, one of the writers that wait gets it. -/
theorem someGoOn_of_writers (h : Consistent s) (hfree : ∀ u, (s.hold u).Free)
    (hpos : 0 < numberIn s.role .writerWaiting) : s.SomeGoOn := by
  induction hn : numberIn s.role .writerWaiting using Nat.strong_induction_on generalizing s with
  | _ n ih =>
    subst hn
    have hcounted := h.counted
    have hnone : ∀ ρ, ρ = .writer ∨ ρ = .reader → numberIn s.role ρ = 0 := by
      intro ρ hρ
      rw [← Nat.le_zero, ← not_lt, numberIn_pos_iff]
      rintro ⟨u, hu⟩
      obtain ⟨hw, hr⟩ := (h.fits u).free_iff.mp (hfree u)
      rcases hρ with rfl | rfl
      · exact hw hu
      · exact hr hu
    have hset : s.impl.safeToWriteEvent = some true :=
      hcounted.woken hpos (hnone _ (.inl rfl)) (hnone _ (.inr rfl))
    obtain ⟨t, ht⟩ := numberIn_pos_iff.mp hpos
    by_cases hwait : ∃ t timeout upgrade, s.phase t = .writerWait timeout upgrade
    · -- the event lets this one in
      obtain ⟨t, timeout, upgrade, hphase⟩ := hwait
      have hrun : s.run [.waited t true] = some ({ s with impl := s.impl.takeWriteEvent }.setPhase t
          (.writerGranted upgrade)) := by
        simp [run, step, hphase, waitEnds, hset]
      refine someGoOn_of_steps (t := t) (.inr (by rw [role, hphase]; rfl)) ?_ hrun ?_
      · intro a ha
        rw [List.mem_singleton.mp ha]
        rfl
      · rw [setPhase_eq_put, hold_put, Function.update_self]
        exact fun hfree => hfree.1 (Nat.succ_pos _)
    · -- the time of all of them is over; the last one is let in nevertheless
      obtain ⟨upgrade, hphase⟩ : ∃ upgrade, s.phase t = .writerTimedOut upgrade := by
        rw [role] at ht
        cases hphase : s.phase t with
        | writerTimedOut upgrade => exact ⟨upgrade, rfl⟩
        | writerWait timeout upgrade => exact absurd ⟨t, timeout, upgrade, hphase⟩ hwait
        | outside result =>
          rw [hphase] at ht
          rcases hstate : s.map t with _ | k
          · simp [roleOf, hstate] at ht
          · simp only [roleOf, hstate] at ht
            split at ht <;> exact absurd ht (by decide)
        | _ => simp [roleOf, hphase] at ht
      have hstep : s.step (.enterCS t) = some (s.writerBack t upgrade) := by
        rw [step]
        simp [hphase]
      have hnext := (writerBack_spec h hphase).consistent
      by_cases hholder : ∃ u, ¬ ((s.writerBack t upgrade).hold u).Free
      · refine ⟨[.enterCS t], s.writerBack t upgrade, ?_, by simp [run, hstep], hholder⟩
        intro a ha
        rw [List.mem_singleton.mp ha]
        exact .inr ht
      · rw [not_exists] at hholder
        obtain ⟨impl, phase, hback, hrole, hgranted⟩ := exists_writerBack s t upgrade
        have hothers : ∀ u, u ≠ t → (s.writerBack t upgrade).role u = s.role u := by
          intro u hu
          rw [hback, role_put, if_neg hu]
        have hself : (s.writerBack t upgrade).role t ≠ .writerWaiting := by
          rw [hback, role_put, if_pos rfl]
          exact hrole
        have hless : numberIn (s.writerBack t upgrade).role .writerWaiting =
            othersIn t s.role .writerWaiting := by
          rw [numberIn_eq t, othersIn_congr hothers, if_neg hself, Nat.add_zero]
        have hmore : numberIn s.role .writerWaiting = othersIn t s.role .writerWaiting + 1 := by
          rw [numberIn_eq t, if_pos ht]
        have hrest : 0 < othersIn t s.role .writerWaiting := by
          have v := (h.view t).counted
          rw [ht] at v
          have hw := numberIn_eq t s.role .writer
          have hr := numberIn_eq t s.role .reader
          rw [hnone _ (.inl rfl)] at hw
          rw [hnone _ (.inr rfl)] at hr
          rcases Counted.writerTimedOut v with ⟨hwrite, -⟩ | ⟨-, -, hbusy⟩
          · -- then this one writes
            refine absurd (hholder t) (not_not.mpr fun hfree => hfree.1 ?_)
            rw [hback, hold_put, Function.update_self, hgranted hwrite]
            exact Nat.succ_pos _
          · omega
        obtain ⟨actions, s', hwaits, hrun, hhold⟩ := ih _ (by omega) hnext
          (fun u => not_not.mp (hholder u)) (by omega) rfl
        refine ⟨.enterCS t :: actions, s', ?_, by simp [run, hstep, hrun], hhold⟩
        intro a ha
        rcases List.mem_cons.mp ha with rfl | ha
        · exact .inr ht
        · by_cases hthread : a.thread = t
          · exact hthread ▸ .inr ht
          · rw [Waits, ← hothers _ hthread]
            exact hwaits a ha

/-- **No wake-up is lost.** When nobody holds the lock and some thread waits for it that has not given
up, the threads that wait can go on by themselves until one of them has the lock. -/
theorem exists_holder (h : Reached s) (hfree : ∀ u, (s.hold u).Free) (hwaits : s.Waits t)
    (hpatient : s.phase t ≠ .readerGivesUp) : s.SomeGoOn := by
  have hconsistent := h.consistent
  by_cases hpos : 0 < numberIn s.role .writerWaiting
  · exact someGoOn_of_writers hconsistent hfree hpos
  have hnone : ∀ u, s.role u ≠ .writerWaiting := fun u hu => hpos (numberIn_pos_iff.mpr ⟨u, hu⟩)
  have hwaiting : s.role t = .readerWaiting := hwaits.resolve_right (hnone t)
  have hcounted := hconsistent.counted
  have hzero : numberIn s.role .writer + numberIn s.role .writerWaiting = 0 := by
    have hw : ¬ 0 < numberIn s.role .writer := by
      rw [numberIn_pos_iff]
      rintro ⟨u, hu⟩
      exact ((hconsistent.fits u).free_iff.mp (hfree u)).1 hu
    omega
  have hwriter : s.impl.numOfWriter = 0 := hcounted.numOfWriter_eq_zero.mpr (by omega)
  have hset : s.impl.safeToReadEvent = some true := by
    have hcreated : s.impl.safeToReadEvent ≠ none := by
      rw [Ne, hcounted.readCreated, ← Ne, ← Nat.pos_iff_ne_zero, numberIn_pos_iff]
      exact ⟨t, hwaiting⟩
    have hnotReset := hcounted.readSet hzero
    rcases hevent : s.impl.safeToReadEvent with _ | _ | _
    · exact absurd hevent hcreated
    · exact absurd hevent hnotReset
    · rfl
  cases hphase : s.phase t with
  | readerWait timeout upgrade =>
    obtain ⟨actions, s', hthread, hrun, hhold⟩ := exists_waited hconsistent hphase hwriter hset
    exact someGoOn_of_steps hwaits hthread hrun hhold
  | readerWoken timeout upgrade canRead =>
    obtain ⟨s', hstep, hhold⟩ := exists_enterCS hconsistent hphase hwriter
    have hrun : s.run [.enterCS t] = some s' := by simp [run, hstep]
    refine someGoOn_of_steps hwaits ?_ hrun hhold
    intro a ha
    rw [List.mem_singleton.mp ha]
    rfl
  | readerChecksTime =>
    have hstep : s.step (.checksTime t false) = some (s.setPhase t (.readerWait .finite false)) := by
      rw [step]
      simp [hphase]
    have hnext := (checksTime_spec hconsistent hstep).consistent
    have hwait : (s.setPhase t (.readerWait .finite false)).phase t = .readerWait .finite false := by
      simp [setPhase]
    obtain ⟨actions, s', hthread, hrun, hhold⟩ := exists_waited hnext hwait hwriter hset
    have hrun' : s.run (.checksTime t false :: actions) = some s' := by simp [run, hstep, hrun]
    refine someGoOn_of_steps hwaits ?_ hrun' hhold
    intro a ha
    rcases List.mem_cons.mp ha with rfl | ha
    · rfl
    · exact hthread a ha
  | readerGivesUp => exact absurd hphase hpatient
  | outside result =>
    rw [role, hphase] at hwaiting
    rcases hstate : s.map t with _ | k
    · simp [roleOf, hstate] at hwaiting
    · simp only [roleOf, hstate] at hwaiting
      split at hwaiting <;> exact absurd hwaiting (by decide)
  | _ => simp [role, roleOf, hphase] at hwaiting

/-- A reader waits for a writer, which leaves: nobody holds the lock now. -/
theorem exists_holder_reader : ∃ s : CReaderWriterLock Bool,
    ({} : CReaderWriterLock Bool).run [.acquireWriterLock true .infinite,
      .acquireReaderLock false .infinite, .releaseWriterLock true] = some s ∧ s.SomeGoOn := by
  have h₁ : Reached (T := Bool) _ :=
    .step .init (show Shallow {} (.acquireWriterLock true .infinite) by decide) rfl
  have h₂ : Reached (T := Bool) _ :=
    .step h₁ (show Shallow _ (.acquireReaderLock false .infinite) by decide) rfl
  have h₃ : Reached (T := Bool) _ := .step h₂ (show Shallow _ (.releaseWriterLock true) from trivial) rfl
  refine ⟨_, rfl, exists_holder (t := false) h₃ (by decide) (.inl (by decide)) (by decide)⟩

end CReaderWriterLock

end TortoiseSvn.Utils
