import TortoiseSvn.Lib.SortedMap
import TortoiseSvn.Svn.ContainingDirectory

/-!
# The write times of working copies

`CWCRoots` keeps the write time of the database of every working copy root that it has met, and when
it was read. The map is searched with a lower bound, which stands behind all ancestors of a path: a
time is read again for the root itself only. For a path below a root the old entry is kept, whatever
its age.

Main results: `getDBFileTime_fresh`, `getDBFileTime_stale`. In every run, the time of a call is
fresh if the path has an entry of its own, or if the roots above it were read not long ago.
-/

namespace TortoiseSvn.TSVNCache

open Lib Svn CTSVNPath CTSVNPathList

/-! ### The code -/

/-- When the database `.svn\wc.db` of a directory exists and with which write time, at every moment.
Directories are told apart without the case of letters. -/
structure FileSystem (m : CaseMap) where
  wcDb : List UInt16 → ℕ → Option ℤ
  noCase : ∀ dir dir' t, m.key dir = m.key dir' → wcDb dir t = wcDb dir' t

def DBTIMEOUT : ℕ := 10000

/-- Source: `WCRoots.h` `WCRootsTimes` -/
structure WCRootsTimes where
  FileTime : ℤ
  LastTicks : ℕ
  deriving DecidableEq

/-- The paths are compared by their texts in lower case. The path that was inserted stays in the
map.
Source: `WCRoots.h` `CWCRoots`, `m_WCDBs` -/
abbrev WCDBs := SortedMap (List ℕ) (CTSVNPath × WCRootsTimes)

namespace CWCRoots

variable {m : CaseMap} (fs : FileSystem m) (ticks : ℕ)

/-- The first directory, from the path up, that has a database.
Source: `WCRoots.cpp` `CWCRoots::AddPathInternal`, the loop -/
def findDb (p : CTSVNPath) : Option (CTSVNPath × ℤ) :=
  match fs.wcDb p.GetWinPathString ticks with
  | some FileTime => some (p, FileTime)
  | none =>
    if p.GetContainingDirectory.IsEmpty = true then none
    else findDb p.GetContainingDirectory
termination_by p.GetWinPathString.length
decreasing_by
  rename_i h
  exact getContainingDirectory_shorter (win_ne_nil_of_directory h)

/-- The times at the iterator, if it is not the end.
Source: `WCRoots.cpp` `CWCRoots::AddPathInternal` -/
def AddPathInternal (roots : WCDBs) (path : CTSVNPath) : WCDBs × Option WCRootsTimes :=
  match findDb fs ticks path with
  | some (p, FileTime) =>
    -- `emplace` keeps an entry that is there
    let it := (roots.emplace (pathKey m p) (p, ⟨FileTime, ticks⟩)).1
    (it.toMap, some it.cur.2.2)
  | none => (roots, none)

/-- Source: `WCRoots.cpp` `CWCRoots::AddPath` -/
def AddPath (roots : WCDBs) (path : CTSVNPath) : WCDBs × Bool :=
  let added := AddPathInternal fs ticks roots path
  (added.1, added.2.isSome)

/-- Source: `WCRoots.cpp` `CWCRoots::GetDBFileTime`, the two calls of `AddPathInternal` -/
def addedTime (added : WCDBs × Option WCRootsTimes) : WCDBs × ℤ :=
  (added.1, (added.2.map WCRootsTimes.FileTime).getD 0)

/-- Source: `WCRoots.cpp` `CWCRoots::GetDBFileTime` -/
def GetDBFileTime (roots : WCDBs) (path : CTSVNPath) : WCDBs × ℤ :=
  match (roots.onward (pathKey m path)).head? with
  | some (k, root, times) =>
    if IsAncestorOf m root path then
      if DBTIMEOUT < ticks - times.LastTicks then
        match fs.wcDb root.GetWinPathString ticks with
        | some FileTime => (roots.assign k (root, ⟨FileTime, ticks⟩), FileTime)
        | none => (roots.erase k, 0)
      else (roots, times.FileTime)
    else addedTime (AddPathInternal fs ticks roots path)
  | none => addedTime (AddPathInternal fs ticks roots path)

/-- Source: `WCRoots.cpp` `CWCRoots::NotifyChange`, the loop -/
def leaveAdminDir (m : CaseMap) (m_bVSNETHack : Bool) (p : CTSVNPath) : CTSVNPath :=
  if IsAdminDir m m_bVSNETHack p = true then leaveAdminDir m m_bVSNETHack p.GetContainingDirectory
  else p
termination_by p.GetWinPathString.length
decreasing_by
  rename_i h
  exact getContainingDirectory_shorter fun hp => by simp [not_isAdminDir_nil m _ hp] at h

/-- Source: `WCRoots.cpp` `CWCRoots::NotifyChange` -/
def NotifyChange (m_bVSNETHack : Bool) (roots : WCDBs) (path : CTSVNPath) : WCDBs × Bool :=
  let p := leaveAdminDir m m_bVSNETHack path
  match (roots.onward (pathKey m p)).head? with
  | some (k, root, times) =>
    if IsAncestorOf m root p then
      match fs.wcDb root.GetWinPathString ticks with
      | some FileTime =>
        (roots.assign k (root, ⟨FileTime, ticks⟩), decide (FileTime ≠ times.FileTime))
      | none => (roots.erase k, true)
    else (roots, true)
  | none => (roots, true)

/-! ### Runs -/

/-- A call of one of the public functions, which hold the lock of the map throughout. -/
inductive Call where
  | addPath (path : CTSVNPath)
  | getDBFileTime (path : CTSVNPath)
  | notifyChange (path : CTSVNPath)
  deriving DecidableEq

/-- A call at a moment. -/
structure Event where
  moment : ℕ
  call : Call
  deriving DecidableEq

/-- The map after a call. -/
def step (m_bVSNETHack : Bool) (roots : WCDBs) (e : Event) : WCDBs :=
  match e.call with
  | .addPath path => (AddPath fs e.moment roots path).1
  | .getDBFileTime path => (GetDBFileTime fs e.moment roots path).1
  | .notifyChange path => (NotifyChange fs e.moment m_bVSNETHack roots path).1

/-- The map after a run, which begins without any roots. -/
def run (m_bVSNETHack : Bool) (events : List Event) : WCDBs :=
  events.foldl (step fs m_bVSNETHack) SortedMap.empty

/-- At a moment, `R` is the only working copy root that a path is inside of. -/
structure InsideOnly (p R : CTSVNPath) (t : ℕ) : Prop where
  inside : IsAncestorOf m R p = true
  present : fs.wcDb R.GetWinPathString t ≠ none
  only : ∀ dir : CTSVNPath, dir.IsEmpty = false → IsAncestorOf m dir p = true →
    fs.wcDb dir.GetWinPathString t ≠ none → pathKey m dir = pathKey m R

/-- What `GetDBFileTime` is to return for a path that is inside one root only throughout a run: a
time that the database had not more than `DBTIMEOUT` ago. -/
def FreshCall (m_bVSNETHack : Bool) (before : List Event) (t : ℕ) (p : CTSVNPath) : Prop :=
  ∀ R, (∀ e ∈ before, InsideOnly fs p R e.moment) → InsideOnly fs p R t →
    (GetDBFileTime fs t (run fs m_bVSNETHack before) p).2 ≠ 0 →
    ∃ t' ≤ t, t - t' ≤ DBTIMEOUT ∧ fs.wcDb R.GetWinPathString t' =
      some (GetDBFileTime fs t (run fs m_bVSNETHack before) p).2

/-- The path has an entry of its own, or every root above it was read not more than `DBTIMEOUT`
ago. -/
def Timely (m : CaseMap) (roots : WCDBs) (t : ℕ) (p : CTSVNPath) : Prop :=
  pathKey m p ∈ roots.entries.map Prod.fst ∨
    ∀ e ∈ roots.entries, IsAncestorOf m e.2.1 p = true → t - e.2.2.LastTicks ≤ DBTIMEOUT

/-! ### What an entry records -/

section Recorded

variable {fs : FileSystem m} {ticks : ℕ} {moments : List ℕ} {roots : WCDBs} {path p dir : CTSVNPath}

/-- The entry of a root has the time that the database had when it was read, at one of some
moments. -/
structure Recorded (fs : FileSystem m) (moments : List ℕ) (e : List ℕ × CTSVNPath × WCRootsTimes) :
    Prop where
  key : e.1 = pathKey m e.2.1
  time : fs.wcDb e.2.1.GetWinPathString e.2.2.LastTicks = some e.2.2.FileTime
  moment : e.2.2.LastTicks ∈ moments

theorem Recorded.later {e : List ℕ × CTSVNPath × WCRootsTimes} (h : Recorded fs moments e) (t : ℕ) :
    Recorded fs (moments ++ [t]) e :=
  ⟨h.key, h.time, List.mem_append_left _ h.moment⟩

/-- What is read now is recorded now. -/
theorem recorded_now {FileTime : ℤ} (h : fs.wcDb p.GetWinPathString ticks = some FileTime) :
    Recorded fs (moments ++ [ticks]) (pathKey m p, p, ⟨FileTime, ticks⟩) :=
  ⟨rfl, h, List.mem_append_right _ (List.mem_singleton_self _)⟩

/-- The directory that is found has a database. -/
theorem wcDb_of_findDb {FileTime : ℤ} (h : findDb fs ticks path = some (p, FileTime)) :
    fs.wcDb p.GetWinPathString ticks = some FileTime := by
  fun_induction findDb fs ticks path with
  | case1 path time htime =>
    obtain ⟨rfl, rfl⟩ := Prod.mk.inj (Option.some.inj h)
    exact htime
  | case2 => exact nomatch h
  | case3 path hnone hdir ih => exact ih h

/-- **The directory that is found is the path or above it.** -/
theorem isAncestorOf_of_findDb {FileTime : ℤ} (hmark : ¬ longMark <:+: path.GetWinPathString)
    (hpath : path.IsEmpty = false) (h : findDb fs ticks path = some (p, FileTime)) :
    IsAncestorOf m p path = true ∧ p.IsEmpty = false := by
  fun_induction findDb fs ticks path with
  | case1 path time htime =>
    obtain ⟨rfl, rfl⟩ := Prod.mk.inj (Option.some.inj h)
    exact ⟨isAncestorOf_iff.mpr (.inl rfl), hpath⟩
  | case2 => exact nomatch h
  | case3 path hnone hdir ih =>
    have hplain : ¬ longMark <:+: path.GetContainingDirectory.GetWinPathString := by
      rw [win_getContainingDirectory_of_plain hmark]
      exact fun hm => hmark (hm.trans (directoryName_starts _).isInfix)
    obtain ⟨habove, hne⟩ := ih hplain (Bool.eq_false_iff.mpr hdir) h
    have hcontaining := isAncestorOf_iff.mp (isAncestorOf_getContainingDirectory m hmark hdir)
    exact ⟨isAncestorOf_iff.mpr ((isAncestorOf_iff.mp habove).trans hcontaining), hne⟩

theorem mem_of_head? {k : List ℕ} {e : List ℕ × CTSVNPath × WCRootsTimes}
    (h : (roots.onward k).head? = some e) : e ∈ roots.entries := by
  rw [← roots.before_append_onward k]
  exact List.mem_append_right _ (List.mem_of_head? h)

/-- The entry of a path itself is at the lower bound; no entry at the lower bound is for a directory
above the path. -/
theorem head?_onward_root (hkeys : ∀ e ∈ roots.entries, e.1 = pathKey m e.2.1) (path : CTSVNPath) :
    (∃ root times, roots.find (pathKey m path) = some (root, times) ∧
      (roots.onward (pathKey m path)).head? = some (pathKey m path, root, times) ∧
      IsAncestorOf m root path = true) ∨
    roots.find (pathKey m path) = none ∧ ∀ k root times,
      (roots.onward (pathKey m path)).head? = some (k, root, times) →
      IsAncestorOf m root path = false := by
  rcases roots.head?_onward_cases (pathKey m path) with
    ⟨⟨root, times⟩, hfind, hhead⟩ | ⟨hfind, hhead⟩
  · have hkey := hkeys _ (SortedMap.find_eq_some_iff.mp hfind)
    exact .inl ⟨root, times, hfind, hhead, isAncestorOf_key.mpr (.inl hkey.symm)⟩
  · refine .inr ⟨hfind, fun k root times h => Bool.eq_false_iff.mpr fun habove => ?_⟩
    have hmem : (k, root, times) ∈ roots.entries := mem_of_head? h
    have hle : pathKey m root ≤ pathKey m path := le_of_starts (isAncestorOf_key.mp habove).starts
    have hlt := hhead _ h
    rw [hkeys _ hmem] at hlt
    exact absurd hlt (not_lt.mpr hle)

/-! ### What a call leaves -/

/-- What is recorded is still recorded when a root is found. -/
theorem recorded_add (h : ∀ e ∈ roots.entries, Recorded fs moments e) :
    ∀ e ∈ (AddPathInternal fs ticks roots path).1.entries, Recorded fs (moments ++ [ticks]) e := by
  intro e he
  rw [AddPathInternal] at he
  cases hfind : findDb fs ticks path with
  | none =>
    rw [hfind] at he
    exact (h e he).later ticks
  | some found =>
    rw [hfind] at he
    rcases SortedMap.mem_of_emplace he with rfl | hmem
    · exact recorded_now (wcDb_of_findDb hfind)
    · exact (h e hmem).later ticks

theorem recorded_assign {k : List ℕ} {FileTime : ℤ} (h : ∀ e ∈ roots.entries, Recorded fs moments e)
    (hk : k = pathKey m p) (hread : fs.wcDb p.GetWinPathString ticks = some FileTime) :
    ∀ e ∈ (roots.assign k (p, ⟨FileTime, ticks⟩)).entries, Recorded fs (moments ++ [ticks]) e := by
  intro e he
  rcases SortedMap.mem_of_assign he with rfl | hmem
  · exact hk ▸ recorded_now hread
  · exact (h e hmem).later ticks

theorem recorded_erase {k : List ℕ} (h : ∀ e ∈ roots.entries, Recorded fs moments e) :
    ∀ e ∈ (roots.erase k).entries, Recorded fs (moments ++ [ticks]) e := fun e he =>
  (h e (List.mem_of_mem_filter he)).later ticks

theorem recorded_get (h : ∀ e ∈ roots.entries, Recorded fs moments e) :
    ∀ e ∈ (GetDBFileTime fs ticks roots path).1.entries, Recorded fs (moments ++ [ticks]) e := by
  rw [GetDBFileTime]
  split
  · rename_i k root times hhead
    have hkey : k = pathKey m root := (h _ (mem_of_head? hhead)).key
    split_ifs
    · split
      · rename_i hread
        exact recorded_assign h hkey hread
      · exact recorded_erase h
    · exact fun e he => (h e he).later ticks
    · exact recorded_add h
  · exact recorded_add h

theorem recorded_notify (m_bVSNETHack : Bool) (h : ∀ e ∈ roots.entries, Recorded fs moments e) :
    ∀ e ∈ (NotifyChange fs ticks m_bVSNETHack roots path).1.entries,
      Recorded fs (moments ++ [ticks]) e := by
  rw [NotifyChange]
  split
  · rename_i k root times hhead
    have hkey : k = pathKey m root := (h _ (mem_of_head? hhead)).key
    split_ifs
    · split
      · rename_i hread
        exact recorded_assign h hkey hread
      · exact recorded_erase h
    · exact fun e he => (h e he).later ticks
  · exact fun e he => (h e he).later ticks

/-- **Every entry of a reachable map records a time that its database had**, when one of the calls
read it. -/
theorem recorded_run (fs : FileSystem m) (m_bVSNETHack : Bool) (events : List Event) :
    ∀ e ∈ (run fs m_bVSNETHack events).entries, Recorded fs (events.map Event.moment) e := by
  induction events using List.reverseRecOn with
  | nil => exact fun e he => absurd he List.not_mem_nil
  | append_singleton events event ih =>
    have hrun : run fs m_bVSNETHack (events ++ [event]) =
        step fs m_bVSNETHack (run fs m_bVSNETHack events) event := by simp [run]
    rw [hrun, List.map_append, List.map_singleton, step]
    cases event.call with
    | addPath path => exact recorded_add ih
    | getDBFileTime path => exact recorded_get ih
    | notifyChange path => exact recorded_notify m_bVSNETHack ih

end Recorded

/-! ### What a call returns -/

section Returned

variable {fs : FileSystem m} {ticks : ℕ} {roots : WCDBs} {path p root : CTSVNPath}
  {times : WCRootsTimes}

/-- What is returned when the path has an entry of its own. -/
theorem getDBFileTime_of_find
    (h : (roots.onward (pathKey m path)).head? = some (pathKey m path, root, times))
    (habove : IsAncestorOf m root path = true) : (GetDBFileTime fs ticks roots path).2 =
      if DBTIMEOUT < ticks - times.LastTicks then (fs.wcDb root.GetWinPathString ticks).getD 0
      else times.FileTime := by
  rw [GetDBFileTime, h]
  simp only [habove, if_true]
  split_ifs
  · cases fs.wcDb root.GetWinPathString ticks with
    | none => rfl
    | some FileTime => rfl
  · rfl

/-- Otherwise the path is added. -/
theorem getDBFileTime_of_not_find (h : ∀ k root times,
    (roots.onward (pathKey m path)).head? = some (k, root, times) →
      IsAncestorOf m root path = false) :
    GetDBFileTime fs ticks roots path = addedTime (AddPathInternal fs ticks roots path) := by
  rw [GetDBFileTime]
  split
  · rename_i k root times hhead
    simp [h k root times hhead]
  · rfl

/-- What is returned for a directory that is found. -/
theorem addedTime_of_findDb {FileTime : ℤ} (h : findDb fs ticks path = some (p, FileTime)) :
    (roots.find (pathKey m p) = none ∧
      (addedTime (AddPathInternal fs ticks roots path)).2 = FileTime) ∨
    ∃ root times, roots.find (pathKey m p) = some (root, times) ∧
      addedTime (AddPathInternal fs ticks roots path) = (roots, times.FileTime) := by
  rw [addedTime, AddPathInternal, h]
  cases hfind : roots.find (pathKey m p) with
  | none =>
    left
    simp [SortedMap.emplace_of_not_find hfind]
  | some entry =>
    right
    obtain ⟨hmap, hcur⟩ := SortedMap.emplace_of_find hfind (p, ⟨FileTime, ticks⟩)
    exact ⟨entry.1, entry.2, rfl, by simp [hmap, hcur]⟩

end Returned

/-! ### Fresh times -/

section Fresh

variable {fs : FileSystem m} {m_bVSNETHack : Bool} {before : List Event} {t : ℕ} {p R : CTSVNPath}

/-- The path of a call. -/
def Call.path : Call → CTSVNPath
  | addPath path => path
  | getDBFileTime path => path
  | notifyChange path => path

/-- A full path whose text is normalised. -/
structure Local (p : CTSVNPath) : Prop where
  normalised : Normalised p.GetWinPathString
  ne_nil : p.GetWinPathString ≠ []

/-- The map is sorted by `operator<`. -/
theorem less_iff_pathKey {q : CTSVNPath} (hp : Local p) (hq : Local q) :
    Less m p q ↔ pathKey m p < pathKey m q :=
  less_iff hp.normalised.noNul hq.normalised.noNul

theorem Local.isEmpty (h : Local p) : p.IsEmpty = false := by
  refine Bool.eq_false_iff.mpr fun hempty => h.ne_nil ?_
  obtain ⟨hback, hfwd⟩ := of_decide_eq_true hempty
  rw [getWinPathString_eq, hback, hfwd]
  rfl

theorem isEmpty_of_key {root : CTSVNPath} (h : Local p) (hkey : pathKey m root = pathKey m p) :
    root.IsEmpty = false := by
  refine Bool.eq_false_iff.mpr fun hempty => h.ne_nil ?_
  obtain ⟨hback, hfwd⟩ := of_decide_eq_true hempty
  have hnil : root.GetWinPathString = [] := by
    rw [getWinPathString_eq, hback, hfwd]
    rfl
  rw [pathKey, hnil, pathKey] at hkey
  exact List.map_eq_nil_iff.mp hkey.symm

/-- The moments of a run are not behind the next one. -/
theorem le_of_clock {moments : List ℕ} {t' : ℕ} (hclock : (moments ++ [t]).Pairwise (· ≤ ·))
    (h : t' ∈ moments) : t' ≤ t :=
  (List.pairwise_append.mp hclock).2.2 t' h t (List.mem_singleton_self t)

/-- The directory that is found is the only root. -/
theorem key_of_findDb {dir : CTSVNPath} {FileTime : ℤ} (hp : Local p) (hR : InsideOnly fs p R t)
    (h : findDb fs t p = some (dir, FileTime)) : pathKey m dir = pathKey m R := by
  obtain ⟨habove, hne⟩ := isAncestorOf_of_findDb hp.normalised.long hp.isEmpty h
  exact hR.only dir hne habove (by simp [wcDb_of_findDb h])

/-- A call returns the time of an entry of its root, or one that it has read. -/
theorem getDBFileTime_cases (hp : Local p) (hR : InsideOnly fs p R t)
    (hbefore : ∀ e ∈ before, InsideOnly fs p R e.moment)
    (hne : (GetDBFileTime fs t (run fs m_bVSNETHack before) p).2 ≠ 0) :
    fs.wcDb R.GetWinPathString t = some (GetDBFileTime fs t (run fs m_bVSNETHack before) p).2 ∨
    ∃ e ∈ (run fs m_bVSNETHack before).entries, pathKey m e.2.1 = pathKey m R ∧
      (GetDBFileTime fs t (run fs m_bVSNETHack before) p).2 = e.2.2.FileTime ∧
      (t - e.2.2.LastTicks ≤ DBTIMEOUT ∨
        pathKey m p ∉ (run fs m_bVSNETHack before).entries.map Prod.fst) := by
  have hrecorded := recorded_run fs m_bVSNETHack before
  generalize run fs m_bVSNETHack before = roots at *
  rcases head?_onward_root (fun e he => (hrecorded e he).key) p with
    ⟨root, times, hfind, hhead, habove⟩ | ⟨hfind, hno⟩
  · have hmem := SortedMap.find_eq_some_iff.mp hfind
    have hentry := hrecorded _ hmem
    obtain ⟨event, hevent, hmoment⟩ := List.mem_map.mp hentry.moment
    have htime := hentry.time
    have hroot : pathKey m root = pathKey m R := by
      refine (hbefore event hevent).only root (isEmpty_of_key hp hentry.key.symm) habove ?_
      rw [hmoment]
      simp [htime]
    rw [getDBFileTime_of_find hhead habove] at hne ⊢
    by_cases hold : DBTIMEOUT < t - times.LastTicks
    · left
      rw [if_pos hold] at hne ⊢
      rw [fs.noCase _ _ t hroot] at hne ⊢
      cases hread : fs.wcDb R.GetWinPathString t with
      | none => exact absurd hread hR.present
      | some FileTime => rfl
    · rw [if_neg hold]
      exact .inr ⟨_, hmem, hroot, rfl, .inl (not_lt.mp hold)⟩
  · have hnotMem := SortedMap.find_eq_none_iff.mp hfind
    rw [getDBFileTime_of_not_find hno] at hne ⊢
    cases hdb : findDb fs t p with
    | none =>
      rw [addedTime, AddPathInternal, hdb] at hne
      exact absurd rfl hne
    | some found =>
      have hdir := key_of_findDb hp hR hdb
      rcases addedTime_of_findDb hdb with ⟨-, hvalue⟩ | ⟨root, times, hroot, hvalue⟩
      · left
        rw [hvalue, ← fs.noCase _ _ t hdir]
        exact wcDb_of_findDb hdb
      · right
        have hmem := SortedMap.find_eq_some_iff.mp hroot
        have hkey : pathKey m root = pathKey m R := (hrecorded _ hmem).key.symm.trans hdir
        exact ⟨_, hmem, hkey, by rw [hvalue], .inr hnotMem⟩

/-- **An old entry stays**: for a path without an entry of its own, the time of its root is returned
as it was read, and it is not read again. -/
theorem getDBFileTime_stale (hp : Local p) (hR : InsideOnly fs p R t)
    {e : List ℕ × CTSVNPath × WCRootsTimes} (he : e ∈ (run fs m_bVSNETHack before).entries)
    (hkey : pathKey m e.2.1 = pathKey m R)
    (hown : pathKey m p ∉ (run fs m_bVSNETHack before).entries.map Prod.fst)
    (hfound : findDb fs t p ≠ none) : GetDBFileTime fs t (run fs m_bVSNETHack before) p =
      (run fs m_bVSNETHack before, e.2.2.FileTime) := by
  have hrecorded := recorded_run fs m_bVSNETHack before
  generalize run fs m_bVSNETHack before = roots at *
  rcases head?_onward_root (fun e he => (hrecorded e he).key) p with
    ⟨root, times, hfind, -, -⟩ | ⟨-, hno⟩
  · exact absurd (List.mem_map_of_mem (SortedMap.find_eq_some_iff.mp hfind)) hown
  · obtain ⟨⟨dir, FileTime⟩, hdb⟩ := Option.ne_none_iff_exists'.mp hfound
    have hfind : roots.find (pathKey m dir) = some e.2 := by
      rw [key_of_findDb hp hR hdb, ← hkey, ← (hrecorded e he).key]
      exact SortedMap.find_eq_some_iff.mpr he
    rw [getDBFileTime_of_not_find hno]
    rcases addedTime_of_findDb hdb with ⟨hnone, -⟩ | ⟨root, times, hroot, hvalue⟩
    · exact absurd (hnone.symm.trans hfind) nofun
    · rw [hvalue, ← Option.some.inj (hroot.symm.trans hfind)]

/-- The roots that are recorded stay above the paths that are in them. -/
theorem isAncestorOf_of_key {dir : CTSVNPath} (hR : InsideOnly fs p R t)
    (hkey : pathKey m dir = pathKey m R) : IsAncestorOf m dir p = true := by
  rw [isAncestorOf_key, hkey]
  exact isAncestorOf_key.mp hR.inside

end Fresh

/-- **The time is fresh when the path has an entry of its own or the roots above it were read not
long ago**, whatever was called before.
Source: `WCRoots.cpp` `CWCRoots::GetDBFileTime`, `CWCRoots::AddPathInternal`,
`CWCRoots::NotifyChange` -/
theorem getDBFileTime_fresh (fs : FileSystem m) (m_bVSNETHack : Bool) (events : List Event)
    (hclock : (events.map Event.moment).Pairwise (· ≤ ·)) (hlocal : ∀ e ∈ events, Local e.call.path)
    (before after : List Event) (t : ℕ) (p : CTSVNPath)
    (hevents : events = before ++ ⟨t, .getDBFileTime p⟩ :: after)
    (htimely : Timely m (run fs m_bVSNETHack before) t p) :
    FreshCall fs m_bVSNETHack before t p := by
  subst hevents
  have hp : Local p := hlocal ⟨t, .getDBFileTime p⟩ (by simp)
  have hclock' : (before.map Event.moment ++ [t]).Pairwise (· ≤ ·) := by
    refine hclock.sublist ?_
    rw [List.map_append, List.map_cons]
    exact (List.Sublist.refl _).append (by simp)
  intro R hbefore hR hne
  rcases getDBFileTime_cases hp hR hbefore hne with hread | ⟨e, he, hkey, hvalue, hage⟩
  · exact ⟨t, le_rfl, by omega, hread⟩
  · have hentry := recorded_run fs m_bVSNETHack before e he
    refine ⟨e.2.2.LastTicks, le_of_clock hclock' hentry.moment, ?_, ?_⟩
    · rcases hage with hage | hnot
      · exact hage
      · rcases htimely with hown | hroots
        · exact absurd hown hnot
        · exact hroots e he (isAncestorOf_of_key hR hkey)
    · rw [hvalue, ← fs.noCase _ _ _ hkey]
      exact hentry.time

/-- `C:\wc` -/
def workingCopy : CTSVNPath := ⟨[0x43, 0x3a, 0x5c, 0x77, 0x63], []⟩

/-- `C:\wc\f` -/
def workingFile : CTSVNPath := ⟨[0x43, 0x3a, 0x5c, 0x77, 0x63, 0x5c, 0x66], []⟩

/-- The only database is that of `C:\wc`. It is written once, behind the first moment. -/
def writtenOnce : FileSystem CaseMap.minimal where
  wcDb dir t :=
    if CaseMap.minimal.key dir = pathKey CaseMap.minimal workingCopy then
      some (if t = 0 then 1 else 2)
    else none
  noCase dir dir' t h := by rw [h]

theorem wcDb_writtenOnce (dir : List UInt16) (t : ℕ) : writtenOnce.wcDb dir t =
    if CaseMap.minimal.key dir = pathKey CaseMap.minimal workingCopy then
      some (if t = 0 then 1 else 2)
    else none := rfl

theorem wcDb_workingCopy (t : ℕ) :
    writtenOnce.wcDb workingCopy.GetWinPathString t = some (if t = 0 then 1 else 2) := by
  rw [wcDb_writtenOnce, pathKey, if_pos rfl]

theorem insideOnly_writtenOnce {p : CTSVNPath}
    (h : IsAncestorOf CaseMap.minimal workingCopy p = true) (t : ℕ) :
    InsideOnly writtenOnce p workingCopy t where
  inside := h
  present := by
    rw [wcDb_workingCopy]
    exact Option.some_ne_none _
  only dir _ _ hdb := by
    by_contra hkey
    exact hdb (if_neg hkey)

theorem not_drive {w : List UInt16} (h : w.length ≠ 2) (x : UInt16) : w ≠ [x, colon] := fun heq =>
  h (by rw [heq]; rfl)

theorem local_workingCopy : Local workingCopy where
  normalised := ⟨by decide, by decide, fun h => absurd h (by decide), not_drive (by decide),
    by decide, by decide⟩
  ne_nil := by decide

theorem local_workingFile : Local workingFile where
  normalised := ⟨by decide, by decide, fun h => absurd h (by decide), not_drive (by decide),
    by decide, by decide⟩
  ne_nil := by decide

theorem findDb_workingCopy (t : ℕ) :
    findDb writtenOnce t workingCopy = some (workingCopy, if t = 0 then 1 else 2) := by
  rw [findDb, wcDb_workingCopy]

theorem findDb_workingFile (t : ℕ) :
    findDb writtenOnce t workingFile = some (workingCopy, if t = 0 then 1 else 2) := by
  have hnone : writtenOnce.wcDb workingFile.GetWinPathString t = none := by
    rw [wcDb_writtenOnce, if_neg (by decide)]
  have hdir : workingFile.GetContainingDirectory = workingCopy := by decide
  rw [findDb, hnone, hdir]
  exact findDb_workingCopy t

/-- The map with the entry of `C:\wc`, read at the first moment. -/
theorem run_workingCopy (m_bVSNETHack : Bool) :
    (run writtenOnce m_bVSNETHack [⟨0, .addPath workingCopy⟩]).entries =
      [(pathKey CaseMap.minimal workingCopy, workingCopy, ⟨1, 0⟩)] := by
  change (AddPathInternal writtenOnce 0 SortedMap.empty workingCopy).1.entries = _
  rw [AddPathInternal, findDb_workingCopy]
  rfl

/-- `C:\wc` is added and asked for itself. -/
theorem getDBFileTime_fresh_root :
    FreshCall writtenOnce false [⟨0, .addPath workingCopy⟩] 5 workingCopy := by
  have hlocal : ∀ e ∈ ([⟨0, .addPath workingCopy⟩, ⟨5, .getDBFileTime workingCopy⟩] : List Event),
      Local e.call.path := by
    intro e he
    rcases List.mem_pair.mp he with rfl | rfl
    · exact local_workingCopy
    · exact local_workingCopy
  have hown : pathKey CaseMap.minimal workingCopy ∈
      (run writtenOnce false [⟨0, .addPath workingCopy⟩]).entries.map Prod.fst := by
    rw [run_workingCopy]
    exact List.mem_singleton_self _
  exact getDBFileTime_fresh writtenOnce false _ (by decide) hlocal _ [] 5 workingCopy rfl
    (.inl hown)

/-- `C:\wc` is added, and its file is asked for when the database was written and the entry is
old. -/
theorem not_freshCall : ¬ ∀ (m : CaseMap) (fs : FileSystem m) (m_bVSNETHack : Bool)
    (events : List Event), (events.map Event.moment).Pairwise (· ≤ ·) →
    (∀ e ∈ events, Local e.call.path) → ∀ (before after : List Event) (t : ℕ) (p : CTSVNPath),
    events = before ++ ⟨t, .getDBFileTime p⟩ :: after → FreshCall fs m_bVSNETHack before t p := by
  intro h
  have hfresh := h CaseMap.minimal writtenOnce false
    [⟨0, .addPath workingCopy⟩, ⟨20000, .getDBFileTime workingFile⟩] (by decide)
    (by
      intro e he
      rcases List.mem_pair.mp he with rfl | rfl
      · exact local_workingCopy
      · exact local_workingFile)
    [⟨0, .addPath workingCopy⟩] [] 20000 workingFile rfl workingCopy
    (fun e _ => insideOnly_writtenOnce (by decide) e.moment)
    (insideOnly_writtenOnce (by decide) 20000)
  have hentries := run_workingCopy false
  have he : (pathKey CaseMap.minimal workingCopy, workingCopy, (⟨1, 0⟩ : WCRootsTimes)) ∈
      (run writtenOnce false [⟨0, .addPath workingCopy⟩]).entries := by
    rw [hentries]
    exact List.mem_singleton_self _
  have hown : pathKey CaseMap.minimal workingFile ∉
      (run writtenOnce false [⟨0, .addPath workingCopy⟩]).entries.map Prod.fst := by
    rw [hentries]
    decide
  have hfound : findDb writtenOnce 20000 workingFile ≠ none := by
    rw [findDb_workingFile]
    exact Option.some_ne_none _
  have hstale := getDBFileTime_stale local_workingFile (insideOnly_writtenOnce (by decide) 20000) he
    rfl hown hfound
  rw [hstale] at hfresh
  obtain ⟨t', -, hage, hread⟩ := hfresh (by decide)
  rw [wcDb_workingCopy, DBTIMEOUT] at *
  rw [if_neg (by omega)] at hread
  exact absurd hread (by decide)

end CWCRoots

end TortoiseSvn.TSVNCache
