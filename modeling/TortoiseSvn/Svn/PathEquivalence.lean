import TortoiseSvn.Svn.TSVNPath

/-!
# The same path, set in different ways

The functions that set a path do not all bring its text into the same form, and neither do the two
conversions between the spellings. `IsEquivalentTo` compares the spelling that its left operand has.

Main results: `coherent_iff`, `isEquivalentTo_of_spells`. The comparison is an equivalence that does
not depend on what was called before, iff any two of the paths agree in both spellings or in none.
This is so for normalised texts.
-/

namespace TortoiseSvn.Svn

open Lib

namespace CTSVNPath

/-! ### Setters and accessors -/

/-- How a path is set. -/
inductive Setter where
  | setFromSVN
  | setFromWin
  | setFromWinDirectory
  | setFromUnknown
  deriving DecidableEq

def Setter.set : Setter → List UInt16 → CTSVNPath
  | setFromSVN => SetFromSVN
  | setFromWin => SetFromWin
  | setFromWinDirectory => SetFromWinDirectory
  | setFromUnknown => SetFromUnknown

/-- A function that may be called on a `const` path. -/
inductive Accessor where
  | getWinPathString
  | getSVNPathString
  | ensureBackslashPathSet
  | ensureFwdslashPathSet
  deriving DecidableEq

/-- What a call leaves behind. `IsEquivalentTo` does the same to its right operand. -/
def Accessor.call : Accessor → CTSVNPath → CTSVNPath
  | getWinPathString, p => p.EnsureBackslashPathSet
  | getSVNPathString, p => p.EnsureFwdslashPathSet
  | ensureBackslashPathSet, p => p.EnsureBackslashPathSet
  | ensureFwdslashPathSet, p => p.EnsureFwdslashPathSet

def after (calls : List Accessor) (p : CTSVNPath) : CTSVNPath :=
  calls.foldl (fun p accessor => accessor.call p) p

/-- The comparison of some paths is an equivalence, whatever was called on them before, and the
calls have no influence on it. -/
structure Coherent (paths : Set CTSVNPath) : Prop where
  refl : ∀ x ∈ paths, ∀ cx, IsEquivalentTo (after cx x) (after cx x) = true
  symm : ∀ x ∈ paths, ∀ y ∈ paths, ∀ cx cy, IsEquivalentTo (after cx x) (after cy y) = true →
    IsEquivalentTo (after cy y) (after cx x) = true
  trans : ∀ x ∈ paths, ∀ y ∈ paths, ∀ z ∈ paths, ∀ cx cy cz,
    IsEquivalentTo (after cx x) (after cy y) = true →
    IsEquivalentTo (after cy y) (after cz z) = true →
    IsEquivalentTo (after cx x) (after cz z) = true
  same : ∀ x ∈ paths, ∀ y ∈ paths, ∀ cx cy,
    IsEquivalentTo (after cx x) (after cy y) = IsEquivalentTo x y

/-! ### The two spellings -/

section Spellings

variable {p q : CTSVNPath}

theorem getWinPathString_eq (p : CTSVNPath) : p.GetWinPathString =
    if p.m_sBackslashPath = [] then SetBackslashPath p.m_sFwdslashPath else p.m_sBackslashPath := by
  rw [GetWinPathString, EnsureBackslashPathSet]
  split_ifs <;> rfl

theorem getSVNPathString_eq (p : CTSVNPath) : p.GetSVNPathString =
    if p.m_sFwdslashPath = [] then SetFwdslashPath p.m_sBackslashPath else p.m_sFwdslashPath := by
  rw [GetSVNPathString, EnsureFwdslashPathSet]
  split_ifs <;> rfl

/-- The comparison uses the backslashes if its left operand has them. -/
theorem isEquivalentTo_iff : IsEquivalentTo p q = true ↔
    if p.m_sBackslashPath ≠ [] then p.GetWinPathString = q.GetWinPathString
    else p.GetSVNPathString = q.GetSVNPathString := by
  rw [IsEquivalentTo]
  by_cases hback : p.m_sBackslashPath = []
  · have hsvn : p.GetSVNPathString = p.m_sFwdslashPath := by
      rw [getSVNPathString_eq, hback]
      split_ifs with h
      · exact h.symm
      · rfl
    rw [if_neg (not_not.mpr hback), if_neg (not_not.mpr hback), hsvn,
      arePathStringsEqualWithCase_iff]
    rfl
  · have hwin : p.GetWinPathString = p.m_sBackslashPath := by
      rw [getWinPathString_eq, if_neg hback]
    rw [if_pos hback, if_pos hback, hwin, arePathStringsEqualWithCase_iff]
    rfl

/-- A call changes neither spelling. -/
theorem call_spellings (accessor : Accessor) (p : CTSVNPath) :
    (accessor.call p).GetWinPathString = p.GetWinPathString ∧
      (accessor.call p).GetSVNPathString = p.GetSVNPathString := by
  have hback : p.EnsureBackslashPathSet.GetSVNPathString = p.GetSVNPathString := by
    rw [EnsureBackslashPathSet]
    split_ifs with h
    · rw [getSVNPathString_eq, getSVNPathString_eq]
      dsimp only
      split_ifs with hf
      · rw [hf, h]
        rfl
      · rfl
    · rfl
  have hfwd : p.EnsureFwdslashPathSet.GetWinPathString = p.GetWinPathString := by
    rw [EnsureFwdslashPathSet]
    split_ifs with h
    · rw [getWinPathString_eq, getWinPathString_eq]
      dsimp only
      split_ifs with hb
      · rw [hb, h]
        rfl
      · rfl
    · rfl
  have hfwd' : p.EnsureFwdslashPathSet.GetSVNPathString = p.GetSVNPathString := by
    by_cases h : p.m_sFwdslashPath = []
    · have hset : p.EnsureFwdslashPathSet =
          { p with m_sFwdslashPath := SetFwdslashPath p.m_sBackslashPath } := if_pos h
      rw [hset, getSVNPathString_eq, getSVNPathString_eq, if_pos h]
      exact ite_self _
    · have hset : p.EnsureFwdslashPathSet = p := if_neg h
      rw [hset]
  cases accessor with
  | getWinPathString => exact ⟨p.getWinPathString_ensure, hback⟩
  | getSVNPathString => exact ⟨hfwd, hfwd'⟩
  | ensureBackslashPathSet => exact ⟨p.getWinPathString_ensure, hback⟩
  | ensureFwdslashPathSet => exact ⟨hfwd, hfwd'⟩

theorem after_spellings (calls : List Accessor) (p : CTSVNPath) :
    (after calls p).GetWinPathString = p.GetWinPathString ∧
      (after calls p).GetSVNPathString = p.GetSVNPathString := by
  induction calls generalizing p with
  | nil => exact ⟨rfl, rfl⟩
  | cons accessor calls ih =>
    obtain ⟨hwin, hsvn⟩ := ih (accessor.call p)
    obtain ⟨hwin', hsvn'⟩ := call_spellings accessor p
    exact ⟨hwin.trans hwin', hsvn.trans hsvn'⟩

/-- Backslashes are not lost again. -/
theorem after_back (calls : List Accessor) (hback : p.m_sBackslashPath ≠ []) :
    (after calls p).m_sBackslashPath ≠ [] := by
  induction calls generalizing p with
  | nil => exact hback
  | cons accessor calls ih =>
    refine ih ?_
    have hkeep : p.EnsureBackslashPathSet = p := if_neg hback
    have hfwd : p.EnsureFwdslashPathSet.m_sBackslashPath = p.m_sBackslashPath := by
      rw [EnsureFwdslashPathSet]
      split_ifs <;> rfl
    cases accessor with
    | getWinPathString => exact fun h => hback (hkeep ▸ h)
    | getSVNPathString => exact fun h => hback (hfwd ▸ h)
    | ensureBackslashPathSet => exact fun h => hback (hkeep ▸ h)
    | ensureFwdslashPathSet => exact fun h => hback (hfwd ▸ h)

/-- A path with backslashes has a spelling with backslashes. -/
theorem win_ne_nil (hback : p.m_sBackslashPath ≠ []) : p.GetWinPathString ≠ [] := by
  rwa [getWinPathString_eq, if_neg hback]

/-- Unless both paths were set with backslashes, or neither can be spelled with them, they agree in
both spellings or in none. -/
def SpellingsAgree (p q : CTSVNPath) : Prop :=
  p.m_sBackslashPath = [] ∨ q.m_sBackslashPath = [] →
    p.GetWinPathString ≠ [] ∨ q.GetWinPathString ≠ [] →
      (p.GetWinPathString = q.GetWinPathString ↔ p.GetSVNPathString = q.GetSVNPathString)

theorem isEquivalentTo_after (cp cq : List Accessor) :
    IsEquivalentTo (after cp p) (after cq q) = true ↔
      if (after cp p).m_sBackslashPath ≠ [] then p.GetWinPathString = q.GetWinPathString
      else p.GetSVNPathString = q.GetSVNPathString := by
  rw [isEquivalentTo_iff, (after_spellings cp p).1, (after_spellings cp p).2,
    (after_spellings cq q).1, (after_spellings cq q).2]

/-- The calls have no influence on paths with agreeing spellings. -/
theorem SpellingsAgree.same (h : SpellingsAgree p q) (cp cq : List Accessor) :
    IsEquivalentTo (after cp p) (after cq q) = IsEquivalentTo p q := by
  rw [Bool.eq_iff_iff, isEquivalentTo_after, isEquivalentTo_iff]
  by_cases hp : p.m_sBackslashPath = []
  · rw [if_neg (not_not.mpr hp)]
    by_cases hcp : (after cp p).m_sBackslashPath = []
    · rw [if_neg (not_not.mpr hcp)]
    · rw [if_pos hcp]
      have hwin := win_ne_nil hcp
      rw [(after_spellings cp p).1] at hwin
      exact h (.inl hp) (.inl hwin)
  · rw [if_pos hp, if_pos (after_back cp hp)]

theorem SpellingsAgree.symm (h : SpellingsAgree p q) (hpq : IsEquivalentTo p q = true) :
    IsEquivalentTo q p = true := by
  rw [isEquivalentTo_iff] at hpq ⊢
  by_cases hp : p.m_sBackslashPath = []
  · rw [if_neg (not_not.mpr hp)] at hpq
    by_cases hq : q.m_sBackslashPath = []
    · rw [if_neg (not_not.mpr hq)]
      exact hpq.symm
    · rw [if_pos hq]
      exact ((h (.inl hp) (.inr (win_ne_nil hq))).mpr hpq).symm
  · rw [if_pos hp] at hpq
    by_cases hq : q.m_sBackslashPath = []
    · rw [if_neg (not_not.mpr hq)]
      exact ((h (.inr hq) (.inl (win_ne_nil hp))).mp hpq).symm
    · rw [if_pos hq]
      exact hpq.symm

/-- A path that was set with backslashes is spelled with slashes as its text demands. -/
theorem svn_eq (hset : p.m_sBackslashPath = [] ∨ p.m_sFwdslashPath = [])
    (hback : p.m_sBackslashPath ≠ []) : p.GetSVNPathString = SetFwdslashPath p.GetWinPathString := by
  rw [getSVNPathString_eq, if_pos (hset.resolve_left hback), getWinPathString_eq, if_neg hback]

/-- **The comparison of some paths as they were set is an equivalence that no call changes, iff any
two of them agree in both spellings or in none.** -/
theorem coherent_iff_agree {paths : Set CTSVNPath}
    (hset : ∀ p ∈ paths, p.m_sBackslashPath = [] ∨ p.m_sFwdslashPath = []) :
    Coherent paths ↔ ∀ p ∈ paths, ∀ q ∈ paths, SpellingsAgree p q := by
  constructor
  · intro h p hp q hq hor hwin
    -- a path without backslashes can be compared before and after it gets them
    have hchange : ∀ p ∈ paths, ∀ q ∈ paths, p.m_sBackslashPath = [] → p.GetWinPathString ≠ [] →
        (p.GetWinPathString = q.GetWinPathString ↔ p.GetSVNPathString = q.GetSVNPathString) := by
      intro p hp q hq hback hne
      have hsame := h.same p hp q hq [.ensureBackslashPathSet] []
      rw [Bool.eq_iff_iff, isEquivalentTo_after, isEquivalentTo_iff, if_neg (not_not.mpr hback)]
        at hsame
      rwa [if_pos (show (after [.ensureBackslashPathSet] p).m_sBackslashPath ≠ [] from hne)]
        at hsame
    have hone : ∀ p ∈ paths, ∀ q ∈ paths, p.m_sBackslashPath = [] →
        p.GetWinPathString ≠ [] ∨ q.GetWinPathString ≠ [] →
        (p.GetWinPathString = q.GetWinPathString ↔ p.GetSVNPathString = q.GetSVNPathString) := by
      intro p hp q hq hback hor
      by_cases hne : p.GetWinPathString = []
      · have hqne := hor.resolve_left (not_not.mpr hne)
        by_cases hqback : q.m_sBackslashPath = []
        · exact eq_comm.trans ((hchange q hq p hp hqback hqne).trans eq_comm)
        · have hpq := h.symm p hp q hq [] []
          have hqp := h.symm q hq p hp [] []
          rw [isEquivalentTo_after, isEquivalentTo_after] at hpq hqp
          rw [after, after, List.foldl_nil, List.foldl_nil, if_neg (not_not.mpr hback),
            if_pos hqback] at hpq hqp
          exact ⟨fun heq => hqp heq.symm, fun heq => (hpq heq).symm⟩
      · exact hchange p hp q hq hback hne
    rcases hor with hback | hback
    · exact hone p hp q hq hback hwin
    · exact eq_comm.trans ((hone q hq p hp hback hwin.symm).trans eq_comm)
  · intro h
    refine ⟨fun x hx cx => ?_, fun x hx y hy cx cy hxy => ?_,
      fun x hx y hy z hz cx cy cz hxy hyz => ?_, fun x hx y hy cx cy => (h x hx y hy).same cx cy⟩
    · rw [isEquivalentTo_iff]
      split_ifs <;> rfl
    · rw [(h x hx y hy).same] at hxy
      rw [(h y hy x hx).same]
      exact (h x hx y hy).symm hxy
    · rw [(h x hx y hy).same, isEquivalentTo_iff] at hxy
      rw [(h y hy z hz).same, isEquivalentTo_iff] at hyz
      rw [(h x hx z hz).same, isEquivalentTo_iff]
      by_cases hbx : x.m_sBackslashPath = []
      · rw [if_neg (not_not.mpr hbx)] at hxy ⊢
        by_cases hby : y.m_sBackslashPath = []
        · rw [if_neg (not_not.mpr hby)] at hyz
          exact hxy.trans hyz
        · -- backslashes come in with the middle path
          rw [if_pos hby] at hyz
          refine hxy.trans ?_
          by_cases hbz : z.m_sBackslashPath = []
          · exact (h y hy z hz (.inr hbz) (.inl (win_ne_nil hby))).mp hyz
          · rw [svn_eq (hset y hy) hby, svn_eq (hset z hz) hbz, hyz]
      · rw [if_pos hbx] at hxy ⊢
        by_cases hby : y.m_sBackslashPath = []
        · rw [if_neg (not_not.mpr hby)] at hyz
          have hwin : y.GetWinPathString ≠ [] := hxy ▸ win_ne_nil hbx
          exact hxy.trans ((h y hy z hz (.inl hby) (.inl hwin)).mpr hyz)
        · rw [if_pos hby] at hyz
          exact hxy.trans hyz

end Spellings

/-- Each setter fills one spelling. -/
theorem set_one (setter : Setter) (s : List UInt16) :
    (setter.set s).m_sBackslashPath = [] ∨ (setter.set s).m_sFwdslashPath = [] := by
  cases setter with
  | setFromSVN => exact .inl rfl
  | setFromWin => exact .inr rfl
  | setFromWinDirectory => exact .inr rfl
  | setFromUnknown => exact .inl rfl

/-- **How paths were set does not matter, iff any two of them agree in both spellings or in none.** -/
theorem coherent_iff (inputs : Set (Setter × List UInt16)) :
    Coherent {p | ∃ i ∈ inputs, p = i.1.set i.2} ↔
      ∀ i ∈ inputs, ∀ j ∈ inputs, SpellingsAgree (i.1.set i.2) (j.1.set j.2) := by
  rw [coherent_iff_agree]
  · constructor
    · exact fun h i hi j hj => h _ ⟨i, hi, rfl⟩ _ ⟨j, hj, rfl⟩
    · rintro h - ⟨i, hi, rfl⟩ - ⟨j, hj, rfl⟩
      exact h i hi j hj
  · rintro - ⟨i, -, rfl⟩
    exact set_one i.1 i.2

/-- The path `C:\a` from an unknown source and the Windows path `C:\a\`. -/
theorem not_coherent : ¬ ∀ inputs : Set (Setter × List UInt16),
    Coherent {p | ∃ i ∈ inputs, p = i.1.set i.2} := by
  intro h
  have hsymm := (h {(.setFromUnknown, [0x43, 0x3a, 0x5c, 0x61]),
    (.setFromWin, [0x43, 0x3a, 0x5c, 0x61, 0x5c])}).symm
    _ ⟨_, .inl rfl, rfl⟩ _ ⟨_, .inr rfl, rfl⟩ [] []
  exact absurd (hsymm (by decide)) (by decide)

/-! ### Normalised texts -/

/-- The root of a drive. -/
def IsDriveRoot (w : List UInt16) : Prop := ∃ x, w = [x, colon, backslash]

/-- A text with backslashes that the conversions change into slashes and back. Only the root of a
drive ends in a separator. -/
structure Normalised (w : List UInt16) : Prop where
  noNul : 0 ∉ w
  noSlash : slash ∉ w
  ending : w.getLast? = some backslash → IsDriveRoot w
  drive : ∀ x, w ≠ [x, colon]
  long : ¬ longMark <:+: w
  scheme : ¬ replaceChar slash backslash (fileScheme ++ [slash, slash]) <:+: w

/-- A path that has the text `w` in one or both spellings. -/
structure Spells (p : CTSVNPath) (w : List UInt16) : Prop where
  normalised : Normalised w
  back : p.m_sBackslashPath = [] ∨ p.m_sBackslashPath = w
  fwd : p.m_sFwdslashPath = [] ∨ p.m_sFwdslashPath = replaceChar backslash slash w
  one : p.m_sBackslashPath ≠ [] ∨ p.m_sFwdslashPath = replaceChar backslash slash w

section Normalised

variable {w v : List UInt16} {p q : CTSVNPath}

theorem replaceChar_back (h : slash ∉ w) :
    replaceChar slash backslash (replaceChar backslash slash w) = w := by
  rw [replaceChar, replaceChar, List.map_map]
  refine (List.map_congr_left fun c hc => ?_).trans (List.map_id w)
  have hne : c ≠ slash := fun heq => h (heq ▸ hc)
  show (if (if c = backslash then slash else c) = slash then backslash
    else if c = backslash then slash else c) = c
  by_cases hb : c = backslash
  · rw [if_pos hb, if_pos rfl, hb]
  · rw [if_neg hb, if_neg hne]

theorem fwd_inj (hw : slash ∉ w) (hv : slash ∉ v) :
    replaceChar backslash slash w = replaceChar backslash slash v ↔ w = v := by
  constructor
  · intro heq
    rw [← replaceChar_back hw, heq, replaceChar_back hv]
  · exact congrArg _

/-- An occurrence in the converted text is one in the text. -/
theorem not_infix_fwd {l : List UInt16} (h : slash ∉ w) (hl : ¬ replaceChar slash backslash l <:+: w) :
    ¬ l <:+: replaceChar backslash slash w := by
  intro hsub
  refine hl ?_
  have hmap := hsub.map fun c => if c = slash then backslash else c
  rw [← replaceChar, ← replaceChar, replaceChar_back h] at hmap
  exact hmap

theorem rdropWhile_of_ending {c : UInt16} (h : w.getLast? ≠ some c) :
    w.rdropWhile (fun d => decide (d = c)) = w := by
  rw [List.rdropWhile_eq_self_iff]
  intro hne hlast
  refine h ?_
  rw [List.getLast?_eq_some_getLast hne, of_decide_eq_true hlast]

theorem sanitize_of_ne (h : ∀ x, w ≠ [x, colon]) (fwd : Bool) : SanitizeRootPath w fwd = w := by
  rw [SanitizeRootPath, if_neg]
  rintro ⟨hlen, hcolon⟩
  obtain ⟨x, y, rfl⟩ := List.length_eq_two.mp hlen
  have hy : y = colon := by simpa using hcolon
  exact h x (hy ▸ rfl)

theorem getLast?_fwd (h : slash ∉ w) (hend : w.getLast? ≠ some backslash) :
    (replaceChar backslash slash w).getLast? ≠ some slash := by
  rw [replaceChar, List.getLast?_map]
  intro heq
  obtain ⟨c, hc, hcs⟩ := Option.map_eq_some_iff.mp heq
  have hne : c ≠ backslash := fun hb => hend (hb ▸ hc)
  rw [if_neg hne] at hcs
  exact h (hcs ▸ List.mem_of_getLast? hc)

theorem fwd_ne_drive (h : ∀ x, w ≠ [x, colon]) (x : UInt16) :
    replaceChar backslash slash w ≠ [x, colon] := by
  intro heq
  have hlen : w.length = 2 := by simpa [replaceChar] using congrArg List.length heq
  obtain ⟨y, z, rfl⟩ := List.length_eq_two.mp hlen
  have hz : (if z = backslash then slash else z) = colon := by
    simpa [replaceChar] using (List.cons.inj heq).2
  split_ifs at hz with hb
  · exact absurd hz (by decide)
  · exact h y (hz ▸ rfl)

/-- **The conversion of a normalised text replaces the separators only.** -/
theorem Normalised.setFwdslashPath (h : Normalised w) :
    SetFwdslashPath w = replaceChar backslash slash w := by
  have hlong : ¬ fwdLongMark <:+: replaceChar backslash slash w := not_infix_fwd h.noSlash h.long
  have hscheme := not_infix_fwd h.noSlash h.scheme
  rw [SetFwdslashPath]
  by_cases hend : w.getLast? = some backslash
  · obtain ⟨x, rfl⟩ := h.ending hend
    have htrim : (replaceChar backslash slash [x, colon, backslash]).rdropWhile
        (fun d => decide (d = slash)) = [if x = backslash then slash else x, colon] := rfl
    have hsan : ∀ y, SanitizeRootPath [y, colon] true = [y, colon, slash] := fun _ => rfl
    have hshort : ∀ y, ¬ fwdLongMark <:+: [y, colon] := fun y hsub =>
      absurd (show 4 ≤ 2 from hsub.length_le) (by decide)
    rw [htrim, Text.replace_of_absent (hshort _), hsan]
    exact Text.replace_of_absent hscheme
  · rw [rdropWhile_of_ending (getLast?_fwd h.noSlash hend), Text.replace_of_absent hlong,
      sanitize_of_ne (fwd_ne_drive h.drive), Text.replace_of_absent hscheme]

theorem Normalised.setBackslashPath (h : Normalised w) :
    SetBackslashPath (replaceChar backslash slash w) = w := by
  rw [SetBackslashPath, replaceChar_back h.noSlash]
  by_cases hend : w.getLast? = some backslash
  · obtain ⟨x, rfl⟩ := h.ending hend
    have htrim : [x, colon, backslash].rdropWhile (fun d => decide (d = backslash)) = [x, colon] :=
      rfl
    rw [htrim]
    rfl
  · rw [rdropWhile_of_ending hend, sanitize_of_ne h.drive]

theorem Spells.win (h : Spells p w) : p.GetWinPathString = w := by
  rw [getWinPathString_eq]
  split_ifs with hback
  · rw [h.one.resolve_left (not_not.mpr hback), h.normalised.setBackslashPath]
  · exact h.back.resolve_left hback

theorem Spells.svn (h : Spells p w) : p.GetSVNPathString = replaceChar backslash slash w := by
  rw [getSVNPathString_eq]
  split_ifs with hfwd
  · by_cases hback : p.m_sBackslashPath = []
    · rw [hback, ← h.one.resolve_left (not_not.mpr hback), hfwd]
      rfl
    · rw [h.back.resolve_left hback, h.normalised.setFwdslashPath]
  · exact h.fwd.resolve_left hfwd

/-- **Normalised paths are equivalent iff they have the same text.** -/
theorem isEquivalentTo_of_spells (hp : Spells p w) (hq : Spells q v) :
    IsEquivalentTo p q = true ↔ w = v := by
  rw [isEquivalentTo_iff, hp.win, hq.win, hp.svn, hq.svn]
  split_ifs
  · rfl
  · exact fwd_inj hp.normalised.noSlash hq.normalised.noSlash

/-- A normalised text other than a drive root. -/
theorem normalised_of_ending (hnul : 0 ∉ w) (hslash : slash ∉ w) (hlen : 2 < w.length)
    (hend : w.getLast? ≠ some backslash) (hlong : ¬ longMark <:+: w)
    (hscheme : ¬ replaceChar slash backslash (fileScheme ++ [slash, slash]) <:+: w) :
    Normalised w where
  noNul := hnul
  noSlash := hslash
  ending h := absurd h hend
  drive x h := by
    rw [h] at hlen
    exact absurd hlen (lt_irrefl 2)
  long := hlong
  scheme := hscheme

theorem Spells.ensure (h : Spells p w) : Spells p.EnsureBackslashPathSet w := by
  rw [EnsureBackslashPathSet]
  split_ifs with hback
  · have hfwd := h.one.resolve_left (not_not.mpr hback)
    have hset : SetBackslashPath p.m_sFwdslashPath = w := by
      rw [hfwd, h.normalised.setBackslashPath]
    exact ⟨h.normalised, .inr hset, .inr hfwd, .inr hfwd⟩
  · exact h

theorem spells_back (h : Normalised w) (hne : w ≠ []) : Spells ⟨w, []⟩ w :=
  ⟨h, .inr rfl, .inl rfl, .inl hne⟩

/-- Normalised paths agree in their spellings. -/
theorem spellingsAgree_of_spells (hp : Spells p w) (hq : Spells q v) : SpellingsAgree p q := by
  intro _ _
  rw [hp.win, hq.win, hp.svn, hq.svn]
  exact (fwd_inj hp.normalised.noSlash hq.normalised.noSlash).symm

end Normalised

end CTSVNPath

end TortoiseSvn.Svn
