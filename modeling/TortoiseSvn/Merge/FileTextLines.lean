import Mathlib.Logic.Relation
import Mathlib.Tactic
import TortoiseSvn.Merge.ViewData

/-!
# Lines of a text file

`CFileTextLines::Load` splits a text at nine line endings. The diff library knows three of them, and
`Save` replaces the others when the text is saved for a diff. A CR that stays at the end of a line, or
comes from an LFCR, then meets an LF that has replaced the ending of an empty line, and the library
takes both for one ending.

Main result: `keepsLines_iff`. The library sees the lines that were loaded iff there is no such pair of
endings.

Texts are UTF-16 code units, as they are behind the decoder and in front of the encoder; a byte order
mark is no part of them.
-/

namespace TortoiseSvn.Merge

namespace FileText

/-- A text of `wchar_t`. -/
abbrev Text := List UInt16

/-- A line of a file. Source: `FileTextLines.h` `CFileTextLine` -/
structure CFileTextLine where
  sLine : Text
  eEnding : EOL
  deriving DecidableEq, Repr

/-- The lines of a file, whether the file must be converted for the diff library, and the ending that
most of its lines have. Source: `FileTextLines.h` `CFileTextLines` -/
structure CFileTextLines where
  lines : List CFileTextLine
  needsConversion : Bool
  lineEndings : EOL
  deriving DecidableEq, Repr

/-! ### Loading -/

/-- The lines that have been read, the characters from `pLineStart` on, and the number of endings of
each kind. -/
structure LoadState where
  lines : List CFileTextLine := []
  line : Text := []
  countEOLs : EOL → ℕ := fun _ => 0

namespace LoadState

/-- The ending that a character begins, given the characters behind it.
Source: `FileTextLines.cpp` `CFileTextLines::Load`, the `switch` -/
def readEol (st : LoadState) (c : UInt16) (rest : Text) : Option EOL :=
  if c = 0x0d then some (if rest.head? = some 0x0a then .crlf else .cr)
  else if c = 0x0a then
    -- "double check that this is not just a LF followed by CRLF"
    some (if rest.head? = some 0x0d ∧
        ¬ ((1 < st.countEOLs .crlf ∨ 1 < st.countEOLs .lf ∨ st.lines.length < 2) ∧
          rest.tail.head? = some 0x0a) then .lfcr else .lf)
  else if c = 0x0b then some .vt
  else if c = 0x0c then some .ff
  else if c = 0x85 then some .nel
  else if c = 0x2028 then some .ls
  else if c = 0x2029 then some .ps
  else none

/-- Source: `FileTextLines.cpp` `CFileTextLines::Load`, `CStdFileLineArray::Add` -/
def addLine (st : LoadState) (eEol : EOL) : LoadState where
  lines := st.lines ++ [⟨st.line, eEol⟩]
  line := []
  countEOLs := Function.update st.countEOLs eEol (st.countEOLs eEol + 1)

/-- One round of the loop: the state and the rest of the text.
Source: `FileTextLines.cpp` `CFileTextLines::Load` -/
def step (st : LoadState) (c : UInt16) (rest : Text) : LoadState × Text :=
  match st.readEol c rest with
  | none => ({ st with line := st.line ++ [c] }, rest)
  | some eEol =>
    (st.addLine eEol, if eEol = .crlf ∨ eEol = .lfcr then rest.tail else rest)

/-- The loop, as many rounds as there are characters at most.
Source: `FileTextLines.cpp` `CFileTextLines::Load` -/
def run : ℕ → LoadState → Text → LoadState
  | 0, st, _ => st
  | _ + 1, st, [] => st
  | n + 1, st, c :: rest => run n (st.step c rest).1 (st.step c rest).2

end LoadState

/-- The endings in the order of the source. Source: `EOL.h` -/
def allEols : List EOL :=
  [.autoline, .crlf, .lf, .cr, .lfcr, .vt, .ff, .nel, .ls, .ps, .noEnding]

/-- The first of the most frequent endings.
Source: `FileTextLines.cpp` `CFileTextLines::Load`, `eolmax` -/
def mostFrequent (countEOLs : EOL → ℕ) : EOL :=
  (allEols.foldl (fun best nEol =>
    if best.1 < countEOLs nEol then (countEOLs nEol, nEol) else best) (0, .autoline)).2

/-- Load a decoded text; the encoding may demand a conversion on its own.
Source: `FileTextLines.cpp` `CFileTextLines::Load` -/
def load (encodingNeedsConversion : Bool) (text : Text) : CFileTextLines :=
  let st := LoadState.run text.length {} text
  { lines := st.lines ++ [⟨st.line, .noEnding⟩]
    needsConversion := encodingNeedsConversion || [EOL.crlf, .ff, .vt, .nel, .ls, .ps].any
      fun eEol => st.countEOLs eEol ≠ 0
    lineEndings := mostFrequent st.countEOLs }

/-! ### Saving -/

/-- The endings that the diff library supports; the others are empty at first.
Source: `FileTextLines.cpp` `CFileTextLines::Save`, "cache EOLs" -/
def supportedEol : EOL → Text
  | .lf => [0x0a]
  | .cr => [0x0d]
  | .crlf => [0x0d, 0x0a]
  | _ => []

/-- The endings for the diff library.
Source: `FileTextLines.cpp` `CFileTextLines::Save` with `bUseSVNCompatibleEOLs` -/
def svnEol : EOL → Text
  | .lfcr => supportedEol .cr
  | .noEnding => []
  | eEol => if supportedEol eEol = [] then supportedEol .lf else supportedEol eEol

/-- All endings.
Source: `FileTextLines.cpp` `CFileTextLines::Save` without `bUseSVNCompatibleEOLs` -/
def ownEol : EOL → Text
  | .lfcr => [0x0a, 0x0d]
  | .vt => [0x0b]
  | .ff => [0x0c]
  | .nel => [0x85]
  | .ls => [0x2028]
  | .ps => [0x2029]
  | eEol => supportedEol eEol

/-- Source: `FileTextLines.cpp` `CFileTextLines::Save`, `oEncodedEol` -/
def encodedEol (bUseSVNCompatibleEOLs : Bool) (lineEndings eEol : EOL) : Text :=
  let table := if bUseSVNCompatibleEOLs then svnEol else ownEol
  if eEol = .autoline then table (if lineEndings = .autoline then .crlf else lineEndings)
  else table eEol

/-- The text that is given to the encoder when nothing is filtered.
Source: `FileTextLines.cpp` `CFileTextLines::Save` -/
def save (bUseSVNCompatibleEOLs : Bool) (f : CFileTextLines) : Text :=
  f.lines.flatMap fun l => l.sLine ++ encodedEol bUseSVNCompatibleEOLs f.lineEndings l.eEnding

/-! ### The lines of the diff library -/

/-- Split a text at CRLF, CR and LF: an LF directly behind a CR is skipped. -/
def splitLoop (line : Text) (behindCr : Bool) : Text → List Text
  | [] => [line]
  | c :: text =>
    if c = 0x0a then
      if behindCr then splitLoop line false text else line :: splitLoop [] false text
    else if c = 0x0d then line :: splitLoop [] true text
    else splitLoop (line ++ [c]) false text

/-- The lines of a text, a last empty one included. -/
def splitLines (text : Text) : List Text := splitLoop [] false text

/-- The diff library sees the lines that were loaded. -/
def KeepsLines (encodingNeedsConversion : Bool) (text : Text) : Prop :=
  let f := load encodingNeedsConversion text
  splitLines (save true f) = f.lines.map CFileTextLine.sLine

/-! ### Endings that join -/

/-- The endings that are saved as an LF. -/
def SavedAsLf (eEol : EOL) : Prop := eEol ∈ [EOL.lf, .vt, .ff, .nel, .ls, .ps]

/-- The endings that are saved as a CR. -/
def SavedAsCr (eEol : EOL) : Prop := eEol = .cr ∨ eEol = .lfcr

instance (eEol : EOL) : Decidable (SavedAsLf eEol) := inferInstanceAs (Decidable (_ ∈ _))

instance (eEol : EOL) : Decidable (SavedAsCr eEol) := inferInstanceAs (Decidable (_ ∨ _))

/-- The ending that a text begins with. -/
def LoadState.firstEol (st : LoadState) : Text → Option EOL
  | [] => none
  | c :: rest => st.readEol c rest

/-- One round of the loop leads from a state and a text to others. -/
def Reads (p q : LoadState × Text) : Prop := ∃ c rest, p.2 = c :: rest ∧ q = p.1.step c rest

/-- No ending that is saved as a CR is read directly in front of one that is saved as an LF. -/
def NoJoin (p : LoadState × Text) : Prop :=
  ∀ q c rest, Relation.ReflTransGen Reads p q → q.2 = c :: rest →
    ∀ eEol, q.1.readEol c rest = some eEol → SavedAsCr eEol →
      ∀ eEol', (q.1.step c rest).1.firstEol (q.1.step c rest).2 = some eEol' → ¬ SavedAsLf eEol'

theorem noJoin_nil (st : LoadState) : NoJoin (st, []) := by
  intro q c rest hreads hq
  rcases Relation.ReflTransGen.cases_head hreads with rfl | ⟨r, ⟨c', rest', hr, -⟩, -⟩
  · exact nomatch hq
  · exact nomatch hr

theorem noJoin_cons (st : LoadState) (c : UInt16) (rest : Text) :
    NoJoin (st, c :: rest) ↔ NoJoin (st.step c rest) ∧
      ∀ eEol, st.readEol c rest = some eEol → SavedAsCr eEol →
        ∀ eEol', (st.step c rest).1.firstEol (st.step c rest).2 = some eEol' → ¬ SavedAsLf eEol' := by
  constructor
  · intro h
    refine ⟨fun q c' rest' hreads => h q c' rest' (hreads.head ⟨c, rest, rfl, rfl⟩), ?_⟩
    exact h (st, c :: rest) c rest Relation.ReflTransGen.refl rfl
  · rintro ⟨hnext, hhere⟩ q c' rest' hreads hq
    rcases Relation.ReflTransGen.cases_head hreads with rfl | ⟨r, ⟨c'', rest'', hr, rfl⟩, hreads'⟩
    · obtain ⟨rfl, rfl⟩ := List.cons.inj hq
      exact hhere
    · obtain ⟨rfl, rfl⟩ := List.cons.inj hr
      exact hnext q c' rest' hreads' hq

/-! ### Lines that are saved -/

/-- A text without the endings of the diff library. -/
def Plain (text : Text) : Prop := (0x0a : UInt16) ∉ text ∧ (0x0d : UInt16) ∉ text

/-- Lines as they are loaded: all but the last one have an ending. -/
def Proper : List CFileTextLine → Prop
  | [] => False
  | [l] => Plain l.sLine ∧ l.eEnding = .noEnding
  | l :: l' :: ls => Plain l.sLine ∧ l.eEnding ≠ .noEnding ∧ l.eEnding ≠ .autoline ∧
      Proper (l' :: ls)

/-- No empty line that ends in an LF comes behind a line that ends in a CR, as they are saved. -/
def Kept : Bool → List CFileTextLine → Prop
  | _, [] => True
  | behindCr, l :: ls => ¬ (behindCr ∧ l.sLine = [] ∧ SavedAsLf l.eEnding) ∧
      Kept (SavedAsCr l.eEnding) ls

/-- What is written for some lines. -/
def savedText (lineEndings : EOL) (ls : List CFileTextLine) : Text :=
  ls.flatMap fun l => l.sLine ++ encodedEol true lineEndings l.eEnding

theorem splitLoop_plain {content : Text} (h : Plain content) (line : Text) (behindCr : Bool)
    (text : Text) : splitLoop line behindCr (content ++ text) =
      splitLoop (line ++ content) (behindCr && content.isEmpty) text := by
  induction content generalizing line behindCr with
  | nil => simp
  | cons c content ih =>
    obtain ⟨hlf, hcr⟩ := h
    rw [List.mem_cons, not_or] at hlf hcr
    rw [List.cons_append, splitLoop, if_neg (Ne.symm hlf.1), if_neg (Ne.symm hcr.1),
      ih ⟨hlf.2, hcr.2⟩]
    simp

/-- The three ways in which an ending is saved. -/
theorem encodedEol_cases {eEol : EOL} (h : eEol ≠ .noEnding) (h' : eEol ≠ .autoline)
    (lineEndings : EOL) :
    (SavedAsLf eEol ∧ ¬ SavedAsCr eEol ∧ encodedEol true lineEndings eEol = [0x0a]) ∨
      (SavedAsCr eEol ∧ ¬ SavedAsLf eEol ∧ encodedEol true lineEndings eEol = [0x0d]) ∨
      (¬ SavedAsLf eEol ∧ ¬ SavedAsCr eEol ∧ encodedEol true lineEndings eEol = [0x0d, 0x0a]) := by
  cases eEol
  case noEnding => exact absurd rfl h
  case autoline => exact absurd rfl h'
  all_goals simp [SavedAsLf, SavedAsCr, encodedEol, svnEol, supportedEol]

/-- A line in front of others: it is split off, or joins the line in front of it. -/
theorem splitLoop_line {l : CFileTextLine} {ls : List CFileTextLine} (hplain : Plain l.sLine)
    (h : l.eEnding ≠ .noEnding) (h' : l.eEnding ≠ .autoline) (lineEndings : EOL) (behindCr : Bool) :
    splitLoop [] behindCr (savedText lineEndings (l :: ls)) =
      if behindCr ∧ l.sLine = [] ∧ SavedAsLf l.eEnding then
        splitLoop [] false (savedText lineEndings ls)
      else l.sLine :: splitLoop [] (SavedAsCr l.eEnding) (savedText lineEndings ls) := by
  rw [savedText, List.flatMap_cons, List.append_assoc, splitLoop_plain hplain, List.nil_append]
  change splitLoop l.sLine (behindCr && l.sLine.isEmpty)
    (encodedEol true lineEndings l.eEnding ++ savedText lineEndings ls) = _
  rcases encodedEol_cases h h' lineEndings with ⟨hlf, hcr, heol⟩ | ⟨hcr, hlf, heol⟩ | ⟨hlf, hcr, heol⟩
  · rw [heol, List.singleton_append, splitLoop, if_pos rfl]
    by_cases hjoin : behindCr ∧ l.sLine = []
    · rw [if_pos (by simp [hjoin]), if_pos ⟨hjoin.1, hjoin.2, hlf⟩, hjoin.2]
    · rw [if_neg (by simpa using hjoin), if_neg fun hall => hjoin ⟨hall.1, hall.2.1⟩]
      simp [hcr]
  · rw [heol, List.singleton_append, splitLoop, if_neg (by decide), if_pos rfl,
      if_neg fun hall => hlf hall.2.2]
    simp [hcr]
  · rw [heol, if_neg fun hall => hlf hall.2.2]
    show splitLoop l.sLine _ (0x0d :: 0x0a :: savedText lineEndings ls) = _
    rw [splitLoop, if_neg (by decide), if_pos rfl, splitLoop, if_pos rfl, if_pos rfl]
    simp [hcr]

/-- The library sees the lines iff none is joined to the one in front of it; it never sees more. -/
theorem splitLoop_iff {ls : List CFileTextLine} (h : Proper ls) (lineEndings : EOL)
    (behindCr : Bool) :
    (splitLoop [] behindCr (savedText lineEndings ls) = ls.map CFileTextLine.sLine ↔
        Kept behindCr ls) ∧
      (splitLoop [] behindCr (savedText lineEndings ls)).length ≤ ls.length := by
  induction ls generalizing behindCr with
  | nil => exact h.elim
  | cons l ls ih =>
    cases ls with
    | nil =>
      obtain ⟨hplain, hending⟩ := h
      have hsplit : splitLoop [] behindCr (savedText lineEndings [l]) = [l.sLine] := by
        rw [savedText, List.flatMap_singleton, hending, splitLoop_plain hplain]
        rfl
      refine ⟨iff_of_true hsplit ⟨fun hjoin => ?_, trivial⟩, by rw [hsplit]; exact le_rfl⟩
      rw [hending] at hjoin
      exact absurd hjoin.2.2 (by decide)
    | cons l' ls =>
      obtain ⟨hplain, hne, hne', hproper⟩ := h
      rw [splitLoop_line hplain hne hne', List.map_cons, Kept]
      by_cases hjoin : behindCr ∧ l.sLine = [] ∧ SavedAsLf l.eEnding
      · rw [if_pos hjoin]
        have hlen := (ih hproper false).2
        refine ⟨iff_of_false (fun heq => ?_) fun hkept => hkept.1 hjoin, by
          rw [List.length_cons]; omega⟩
        rw [heq, List.length_cons, List.length_map] at hlen
        omega
      · rw [if_neg hjoin]
        obtain ⟨hiff, hlen⟩ := ih hproper (SavedAsCr l.eEnding)
        refine ⟨?_, by rw [List.length_cons, List.length_cons]; omega⟩
        rw [List.cons_inj_right, hiff]
        exact (and_iff_right hjoin).symm

/-! ### Lines that are loaded -/

section Load

variable {st : LoadState} {c : UInt16} {rest text : Text} {eEol : EOL}

theorem not_savedAsLf_noEnding : ¬ SavedAsLf .noEnding := by decide

theorem readEol_ne (h : st.readEol c rest = some eEol) : eEol ≠ .noEnding ∧ eEol ≠ .autoline := by
  unfold LoadState.readEol at h
  split_ifs at h
  all_goals
    obtain rfl := Option.some.inj h
    exact ⟨nofun, nofun⟩

theorem ne_of_readEol_none (h : st.readEol c rest = none) : c ≠ 0x0a ∧ c ≠ 0x0d := by
  constructor
  · rintro rfl
    exact nomatch h
  · rintro rfl
    exact nomatch h

/-- The loop reads proper lines, none of which joins another one iff their endings do not. -/
theorem run_spec {fuel : ℕ} (hlen : text.length ≤ fuel) (hplain : Plain st.line) :
    ∃ first ls, (LoadState.run fuel st text).lines ++
        [⟨(LoadState.run fuel st text).line, .noEnding⟩] = st.lines ++ first :: ls ∧
      Proper (first :: ls) ∧
      (first.sLine = [] ∧ SavedAsLf first.eEnding ↔
        st.line = [] ∧ ∃ eEol, st.firstEol text = some eEol ∧ SavedAsLf eEol) ∧
      (Kept false (first :: ls) ↔ NoJoin (st, text)) := by
  induction fuel generalizing st text with
  | zero =>
    obtain rfl := List.length_eq_zero_iff.mp (Nat.le_zero.mp hlen)
    refine ⟨⟨st.line, .noEnding⟩, [], rfl, ⟨hplain, rfl⟩, ?_, ?_⟩
    · exact iff_of_false (fun h => not_savedAsLf_noEnding h.2) fun ⟨_, _, h, _⟩ => nomatch h
    · exact iff_of_true ⟨fun h => absurd h.1 (by decide), trivial⟩ (noJoin_nil st)
  | succ fuel ih =>
    cases text with
    | nil =>
      refine ⟨⟨st.line, .noEnding⟩, [], rfl, ⟨hplain, rfl⟩, ?_, ?_⟩
      · exact iff_of_false (fun h => not_savedAsLf_noEnding h.2) fun ⟨_, _, h, _⟩ => nomatch h
      · exact iff_of_true ⟨fun h => absurd h.1 (by decide), trivial⟩ (noJoin_nil st)
    | cons c rest =>
      rw [List.length_cons] at hlen
      rw [LoadState.run, noJoin_cons]
      rcases hread : st.readEol c rest with _ | eEol
      · -- the line goes on
        have hstep : st.step c rest = ({ st with line := st.line ++ [c] }, rest) := by
          rw [LoadState.step, hread]
        obtain ⟨hlf, hcr⟩ := ne_of_readEol_none hread
        rw [hstep]
        obtain ⟨first, ls, hlines, hproper, hfirst, hkept⟩ := @ih
          { st with line := st.line ++ [c] } rest (by omega) (by
            simp only [Plain, List.mem_append, List.mem_singleton, not_or]
            exact ⟨⟨hplain.1, Ne.symm hlf⟩, hplain.2, Ne.symm hcr⟩)
        refine ⟨first, ls, hlines, hproper, hfirst.trans ?_, hkept.trans ?_⟩
        · refine iff_of_false (fun h => by simpa using h.1) fun ⟨_, eEol, h, _⟩ => ?_
          rw [LoadState.firstEol, hread] at h
          exact nomatch h
        · exact (and_iff_left fun eEol h => nomatch h).symm
      · -- a line ends
        obtain ⟨hne, hne'⟩ := readEol_ne hread
        have hstep : st.step c rest =
            (st.addLine eEol, if eEol = .crlf ∨ eEol = .lfcr then rest.tail else rest) := by
          rw [LoadState.step, hread]
        rw [hstep]
        dsimp only
        generalize hrest : (if eEol = .crlf ∨ eEol = .lfcr then rest.tail else rest) = rest'
        have hlen' : rest'.length ≤ fuel := by
          rw [← hrest]
          split
          · rw [List.length_tail]
            omega
          · omega
        obtain ⟨first, ls, hlines, hproper, hfirst, hkept⟩ := @ih (st.addLine eEol) rest' hlen'
          ⟨List.not_mem_nil, List.not_mem_nil⟩
        refine ⟨⟨st.line, eEol⟩, first :: ls, ?_, ⟨hplain, hne, hne', hproper⟩, ?_, ?_⟩
        · rw [hlines]
          show (st.lines ++ [_]) ++ _ = _
          rw [List.append_assoc]
          rfl
        · refine and_congr_right fun _ => ?_
          rw [LoadState.firstEol, hread]
          simp
        · have hhead : Kept false (⟨st.line, eEol⟩ :: first :: ls) ↔
              ¬ (SavedAsCr eEol ∧ first.sLine = [] ∧ SavedAsLf first.eEnding) ∧
                Kept false (first :: ls) := by
            simp [Kept]
          rw [hhead, hkept, hfirst, and_comm]
          refine and_congr_right fun _ => ⟨fun h eEol' heol hcr eEol'' hnext hlf => ?_,
            fun h ⟨hcr, _, eEol', hnext, hlf⟩ => ?_⟩
          · obtain rfl := Option.some.inj heol
            exact h ⟨hcr, rfl, eEol'', hnext, hlf⟩
          · exact h eEol rfl hcr eEol' hnext hlf

end Load

/-- **The diff library sees the lines that were loaded iff no ending that is saved as a CR is read
directly in front of one that is saved as an LF.** -/
theorem keepsLines_iff (encodingNeedsConversion : Bool) (text : Text) :
    KeepsLines encodingNeedsConversion text ↔ NoJoin ({}, text) := by
  obtain ⟨first, ls, hlines, hproper, -, hkept⟩ := @run_spec {} text text.length le_rfl
    ⟨List.not_mem_nil, List.not_mem_nil⟩
  rw [List.nil_append] at hlines
  unfold KeepsLines splitLines
  dsimp only
  rw [show save true (load encodingNeedsConversion text) =
      savedText (load encodingNeedsConversion text).lineEndings
        (load encodingNeedsConversion text).lines from rfl,
    show (load encodingNeedsConversion text).lines = first :: ls from hlines]
  exact (splitLoop_iff hproper _ false).1.trans hkept

/-- A CR in front of a vertical tab: the library sees two lines, and three were loaded. -/
theorem keepsLines_cr_vt : ¬ ∀ encodingNeedsConversion text,
    KeepsLines encodingNeedsConversion text := fun h =>
  absurd (h false [0x61, 0x0d, 0x0b, 0x62]) (by unfold KeepsLines; decide)

end FileText

end TortoiseSvn.Merge
