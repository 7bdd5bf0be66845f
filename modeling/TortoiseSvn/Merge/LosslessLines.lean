import TortoiseSvn.Merge.FileTextLines

/-!
# Loading loses nothing

Every round of the loop in `CFileTextLines::Load` moves one character, or the two of a CRLF or LFCR,
from the text to the lines. The invariant `Splits` says so for the lines that were added, the line
that is read, and the rest of the text.

Main result: `save_load`. A text that is loaded is saved as it was, its lines hold no line ending and
the last line alone has none.
-/

namespace TortoiseSvn.Merge

namespace FileText

/-- The characters that end lines. -/
def eolChars : Text := [0x0d, 0x0a, 0x0b, 0x0c, 0x85, 0x2028, 0x2029]

/-- No character of a text ends a line. -/
def Unbroken (text : Text) : Prop := ∀ c ∈ text, c ∉ eolChars

/-- A line that was ended by an ending of its own. -/
def Ended (l : CFileTextLine) : Prop :=
  Unbroken l.sLine ∧ l.eEnding ≠ .noEnding ∧ l.eEnding ≠ .autoline

/-- What the lines hold together with their own endings. -/
def ownText (ls : List CFileTextLine) : Text := ls.flatMap fun l => l.sLine ++ ownEol l.eEnding

/-- The lines, the begun line and the rest of the text make up the whole text. -/
structure Splits (whole : Text) (st : LoadState) (rest : Text) : Prop where
  ended : ∀ l ∈ st.lines, Ended l
  unbroken : Unbroken st.line
  text : ownText st.lines ++ st.line ++ rest = whole

/-! ### One round -/

section Round

variable {whole : Text} {st : LoadState} {c : UInt16} {rest : Text} {eEol : EOL}

/-- Other characters end no line. -/
theorem notMem_eolChars (h : st.readEol c rest = none) : c ∉ eolChars := by
  intro hc
  simp only [eolChars, List.mem_cons, List.not_mem_nil, or_false] at hc
  rcases hc with rfl | rfl | rfl | rfl | rfl | rfl | rfl
  all_goals exact nomatch h

theorem cons_of_head?_eq {x : UInt16} (h : rest.head? = some x) : rest = x :: rest.tail :=
  (List.cons_head?_tail h).symm

/-- What is skipped behind an ending is the ending. -/
theorem ownEol_append (h : st.readEol c rest = some eEol) :
    ownEol eEol ++ (if eEol = .crlf ∨ eEol = .lfcr then rest.tail else rest) = c :: rest := by
  unfold LoadState.readEol at h
  split_ifs at h with hcr hcrlf hlf hlfcr hvt hff hnel hls hps
  all_goals
    obtain rfl := Option.some.inj h
    subst c
  case pos =>
    rw [if_pos (Or.inl rfl)]
    exact congrArg (List.cons _) (cons_of_head?_eq hcrlf).symm
  case pos =>
    rw [if_pos (Or.inr rfl)]
    exact congrArg (List.cons _) (cons_of_head?_eq hlfcr.1).symm
  all_goals rfl

/-- A round keeps the text and ends a line properly. -/
theorem Splits.step (h : Splits whole st (c :: rest)) :
    Splits whole (st.step c rest).1 (st.step c rest).2 := by
  rcases hread : st.readEol c rest with _ | eEol
  · have hstep : st.step c rest = ({ st with line := st.line ++ [c] }, rest) := by
      rw [LoadState.step, hread]
    rw [hstep]
    refine ⟨h.ended, ?_, ?_⟩
    · intro d hd
      rcases List.mem_append.mp hd with hd | hd
      · exact h.unbroken d hd
      · rw [List.mem_singleton.mp hd]
        exact notMem_eolChars hread
    · rw [← h.text]
      simp
  · have hstep : st.step c rest =
        (st.addLine eEol, if eEol = .crlf ∨ eEol = .lfcr then rest.tail else rest) := by
      rw [LoadState.step, hread]
    rw [hstep]
    refine ⟨?_, fun d hd => absurd hd List.not_mem_nil, ?_⟩
    · intro l hl
      rcases List.mem_append.mp hl with hl | hl
      · exact h.ended l hl
      · rw [List.mem_singleton.mp hl]
        exact ⟨h.unbroken, readEol_ne hread⟩
    · have hown : ownText (st.addLine eEol).lines = ownText st.lines ++ (st.line ++ ownEol eEol) := by
        simp [ownText, LoadState.addLine]
      have hline : (st.addLine eEol).line = [] := rfl
      rw [hown, hline, List.append_nil, ← List.append_assoc, List.append_assoc, ownEol_append hread]
      exact h.text

end Round

/-- The loop keeps them, and ends at the end of the text. -/
theorem Splits.run {whole : Text} {fuel : ℕ} {st : LoadState} {text : Text}
    (hlen : text.length ≤ fuel) (h : Splits whole st text) :
    Splits whole (LoadState.run fuel st text) [] := by
  induction fuel generalizing st text with
  | zero =>
    obtain rfl := List.length_eq_zero_iff.mp (Nat.le_zero.mp hlen)
    exact h
  | succ fuel ih =>
    cases text with
    | nil => exact h
    | cons c rest =>
      refine ih ?_ h.step
      have hrest : (st.step c rest).2.length ≤ rest.length := by
        unfold LoadState.step
        split
        · exact le_rfl
        · dsimp only
          split
          · rw [List.length_tail]
            omega
          · exact le_rfl
      rw [List.length_cons] at hlen
      omega

/-! ### The loaded lines -/

/-- Without a conversion every line is saved with its own ending. -/
theorem encodedEol_own (lineEndings : EOL) {eEol : EOL} (h : eEol ≠ .autoline) :
    encodedEol false lineEndings eEol = ownEol eEol := by
  unfold encodedEol
  rw [if_neg h]
  rfl

/-- **A loaded text is saved as it was.** No character of a line ends lines, and the last line alone
has no ending. -/
theorem save_load (encodingNeedsConversion : Bool) (text : Text) :
    save false (load encodingNeedsConversion text) = text ∧
      (∀ l ∈ (load encodingNeedsConversion text).lines, ∀ c ∈ l.sLine, c ∉ eolChars) ∧
      ∃ front last, (load encodingNeedsConversion text).lines = front ++ [last] ∧
        last.eEnding = .noEnding ∧ ∀ l ∈ front, l.eEnding ≠ .noEnding := by
  have hempty : Splits text {} text :=
    ⟨fun l hl => absurd hl List.not_mem_nil, fun c hc => absurd hc List.not_mem_nil, rfl⟩
  obtain ⟨hended, hunbroken, hsplit⟩ := hempty.run le_rfl
  let st := LoadState.run text.length {} text
  have hlines : (load encodingNeedsConversion text).lines = st.lines ++ [⟨st.line, .noEnding⟩] := rfl
  rw [List.append_nil] at hsplit
  refine ⟨?_, ?_, st.lines, ⟨st.line, .noEnding⟩, hlines, rfl, fun l hl => (hended l hl).2.1⟩
  · have hfront : st.lines.flatMap (fun l => l.sLine ++
        encodedEol false (load encodingNeedsConversion text).lineEndings l.eEnding) =
          ownText st.lines :=
      List.flatMap_congr fun l hl => by rw [encodedEol_own _ (hended l hl).2.2]
    have hlast : encodedEol false (load encodingNeedsConversion text).lineEndings .noEnding = [] := rfl
    rw [save, hlines, List.flatMap_append, List.flatMap_singleton, hfront, hlast, List.append_nil]
    exact hsplit
  · rw [hlines]
    intro l hl
    rcases List.mem_append.mp hl with hl | hl
    · exact (hended l hl).1
    · rw [List.mem_singleton.mp hl]
      exact hunbroken

/-- An LF in front of a CRLF is an ending of its own; an LFCR in front of a letter is one ending. -/
example : ((load false [0x61, 0x0a, 0x0d, 0x0a, 0x0a, 0x0d, 0x62]).lines.map (·.eEnding)) =
    [.lf, .crlf, .lfcr, .noEnding] := by decide

end FileText

end TortoiseSvn.Merge
