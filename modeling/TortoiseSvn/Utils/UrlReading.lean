import TortoiseSvn.Utils.EscapedUrls

/-!
# How a URL reads

A URL may have escapes already. They are kept as long as nothing in the URL needs escaping: behind
the first byte that does, and in the whole of a URL with bytes that are no ASCII characters, a percent
sign is taken for a character, unless it stands for one as `%25`.

A `Piece` is a byte as it is, or an escape. `reading` splits a URL into the pieces that are written for
it; `again` is how the pieces of a URL with brackets are read.

Main results: `passes_reading`, `reading_letters`.
-/

namespace TortoiseSvn.CPathUtils

open Lib.Text

/-! ### Pieces -/

/-- A character of a URI or a bracket, or an escape with two hex digits. -/
inductive Piece
  | raw (c : UInt8) (h : c ≠ percent ∧ (uri_autoescape_chars.getD c.toNat 0 ≠ 0 ∨ IsBracket c))
  | escape (x y : UInt8) (h : isHexDigit x = true ∧ isHexDigit y = true)
  deriving DecidableEq

instance (c : UInt8) : Decidable (IsBracket c) := inferInstanceAs (Decidable (_ ∨ _))

theorem isHexDigit_formatHex (c : UInt8) : isHexDigit (szHex.getD (c.toNat / 16) 0) = true ∧
    isHexDigit (szHex.getD (c.toNat % 16) 0) = true :=
  ⟨(uri_szHex _ (byte_cases c).1.1).2.2, (uri_szHex _ (byte_cases c).1.2).2.2⟩

namespace Piece

def letters : Piece → List UInt8
  | raw c _ => [c]
  | escape x y _ => [percent, x, y]

/-- The escape of a byte. -/
def ofByte (c : UInt8) : Piece := escape _ _ (isHexDigit_formatHex c)

@[simp] theorem letters_ofByte (c : UInt8) : (ofByte c).letters = formatHex c := rfl

/-- A bracket as it is. -/
def IsBracket : Piece → Prop
  | raw c _ => CPathUtils.IsBracket c
  | escape _ _ _ => False

instance (p : Piece) : Decidable p.IsBracket := by
  cases p with
  | raw c h => exact inferInstanceAs (Decidable (CPathUtils.IsBracket c))
  | escape x y h => exact inferInstanceAs (Decidable False)

/-- An escape of a byte other than the percent sign. -/
def Foreign : Piece → Prop
  | raw _ _ => False
  | escape x y _ => [percent, x, y] ≠ ascii ['%', '2', '5']

instance (p : Piece) : Decidable p.Foreign := by
  cases p with
  | raw c h => exact inferInstanceAs (Decidable False)
  | escape x y h => exact inferInstanceAs (Decidable (_ ≠ _))

end Piece

open Piece (letters)

/-! ### The reading -/

/-- The escape at the beginning of a text, if it is kept. -/
def keptEscape (needsEscaping : Bool) : List UInt8 → Option Piece
  | c :: x :: y :: _ =>
    if h : isHexDigit x = true ∧ isHexDigit y = true then
      if c = percent ∧ (needsEscaping = false ∨ [c, x, y] = ascii ['%', '2', '5']) then
        some (.escape x y h)
      else none
    else none
  | _ => none

/-- The pieces that are written for a text, the first bytes of which are left out. -/
def reading : ℕ → Bool → List UInt8 → List Piece
  | _, _, [] => []
  | skip + 1, needsEscaping, _ :: rest => reading skip needsEscaping rest
  | 0, needsEscaping, c :: rest =>
    match keptEscape needsEscaping (c :: rest) with
    | some piece => piece :: reading 2 needsEscaping rest
    | none =>
      if h : c ≠ percent ∧ uri_autoescape_chars.getD c.toNat 0 ≠ 0 then
        .raw c ⟨h.1, Or.inl h.2⟩ :: reading 0 needsEscaping rest
      else .ofByte c :: reading 0 true rest

/-- A byte that is no ASCII character. -/
def isForeignByte (c : UInt8) : Bool := decide (iri_escape_chars.getD c.toNat 0 = 0)

/-- How a URL reads. -/
def readingOf (s : List UInt8) : List Piece := reading 0 (s.any isForeignByte) s

attribute [local simp] reading

theorem reading_drop (skip : ℕ) (needsEscaping : Bool) (s : List UInt8) :
    reading skip needsEscaping s = reading 0 needsEscaping (s.drop skip) := by
  induction skip generalizing s with
  | zero => rfl
  | succ skip ih =>
    cases s with
    | nil => simp
    | cons c s => exact ih s

/-! ### What the passes write -/

/-- A kept escape has three letters. -/
theorem keptEscape_eq_some {needsEscaping : Bool} {s : List UInt8} {p : Piece}
    (h : keptEscape needsEscaping s = some p) : ∃ x y rest, ∃ hxy, s = percent :: x :: y :: rest ∧
      p = .escape x y hxy ∧ (needsEscaping = false ∨ [percent, x, y] = ascii ['%', '2', '5']) := by
  unfold keptEscape at h
  split at h
  · rename_i c x y rest
    split_ifs at h with hxy hc
    obtain ⟨rfl, hkeep⟩ := hc
    exact ⟨x, y, rest, hxy, rfl, (Option.some.inj h).symm, hkeep⟩
  · exact nomatch h

/-- A hex digit is an ASCII character of a URI. -/
theorem hexDigit_facts : ∀ c, isHexDigit c = true → iri_escape_chars.getD c.toNat 0 ≠ 0 ∧
    uri_autoescape_chars.getD c.toNat 0 ≠ 0 ∧ c ≠ percent ∧ c ≠ 0 ∧ c ≠ slash ∧ c ≠ colon ∧
      c ≠ 'i'.toUInt8 ∧ ¬ IsBracket c :=
  Lib.forall_byte (by decide +kernel)

theorem firstLetters_hexDigit {c : UInt8} (h : isHexDigit c = true) : firstLetters c = [c] :=
  if_pos (hexDigit_facts c h).1

/-- What is written for another byte begins with no hex digit. -/
theorem isHexDigit_firstLetters {c : UInt8} (h : isHexDigit c = false) (l : List UInt8) :
    isHexDigit ((firstLetters c ++ l).getD 0 0) = false := by
  unfold firstLetters
  split_ifs
  · exact h
  · rfl

theorem DoesPercentNeedEscaping_eq (l : List UInt8) : DoesPercentNeedEscaping (percent :: l) =
    !(isHexDigit (l.getD 0 0) && isHexDigit (l.getD 1 0)) := by
  have hzero : isHexDigit 0 = false := by decide
  have hfirst : (percent :: l).getD 1 0 = l.getD 0 0 := by simp
  have hsecond : (percent :: l).getD 2 0 = l.getD 1 0 := by simp
  rw [DoesPercentNeedEscaping, hfirst, hsecond]
  by_cases h0 : l.getD 0 0 = 0
  · rw [if_pos h0, h0, hzero]
    rfl
  · rw [if_neg h0]
    cases isHexDigit (l.getD 0 0) <;> cases isHexDigit (l.getD 1 0) <;> rfl

/-- A percent sign is escaped iff no escape that is kept begins there. -/
theorem percentNeedsEscaping_eq {escapedPositions : List ℕ} {i : ℕ} (hi : i ∉ escapedPositions)
    (needsEscaping : Bool) (rest : List UInt8) :
    percentNeedsEscaping escapedPositions i (percent :: rest.flatMap firstLetters) needsEscaping =
      (keptEscape needsEscaping (percent :: rest)).isNone := by
  rw [percentNeedsEscaping, DoesPercentNeedEscaping_eq]
  have hzero : isHexDigit (([] : List UInt8).getD 0 0) = false := by decide
  rcases rest with _ | ⟨x, rest⟩
  · rw [List.flatMap_nil, hzero]
    simp [keptEscape]
  cases hx : isHexDigit x with
  | false =>
    have hnone : keptEscape needsEscaping (percent :: x :: rest) = none := by
      unfold keptEscape
      split
      · rename_i heq
        obtain ⟨rfl, rfl, rfl⟩ : _ ∧ _ ∧ _ := by simpa using heq
        rw [dif_neg (by simp [hx])]
      · rfl
    rw [List.flatMap_cons, isHexDigit_firstLetters hx, hnone]
    simp
  | true =>
    rw [List.flatMap_cons, firstLetters_hexDigit hx]
    rcases rest with _ | ⟨y, rest⟩
    · have hsecond : isHexDigit (([x] ++ [].flatMap firstLetters).getD 1 0) = false := hzero
      rw [hsecond]
      simp [keptEscape]
    cases hy : isHexDigit y with
    | false =>
      have hsecond : ([x] ++ (y :: rest).flatMap firstLetters).getD 1 0 =
          (firstLetters y ++ rest.flatMap firstLetters).getD 0 0 := by simp
      rw [hsecond, isHexDigit_firstLetters hy]
      simp [keptEscape, hy]
    | true =>
      rw [List.flatMap_cons, firstLetters_hexDigit hy]
      by_cases h25 : [percent, x, y] = ascii ['%', '2', '5']
      · simp [keptEscape, hx, hy, h25]
      · cases needsEscaping with
        | false => simp [keptEscape, hx, hy]
        | true => simp [keptEscape, hx, hy, h25, hi]

/-- The positions of the set are those of the escapes of the first pass. -/
theorem mem_escapedPositions (s : List UInt8) (p : FirstPass) (i : ℕ) :
    i ∈ (s.foldl FirstPass.append p).escapedPositions ↔ i ∈ p.escapedPositions ∨
      ∃ front c back, s = front ++ c :: back ∧ iri_escape_chars.getD c.toNat 0 = 0 ∧
        i = p.j + (front.flatMap firstLetters).length := by
  induction s generalizing p with
  | nil => simp
  | cons a s ih =>
    have hj := (p.append_eq a).2.1
    have hnew : i ∈ (p.append a).escapedPositions ↔
        i ∈ p.escapedPositions ∨ iri_escape_chars.getD a.toNat 0 = 0 ∧ i = p.j := by
      unfold FirstPass.append
      split_ifs with hiri
      · exact (or_iff_left fun h => hiri h.1).symm
      · rw [not_not] at hiri
        rw [List.mem_cons, and_iff_right hiri, or_comm]
    rw [List.foldl_cons, ih, hnew, or_assoc, hj]
    refine or_congr_right ⟨?_, ?_⟩
    · rintro (⟨ha, hi⟩ | ⟨front, c, back, rfl, hc, hi⟩)
      · exact ⟨[], a, s, rfl, ha, hi⟩
      · refine ⟨a :: front, c, back, rfl, hc, ?_⟩
        rw [hi, List.flatMap_cons, List.length_append, Nat.add_assoc]
    · rintro ⟨front, c, back, heq, hc, hi⟩
      rcases front with _ | ⟨b, front⟩
      · obtain ⟨rfl, -⟩ := List.cons.inj heq
        exact Or.inl ⟨hc, hi⟩
      · obtain ⟨rfl, rfl⟩ := List.cons.inj heq
        refine Or.inr ⟨front, c, back, rfl, hc, ?_⟩
        rw [hi, List.flatMap_cons, List.length_append, Nat.add_assoc]

theorem firstLetters_ne_nil (c : UInt8) : firstLetters c ≠ [] := by
  unfold firstLetters
  split_ifs
  · exact List.cons_ne_nil _ _
  · exact List.cons_ne_nil _ _

/-- Bytes of a text are told apart by the positions of their letters. -/
theorem eq_of_position {front front' back back' : List UInt8} {c c' : UInt8}
    (h : front ++ c :: back = front' ++ c' :: back')
    (hlength : (front.flatMap firstLetters).length = (front'.flatMap firstLetters).length) :
    c = c' := by
  have hpos : ∀ (l : List UInt8) a, 0 < ((a :: l).flatMap firstLetters).length := by
    intro l a
    have hne := List.length_pos_of_ne_nil (firstLetters_ne_nil a)
    rw [List.flatMap_cons, List.length_append]
    omega
  rcases List.append_eq_append_iff.mp h with ⟨e, rfl, he⟩ | ⟨e, rfl, he⟩
  · rcases e with _ | ⟨a, e⟩
    · exact (List.cons.inj he).1
    · rw [List.flatMap_append, List.length_append] at hlength
      have := hpos e a
      omega
  · rcases e with _ | ⟨a, e⟩
    · exact (List.cons.inj he).1.symm
    · rw [List.flatMap_append, List.length_append] at hlength
      have := hpos e a
      omega

/-- The second pass writes what the text reads. -/
theorem secondPass_reading {escapedPositions : List ℕ} (s : List UInt8) (i : ℕ)
    (hpos : ∀ front c back, s = front ++ c :: back →
      (i + (front.flatMap firstLetters).length ∈ escapedPositions ↔
        iri_escape_chars.getD c.toNat 0 = 0))
    (needsEscaping : Bool) (hflag : ∀ c ∈ s, iri_escape_chars.getD c.toNat 0 = 0 →
      needsEscaping = true) (ret : List UInt8) :
    secondPass escapedPositions i (s.flatMap firstLetters) needsEscaping ret =
      ret ++ (reading 0 needsEscaping s).flatMap letters := by
  induction hn : s.length using Nat.strong_induction_on generalizing s i needsEscaping ret with
  | h n ih =>
    cases s with
    | nil => simp [secondPass]
    | cons c s =>
      -- the rest of the text, behind a byte
      have hrest : ∀ needsEscaping ret, (∀ c ∈ s, iri_escape_chars.getD c.toNat 0 = 0 →
          needsEscaping = true) → secondPass escapedPositions (i + (firstLetters c).length)
            (s.flatMap firstLetters) needsEscaping ret =
              ret ++ (reading 0 needsEscaping s).flatMap letters := by
        intro needsEscaping ret hflag
        apply ih s.length (by simp [← hn]) s _ _ _ hflag _ rfl
        intro front d back heq
        rw [← hpos (c :: front) d back (by rw [heq, List.cons_append]), List.flatMap_cons,
          List.length_append, Nat.add_assoc]
      have htail : ∀ d ∈ s, iri_escape_chars.getD d.toNat 0 = 0 → needsEscaping = true :=
        fun d hd => hflag d (List.mem_cons_of_mem c hd)
      have hi := hpos [] c s rfl
      rw [List.flatMap_nil, List.length_nil, Nat.add_zero] at hi
      rw [List.flatMap_cons, reading]
      cases hkept : keptEscape needsEscaping (c :: s) with
      | some piece =>
        obtain ⟨x, y, rest, hxy, hs, rfl, -⟩ := keptEscape_eq_some hkept
        obtain ⟨rfl, rfl⟩ := List.cons.inj hs
        obtain ⟨-, hxuri, hxp, -⟩ := hexDigit_facts x hxy.1
        obtain ⟨-, hyuri, hyp, -⟩ := hexDigit_facts y hxy.2
        have hiri : iri_escape_chars.getD percent.toNat 0 ≠ 0 := by decide
        have hfirst : firstLetters percent = [percent] := if_pos hiri
        have hneeds := percentNeedsEscaping_eq (fun hmem => hiri (hi.mp hmem)) needsEscaping
          (x :: y :: rest)
        rw [hkept] at hneeds
        have hletters : (x :: y :: rest).flatMap firstLetters =
            x :: y :: rest.flatMap firstLetters := by
          rw [List.flatMap_cons, List.flatMap_cons, firstLetters_hexDigit hxy.1,
            firstLetters_hexDigit hxy.2]
          rfl
        have hrest₃ : secondPass escapedPositions (i + 3) (rest.flatMap firstLetters) needsEscaping
            (ret ++ [percent, x, y]) =
              ret ++ [percent, x, y] ++ (reading 0 needsEscaping rest).flatMap letters := by
          apply ih rest.length (by simp only [← hn, List.length_cons]; omega) rest _ _ _
            (fun d hd => htail d (List.mem_cons_of_mem x (List.mem_cons_of_mem y hd))) _ rfl
          intro front d back heq
          rw [← hpos (percent :: x :: y :: front) d back (by rw [heq]; rfl), List.flatMap_cons,
            List.flatMap_cons, List.flatMap_cons, hfirst, firstLetters_hexDigit hxy.1,
            firstLetters_hexDigit hxy.2]
          simp only [List.length_append, List.length_cons, List.length_nil]
          rw [show i + 3 + (front.flatMap firstLetters).length =
            i + (1 + (1 + (1 + (front.flatMap firstLetters).length))) by omega]
        have hcopy : ¬ (percent = percent ∧ percentNeedsEscaping escapedPositions i
            (percent :: x :: y :: rest.flatMap firstLetters) needsEscaping = true) := by
          rintro ⟨-, htrue⟩
          rw [← hletters, hneeds] at htrue
          exact Bool.false_ne_true htrue
        rw [hletters, hfirst, List.singleton_append, secondPass, if_pos uri_percent, if_neg hcopy,
          secondPass_uri hxuri hxp, secondPass_uri hyuri hyp]
        dsimp only
        rw [reading_drop, List.flatMap_cons]
        simp only [List.append_assoc, List.cons_append, List.nil_append] at hrest₃ ⊢
        exact hrest₃
      | none =>
        dsimp only
        by_cases hraw : c ≠ percent ∧ uri_autoescape_chars.getD c.toNat 0 ≠ 0
        · have hfirst : firstLetters c = [c] := if_pos fun h => hraw.2 (uri_eq_zero_of_iri c h)
          rw [dif_pos hraw, hfirst, List.singleton_append, secondPass_uri hraw.2 hraw.1]
          rw [hfirst] at hrest
          rw [show i + 1 = i + [c].length from rfl, hrest needsEscaping _ htail,
            List.flatMap_cons, List.append_assoc]
          rfl
        · rw [dif_neg hraw, List.flatMap_cons, Piece.letters_ofByte, ← List.append_assoc]
          by_cases hiri : iri_escape_chars.getD c.toNat 0 = 0
          · -- the first pass has escaped it
            have hfirst : firstLetters c = formatHex c := if_neg (not_not.mpr hiri)
            rw [hfirst] at hrest ⊢
            rw [secondPass_formatHex (hi.mpr hiri), hflag c List.mem_cons_self hiri]
            exact hrest true _ fun _ _ _ => rfl
          · have hfirst : firstLetters c = [c] := if_pos hiri
            rw [hfirst] at hrest ⊢
            rw [List.singleton_append]
            have htrue := hrest true (ret ++ formatHex c) fun _ _ _ => rfl
            by_cases hp : c = percent
            · subst hp
              have hneeds := percentNeedsEscaping_eq (fun hmem => hiri (hi.mp hmem)) needsEscaping s
              rw [hkept] at hneeds
              rw [secondPass, if_pos uri_percent, if_pos ⟨rfl, hneeds⟩]
              exact htrue
            · have huri : uri_autoescape_chars.getD c.toNat 0 = 0 := by
                by_contra hne
                exact hraw ⟨hp, hne⟩
              rw [secondPass_escape huri]
              exact htrue

theorem needsEscaping_firstPass (s : List UInt8) (p : FirstPass) :
    (s.foldl FirstPass.append p).needsEscaping = (p.needsEscaping || s.any isForeignByte) := by
  induction s generalizing p with
  | nil => simp
  | cons c s ih =>
    rw [List.foldl_cons, ih, List.any_cons, ← Bool.or_assoc]
    congr 1
    unfold FirstPass.append isForeignByte
    split_ifs with hiri
    · simp only [decide_eq_false hiri, Bool.or_false]
    · rw [not_not] at hiri
      simp only [decide_eq_true hiri, Bool.or_true]

/-- **The two passes write how a URL reads.** -/
theorem passes_reading (s : List UInt8) :
    let first := s.foldl FirstPass.append ⟨[], 0, false, []⟩
    secondPass first.escapedPositions 0 first.ret2 first.needsEscaping [] =
      (readingOf s).flatMap letters := by
  intro first
  have hret : first.ret2 = s.flatMap firstLetters := (firstPass_spec s ⟨[], 0, false, []⟩).1
  have hflag : first.needsEscaping = s.any isForeignByte := by
    rw [needsEscaping_firstPass]
    rfl
  rw [hret, hflag, secondPass_reading s 0 _ _ _ [], List.nil_append]
  · rfl
  · intro front c back heq
    rw [mem_escapedPositions, Nat.zero_add, or_iff_right List.not_mem_nil]
    constructor
    · rintro ⟨front', c', back', heq', hc', hlength⟩
      rw [eq_of_position (heq.symm.trans heq') (by rw [hlength]; exact Nat.zero_add _)]
      exact hc'
    · intro hc
      exact ⟨front, c, back, heq, hc, (Nat.zero_add _).symm⟩
  · intro c hc hiri
    exact List.any_eq_true.mpr ⟨c, hc, decide_eq_true hiri⟩

/-! ### Pieces that are read again -/

namespace Piece

/-- A bracket is escaped. -/
def unbracket : Piece → Piece
  | raw c h => if CPathUtils.IsBracket c then ofByte c else raw c h
  | escape x y h => escape x y h

/-- The percent sign of an escape is escaped. -/
def expand : Piece → List Piece
  | raw c h => [raw c h]
  | escape x y h =>
    [ofByte percent,
      raw x ⟨(hexDigit_facts x h.1).2.2.1, Or.inl (hexDigit_facts x h.1).2.1⟩,
      raw y ⟨(hexDigit_facts y h.2).2.2.1, Or.inl (hexDigit_facts y h.2).2.1⟩]

end Piece

/-- How pieces are read: behind a bracket, escapes are not kept. -/
def again : Bool → List Piece → List Piece
  | _, [] => []
  | needsEscaping, p :: ps =>
    if p.IsBracket then p.unbracket :: again true ps
    else if needsEscaping = true ∧ p.Foreign then p.expand ++ again needsEscaping ps
    else p :: again needsEscaping ps

attribute [local simp] again

theorem keptEscape_raw {c : UInt8} (hc : c ≠ percent) (needsEscaping : Bool) (rest : List UInt8) :
    keptEscape needsEscaping (c :: rest) = none := by
  cases hkept : keptEscape needsEscaping (c :: rest) with
  | none => rfl
  | some p =>
    obtain ⟨x, y, rest', hxy, heq, -⟩ := keptEscape_eq_some hkept
    exact absurd (List.cons.inj heq).1 hc

/-- A byte that is read as it is. -/
theorem reading_raw {c : UInt8} (h : c ≠ percent ∧ uri_autoescape_chars.getD c.toNat 0 ≠ 0)
    (needsEscaping : Bool) (rest : List UInt8) : reading 0 needsEscaping (c :: rest) =
      .raw c ⟨h.1, Or.inl h.2⟩ :: reading 0 needsEscaping rest := by
  rw [reading, keptEscape_raw h.1]
  dsimp only
  rw [dif_pos h]

/-- **The letters of pieces are read again as these pieces, up to the brackets.** -/
theorem reading_letters (needsEscaping : Bool) (ps : List Piece) :
    reading 0 needsEscaping (ps.flatMap letters) = again needsEscaping ps := by
  induction ps generalizing needsEscaping with
  | nil => rfl
  | cons p ps ih =>
    rw [List.flatMap_cons, again]
    cases p with
    | raw c h =>
      rw [letters, List.singleton_append]
      by_cases hc : IsBracket c
      · have huri : ¬ (c ≠ percent ∧ uri_autoescape_chars.getD c.toNat 0 ≠ 0) :=
          fun hand => hand.2 hc.facts.2.2.2.2
        have hbracket : (Piece.raw c h).IsBracket := hc
        rw [if_pos hbracket, reading, keptEscape_raw h.1, ← ih true]
        dsimp only
        rw [dif_neg huri, Piece.unbracket, if_pos hc]
      · have hbracket : ¬ (Piece.raw c h).IsBracket := hc
        have hforeign : ¬ (needsEscaping = true ∧ (Piece.raw c h).Foreign) := fun hand => hand.2
        rw [if_neg hbracket, if_neg hforeign, reading_raw ⟨h.1, h.2.resolve_right hc⟩, ih]
    | escape x y h =>
      have hbracket : ¬ (Piece.escape x y h).IsBracket := fun hc => hc
      rw [if_neg hbracket, letters]
      by_cases hkeep : needsEscaping = false ∨ [percent, x, y] = ascii ['%', '2', '5']
      · have hkept : keptEscape needsEscaping (percent :: x :: y :: ps.flatMap letters) =
            some (.escape x y h) := by
          rw [keptEscape, dif_pos h, if_pos ⟨rfl, hkeep⟩]
        have hnot : ¬ (needsEscaping = true ∧ (Piece.escape x y h).Foreign) := by
          rintro ⟨htrue, hforeign⟩
          rcases hkeep with hfalse | h25
          · exact Bool.false_ne_true (hfalse.symm.trans htrue)
          · exact hforeign h25
        rw [if_neg hnot, ← ih]
        show reading 0 needsEscaping (percent :: x :: y :: ps.flatMap letters) = _
        rw [reading, hkept]
        dsimp only
        rw [reading_drop]
        rfl
      · have hkept : keptEscape needsEscaping (percent :: x :: y :: ps.flatMap letters) = none := by
          rw [keptEscape, dif_pos h, if_neg fun hand => hkeep hand.2]
        obtain ⟨hfalse, h25⟩ := not_or.mp hkeep
        obtain rfl : needsEscaping = true := Bool.eq_true_of_not_eq_false hfalse
        obtain ⟨-, hxuri, hxp, -⟩ := hexDigit_facts x h.1
        obtain ⟨-, hyuri, hyp, -⟩ := hexDigit_facts y h.2
        rw [if_pos ⟨rfl, h25⟩, ← ih true]
        show reading 0 true (percent :: x :: y :: ps.flatMap letters) = _
        rw [reading, hkept]
        dsimp only
        rw [dif_neg fun hand => hand.1 rfl, reading_raw ⟨hxp, hxuri⟩, reading_raw ⟨hyp, hyuri⟩]
        rfl

/-- The letters of pieces are ASCII characters. -/
theorem isForeignByte_letters (ps : List Piece) : (ps.flatMap letters).any isForeignByte = false := by
  have hpercent : isForeignByte percent = false := by decide
  have hhex : ∀ c, isHexDigit c = true → isForeignByte c = false := fun c hc =>
    decide_eq_false (hexDigit_facts c hc).1
  rw [List.any_flatMap, List.any_eq_false]
  intro p _
  rw [Bool.not_eq_true]
  cases p with
  | raw c h =>
    rw [letters, List.any_cons, List.any_nil, Bool.or_false]
    rcases h.2 with huri | rfl | rfl
    · exact decide_eq_false fun hiri => huri (uri_eq_zero_of_iri c hiri)
    · decide
    · decide
  | escape x y h => simp [letters, hpercent, hhex x h.1, hhex y h.2]

theorem zero_notMem_pieces (ps : List Piece) : 0 ∉ ps.flatMap letters := by
  have hhex : isHexDigit 0 = false := by decide
  intro hmem
  obtain ⟨p, -, hp⟩ := List.mem_flatMap.mp hmem
  cases p with
  | raw c h =>
    obtain rfl := List.mem_singleton.mp hp
    exact absurd h.2 (by decide)
  | escape x y h =>
    rcases List.mem_cons.mp hp with heq | hp
    · exact absurd heq (by decide)
    · rcases List.mem_cons.mp hp with rfl | hp
      · exact Bool.false_ne_true (hhex.symm.trans h.1)
      · obtain rfl := List.mem_singleton.mp hp
        exact Bool.false_ne_true (hhex.symm.trans h.2)

/-! ### `file:////\` -/

namespace Piece

/-- The last letter of the piece is an `f`. -/
def EndsWithF : Piece → Prop
  | raw c _ => c = 'f'.toUInt8
  | escape _ y _ => y = 'f'.toUInt8

instance (p : Piece) : Decidable p.EndsWithF := by
  cases p with
  | raw c h => exact inferInstanceAs (Decidable (c = 'f'.toUInt8))
  | escape x y h => exact inferInstanceAs (Decidable (y = 'f'.toUInt8))

end Piece

/-- A character of a URI as it is. -/
def rawPiece (c : Char)
    (h : c.toUInt8 ≠ percent ∧ uri_autoescape_chars.getD c.toUInt8.toNat 0 ≠ 0) : Piece :=
  .raw c.toUInt8 ⟨h.1, Or.inl h.2⟩

/-- `ile://` -/
def ile : List Piece :=
  [rawPiece 'i' (by decide), rawPiece 'l' (by decide), rawPiece 'e' (by decide),
    rawPiece ':' (by decide), rawPiece '/' (by decide), rawPiece '/' (by decide)]

/-- `//%5C` -/
def uncBackslash : List Piece :=
  [rawPiece '/' (by decide), rawPiece '/' (by decide), .ofByte '\\'.toUInt8]

/-- The pieces without the two slashes and the backslash of `file:////%5C`. The first pieces are left
out. -/
def shorten : ℕ → List Piece → List Piece
  | _, [] => []
  | skip + 1, _ :: ps => shorten skip ps
  | 0, p :: ps =>
    if p.EndsWithF ∧ ile ++ uncBackslash <+: ps then p :: (ile ++ shorten 9 ps)
    else p :: shorten 0 ps

attribute [local simp] shorten

/-- There is a `file:////%5C` among the letters. -/
def HasFile (ps : List Piece) : Prop :=
  ∃ front p back, ps = front ++ p :: (ile ++ (uncBackslash ++ back)) ∧ p.EndsWithF

theorem shorten_drop (skip : ℕ) (ps : List Piece) : shorten skip ps = shorten 0 (ps.drop skip) := by
  induction skip generalizing ps with
  | zero => rfl
  | succ skip ih =>
    cases ps with
    | nil => simp
    | cons p ps => exact ih ps

theorem isCode_pieces : IsCode letters where
  ne_nil p := by
    cases p with
    | raw c h => exact List.cons_ne_nil _ _
    | escape x y h => exact List.cons_ne_nil _ _
  eq_of_begins p q hpre := by
    cases p with
    | raw c h =>
      cases q with
      | raw d hd =>
        obtain ⟨rfl, -⟩ := List.cons_prefix_cons.mp hpre
        rfl
      | escape x y hd => exact absurd (List.cons_prefix_cons.mp hpre).1 h.1
    | escape x y h =>
      cases q with
      | raw d hd => exact absurd (List.cons_prefix_cons.mp hpre).1.symm hd.1
      | escape x' y' hd =>
        obtain ⟨-, hdigits⟩ := List.cons_prefix_cons.mp hpre
        obtain ⟨rfl, hlast⟩ := List.cons_prefix_cons.mp hdigits
        obtain ⟨rfl, -⟩ := List.cons_prefix_cons.mp hlast
        rfl

/-- `file:////%5C` and `file://` -/
def filePattern : List UInt8 × List UInt8 :=
  (ascii ['f', 'i', 'l', 'e', ':', '/', '/', '/', '/', '%', '5', 'C'],
    ascii ['f', 'i', 'l', 'e', ':', '/', '/'])

theorem filePattern_eq : filePattern.1 = 'f'.toUInt8 :: (ile ++ uncBackslash).flatMap letters ∧
    filePattern.2 = 'f'.toUInt8 :: ile.flatMap letters := by
  constructor
  · decide
  · decide

/-- The replacement at a letter, with pieces behind it. -/
theorem replace_file (c : UInt8) (ps : List Piece) :
    replace filePattern.1 filePattern.2 (c :: ps.flatMap letters) =
      if c = 'f'.toUInt8 ∧ ile ++ uncBackslash <+: ps then
        c :: (ile.flatMap letters ++
          replace filePattern.1 filePattern.2 ((ps.drop 9).flatMap letters))
      else c :: replace filePattern.1 filePattern.2 (ps.flatMap letters) := by
  have hprefix : filePattern.1 <+: c :: ps.flatMap letters ↔
      c = 'f'.toUInt8 ∧ ile ++ uncBackslash <+: ps := by
    rw [filePattern_eq.1, List.cons_prefix_cons, isCode_pieces.prefix_iff, eq_comm]
  split_ifs with hfile
  · obtain ⟨rfl, back, rfl⟩ := hfile
    have hdrop : (ile ++ uncBackslash ++ back).drop 9 = back := List.drop_left' rfl
    have hsplit : 'f'.toUInt8 :: (ile ++ uncBackslash ++ back).flatMap letters =
        filePattern.1 ++ back.flatMap letters := by
      rw [filePattern_eq.1, List.flatMap_append, List.cons_append]
    have hne : filePattern.1 ≠ [] := List.cons_ne_nil _ _
    rw [hdrop, hsplit, replace_at_start hne]
    nth_rewrite 1 [filePattern_eq.2]
    rw [List.cons_append]
  · exact replace_cons (mt hprefix.mp hfile)

/-- **The replacement of `file:////%5C`, for pieces.** -/
theorem replace_filePattern (ps : List Piece) :
    replace filePattern.1 filePattern.2 (ps.flatMap letters) = (shorten 0 ps).flatMap letters := by
  induction hn : ps.length using Nat.strong_induction_on generalizing ps with
  | h n ih =>
    cases ps with
    | nil => rfl
    | cons p ps =>
      have hps := ih ps.length (by simp [← hn]) ps rfl
      have hdrop := ih (ps.drop 9).length (by simp [← hn]) (ps.drop 9) rfl
      have hlast : ∀ c, (c = 'f'.toUInt8 ↔ p.EndsWithF) →
          replace filePattern.1 filePattern.2 (c :: ps.flatMap letters) =
            if p.EndsWithF ∧ ile ++ uncBackslash <+: ps then
              c :: (ile.flatMap letters ++ (shorten 0 (ps.drop 9)).flatMap letters)
            else c :: (shorten 0 ps).flatMap letters := by
        intro c hc
        rw [replace_file, hps, hdrop]
        exact if_congr (and_congr_left' hc) rfl rfl
      rw [shorten, shorten_drop 9]
      cases p with
      | raw c h =>
        rw [List.flatMap_cons, letters, List.singleton_append, hlast c Iff.rfl]
        split_ifs
        · rw [List.flatMap_cons, List.flatMap_append]
          rfl
        · rfl
      | escape x y h =>
        -- no occurrence begins at the percent sign or at the first digit
        have hfirst : ∀ a b (l : List UInt8), a ≠ 'f'.toUInt8 ∨ b ≠ 'i'.toUInt8 →
            ¬ filePattern.1 <+: a :: b :: l := by
          intro a b l hab hpre
          obtain ⟨rfl, htail⟩ := List.cons_prefix_cons.mp hpre
          obtain ⟨rfl, -⟩ := List.cons_prefix_cons.mp htail
          simp at hab
        rw [List.flatMap_cons, letters, List.cons_append, List.cons_append, List.cons_append,
          List.nil_append, replace_cons (hfirst _ _ _ (Or.inl (by decide))),
          replace_cons (hfirst _ _ _ (Or.inr (hexDigit_facts y h.2).2.2.2.2.2.2.1)),
          hlast y Iff.rfl]
        split_ifs
        · rw [List.flatMap_cons, List.flatMap_append]
          rfl
        · rfl

end TortoiseSvn.CPathUtils
