import TortoiseSvn.Utils.UrlReading

/-!
# Escaping an escaped URL

`PathEscape` writes the brackets of an IPv6 address as they are, but reads a bracket as a byte that needs
escaping. So a second call escapes the percent signs behind such a bracket.

Main result: `pathEscape_twice_iff`, for which URLs the second call changes nothing.
-/

namespace TortoiseSvn.CPathUtils

open Lib.Text
open Piece (letters)

/-! ### Escapes and brackets -/

/-- An escape or a bracket. -/
def Piece.marked : Piece → Bool
  | .raw c _ => decide (CPathUtils.IsBracket c)
  | .escape _ _ _ => true

/-- The number of escapes and brackets. -/
def marks (ps : List Piece) : ℕ := ps.countP Piece.marked

theorem marks_cons (p : Piece) (ps : List Piece) :
    marks (p :: ps) = marks ps + if p.marked then 1 else 0 := List.countP_cons

theorem marks_append (ps qs : List Piece) : marks (ps ++ qs) = marks ps + marks qs :=
  List.countP_append

/-- Something is shortened iff escapes get lost. -/
theorem shorten_cases (ps : List Piece) : ¬ HasFile ps ∧ shorten 0 ps = ps ∨
    HasFile ps ∧ marks (shorten 0 ps) < marks ps := by
  induction hn : ps.length using Nat.strong_induction_on generalizing ps with
  | h n ih =>
    cases ps with
    | nil =>
      refine Or.inl ⟨?_, rfl⟩
      rintro ⟨front, p, back, heq, -⟩
      simp at heq
    | cons p ps =>
      rw [shorten]
      split_ifs with hfile
      · obtain ⟨hf, back, rfl⟩ := hfile
        have hdrop : (ile ++ uncBackslash ++ back).drop 9 = back := List.drop_left' rfl
        have hle : marks (shorten 0 back) ≤ marks back := by
          have hlt : back.length < n := by
            rw [← hn, List.length_cons, List.length_append]
            omega
          rcases ih back.length hlt back rfl with ⟨-, heq⟩ | ⟨-, hlt⟩
          · rw [heq]
          · exact hlt.le
        refine Or.inr ⟨⟨[], p, back, by simp, hf⟩, ?_⟩
        have hile : marks ile = 0 := by decide
        have hunc : marks uncBackslash = 1 := by decide
        rw [shorten_drop, hdrop, marks_cons, marks_cons, marks_append, marks_append, marks_append,
          hile, hunc]
        omega
      · have hcons : HasFile (p :: ps) ↔ HasFile ps := by
          constructor
          · rintro ⟨front, q, back, heq, hq⟩
            rcases front with _ | ⟨a, front⟩
            · obtain ⟨rfl, rfl⟩ := List.cons.inj heq
              exact absurd ⟨hq, back, by simp⟩ hfile
            · exact ⟨front, q, back, (List.cons.inj heq).2, hq⟩
          · rintro ⟨front, q, back, rfl, hq⟩
            exact ⟨p :: front, q, back, rfl, hq⟩
        rw [hcons, marks_cons, marks_cons]
        rcases ih ps.length (by simp [← hn]) ps rfl with ⟨hno, heq⟩ | ⟨hyes, hlt⟩
        · exact Or.inl ⟨hno, congrArg (p :: ·) heq⟩
        · exact Or.inr ⟨hyes, by omega⟩

/-! ### The second reading -/

/-- Behind a bracket there are no escapes but those of percent signs. -/
def Quiet (ps : List Piece) : Prop :=
  ∀ (i j : ℕ) (b p : Piece), i < j → ps[i]? = some b → b.IsBracket → ps[j]? = some p → ¬ p.Foreign

theorem quiet_cons (p : Piece) (ps : List Piece) :
    Quiet (p :: ps) ↔ (p.IsBracket → ∀ q ∈ ps, ¬ q.Foreign) ∧ Quiet ps := by
  constructor
  · intro h
    refine ⟨fun hp q hq => ?_, fun i j b q hij hb hbracket hq => ?_⟩
    · obtain ⟨j, hj⟩ := List.getElem?_of_mem hq
      exact h 0 (j + 1) p q (by omega) rfl hp hj
    · exact h (i + 1) (j + 1) b q (by omega) hb hbracket hq
  · rintro ⟨hp, h⟩ i j b q hij hb hbracket hq
    rcases j with _ | j
    · omega
    rcases i with _ | i
    · obtain rfl := Option.some.inj hb
      exact hp hbracket q (List.mem_of_getElem? hq)
    · exact h i j b q (by omega) hb hbracket hq

theorem Piece.IsBracket.not_foreign {p : Piece} (h : p.IsBracket) : ¬ p.Foreign := by
  cases p with
  | raw c hc => exact fun hf => hf
  | escape x y hxy => exact fun _ => h

theorem marked_unbracket (p : Piece) : p.unbracket.marked = p.marked := by
  cases p with
  | raw c h =>
    rw [Piece.unbracket]
    split_ifs with hc
    · exact (decide_eq_true hc).symm
    · rfl
  | escape x y h => rfl

/-- A percent sign that is escaped again has one escape in its place. -/
theorem marks_expand {p : Piece} (h : p.Foreign) :
    marks p.expand = 1 ∧ p.marked = true ∧ p.expand.length = 3 := by
  cases p with
  | raw c hc => exact absurd h fun hf => hf
  | escape x y hxy =>
    have hx := (hexDigit_facts x hxy.1).2.2.2.2.2.2.2
    have hy := (hexDigit_facts y hxy.2).2.2.2.2.2.2.2
    refine ⟨?_, rfl, rfl⟩
    rw [Piece.expand, marks_cons, marks_cons, marks_cons]
    simp [Piece.marked, Piece.ofByte, hx, hy, marks]

/-- The second reading keeps the number of escapes and brackets. -/
theorem marks_again (needsEscaping : Bool) (ps : List Piece) :
    marks (again needsEscaping ps) = marks ps := by
  induction ps generalizing needsEscaping with
  | nil => rfl
  | cons p ps ih =>
    rw [again, marks_cons]
    by_cases hbracket : p.IsBracket
    · rw [if_pos hbracket, marks_cons, marked_unbracket, ih]
    · rw [if_neg hbracket]
      by_cases hforeign : needsEscaping = true ∧ p.Foreign
      · obtain ⟨hone, hmarked, -⟩ := marks_expand hforeign.2
        rw [if_pos hforeign, marks_append, ih, hone, if_pos hmarked, Nat.add_comm]
      · rw [if_neg hforeign, marks_cons, ih]

theorem unbracket_of_not {p : Piece} (h : ¬ p.IsBracket) : p.unbracket = p := by
  cases p with
  | raw c hc =>
    have hnot : ¬ IsBracket c := h
    rw [Piece.unbracket, if_neg hnot]
  | escape x y hxy => rfl

/-- Behind a bracket, each escape of another byte than the percent sign gets two pieces more. -/
theorem length_again_true (ps : List Piece) :
    (again true ps).length = ps.length + 2 * ps.countP fun p => decide p.Foreign := by
  induction ps with
  | nil => rfl
  | cons p ps ih =>
    rw [again, List.countP_cons, List.length_cons]
    by_cases hbracket : p.IsBracket
    · have hnot : decide p.Foreign = false := decide_eq_false hbracket.not_foreign
      rw [if_pos hbracket, List.length_cons, ih, hnot]
      simp
      omega
    · rw [if_neg hbracket]
      by_cases hforeign : p.Foreign
      · rw [if_pos ⟨rfl, hforeign⟩, List.length_append, ih, (marks_expand hforeign).2.2,
          if_pos (decide_eq_true hforeign)]
        omega
      · rw [if_neg fun h => hforeign h.2, List.length_cons, ih, decide_eq_false hforeign]
        simp
        omega

theorem again_true {ps : List Piece} (h : ∀ p ∈ ps, ¬ p.Foreign) :
    again true ps = ps.map Piece.unbracket := by
  induction ps with
  | nil => rfl
  | cons p ps ih =>
    obtain ⟨hp, hps⟩ := List.forall_mem_cons.mp h
    rw [again, List.map_cons, ih hps]
    by_cases hbracket : p.IsBracket
    · rw [if_pos hbracket]
    · rw [if_neg hbracket, if_neg fun hand => hp hand.2, unbracket_of_not hbracket]

/-- The second reading has as many pieces iff no escape is escaped again. -/
theorem length_again_iff (ps : List Piece) :
    (again false ps).length = ps.length ↔ Quiet ps := by
  induction ps with
  | nil => exact iff_of_true rfl fun i j b p _ hb => by simp at hb
  | cons p ps ih =>
    rw [again, quiet_cons]
    by_cases hbracket : p.IsBracket
    · have hquiet : (∀ q ∈ ps, ¬ q.Foreign) → Quiet ps := fun h i j b q _ _ _ hq =>
        h q (List.mem_of_getElem? hq)
      have hcount : ps.countP (fun p => decide p.Foreign) = 0 ↔ ∀ q ∈ ps, ¬ q.Foreign := by
        simp [List.countP_eq_zero]
      rw [if_pos hbracket, List.length_cons, List.length_cons, length_again_true,
        and_iff_left_of_imp fun h => hquiet (h hbracket), forall_prop_of_true hbracket, ← hcount]
      omega
    · rw [if_neg hbracket, if_neg fun h => absurd h.1 Bool.false_ne_true, List.length_cons,
        List.length_cons, Nat.add_right_cancel_iff, ih]
      exact (and_iff_right fun h => absurd h hbracket).symm

/-- Then only the brackets are escaped. -/
theorem again_of_quiet {ps : List Piece} (h : Quiet ps) : again false ps = ps.map Piece.unbracket := by
  induction ps with
  | nil => rfl
  | cons p ps ih =>
    obtain ⟨hp, hps⟩ := (quiet_cons p ps).mp h
    rw [again, List.map_cons]
    by_cases hbracket : p.IsBracket
    · rw [if_pos hbracket, again_true (hp hbracket)]
    · rw [if_neg hbracket, if_neg fun hand => absurd hand.1 Bool.false_ne_true, ih hps,
        unbracket_of_not hbracket]

/-! ### The brackets that are put back -/

theorem raw_slash : '/'.toUInt8 ≠ percent ∧ uri_autoescape_chars.getD '/'.toUInt8.toNat 0 ≠ 0 := by
  decide

theorem raw_colon : ':'.toUInt8 ≠ percent ∧ uri_autoescape_chars.getD ':'.toUInt8.toNat 0 ≠ 0 := by
  decide

def slashPiece : Piece := rawPiece '/' raw_slash

def colonPiece : Piece := rawPiece ':' raw_colon

/-- `://%5B` -/
def openPieces : List Piece := [colonPiece, slashPiece, slashPiece, .ofByte '['.toUInt8]

/-- `%5D:` or `%5D/` -/
def closePieces (d : Piece) : List Piece := [.ofByte ']'.toUInt8, d]

/-- An escaped bracket as it is. -/
def Piece.bracket (p : Piece) : Piece :=
  if p = .ofByte '['.toUInt8 then .raw '['.toUInt8 ⟨by decide, Or.inr (Or.inl rfl)⟩
  else if p = .ofByte ']'.toUInt8 then .raw ']'.toUInt8 ⟨by decide, Or.inr (Or.inr rfl)⟩
  else p

/-- The part of the URL that ends with the slash behind the host. -/
def leftPieces (scheme host : List Piece) : List Piece :=
  scheme ++ (openPieces ++ (host ++ [slashPiece]))

/-- The host part behind the first `://%5B`: it ends with a slash, and up to there a bracket is closed
before a colon or a slash. -/
structure HostPart (ps scheme host rest : List Piece) : Prop where
  split : ps = scheme ++ (openPieces ++ (host ++ slashPiece :: rest))
  first : find openPieces ps = some scheme.length
  slash_notMem : slashPiece ∉ host
  closed : closePieces colonPiece <:+: leftPieces scheme host ∨
    closePieces slashPiece <:+: leftPieces scheme host

/-- The piece at this place is a bracket that is put back: the one of `://%5B`, or one before a colon or
a slash up to the end of the host. -/
def PutBack (ps : List Piece) (i : ℕ) : Prop :=
  ∃ scheme host rest, HostPart ps scheme host rest ∧ (i = scheme.length + 3 ∨
    i < (leftPieces scheme host).length ∧ ps[i]? = some (.ofByte ']'.toUInt8) ∧
      (ps[i + 1]? = some colonPiece ∨ ps[i + 1]? = some slashPiece))

open Classical in
/-- The pieces with the brackets put back. -/
noncomputable def restored (ps : List Piece) : List Piece :=
  ps.mapIdx fun i p => if PutBack ps i then p.bracket else p

theorem find_slashPiece {host : List Piece} (h : slashPiece ∉ host) (rest : List Piece) :
    find [slashPiece] (host ++ slashPiece :: rest) = some host.length := by
  apply find_of_first
  intro x y hxy hy hpre
  obtain ⟨c, y, rfl⟩ := List.exists_cons_of_ne_nil hy
  obtain ⟨rfl, -⟩ := List.cons_prefix_cons.mp hpre
  exact h (hxy ▸ List.mem_append_right _ List.mem_cons_self)

section HostPart

variable {ps scheme host rest : List Piece}

theorem HostPart.unique {scheme' host' rest' : List Piece} (h : HostPart ps scheme host rest)
    (h' : HostPart ps scheme' host' rest') : scheme = scheme' ∧ host = host' ∧ rest = rest' := by
  have hlength := Option.some.inj (h.first.symm.trans h'.first)
  obtain ⟨rfl, htail⟩ := List.append_inj (h.split.symm.trans h'.split) hlength
  rw [List.append_cancel_left_eq] at htail
  have hfind := (find_slashPiece h.slash_notMem rest).symm.trans
    ((congrArg _ htail).trans (find_slashPiece h'.slash_notMem rest'))
  obtain ⟨rfl, hrest⟩ := List.append_inj htail (Option.some.inj hfind)
  exact ⟨rfl, rfl, (List.cons.inj hrest).2⟩

theorem HostPart.eq_left (h : HostPart ps scheme host rest) : ps = leftPieces scheme host ++ rest := by
  rw [h.split, leftPieces]
  simp

/-! ### What the code finds -/

theorem starts_of {p : List Piece} {c : UInt8} {cs : List UInt8} (h : p.flatMap letters = c :: cs)
    (hc : isHexDigit c = false) : Starts letters p := by
  refine ⟨c, cs, h, fun q hq => ?_⟩
  cases q with
  | raw d hd => exact List.not_mem_nil hq
  | escape x y hxy =>
    rcases List.mem_cons.mp hq with rfl | hq
    · exact Bool.false_ne_true (hc.symm.trans hxy.1)
    · obtain rfl := List.mem_singleton.mp hq
      exact Bool.false_ne_true (hc.symm.trans hxy.2)

theorem letters_open : openPieces.flatMap letters = ascii [':', '/', '/', '%', '5', 'B'] := by decide

theorem letters_slash : [slashPiece].flatMap letters = ascii ['/'] := by decide

theorem letters_close_colon :
    (closePieces colonPiece).flatMap letters = ascii ['%', '5', 'D', ':'] := by decide

theorem letters_close_slash :
    (closePieces slashPiece).flatMap letters = ascii ['%', '5', 'D', '/'] := by decide

theorem starts_open : Starts letters openPieces := starts_of letters_open (by decide)

theorem starts_slash : Starts letters [slashPiece] := starts_of letters_slash (by decide)

theorem starts_close_colon : Starts letters (closePieces colonPiece) :=
  starts_of letters_close_colon (by decide)

theorem starts_close_slash : Starts letters (closePieces slashPiece) :=
  starts_of letters_close_slash (by decide)

/-- Searching from the beginning. -/
theorem Find_letters {p : List Piece} (hp : Starts letters p) (ps : List Piece) :
    Find (ps.flatMap letters) (p.flatMap letters) 0 =
      (find p ps).map fun n => ((ps.take n).flatMap letters).length := by
  rw [Find, List.drop_zero, isCode_pieces.find_flatMap hp, Option.map_map]
  congr 1
  funext n
  exact Nat.zero_add _

/-- Searching behind some pieces. -/
theorem Find_letters_append {p : List Piece} (hp : Starts letters p) (front back : List Piece) :
    Find ((front ++ back).flatMap letters) (p.flatMap letters) (front.flatMap letters).length =
      (find p back).map fun n =>
        (front.flatMap letters).length + ((back.take n).flatMap letters).length := by
  rw [Find, List.flatMap_append, List.drop_left, isCode_pieces.find_flatMap hp, Option.map_map]
  rfl

theorem letters_pos {ps : List Piece} (h : ps ≠ []) : 0 < (ps.flatMap letters).length := by
  obtain ⟨p, ps, rfl⟩ := List.exists_cons_of_ne_nil h
  have hpos := List.length_pos_of_ne_nil (isCode_pieces.ne_nil p)
  rw [List.flatMap_cons, List.length_append]
  omega

/-- A pattern is found behind the beginning iff it is there and does not stand at the beginning. -/
theorem Find_letters_pos {p : List Piece} (hp : Starts letters p) {ps : List Piece}
    (hfirst : ¬ p <+: ps) : (Find (ps.flatMap letters) (p.flatMap letters) 0).any (0 < ·) = true ↔
      p <:+: ps := by
  rw [Find_letters hp, Option.any_map, Option.any_eq_true]
  constructor
  · rintro ⟨n, hn, -⟩
    obtain ⟨front, back, rfl, -, -⟩ := find_eq_some hn
    exact ⟨front, back, by rw [List.append_assoc]⟩
  · rintro ⟨front, back, rfl⟩
    obtain ⟨n, -, hn⟩ := find_le (p := p) front back
    rw [List.append_assoc] at hfirst ⊢
    refine ⟨n, hn, decide_eq_true ?_⟩
    obtain ⟨x, y, hxy, rfl, -⟩ := find_eq_some hn
    rw [hxy] at hfirst ⊢
    rw [List.take_left]
    apply letters_pos
    rintro rfl
    exact hfirst ⟨y, rfl⟩

/-- The first `://%5B`, and the first slash behind it. -/
theorem handleIpv6_pieces (hfirst : find openPieces ps = some scheme.length)
    (hsplit : ps = scheme ++ (openPieces ++ (host ++ slashPiece :: rest))) (hscheme : scheme ≠ [])
    (hhost : slashPiece ∉ host) (hcolon : ¬ closePieces colonPiece <+: leftPieces scheme host)
    (hslash : ¬ closePieces slashPiece <+: leftPieces scheme host)
    [Decidable (closePieces colonPiece <:+: leftPieces scheme host ∨
      closePieces slashPiece <:+: leftPieces scheme host)] :
    handleIpv6 (ps.flatMap letters) =
      if closePieces colonPiece <:+: leftPieces scheme host ∨
          closePieces slashPiece <:+: leftPieces scheme host then
        unescapeBrackets ((leftPieces scheme host).flatMap letters) ++ rest.flatMap letters
      else ps.flatMap letters := by
  have hlength : (openPieces.flatMap letters).length = 6 := by decide
  have hone : ([slashPiece].flatMap letters).length = 1 := by decide
  have hopen : Find (ps.flatMap letters) (ascii [':', '/', '/', '%', '5', 'B']) 0 =
      some (scheme.flatMap letters).length := by
    rw [← letters_open, Find_letters starts_open, hfirst, Option.map_some, hsplit, List.take_left]
  have hfind : Find (ps.flatMap letters) (ascii ['/']) ((scheme.flatMap letters).length + 6) =
      some ((scheme.flatMap letters).length + 6 + (host.flatMap letters).length) := by
    have happend := Find_letters_append starts_slash (scheme ++ openPieces)
      (host ++ slashPiece :: rest)
    rw [find_slashPiece hhost, Option.map_some, List.take_left, List.append_assoc, ← hsplit,
      List.flatMap_append, List.length_append, hlength, letters_slash] at happend
    exact happend
  have hcut : (scheme.flatMap letters).length + 6 + (host.flatMap letters).length + 1 =
      ((leftPieces scheme host).flatMap letters).length := by
    simp only [leftPieces, List.flatMap_append, List.length_append, hlength, hone]
    omega
  have hps : ps.flatMap letters =
      (leftPieces scheme host).flatMap letters ++ rest.flatMap letters := by
    rw [← List.flatMap_append, hsplit, leftPieces]
    simp
  rw [handleIpv6, hopen]
  dsimp only
  rw [if_pos (letters_pos hscheme), hfind]
  dsimp only
  rw [if_pos (by omega), hcut, hps, List.take_left, List.drop_left, ← letters_close_colon,
    ← letters_close_slash]
  exact if_congr (or_congr (Find_letters_pos starts_close_colon hcolon)
    (Find_letters_pos starts_close_slash hslash)) rfl rfl

/-! ### What is put back -/

/-- `[` and `]` -/
def openBracket : Piece := .raw '['.toUInt8 ⟨by decide, Or.inr (Or.inl rfl)⟩

@[inherit_doc openBracket] def closeBracket : Piece :=
  .raw ']'.toUInt8 ⟨by decide, Or.inr (Or.inr rfl)⟩

/-- Source: the three replacements of `PathUtils.cpp` `CPathUtils::PathEscape`, for pieces -/
def putBrackets (ps : List Piece) : List Piece :=
  let ps := replace openPieces [colonPiece, slashPiece, slashPiece, openBracket] ps
  let ps := replace (closePieces slashPiece) [closeBracket, slashPiece] ps
  replace (closePieces colonPiece) [closeBracket, colonPiece] ps

theorem unescapeBrackets_pieces (ps : List Piece) :
    unescapeBrackets (ps.flatMap letters) = (putBrackets ps).flatMap letters := by
  have hopen : [colonPiece, slashPiece, slashPiece, openBracket].flatMap letters =
      ascii [':', '/', '/', '['] := by decide
  have hslash : [closeBracket, slashPiece].flatMap letters = ascii [']', '/'] := by decide
  have hcolon : [closeBracket, colonPiece].flatMap letters = ascii [']', ':'] := by decide
  rw [unescapeBrackets, ← letters_open, ← hopen, ← letters_close_slash, ← hslash,
    ← letters_close_colon, ← hcolon]
  rw [isCode_pieces.replace_flatMap starts_open, isCode_pieces.replace_flatMap starts_close_slash,
    isCode_pieces.replace_flatMap starts_close_colon]
  rfl

/-- A bracket before a certain piece is put back, and nothing else is. -/
theorem replace_close {d : Piece} (hd : d ≠ .ofByte ']'.toUInt8) (ps : List Piece) (i : ℕ) :
    (replace (closePieces d) [closeBracket, d] ps)[i]? =
      if ps[i]? = some (.ofByte ']'.toUInt8) ∧ ps[i + 1]? = some d then some closeBracket
      else ps[i]? := by
  induction hn : ps.length using Nat.strong_induction_on generalizing ps i with
  | h n ih =>
    by_cases hpre : closePieces d <+: ps
    · obtain ⟨back, rfl⟩ := hpre
      have hlt : back.length < n := by
        rw [← hn, List.length_append]
        exact Nat.lt_add_of_pos_left (by decide : 0 < 2)
      have hne : closePieces d ≠ [] := List.cons_ne_nil _ _
      rw [replace_at_start hne]
      rcases i with _ | _ | i
      · rw [if_pos ⟨rfl, rfl⟩]
        rfl
      · rw [if_neg fun h => hd (Option.some.inj h.1)]
        rfl
      · exact ih back.length hlt back i rfl
    · cases ps with
      | nil => simp
      | cons p ps =>
        rw [replace_cons hpre]
        rcases i with _ | i
        · rw [if_neg]
          · rfl
          · rintro ⟨hp, hnext⟩
            obtain rfl := Option.some.inj hp
            rcases ps with _ | ⟨q, ps⟩
            · exact nomatch hnext
            · obtain rfl := Option.some.inj hnext
              exact hpre ⟨ps, rfl⟩
        · exact ih ps.length (by simp [← hn]) ps i rfl

/-- The bracket of `://%5B` is put back. -/
theorem replace_openPieces (hfirst : find openPieces ps = some scheme.length)
    (hsplit : ps = scheme ++ (openPieces ++ (host ++ slashPiece :: rest)))
    (hhost : slashPiece ∉ host) :
    replace openPieces [colonPiece, slashPiece, slashPiece, openBracket] (leftPieces scheme host) =
      scheme ++ ([colonPiece, slashPiece, slashPiece, openBracket] ++ (host ++ [slashPiece])) := by
  obtain ⟨front, back, hfront, hlength, hbefore⟩ := find_eq_some hfirst
  obtain ⟨rfl, hback⟩ := List.append_inj (hfront.symm.trans hsplit) hlength
  rw [List.append_cancel_left_eq] at hback
  have hscheme : ∀ x y, front = x ++ y → y ≠ [] →
      ¬ openPieces <+: y ++ (openPieces ++ (host ++ [slashPiece])) := by
    intro x y hxy hy hpre
    refine hbefore x y hxy hy (hpre.trans ?_)
    rw [hback]
    exact ⟨rest, by simp⟩
  -- behind it there is only one slash, at the end
  have habsent : ¬ openPieces <:+: host ++ [slashPiece] := by
    rintro ⟨x, y, hxy⟩
    have hdrop : (x ++ (openPieces ++ y)).dropLast = host := by
      rw [← List.append_assoc, hxy, List.dropLast_concat]
    have hne : openPieces ++ y ≠ [] := List.cons_ne_nil _ _
    apply hhost
    rw [← hdrop, List.dropLast_append_of_ne_nil hne]
    exact List.mem_append_right _ (List.mem_cons_of_mem _ List.mem_cons_self)
  have hne : openPieces ≠ [] := List.cons_ne_nil _ _
  rw [leftPieces, replace_append hscheme, replace_at_start hne, replace_of_absent habsent]

theorem length_replace {p q : List Piece} (hp : p ≠ []) (h : p.length = q.length) (l : List Piece) :
    (replace p q l).length = l.length := by
  have htrue : ∀ {p q : List Piece}, p.length = q.length → List.Forall₂ (fun _ _ => True) p q :=
    fun h => List.forall₂_iff_zip.mpr ⟨h, fun _ => trivial⟩
  exact (forall₂_replace (fun _ => trivial) (htrue h) hp l).length_eq.symm

theorem length_putBrackets (ps : List Piece) : (putBrackets ps).length = ps.length := by
  have hclose : ∀ d l, (replace (closePieces d) [closeBracket, d] l).length = l.length :=
    fun d l => length_replace (p := closePieces d) (q := [closeBracket, d])
      (List.cons_ne_nil _ _) rfl l
  rw [putBrackets, hclose, hclose]
  exact length_replace (p := openPieces) (q := [colonPiece, slashPiece, slashPiece, openBracket])
    (List.cons_ne_nil _ _) rfl ps

/-- What stands at a place when the brackets are put back. -/
theorem putBrackets_getElem? (hfirst : find openPieces ps = some scheme.length)
    (hsplit : ps = scheme ++ (openPieces ++ (host ++ slashPiece :: rest)))
    (hhost : slashPiece ∉ host) (i : ℕ) :
    (putBrackets (leftPieces scheme host))[i]? =
      if i = scheme.length + 3 then some openBracket
      else if (leftPieces scheme host)[i]? = some (.ofByte ']'.toUInt8) ∧
        ((leftPieces scheme host)[i + 1]? = some colonPiece ∨
          (leftPieces scheme host)[i + 1]? = some slashPiece) then some closeBracket
      else (leftPieces scheme host)[i]? := by
  have hset : scheme ++ ([colonPiece, slashPiece, slashPiece, openBracket] ++ (host ++ [slashPiece])) =
      (leftPieces scheme host).set (scheme.length + 3) openBracket := by
    rw [leftPieces, List.set_append_right _ _ (by omega), Nat.add_sub_cancel_left]
    rfl
  have hopen : (leftPieces scheme host)[scheme.length + 3]? = some (.ofByte '['.toUInt8) := by
    rw [leftPieces, List.getElem?_append_right (by omega), Nat.add_sub_cancel_left]
    rfl
  have hlt : scheme.length + 3 < (leftPieces scheme host).length :=
    (List.getElem?_eq_some_iff.mp hopen).1
  -- the other pieces are where they were
  have hget : ∀ j, ((leftPieces scheme host).set (scheme.length + 3) openBracket)[j]? =
      if j = scheme.length + 3 then some openBracket else (leftPieces scheme host)[j]? := by
    intro j
    rw [List.getElem?_set]
    by_cases hj : scheme.length + 3 = j
    · rw [if_pos hj, if_pos (hj ▸ hlt), if_pos hj.symm]
    · rw [if_neg hj, if_neg fun h => hj h.symm]
  have hother : ∀ (j : ℕ) (q : Piece), q ≠ openBracket → q ≠ .ofByte '['.toUInt8 →
      (((leftPieces scheme host).set (scheme.length + 3) openBracket)[j]? = some q ↔
        (leftPieces scheme host)[j]? = some q) := by
    intro j q hq hq'
    rw [hget]
    split_ifs with hj
    · rw [hj, hopen]
      exact iff_of_false (fun h => hq (Option.some.inj h).symm) fun h => hq' (Option.some.inj h).symm
    · rfl
  generalize hl : (leftPieces scheme host).set (scheme.length + 3) openBracket = l at hget hother
  have hslash : ∀ j, (replace (closePieces slashPiece) [closeBracket, slashPiece] l)[j]? = _ :=
    replace_close (by decide) l
  have hcolon : (replace (closePieces slashPiece) [closeBracket, slashPiece] l)[i + 1]? =
      some colonPiece ↔ l[i + 1]? = some colonPiece := by
    rw [hslash]
    split_ifs with hand
    · rw [hand.1]
      decide
    · rfl
  have hclose := hother i (.ofByte ']'.toUInt8) (by decide) (by decide)
  have hnextColon := hother (i + 1) colonPiece (by decide) (by decide)
  have hnextSlash := hother (i + 1) slashPiece (by decide) (by decide)
  rw [putBrackets, replace_openPieces hfirst hsplit hhost, hset, hl]
  show (replace (closePieces colonPiece) [closeBracket, colonPiece]
    (replace (closePieces slashPiece) [closeBracket, slashPiece] l))[i]? = _
  rw [replace_close (by decide)]
  have hscheme : l[i]? = some (.ofByte ']'.toUInt8) → i ≠ scheme.length + 3 := by
    rintro hC rfl
    rw [hclose, hopen] at hC
    exact absurd (Option.some.inj hC) (by decide)
  by_cases hC : l[i]? = some (.ofByte ']'.toUInt8)
  · rw [if_neg (hscheme hC)]
    by_cases hS : l[i + 1]? = some slashPiece
    · have hvalue := (hslash i).trans (if_pos ⟨hC, hS⟩)
      refine Eq.trans ?_ (if_pos ⟨hclose.mp hC, Or.inr (hnextSlash.mp hS)⟩).symm
      rw [hvalue]
      exact if_neg fun h => absurd h.1 (by decide)
    · have hvalue := (hslash i).trans (if_neg fun h => hS h.2)
      by_cases hcolonNext : l[i + 1]? = some colonPiece
      · rw [if_pos ⟨hvalue.trans hC, hcolon.mpr hcolonNext⟩,
          if_pos ⟨hclose.mp hC, Or.inl (hnextColon.mp hcolonNext)⟩]
      · rw [if_neg fun h => hcolonNext (hcolon.mp h.2), hvalue, hC, if_neg, hclose.mp hC]
        rintro ⟨-, h | h⟩
        · exact hcolonNext (hnextColon.mpr h)
        · exact hS (hnextSlash.mpr h)
  · have hvalue := (hslash i).trans (if_neg fun h => hC h.1)
    rw [if_neg, hvalue, hget i]
    · rw [if_neg (mt (And.left) (mt hclose.mpr hC))]
    · rw [hvalue]
      exact fun h => hC h.1

/-- A closing bracket is not the last piece up to the host. -/
theorem lt_of_close {i : ℕ} (h : (leftPieces scheme host)[i]? = some (.ofByte ']'.toUInt8)) :
    i + 1 < (leftPieces scheme host).length := by
  have hlast : leftPieces scheme host = (scheme ++ (openPieces ++ host)) ++ [slashPiece] := by
    simp [leftPieces]
  obtain ⟨hi, -⟩ := List.getElem?_eq_some_iff.mp h
  rw [hlast] at h hi ⊢
  rw [List.length_append, List.length_singleton] at hi ⊢
  by_contra hge
  have heq : i = (scheme ++ (openPieces ++ host)).length := by omega
  rw [heq, List.getElem?_append_right (Nat.le_refl _), Nat.sub_self] at h
  exact absurd (Option.some.inj h) (by decide)

theorem HostPart.putBack_iff (h : HostPart ps scheme host rest) (i : ℕ) :
    PutBack ps i ↔ i = scheme.length + 3 ∨
      i < (leftPieces scheme host).length ∧ ps[i]? = some (.ofByte ']'.toUInt8) ∧
        (ps[i + 1]? = some colonPiece ∨ ps[i + 1]? = some slashPiece) := by
  constructor
  · rintro ⟨scheme', host', rest', h', hi⟩
    obtain ⟨rfl, rfl, rfl⟩ := h.unique h'
    exact hi
  · exact fun hi => ⟨scheme, host, rest, h, hi⟩

theorem HostPart.restored_eq (h : HostPart ps scheme host rest) :
    putBrackets (leftPieces scheme host) ++ rest = restored ps := by
  have hps := h.eq_left
  have hlength := length_putBrackets (leftPieces scheme host)
  have hopen : ps[scheme.length + 3]? = some (.ofByte '['.toUInt8) := by
    rw [h.split, List.getElem?_append_right (by omega), Nat.add_sub_cancel_left]
    rfl
  apply List.ext_getElem?
  intro i
  rw [restored, List.getElem?_mapIdx]
  by_cases hi : i < (leftPieces scheme host).length
  · have hsame : ∀ j, j < (leftPieces scheme host).length →
        (leftPieces scheme host)[j]? = ps[j]? := by
      intro j hj
      rw [hps, List.getElem?_append_left hj]
    rw [List.getElem?_append_left (by rwa [hlength]),
      putBrackets_getElem? h.first h.split h.slash_notMem]
    by_cases hscheme : i = scheme.length + 3
    · have hput : PutBack ps i := (h.putBack_iff i).mpr (Or.inl hscheme)
      rw [if_pos hscheme, hscheme, hopen, ← hscheme, Option.map_some, if_pos hput]
      rfl
    · rw [if_neg hscheme]
      by_cases hclose : (leftPieces scheme host)[i]? = some (.ofByte ']'.toUInt8)
      · have hnext := lt_of_close hclose
        rw [hsame i hi] at hclose
        rw [hsame i hi, hsame (i + 1) hnext, hclose, Option.map_some]
        by_cases hbefore : ps[i + 1]? = some colonPiece ∨ ps[i + 1]? = some slashPiece
        · have hput : PutBack ps i := (h.putBack_iff i).mpr (Or.inr ⟨hi, hclose, hbefore⟩)
          rw [if_pos ⟨rfl, hbefore⟩, if_pos hput]
          rfl
        · have hput : ¬ PutBack ps i := fun hput =>
            hbefore (((h.putBack_iff i).mp hput).resolve_left hscheme).2.2
          rw [if_neg fun hand => hbefore hand.2, if_neg hput]
      · have hput : ¬ PutBack ps i := by
          intro hput
          rw [hsame i hi] at hclose
          exact hclose (((h.putBack_iff i).mp hput).resolve_left hscheme).2.1
        rw [if_neg fun hand => hclose hand.1, hsame i hi]
        simp [hput]
  · have hput : ¬ PutBack ps i := by
      intro hput
      rcases (h.putBack_iff i).mp hput with heq | ⟨hlt, -⟩
      · have hlt := (List.getElem?_eq_some_iff.mp hopen).1
        rw [leftPieces, List.length_append, List.length_append] at hi
        simp [openPieces] at hi
        omega
      · exact hi hlt
    have hge : (leftPieces scheme host).length ≤ i := Nat.le_of_not_lt hi
    have hrest : ps[i]? = rest[i - (leftPieces scheme host).length]? := by
      rw [hps, List.getElem?_append_right hge]
    rw [List.getElem?_append_right (by rw [hlength]; exact hge), hlength, hrest]
    simp [hput]

end HostPart

theorem restored_of_not {ps : List Piece} (h : ∀ scheme host rest, ¬ HostPart ps scheme host rest) :
    restored ps = ps := by
  have hput : ∀ i, ¬ PutBack ps i := fun i ⟨scheme, host, rest, hpart, _⟩ => h scheme host rest hpart
  apply List.ext_getElem?
  intro i
  rw [restored, List.getElem?_mapIdx]
  simp [hput]

/-- **The branch for IPv6 addresses puts the brackets back.** -/
theorem handleIpv6_restored {ps : List Piece} (hopen : ¬ openPieces <+: ps)
    (hclose : ∀ d, ¬ closePieces d <+: ps) :
    handleIpv6 (ps.flatMap letters) = (restored ps).flatMap letters := by
  classical
  have hleft : ∀ {scheme host rest d}, ps = leftPieces scheme host ++ rest →
      ¬ closePieces d <+: leftPieces scheme host := by
    intro scheme host rest d heq hpre
    exact hclose d (heq ▸ hpre.trans (List.prefix_append _ _))
  by_cases h : ∃ scheme host rest, HostPart ps scheme host rest
  · obtain ⟨scheme, host, rest, h⟩ := h
    have hscheme : scheme ≠ [] := by
      rintro rfl
      exact hopen ⟨_, h.split.symm⟩
    rw [handleIpv6_pieces h.first h.split hscheme h.slash_notMem (hleft h.eq_left)
      (hleft h.eq_left), if_pos h.closed, unescapeBrackets_pieces, ← List.flatMap_append]
    rw [h.restored_eq]
  · have hno : ∀ scheme host rest, ¬ HostPart ps scheme host rest :=
      fun scheme host rest hpart => h ⟨scheme, host, rest, hpart⟩
    rw [restored_of_not hno]
    have hfind : Find (ps.flatMap letters) (ascii [':', '/', '/', '%', '5', 'B']) 0 = _ :=
      letters_open ▸ Find_letters starts_open ps
    rcases hfirst : find openPieces ps with _ | n
    · rw [handleIpv6, hfind, hfirst]
      rfl
    obtain ⟨scheme, tail, hsplit, rfl, -⟩ := find_eq_some hfirst
    have hscheme : scheme ≠ [] := by
      rintro rfl
      exact hopen ⟨_, hsplit.symm⟩
    rcases hslash : find [slashPiece] tail with _ | m
    · have hlength : (openPieces.flatMap letters).length = 6 := by decide
      have hnone : Find (ps.flatMap letters) (ascii ['/']) ((scheme.flatMap letters).length + 6) =
          none := by
        have happend := Find_letters_append starts_slash (scheme ++ openPieces) tail
        rw [hslash, Option.map_none, List.append_assoc, ← hsplit, List.flatMap_append,
          List.length_append, hlength, letters_slash] at happend
        exact happend
      have htake : ps.take scheme.length = scheme := by rw [hsplit, List.take_left]
      rw [handleIpv6, hfind, hfirst, Option.map_some, htake]
      dsimp only
      rw [if_pos (letters_pos hscheme), hnone]
    · obtain ⟨host, rest, rfl, rfl, hbefore⟩ := find_eq_some hslash
      have hhost : slashPiece ∉ host := by
        intro hmem
        obtain ⟨x, y, rfl⟩ := List.append_of_mem hmem
        exact hbefore x (slashPiece :: y) rfl (List.cons_ne_nil _ _) ⟨y ++ ([slashPiece] ++ rest), rfl⟩
      have hps : ps = leftPieces scheme host ++ rest := by
        rw [hsplit, leftPieces]
        simp
      rw [handleIpv6_pieces hfirst hsplit hscheme hhost (hleft hps) (hleft hps)]
      exact if_neg fun hclosed => hno scheme host rest ⟨hsplit, hfirst, hhost, hclosed⟩

/-! ### Pieces of a URL without brackets -/

theorem length_restored (ps : List Piece) : (restored ps).length = ps.length := by
  rw [restored, List.length_mapIdx]

theorem restored_getElem? {ps : List Piece} {i : ℕ} (h : ¬ PutBack ps i) :
    (restored ps)[i]? = ps[i]? := by
  rw [restored, List.getElem?_mapIdx]
  simp [h]

/-- A bracket that is put back is one. -/
theorem PutBack.bracket {ps : List Piece} {i : ℕ} (h : PutBack ps i) :
    ∃ p, ps[i]? = some p ∧ (restored ps)[i]? = some p.bracket ∧ p.bracket.IsBracket := by
  have hpiece : ps[i]? = some (.ofByte '['.toUInt8) ∨ ps[i]? = some (.ofByte ']'.toUInt8) := by
    obtain ⟨scheme, host, rest, hpart, rfl | ⟨-, hclose, -⟩⟩ := h
    · refine Or.inl ?_
      rw [hpart.split, List.getElem?_append_right (by omega), Nat.add_sub_cancel_left]
      rfl
    · exact Or.inr hclose
  have hget : ∀ p, ps[i]? = some p → (restored ps)[i]? = some p.bracket := by
    intro p hp
    rw [restored, List.getElem?_mapIdx, hp, Option.map_some, if_pos h]
  rcases hpiece with hp | hp
  · exact ⟨_, hp, hget _ hp, Or.inl rfl⟩
  · exact ⟨_, hp, hget _ hp, Or.inr rfl⟩

theorem marked_bracket (p : Piece) : p.bracket.marked = p.marked := by
  unfold Piece.bracket
  split_ifs with hopen hclose
  · rw [hopen]
    rfl
  · rw [hclose]
    rfl
  · rfl

theorem marks_restored (ps : List Piece) : marks (restored ps) = marks ps := by
  have hmap : ∀ ps, marks ps = (ps.map Piece.marked).countP id := fun ps => by
    rw [marks, List.countP_map, Function.id_comp]
  rw [hmap, hmap]
  congr 1
  apply List.ext_getElem?
  intro i
  rw [List.getElem?_map, List.getElem?_map]
  by_cases h : PutBack ps i
  · obtain ⟨p, hp, hrestored, -⟩ := h.bracket
    rw [hp, hrestored, Option.map_some, Option.map_some, marked_bracket]
  · rw [restored_getElem? h]

theorem unbracket_bracket {p : Piece} (h : p.bracket.IsBracket) (hp : ¬ p.IsBracket) :
    p.bracket.unbracket = p := by
  unfold Piece.bracket at h ⊢
  split_ifs with hopen hclose
  · rw [hopen]
    decide
  · rw [hclose]
    decide
  · rw [if_neg hopen, if_neg hclose] at h
    exact absurd h hp

section NoBrackets

variable {ps : List Piece} (hps : ∀ p ∈ ps, ¬ p.IsBracket)

include hps

/-- Escaping the brackets takes putting them back, back. -/
theorem unbracket_restored : (restored ps).map Piece.unbracket = ps := by
  apply List.ext_getElem?
  intro i
  rw [List.getElem?_map]
  by_cases h : PutBack ps i
  · obtain ⟨p, hp, hrestored, hbracket⟩ := h.bracket
    rw [hp, hrestored, Option.map_some, unbracket_bracket hbracket (hps p (List.mem_of_getElem? hp))]
  · rw [restored_getElem? h]
    cases hp : ps[i]? with
    | none => rfl
    | some p => rw [Option.map_some, unbracket_of_not (hps p (List.mem_of_getElem? hp))]

theorem quiet_restored : Quiet (restored ps) ↔ ∀ (i j : ℕ) (p : Piece), i < j → PutBack ps i →
    ps[j]? = some p → p.Foreign → PutBack ps j := by
  constructor
  · intro h i j p hij hi hp hforeign
    by_contra hj
    obtain ⟨b, -, hb, hbracket⟩ := hi.bracket
    exact h i j _ p hij hb hbracket ((restored_getElem? hj).trans hp) hforeign
  · intro h i j b p hij hb hbracket hp hforeign
    have hi : PutBack ps i := by
      by_contra hi
      rw [restored_getElem? hi] at hb
      exact hps b (List.mem_of_getElem? hb) hbracket
    by_cases hj : PutBack ps j
    · obtain ⟨q, -, hq, hbracket⟩ := hj.bracket
      obtain rfl := Option.some.inj (hp.symm.trans hq)
      exact hbracket.not_foreign hforeign
    · exact hj (h i j p hij hi ((restored_getElem? hj).symm.trans hp) hforeign)

end NoBrackets

theorem not_isBracket_ofByte (c : UInt8) : ¬ (Piece.ofByte c).IsBracket := fun h => h

/-- A reading has no brackets. -/
theorem not_isBracket_reading (skip : ℕ) (needsEscaping : Bool) (s : List UInt8) :
    ∀ p ∈ reading skip needsEscaping s, ¬ p.IsBracket := by
  induction s generalizing skip needsEscaping with
  | nil =>
    intro p hp
    cases skip with
    | zero => exact nomatch hp
    | succ skip => exact nomatch hp
  | cons c s ih =>
    cases skip with
    | succ skip => exact ih skip needsEscaping
    | zero =>
      intro p hp
      rw [reading] at hp
      split at hp
      · rename_i piece hkept
        obtain ⟨x, y, rest, hxy, -, rfl, -⟩ := keptEscape_eq_some hkept
        rcases List.mem_cons.mp hp with rfl | hp
        · exact fun h => h
        · exact ih _ _ p hp
      · split_ifs at hp with hraw
        · rcases List.mem_cons.mp hp with rfl | hp
          · exact fun (hc : IsBracket c) => hraw.2 hc.facts.2.2.2.2
          · exact ih _ _ p hp
        · rcases List.mem_cons.mp hp with rfl | hp
          · exact not_isBracket_ofByte c
          · exact ih _ _ p hp

theorem mem_of_mem_shorten {skip : ℕ} {ps : List Piece} {p : Piece} (h : p ∈ shorten skip ps) :
    p ∈ ps := by
  induction ps generalizing skip with
  | nil =>
    cases skip with
    | zero => exact h
    | succ skip => exact h
  | cons q ps ih =>
    cases skip with
    | succ skip => exact List.mem_cons_of_mem q (ih h)
    | zero =>
      rw [shorten] at h
      split_ifs at h with hfile
      · obtain ⟨-, back, rfl⟩ := hfile
        rcases List.mem_cons.mp h with rfl | h
        · exact List.mem_cons_self
        · rcases List.mem_append.mp h with h | h
          · exact List.mem_cons_of_mem q (by simp [h])
          · exact List.mem_cons_of_mem q (ih h)
      · rcases List.mem_cons.mp h with rfl | h
        · exact List.mem_cons_self
        · exact List.mem_cons_of_mem q (ih h)

/-! ### The second call -/

/-- An `h`. -/
def hPiece : Piece := rawPiece 'h' (by decide)

theorem readingOf_h (t : List UInt8) : ∃ qs, readingOf ('h'.toUInt8 :: t) = hPiece :: qs :=
  ⟨_, reading_raw ⟨by decide, by decide⟩ _ t⟩

theorem shorten_h (ps : List Piece) : shorten 0 (hPiece :: ps) = hPiece :: shorten 0 ps := by
  rw [shorten, if_neg]
  exact fun h => absurd h.1 (by decide)

theorem restored_h (ps : List Piece) : ∃ qs, restored (hPiece :: ps) = hPiece :: qs := by
  have hput : ¬ PutBack (hPiece :: ps) 0 := by
    rintro ⟨scheme, host, rest, -, heq | ⟨-, hclose, -⟩⟩
    · omega
    · exact absurd (Option.some.inj hclose) (by decide)
  have hget := restored_getElem? hput
  cases hqs : restored (hPiece :: ps) with
  | nil =>
    rw [hqs] at hget
    exact nomatch hget
  | cons q qs =>
    rw [hqs] at hget
    exact ⟨qs, congrArg (· :: qs) (Option.some.inj hget)⟩

/-- What is written for a string that begins with an `h`. -/
theorem PathEscape_reading {s t : List UInt8} (hs : s = 'h'.toUInt8 :: t) (hzero : 0 ∉ s) :
    PathEscape s = (restored (shorten 0 (readingOf s))).flatMap letters := by
  obtain ⟨qs, hqs⟩ := readingOf_h t
  rw [← hs] at hqs
  have hpasses := passes_reading s
  have hshort : shortenFileUrl ((readingOf s).flatMap letters) =
      (shorten 0 (readingOf s)).flatMap letters := by
    rw [← replace_filePattern, shortenFileUrl, if_neg]
    · rfl
    · rintro ⟨htake, -⟩
      rw [hqs] at htake
      exact absurd (List.cons.inj htake).1 (by decide)
  rw [PathEscape, cString_of_notMem hzero]
  dsimp only at hpasses ⊢
  rw [hpasses, hshort, hqs, shorten_h]
  apply handleIpv6_restored
  · exact fun hpre => absurd (List.cons_prefix_cons.mp hpre).1 (by decide)
  · exact fun d hpre => absurd (List.cons_prefix_cons.mp hpre).1 (by decide)

/-- Behind a bracket that is put back, the only escapes are those of percent signs and of brackets that
are put back, too. -/
def Settled (ps : List Piece) : Prop :=
  ∀ (i j : ℕ) (p : Piece), i < j → PutBack ps i → ps[j]? = some p → p.Foreign → PutBack ps j

theorem letters_injective {ps qs : List Piece} (h : ps.flatMap letters = qs.flatMap letters) :
    ps = qs := by
  have hpq : ps <+: qs := isCode_pieces.prefix_iff.mp (h ▸ List.prefix_rfl)
  have hqp : qs <+: ps := isCode_pieces.prefix_iff.mp (h ▸ List.prefix_rfl)
  exact hpq.eq_of_length_le hqp.length_le

/-- **Escaping a URL twice is escaping it once iff `file:////\` is not left when it was shortened, and
nothing but percent signs and brackets is escaped behind a bracket that is put back.** -/
theorem pathEscape_twice_iff (s : List UInt8) (hzero : 0 ∉ s)
    (hurl : ascii ['h', 't', 't', 'p', ':', '/', '/'] <+: s ∨
      ascii ['h', 't', 't', 'p', 's', ':', '/', '/'] <+: s) :
    PathEscape (PathEscape s) = PathEscape s ↔
      ¬ HasFile (shorten 0 (readingOf s)) ∧ Settled (shorten 0 (readingOf s)) := by
  obtain ⟨t, hs⟩ : ∃ t, s = 'h'.toUInt8 :: t := by
    rcases hurl with ⟨t, rfl⟩ | ⟨t, rfl⟩
    · exact ⟨_, rfl⟩
    · exact ⟨_, rfl⟩
  have hnone : ∀ p ∈ shorten 0 (readingOf s), ¬ p.IsBracket := fun p hp =>
    not_isBracket_reading _ _ _ p (mem_of_mem_shorten hp)
  obtain ⟨qs, hqs⟩ := readingOf_h t
  obtain ⟨rs, hrs⟩ := restored_h (shorten 0 qs)
  have hfirst := PathEscape_reading hs hzero
  rw [← hs] at hqs
  rw [hfirst]
  have hhead : (restored (shorten 0 (readingOf s))).flatMap letters =
      'h'.toUInt8 :: rs.flatMap letters := by
    rw [hqs, shorten_h, hrs]
    rfl
  generalize hps : shorten 0 (readingOf s) = ps at hnone hhead ⊢
  have hreading : readingOf ((restored ps).flatMap letters) = again false (restored ps) := by
    rw [readingOf, isForeignByte_letters, reading_letters]
  rw [PathEscape_reading hhead (zero_notMem_pieces _), hreading]
  constructor
  · intro heq
    have heq := letters_injective heq
    have hmarks := congrArg marks heq
    rw [marks_restored, ← marks_again false (restored ps)] at hmarks
    obtain ⟨hno, hsame⟩ := (shorten_cases (again false (restored ps))).resolve_right
      fun h => absurd hmarks h.2.ne
    have hlength := congrArg List.length heq
    rw [length_restored, hsame] at hlength
    have hquiet := (length_again_iff _).mp hlength
    rw [again_of_quiet hquiet, unbracket_restored hnone] at hno
    exact ⟨hno, (quiet_restored hnone).mp hquiet⟩
  · rintro ⟨hno, hsettled⟩
    have hquiet := (quiet_restored hnone).mpr hsettled
    have hsame := ((shorten_cases ps).resolve_right fun h => hno h.1).2
    rw [again_of_quiet hquiet, unbracket_restored hnone, hsame]

/-- `http://[::1]/p` -/
theorem pathEscape_twice_iff_loopback :
    let s := ascii ['h', 't', 't', 'p', ':', '/', '/', '[', ':', ':', '1', ']', '/', 'p']
    PathEscape (PathEscape s) = PathEscape s ↔
      ¬ HasFile (shorten 0 (readingOf s)) ∧ Settled (shorten 0 (readingOf s)) :=
  pathEscape_twice_iff _ (by decide) (Or.inl (by decide))

/-- `http://[::1]/a b` is escaped to `http://[::1]/a%20b`, and this to `http://[::1]/a%2520b`. -/
theorem pathEscape_twice_space : ¬ ∀ s, 0 ∉ s →
    (ascii ['h', 't', 't', 'p', ':', '/', '/'] <+: s ∨
      ascii ['h', 't', 't', 'p', 's', ':', '/', '/'] <+: s) →
    PathEscape (PathEscape s) = PathEscape s := by
  intro hall
  have h := hall (ascii ['h', 't', 't', 'p', ':', '/', '/', '[', ':', ':', '1', ']', '/', 'a', ' ',
    'b']) (by decide) (Or.inl (by decide))
  exact absurd h (by decide +kernel)

end TortoiseSvn.CPathUtils
