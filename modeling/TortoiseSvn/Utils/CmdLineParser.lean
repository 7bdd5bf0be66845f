import TortoiseSvn.Lib.Loop
import TortoiseSvn.Lib.SortedMap

/-!
# Command lines

`CCmdLineParser` splits a command line into keys and values. It looks for the next delimiter and for
the next quote independently of each other, and where the value ends depends on which comes first.

Main result: `parse_spec`. A command line that is made of arguments is split into them again.
-/

namespace TortoiseSvn.CCmdLineParser

open Lib

/-! ### The code -/

def space : UInt16 := 0x20

def quote : UInt16 := 0x22

def colon : UInt16 := 0x3a

/-- Source: `CmdLineParser.cpp` `CCmdLineParser::m_sDelims` -/
def m_sDelims : List UInt16 := [0x2d, 0x2f]

/-- Source: `CmdLineParser.cpp` `CCmdLineParser::m_sQuotes` -/
def m_sQuotes : List UInt16 := [quote]

/-- Source: `CmdLineParser.cpp` `CCmdLineParser::m_sValueSep` -/
def m_sValueSep : List UInt16 := [space, colon]

/-- The first place from `i` on with one of some characters. A text is the list of the characters in
front of its terminator, and a pointer into it is a place. -/
def wcspbrk (s : List UInt16) (i : ℕ) (control : List UInt16) : Option ℕ :=
  ((s.drop i).findIdx? fun c => decide (c ∈ control)).map (i + ·)

/-- `wcspbrk` for one character. -/
def wcschr (s : List UInt16) (i : ℕ) (c : UInt16) : Option ℕ := wcspbrk s i [c]

/-- The order of `std::wstring` is that of the codes of the characters. -/
def codes (s : List UInt16) : List ℕ := s.map UInt16.toNat

/-- Source: `CmdLineParser.h` `CCmdLineParser::CValsMap` -/
abbrev CValsMap := SortedMap (List ℕ) (List UInt16)

/-- Go over spaces.
Source: `CmdLineParser.cpp` `CCmdLineParser::Parse`, the inner loop -/
def skipSpaces (s : List UInt16) (sVal : ℕ) : ℕ :=
  sVal + ((s.drop sVal).takeWhile fun c => decide (c = space)).length

/-- `sQuote` and `sEndQuote` for a separator at `sVal`, which is not the terminator.
Source: `CmdLineParser.cpp` `CCmdLineParser::Parse` -/
def valueBounds (s : List UInt16) (sVal : ℕ) : ℕ × Option ℕ :=
  let sVal := if s[sVal]? ≠ some space then sVal + 1 else skipSpaces s sVal
  let nextArg := wcspbrk s sVal m_sDelims
  let sQuote := wcspbrk s sVal m_sQuotes
  -- a null pointer is not behind any place
  let nextIsFirst := match nextArg, sQuote with
    | some a, some q => decide (a < q)
    | _, _ => false
  if nextArg = some sVal then (sVal - 1, some (sVal - 1))
  else if nextIsFirst then (sVal, wcschr s sVal space)
  else if sQuote = some sVal then (sVal + 1, wcspbrk s (sVal + 1) m_sQuotes)
  else (sVal, wcschr s sVal space)

/-- `std::wstring (s + first, last - first)`. A command line is so short that the difference is an
`int`. -/
def between (s : List UInt16) (first last : ℕ) : List UInt16 := (s.drop first).take (last - first)

variable (towlower : UInt16 → UInt16)

/-- The state is the text from `sCurrent` on and the map; places are counted from `sCurrent`.
Source: `CmdLineParser.cpp` `CCmdLineParser::Parse`, the loop -/
def parseRound (st : List UInt16 × CValsMap) :
    Except Empty ((List UInt16 × CValsMap) ⊕ CValsMap) :=
  let s := st.1
  let m_valueMap := st.2
  if s = [] then .ok (.inr m_valueMap)
  else
    match wcspbrk s 0 m_sDelims with
    | none => .ok (.inr m_valueMap)
    | some delim =>
      let sArg := delim + 1
      if s.length ≤ sArg then .ok (.inr m_valueMap)
      else
        match wcspbrk s sArg m_sValueSep with
        | none =>
          let Key := (s.drop sArg).map towlower
          .ok (.inr (m_valueMap.insert (codes Key) []))
        | some sVal =>
          let Key := (between s sArg sVal).map towlower
          let bounds := valueBounds s sVal
          match bounds.2 with
          | none =>
            .ok (.inr (if Key ≠ [] then m_valueMap.insert (codes Key) (s.drop bounds.1)
              else m_valueMap))
          | some sEndQuote =>
            .ok (.inl (s.drop (sEndQuote + 1),
              if Key ≠ [] then m_valueMap.insert (codes Key) (between s bounds.1 sEndQuote)
              else m_valueMap))

/-- The map afterwards and the result. Without a command line the map stays as it was.
Source: `CmdLineParser.cpp` `CCmdLineParser::Parse` -/
def Parse (sCmdLine : Option (List UInt16)) (m_valueMap m_valueMap' : CValsMap) (result : Bool) :
    Prop :=
  match sCmdLine with
  | none => m_valueMap' = m_valueMap ∧ result = false
  | some s => Returns (parseRound towlower) (s, SortedMap.empty) m_valueMap' ∧
      result = decide (m_valueMap'.entries ≠ [])

/-- Source: `CmdLineParser.cpp` `CCmdLineParser::findKey` -/
def findKey (m_valueMap : CValsMap) (sKey : List UInt16) : Option (List UInt16) :=
  m_valueMap.find (codes (sKey.map towlower))

/-- Source: `CmdLineParser.cpp` `CCmdLineParser::HasKey` -/
def HasKey (m_valueMap : CValsMap) (sKey : List UInt16) : Bool :=
  (findKey towlower m_valueMap sKey).isSome

/-- Source: `CmdLineParser.cpp` `CCmdLineParser::HasVal` -/
def HasVal (m_valueMap : CValsMap) (sKey : List UInt16) : Bool :=
  match findKey towlower m_valueMap sKey with
  | none => false
  | some value => decide (value ≠ [])

/-- Source: `CmdLineParser.cpp` `CCmdLineParser::GetVal` -/
def GetVal (m_valueMap : CValsMap) (sKey : List UInt16) : Option (List UInt16) :=
  findKey towlower m_valueMap sKey

/-! ### Arguments -/

/-- What stands behind a key: nothing, a value in quotes, or a value without them. -/
inductive ArgumentValue where
  | none
  | quoted (content : List UInt16) (noQuote : quote ∉ content)
  | bare (text : List UInt16) (ne_nil : text ≠ []) (noSpace : space ∉ text) (noQuote : quote ∉ text)
      (noDelim : ∀ c ∈ text.head?, c ∉ m_sDelims)

namespace ArgumentValue

def text : ArgumentValue → List UInt16
  | none => []
  | quoted content _ => colon :: quote :: (content ++ [quote])
  | bare text _ _ _ _ => colon :: text

/-- The value itself. -/
def content : ArgumentValue → List UInt16
  | none => []
  | quoted content _ => content
  | bare text _ _ _ _ => text

end ArgumentValue

/-- An argument `/key`, `-key`, `/key:value` or `-key:value`. -/
structure Argument where
  delim : UInt16
  key : List UInt16
  value : ArgumentValue
  isDelim : delim ∈ m_sDelims
  ne_nil : key ≠ []
  noDelim : ∀ c ∈ key, c ∉ m_sDelims
  noSep : ∀ c ∈ key, c ∉ m_sValueSep

def Argument.text (a : Argument) : List UInt16 := a.delim :: (a.key ++ a.value.text)

/-- The arguments, joined by single spaces. -/
def commandLine : List Argument → List UInt16
  | [] => []
  | [a] => a.text
  | a :: b :: args => a.text ++ space :: commandLine (b :: args)

/-! ### Scanning -/

section Scanning

variable {s pre mid back control content tail t : List UInt16} {c d : UInt16} {i : ℕ}

/-- The characters in front of the one that is found are others. -/
theorem wcspbrk_eq_some (hs : s = pre ++ (mid ++ c :: back)) (hi : i = pre.length)
    (hmid : ∀ x ∈ mid, x ∉ control) (hc : c ∈ control) :
    wcspbrk s i control = some (i + mid.length) := by
  have hnone : mid.findIdx? (fun x => decide (x ∈ control)) = none := by
    rw [List.findIdx?_eq_none_iff]
    exact fun x hx => decide_eq_false (hmid x hx)
  rw [wcspbrk, hs, hi, List.drop_left, List.findIdx?_append, hnone, List.findIdx?_cons]
  simp [hc]

theorem wcspbrk_eq_none (hs : s = pre ++ mid) (hi : i = pre.length)
    (hmid : ∀ x ∈ mid, x ∉ control) : wcspbrk s i control = none := by
  have hnone : mid.findIdx? (fun x => decide (x ∈ control)) = none := by
    rw [List.findIdx?_eq_none_iff]
    exact fun x hx => decide_eq_false (hmid x hx)
  rw [wcspbrk, hs, hi, List.drop_left, hnone]
  rfl

/-- A character that is not searched is not found. -/
theorem wcspbrk_ne_self (hs : s = pre ++ c :: back) (hi : i = pre.length) (hc : c ∉ control) :
    wcspbrk s i control ≠ some i := by
  rw [wcspbrk, hs, hi, List.drop_left, List.findIdx?_cons, decide_eq_false hc]
  simp

theorem drop_at (hs : s = pre ++ back) (hi : i = pre.length) : s.drop i = back := by
  rw [hs, hi, List.drop_left]

theorem between_at (hs : s = pre ++ (mid ++ back)) (hi : i = pre.length) :
    between s i (i + mid.length) = mid := by
  rw [between, drop_at hs hi, Nat.add_sub_cancel_left, List.take_left]

theorem getElem?_at (hs : s = pre ++ c :: back) (hi : i = pre.length) : s[i]? = some c := by
  rw [hs, hi, List.getElem?_append_right le_rfl, Nat.sub_self]
  rfl

/-- The key has no value, and the next one follows. -/
theorem valueBounds_next (hs : s = pre ++ space :: d :: t) (hi : i = pre.length)
    (hd : d ∈ m_sDelims) : valueBounds s i = (i, some i) := by
  have hspace : d ≠ space := by
    rintro rfl
    exact absurd hd (by decide)
  have hskip : skipSpaces s i = i + 1 := by
    rw [skipSpaces, hs, hi, List.drop_left, List.takeWhile_cons_of_pos (by decide),
      List.takeWhile_cons_of_neg (by simpa using hspace)]
    rfl
  have hs' : s = (pre ++ [space]) ++ ([] ++ d :: t) := by simp [hs]
  have hnext : wcspbrk s (i + 1) m_sDelims = some (i + 1) :=
    wcspbrk_eq_some hs' (by simp [hi]) nofun hd
  simp only [valueBounds, getElem?_at hs hi, ne_eq, not_true, if_false, hskip, hnext, if_true]
  rfl

/-- The place behind the separator of a value. -/
theorem valueBounds_colon (hs : s = pre ++ colon :: back) (hi : i = pre.length) :
    s[i]? ≠ some space := by
  rw [getElem?_at hs hi]
  decide

/-- The value is in quotes. -/
theorem valueBounds_quoted (hs : s = pre ++ colon :: quote :: (content ++ quote :: tail))
    (hi : i = pre.length) (hcontent : quote ∉ content) :
    valueBounds s i = (i + 2, some (i + 2 + content.length)) := by
  have hs₁ : s = (pre ++ [colon]) ++ ([] ++ quote :: (content ++ quote :: tail)) := by simp [hs]
  have hs₂ : s = (pre ++ [colon, quote]) ++ (content ++ quote :: tail) := by simp [hs]
  have hfirst : wcspbrk s (i + 1) m_sQuotes = some (i + 1) :=
    wcspbrk_eq_some hs₁ (by simp [hi]) nofun (List.mem_singleton_self quote)
  have hlast : wcspbrk s (i + 1 + 1) m_sQuotes = some (i + 2 + content.length) :=
    wcspbrk_eq_some hs₂ (by simp [hi]) (fun x hx hq => hcontent (List.mem_singleton.mp hq ▸ hx))
      (List.mem_singleton_self quote)
  have hnext : wcspbrk s (i + 1) m_sDelims ≠ some (i + 1) :=
    wcspbrk_ne_self hs₁ (by simp [hi]) (by decide)
  simp only [valueBounds, if_pos (valueBounds_colon hs hi), if_neg hnext, hfirst, hlast, if_true]
  cases hdelim : wcspbrk s (i + 1) m_sDelims with
  | none => rfl
  | some a =>
    have hle : i + 1 ≤ a := by
      rw [wcspbrk, Option.map_eq_some_iff] at hdelim
      obtain ⟨j, -, rfl⟩ := hdelim
      exact Nat.le_add_right _ _
    rw [if_neg (by simpa using hle)]

/-- The value is without quotes. Whether a quote or a delimiter comes first makes no difference. -/
theorem valueBounds_bare (hs : s = pre ++ colon :: (content ++ tail)) (hi : i = pre.length)
    (hne : content ≠ []) (hquote : quote ∉ content) (hdelim : ∀ c ∈ content.head?, c ∉ m_sDelims) :
    valueBounds s i = (i + 1, wcschr s (i + 1) space) := by
  obtain ⟨c, rest, rfl⟩ := List.exists_cons_of_ne_nil hne
  have hs₁ : s = (pre ++ [colon]) ++ c :: (rest ++ tail) := by simp [hs]
  have hc : c ∉ m_sQuotes := fun hmem => hquote (List.mem_singleton.mp hmem ▸ List.mem_cons_self ..)
  have hnext : wcspbrk s (i + 1) m_sDelims ≠ some (i + 1) :=
    wcspbrk_ne_self hs₁ (by simp [hi]) (hdelim c rfl)
  have hfirst : wcspbrk s (i + 1) m_sQuotes ≠ some (i + 1) :=
    wcspbrk_ne_self hs₁ (by simp [hi]) hc
  simp only [valueBounds, if_pos (valueBounds_colon hs hi), if_neg hnext, if_neg hfirst, ite_self]

end Scanning

/-! ### A round -/

section Round

variable {towlower} {m : CValsMap} {lead tail : List UInt16}

/-- The key as it stands in the map. -/
def Argument.mapKey (towlower : UInt16 → UInt16) (a : Argument) : List ℕ :=
  codes (a.key.map towlower)

/-- The map with an argument inserted. -/
def withArgument (towlower : UInt16 → UInt16) (m : CValsMap) (a : Argument) : CValsMap :=
  m.insert (a.mapKey towlower) a.value.content

/-- What stands behind an argument: nothing, or a space and the next argument. -/
def Continues (tail : List UInt16) : Prop :=
  tail = [] ∨ ∃ d ∈ m_sDelims, ∃ t, tail = space :: d :: t

/-- The head of the round: the key is found between its delimiter and what separates it from its
value. -/
theorem parseRound_of_sep {a : Argument} {sep : UInt16} {s back : List UInt16}
    (hs : s = lead ++ a.delim :: (a.key ++ sep :: back)) (hlead : ∀ c ∈ lead, c ∉ m_sDelims)
    (hsep : sep ∈ m_sValueSep) : parseRound towlower (s, m) =
      match valueBounds s (lead.length + 1 + a.key.length) with
      | (first, none) => .ok (.inr (m.insert (a.mapKey towlower) (s.drop first)))
      | (first, some last) =>
        .ok (.inl (s.drop (last + 1), m.insert (a.mapKey towlower) (between s first last))) := by
  have hs₁ : s = (lead ++ [a.delim]) ++ (a.key ++ sep :: back) := by simp [hs]
  have hne : s ≠ [] := by simp [hs]
  have hdelim : wcspbrk s 0 m_sDelims = some (0 + lead.length) :=
    wcspbrk_eq_some (hs.trans (List.nil_append _).symm) rfl hlead a.isDelim
  have hval : wcspbrk s (0 + lead.length + 1) m_sValueSep =
      some (0 + lead.length + 1 + a.key.length) :=
    wcspbrk_eq_some hs₁ (by simp) a.noSep hsep
  have hlong : ¬ s.length ≤ 0 + lead.length + 1 := by
    rw [hs₁]
    simp
  have hkey : between s (0 + lead.length + 1) (0 + lead.length + 1 + a.key.length) = a.key :=
    between_at hs₁ (by simp)
  have hmap : a.key.map towlower ≠ [] := by simpa using a.ne_nil
  simp only [parseRound, if_neg hne, hdelim, if_neg hlong, hval, hkey, if_pos hmap]
  rw [Nat.zero_add]
  rcases valueBounds s (lead.length + 1 + a.key.length) with ⟨first, _ | last⟩
  · rfl
  · rfl

/-- The last key of a command line, when it has no value. -/
theorem parseRound_last {a : Argument} {s : List UInt16} (hs : s = lead ++ a.delim :: a.key)
    (hlead : ∀ c ∈ lead, c ∉ m_sDelims) : parseRound towlower (s, m) =
      .ok (.inr (m.insert (a.mapKey towlower) [])) := by
  have hs₁ : s = (lead ++ [a.delim]) ++ a.key := by simp [hs]
  have hne : s ≠ [] := by simp [hs]
  have hdelim : wcspbrk s 0 m_sDelims = some (0 + lead.length) :=
    wcspbrk_eq_some (hs.trans (List.nil_append _).symm) rfl hlead a.isDelim
  have hval : wcspbrk s (0 + lead.length + 1) m_sValueSep = none :=
    wcspbrk_eq_none hs₁ (by simp) a.noSep
  have hlong : ¬ s.length ≤ 0 + lead.length + 1 := by
    have hpos := List.length_pos_of_ne_nil a.ne_nil
    rw [hs₁]
    simp only [List.length_append, List.length_singleton]
    omega
  have hkey : s.drop (0 + lead.length + 1) = a.key := drop_at hs₁ (by simp)
  simp only [parseRound, if_neg hne, hdelim, if_neg hlong, hval, hkey]
  rfl

/-- **A round reads one argument.** It ends the loop only if nothing stands behind the argument, and
else goes on behind it, in front of the space or behind it. -/
theorem parseRound_argument (towlower : UInt16 → UInt16) (m : CValsMap) (a : Argument)
    (htail : Continues tail) (hlead : ∀ c ∈ lead, c ∉ m_sDelims) :
    (tail = [] ∧ parseRound towlower (lead ++ (a.text ++ tail), m) =
      .ok (.inr (withArgument towlower m a))) ∨
    ∃ next, (next = tail ∨ next = tail.tail) ∧ parseRound towlower (lead ++ (a.text ++ tail), m) =
      .ok (.inl (next, withArgument towlower m a)) := by
  generalize hs : lead ++ (a.text ++ tail) = s
  have hi : lead.length + 1 + a.key.length = (lead ++ a.delim :: a.key).length := by
    rw [List.length_append, List.length_cons]
    omega
  rw [withArgument]
  cases hvalue : a.value with
  | none =>
    rw [Argument.text, hvalue, ArgumentValue.text, List.append_nil] at hs
    rcases htail with rfl | ⟨d, hd, t, rfl⟩
    · left
      exact ⟨rfl, parseRound_last (by simp [← hs]) hlead⟩
    · right
      have hs₁ : s = lead ++ a.delim :: (a.key ++ space :: d :: t) := by simp [← hs]
      have hs₂ : s = (lead ++ a.delim :: a.key) ++ space :: d :: t := by simp [← hs]
      have hs₃ : s = (lead ++ a.delim :: (a.key ++ [space])) ++ d :: t := by simp [← hs]
      have hi₃ : (lead ++ a.delim :: a.key).length + 1 =
          (lead ++ a.delim :: (a.key ++ [space])).length := by simp; omega
      refine ⟨d :: t, .inr rfl, ?_⟩
      rw [parseRound_of_sep hs₁ hlead (by decide), valueBounds_next hs₂ hi hd, hi]
      simp only [drop_at hs₃ hi₃, between, Nat.sub_self, List.take_zero]
      rfl
  | quoted content hquote =>
    right
    rw [Argument.text, hvalue, ArgumentValue.text] at hs
    have hs₁ : s = lead ++ a.delim :: (a.key ++ colon :: quote :: (content ++ quote :: tail)) := by
      simp [← hs]
    have hs₂ : s = (lead ++ a.delim :: a.key) ++ colon :: quote :: (content ++ quote :: tail) := by
      simp [← hs]
    have hs₃ : s =
        (lead ++ a.delim :: (a.key ++ [colon, quote])) ++ (content ++ quote :: tail) := by
      simp [← hs]
    have hs₄ : s =
        (lead ++ a.delim :: (a.key ++ colon :: quote :: (content ++ [quote]))) ++ tail := by
      simp [← hs]
    have hi₃ : (lead ++ a.delim :: a.key).length + 2 =
        (lead ++ a.delim :: (a.key ++ [colon, quote])).length := by simp; omega
    have hi₄ : (lead ++ a.delim :: a.key).length + 2 + content.length + 1 =
        (lead ++ a.delim :: (a.key ++ colon :: quote :: (content ++ [quote]))).length := by
      simp; omega
    refine ⟨tail, .inl rfl, ?_⟩
    rw [parseRound_of_sep hs₁ hlead (by decide), valueBounds_quoted hs₂ hi hquote, hi]
    simp only [drop_at hs₄ hi₄, between_at hs₃ hi₃]
    rfl
  | bare text hne hspace hquote hdelim =>
    rw [Argument.text, hvalue, ArgumentValue.text] at hs
    have hs₁ : s = lead ++ a.delim :: (a.key ++ colon :: (text ++ tail)) := by simp [← hs]
    have hs₂ : s = (lead ++ a.delim :: a.key) ++ colon :: (text ++ tail) := by simp [← hs]
    have hs₃ : s = (lead ++ a.delim :: (a.key ++ [colon])) ++ (text ++ tail) := by simp [← hs]
    have hi₃ : (lead ++ a.delim :: a.key).length + 1 =
        (lead ++ a.delim :: (a.key ++ [colon])).length := by simp; omega
    have hnot : ∀ c ∈ text, c ∉ [space] := fun c hc h => hspace (List.mem_singleton.mp h ▸ hc)
    rw [parseRound_of_sep hs₁ hlead (by decide), valueBounds_bare hs₂ hi hne hquote hdelim, hi,
      wcschr]
    rcases htail with rfl | ⟨d, hd, t, rfl⟩
    · left
      rw [List.append_nil] at hs₃
      refine ⟨rfl, ?_⟩
      rw [wcspbrk_eq_none hs₃ hi₃ hnot]
      simp only [drop_at hs₃ hi₃]
      rfl
    · right
      have hs₄ : s = (lead ++ a.delim :: (a.key ++ colon :: (text ++ [space]))) ++ d :: t := by
        simp [← hs]
      have hi₄ : (lead ++ a.delim :: a.key).length + 1 + text.length + 1 =
          (lead ++ a.delim :: (a.key ++ colon :: (text ++ [space]))).length := by simp; omega
      refine ⟨d :: t, .inr rfl, ?_⟩
      rw [wcspbrk_eq_some hs₃ hi₃ hnot (List.mem_singleton_self space)]
      simp only [drop_at hs₄ hi₄, between_at hs₃ hi₃]
      rfl

end Round

/-! ### All rounds -/

section Rounds

variable {m : CValsMap} {lead : List UInt16}

/-- **The loop ends for every text**: each round goes on behind a delimiter. -/
theorem parseRound_terminates (s : List UInt16) :
    ∃ m', Returns (parseRound towlower) (s, m) m' := by
  refine Returns.exists_of_measure (parseRound towlower) (fun _ => True) (fun st => st.1.length)
    (fun st _ => ?_) trivial
  obtain ⟨s, m⟩ := st
  simp only [parseRound]
  split_ifs with hs
  · exact .inl ⟨_, rfl⟩
  · have hpos := List.length_pos_of_ne_nil hs
    rcases wcspbrk s 0 m_sDelims with _ | delim
    · exact .inl ⟨_, rfl⟩
    · dsimp only
      split_ifs
      · exact .inl ⟨_, rfl⟩
      · rcases wcspbrk s (delim + 1) m_sValueSep with _ | sVal
        · exact .inl ⟨_, rfl⟩
        · dsimp only
          rcases valueBounds s sVal with ⟨first, _ | last⟩
          · exact .inl ⟨_, rfl⟩
          · refine .inr ⟨_, rfl, trivial, ?_⟩
            rw [List.length_drop]
            omega

theorem continues_commandLine (a : Argument) (args : List Argument) :
    Continues (space :: commandLine (a :: args)) := by
  cases args with
  | nil => exact .inr ⟨a.delim, a.isDelim, _, rfl⟩
  | cons b args => exact .inr ⟨a.delim, a.isDelim, _, rfl⟩

/-- The arguments are inserted one after the other. -/
theorem parseRound_returns (a : Argument) (args : List Argument)
    (hlead : ∀ c ∈ lead, c ∉ m_sDelims) :
    Returns (parseRound towlower) (lead ++ commandLine (a :: args), m)
      ((a :: args).foldl (withArgument towlower) m) := by
  induction args generalizing a lead m with
  | nil =>
    have hround := parseRound_argument towlower m a (.inl rfl) hlead
    rw [List.append_nil] at hround
    rcases hround with ⟨-, hend⟩ | ⟨next, hnext, hgo⟩
    · exact Returns.leave hend
    · obtain rfl : next = [] := by simpa using hnext
      exact Returns.round hgo (Returns.leave rfl)
  | cons b args ih =>
    rcases parseRound_argument towlower m a (continues_commandLine b args) hlead with
      ⟨hnil, -⟩ | ⟨next, hnext, hgo⟩
    · exact absurd hnil (List.cons_ne_nil _ _)
    · refine Returns.round hgo ?_
      rcases hnext with rfl | rfl
      · have hspace : ∀ c ∈ [space], c ∉ m_sDelims := by
          intro c hc
          rw [List.mem_singleton.mp hc]
          decide
        exact ih b hspace
      · have hnone : ∀ c ∈ ([] : List UInt16), c ∉ m_sDelims := nofun
        exact ih b hnone

/-- A key has the value with which it was inserted first, or that it had before. -/
theorem find_foldl (args : List Argument) (k : List ℕ) :
    (args.foldl (withArgument towlower) m).find k = (m.find k).or
      ((args.find? fun a => decide (a.mapKey towlower = k)).map fun a => a.value.content) := by
  induction args generalizing m with
  | nil => simp
  | cons a args ih =>
    rw [List.foldl_cons, ih, withArgument]
    by_cases hk : a.mapKey towlower = k
    · subst hk
      rw [SortedMap.find_insert_self, List.find?_cons_of_pos (by simp)]
      cases m.find (a.mapKey towlower) <;> rfl
    · rw [SortedMap.find_insert_of_ne (Ne.symm hk), List.find?_cons_of_neg (by simpa using hk)]

/-- The map of a command line. -/
theorem find_arguments (args : List Argument) (k : List ℕ) :
    (args.foldl (withArgument towlower) SortedMap.empty).find k =
      (args.find? fun a => decide (a.mapKey towlower = k)).map fun a => a.value.content := by
  rw [find_foldl, SortedMap.empty_find, Option.none_or]

theorem entries_ne_nil_iff (args : List Argument) :
    (args.foldl (withArgument towlower) SortedMap.empty).entries ≠ [] ↔ args ≠ [] := by
  cases args with
  | nil => exact iff_of_false (fun h => h rfl) (fun h => h rfl)
  | cons a args =>
    have hfirst := find_arguments towlower (a :: args) (a.mapKey towlower)
    rw [List.find?_cons_of_pos (by simp), Option.map_some, SortedMap.find_eq_some_iff] at hfirst
    exact iff_of_true (List.ne_nil_of_mem hfirst) (List.cons_ne_nil a args)

/-- The arguments of a command line are inserted, and nothing else is. -/
theorem parse_iff (args : List Argument) (m_valueMap m' : CValsMap) (result : Bool) :
    Parse towlower (some (commandLine args)) m_valueMap m' result ↔
      m' = args.foldl (withArgument towlower) SortedMap.empty ∧ result = decide (args ≠ []) := by
  have hreturns : Returns (parseRound towlower) (commandLine args, SortedMap.empty)
      (args.foldl (withArgument towlower) SortedMap.empty) := by
    cases args with
    | nil => exact Returns.leave rfl
    | cons a args =>
      have hnone : ∀ c ∈ ([] : List UInt16), c ∉ m_sDelims := nofun
      exact parseRound_returns towlower a args hnone
  have hempty := entries_ne_nil_iff towlower args
  rw [Parse]
  constructor
  · rintro ⟨hr, rfl⟩
    obtain rfl := hr.unique hreturns
    exact ⟨rfl, decide_eq_decide.mpr hempty⟩
  · rintro ⟨rfl, rfl⟩
    exact ⟨hreturns, decide_eq_decide.mpr hempty.symm⟩

end Rounds

/-- **A command line is split into its arguments**: the loop ends, and the map has the keys in lower
case, each with the value of its first occurrence. The result tells whether there are arguments.
Source: `CmdLineParser.cpp` `CCmdLineParser::Parse` -/
theorem parse_spec (args : List Argument) (m_valueMap : CValsMap) : ∃ m : CValsMap,
    (∀ m' result, Parse towlower (some (commandLine args)) m_valueMap m' result ↔
      m' = m ∧ result = decide (args ≠ [])) ∧
    ∀ k, m.find k =
      (args.find? fun a => decide (a.mapKey towlower = k)).map fun a => a.value.content :=
  ⟨_, parse_iff towlower args m_valueMap, find_arguments towlower args⟩

theorem codes_inj {s t : List UInt16} : codes s = codes t ↔ s = t :=
  (List.map_injective_iff.mpr fun _ _ => UInt16.toNat_inj.mp).eq_iff

/-- What is read back for a key, whatever the case of its letters. -/
theorem getVal_parse {args : List Argument} {m_valueMap m : CValsMap} {result : Bool}
    (h : Parse towlower (some (commandLine args)) m_valueMap m result) (sKey : List UInt16) :
    GetVal towlower m sKey = (args.find? fun a =>
      decide (a.key.map towlower = sKey.map towlower)).map fun a => a.value.content := by
  obtain ⟨rfl, -⟩ := (parse_iff towlower args m_valueMap m result).mp h
  rw [GetVal, findKey, find_arguments]
  simp only [Argument.mapKey, codes_inj]

end TortoiseSvn.CCmdLineParser
