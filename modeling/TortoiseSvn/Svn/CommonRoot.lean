import TortoiseSvn.Lib.CommonBeginning
import TortoiseSvn.Svn.RemovedPaths

/-!
# The common root of a list of paths

`GetCommonRoot` narrows the text of the first path, with a separator added, to what the texts of all
paths have in common, and cuts off what is behind the last separator.

Main result: `getCommonRoot_spec`. For local paths, the result is made of the drive and the elements
that all paths begin with.
-/

namespace TortoiseSvn.Svn

open Lib.Beginning

namespace CTSVNPathList

open CTSVNPath

/-! ### The code -/

/-- Source: `StringUtils.cpp` `CStringUtils::GetMatchingLength` -/
def GetMatchingLength : List UInt16 → List UInt16 → ℕ
  | a :: lhs, b :: rhs => if a ≠ b then 0 else GetMatchingLength lhs rhs + 1
  | _, _ => 0

/-- `CString::Delete`: a negative index is 0, and the count ends at the end of the text. -/
def delete (s : List UInt16) (iIndex : ℤ) (nCount : ℕ) : List UInt16 :=
  s.take iIndex.toNat ++ s.drop (iIndex.toNat + nCount)

/-- `CString::ReverseFind` -/
def reverseFind (s : List UInt16) (ch : UInt16) : ℤ :=
  match s.reverse.findIdx? (· = ch) with
  | some i => s.length - 1 - i
  | none => -1

/-- The common text of the paths. The second component is `rootLength`.
Source: `TSVNPath.cpp` `CTSVNPathList::GetCommonRoot`, the loop -/
def narrowRoot : List CTSVNPath → List UInt16 × ℕ → List UInt16 × ℕ
  | [], s => s
  | it :: rest, (root, rootLength) =>
    let newLength := GetMatchingLength root (it.GetWinPathString ++ [backslash])
    narrowRoot rest (if newLength ≠ rootLength then (delete root newLength rootLength, newLength)
      else (root, rootLength))

/-- Remove the last path element.
Source: `TSVNPath.cpp` `CTSVNPathList::GetCommonRoot` -/
def cutRoot (root : List UInt16) (rootLength : ℕ) : CTSVNPath :=
  SetFromUnknown (if 0 < rootLength then delete root (reverseFind root backslash) rootLength
    else root)

/-- Source: `TSVNPath.cpp` `CTSVNPathList::GetCommonRoot` -/
def GetCommonRoot : List CTSVNPath → CTSVNPath
  | [] => ⟨[], []⟩
  | [path] => path
  | path :: rest =>
    let root := path.GetWinPathString ++ [backslash]
    let s := narrowRoot rest (root, root.length)
    cutRoot s.1 s.2

/-! ### Local paths -/

/-- A name between separators. -/
structure Element where
  name : List UInt16
  ne_nil : name ≠ []
  noBackslash : backslash ∉ name
  noSlash : slash ∉ name
  noNul : 0 ∉ name
  deriving DecidableEq

/-- A drive and the elements of a path on it. -/
structure LocalPath where
  drive : UInt16
  elements : List Element
  noBackslash : drive ≠ backslash
  noSlash : drive ≠ slash
  noNul : drive ≠ 0

namespace LocalPath

/-- The text of a path without the separator that a drive root ends in. -/
def body (drive : UInt16) (elements : List Element) : List UInt16 :=
  drive :: colon :: elements.flatMap fun e => backslash :: e.name

/-- `X:\` or `X:\e1\...\en` -/
def text (path : LocalPath) : List UInt16 :=
  if path.elements = [] then [path.drive, colon, backslash] else body path.drive path.elements

/-- The words that stand behind separators; the last word of a drive root is empty. -/
def words (path : LocalPath) : List (List UInt16) :=
  if path.elements = [] then [[]] else path.elements.map Element.name

end LocalPath

/-- The elements that all paths begin with, as many as possible. -/
def LongestCommon (elements : List Element) (paths : List LocalPath) : Prop :=
  ∀ es, es <+: elements ↔ ∀ p ∈ paths, es <+: p.elements

/-! ### What is narrowed -/

section Narrow

variable {root s t : List UInt16} {paths paths' : List CTSVNPath}

theorem length_common (l r : List UInt16) : (common l r).length = GetMatchingLength l r := by
  induction l generalizing r with
  | nil =>
    rw [nil_common, GetMatchingLength]
    · rfl
    · exact nofun
  | cons a l ih =>
    cases r with
    | nil =>
      rw [common_nil, GetMatchingLength]
      · rfl
      · exact nofun
    | cons b r =>
      rw [common, GetMatchingLength]
      by_cases hab : a = b
      · rw [if_pos hab, if_neg (not_not.mpr hab), List.length_cons, ih]
      · rw [if_neg hab, if_pos hab]
        rfl

theorem take_getMatchingLength (l r : List UInt16) : l.take (GetMatchingLength l r) = common l r := by
  have hpre : common l r <+: l := (starts_common_iff.mp (List.prefix_refl _)).1
  rw [← length_common]
  exact (List.prefix_iff_eq_take.mp hpre).symm

/-- The loop computes what the texts begin with. -/
theorem narrowRoot_eq (root : List UInt16) (rest : List CTSVNPath) :
    narrowRoot rest (root, root.length) =
      (commonAll root (rest.map fun p => p.GetWinPathString ++ [backslash]),
        (commonAll root (rest.map fun p => p.GetWinPathString ++ [backslash])).length) := by
  induction rest generalizing root with
  | nil => rfl
  | cons it rest ih =>
    have htake := take_getMatchingLength root (it.GetWinPathString ++ [backslash])
    have hlen := length_common root (it.GetWinPathString ++ [backslash])
    rw [narrowRoot]
    have hstep : (if GetMatchingLength root (it.GetWinPathString ++ [backslash]) ≠ root.length then
        (delete root (GetMatchingLength root (it.GetWinPathString ++ [backslash])) root.length,
          GetMatchingLength root (it.GetWinPathString ++ [backslash]))
        else (root, root.length)) = (common root (it.GetWinPathString ++ [backslash]),
          (common root (it.GetWinPathString ++ [backslash])).length) := by
      split_ifs with hne
      · rw [delete, Int.toNat_natCast, htake, hlen, List.drop_eq_nil_of_le (Nat.le_add_left _ _),
          List.append_nil]
      · rw [← htake, not_not.mp hne, List.take_length]
    rw [hstep, ih]
    rfl

/-- What the texts of all paths begin with, when a separator is added. -/
def Common (root : List UInt16) (paths : List CTSVNPath) : Prop :=
  ∀ s, s <+: root ↔ ∀ p ∈ paths, s <+: p.GetWinPathString ++ [backslash]

theorem Common.unique (h : Common root paths) (h' : Common s paths) : root = s :=
  eq_of_starts fun t => (h t).trans (h' t).symm

theorem getCommonRoot_eq (hlen : 2 ≤ paths.length) :
    ∃ root, Common root paths ∧ GetCommonRoot paths = cutRoot root root.length := by
  match paths, hlen with
  | p :: q :: rest, _ =>
    refine ⟨commonAll (p.GetWinPathString ++ [backslash]) ((q :: rest).map fun p =>
      p.GetWinPathString ++ [backslash]), fun s => ?_, ?_⟩
    · have hcons : (∀ r ∈ p :: q :: rest, s <+: r.GetWinPathString ++ [backslash]) ↔ _ :=
        List.forall_mem_cons
      rw [starts_commonAll_iff, List.forall_mem_map, hcons]
    · rw [GetCommonRoot, narrowRoot_eq]
      exact nofun

/-- **The order of the paths does not matter.** -/
theorem getCommonRoot_perm (hlen : 2 ≤ paths.length) (hperm : paths'.Perm paths) :
    GetCommonRoot paths' = GetCommonRoot paths := by
  obtain ⟨root, hroot, heq⟩ := getCommonRoot_eq hlen
  obtain ⟨root', hroot', heq'⟩ := getCommonRoot_eq (hperm.length_eq.symm ▸ hlen)
  have hcommon : Common root' paths := fun s =>
    (hroot' s).trans (forall_congr' fun p => imp_congr_left hperm.mem_iff)
  rw [heq, heq', hcommon.unique hroot]

theorem reverseFind_eq {c : UInt16} (ht : c ∉ t) : reverseFind (s ++ c :: t) c = s.length := by
  have hnone : t.reverse.findIdx? (fun d => decide (d = c)) = none := by
    rw [List.findIdx?_eq_none_iff]
    intro d hd
    rw [decide_eq_false_iff_not]
    exact fun heq => ht (heq ▸ List.mem_reverse.mp hd)
  have hindex : (s ++ c :: t).reverse.findIdx? (fun d => decide (d = c)) = some t.length := by
    rw [List.reverse_append, List.reverse_cons, List.append_assoc, List.findIdx?_append, hnone]
    simp [List.findIdx?_cons]
  rw [reverseFind, hindex]
  simp only [List.length_append, List.length_cons]
  omega

theorem reverseFind_of_notMem {c : UInt16} (hs : c ∉ s) : reverseFind s c = -1 := by
  have hnone : s.reverse.findIdx? (fun d => decide (d = c)) = none := by
    rw [List.findIdx?_eq_none_iff]
    intro d hd
    rw [decide_eq_false_iff_not]
    exact fun heq => hs (heq ▸ List.mem_reverse.mp hd)
  rw [reverseFind, hnone]

/-- The last separator and what is behind it are cut off. -/
theorem cutRoot_eq (ht : backslash ∉ t) : cutRoot (s ++ backslash :: t) (s ++ backslash :: t).length =
    SetFromUnknown s := by
  rw [cutRoot, if_pos (by simp), reverseFind_eq ht, delete, Int.toNat_natCast, List.take_left,
    List.drop_eq_nil_of_le (Nat.le_add_left _ _), List.append_nil]

end Narrow

/-! ### The texts of local paths -/

namespace LocalPath

variable {path : LocalPath} {x : UInt16} {es : List Element}

/-- The separators of a text stand behind its words instead of before them. -/
theorem body_separator (x : UInt16) (es : List Element) : body x es ++ [backslash] =
    x :: colon :: backslash :: join backslash (es.map Element.name) := by
  have hshift : ∀ es : List Element, (es.flatMap fun e => backslash :: e.name) ++ [backslash] =
      backslash :: join backslash (es.map Element.name) := by
    intro es
    induction es with
    | nil => rfl
    | cons e es ih =>
      rw [List.flatMap_cons, List.append_assoc, ih, List.map_cons, join, join, List.flatMap_cons,
        List.cons_append, List.append_assoc, List.singleton_append]
  rw [body, List.cons_append, List.cons_append, hshift]

theorem text_separator (path : LocalPath) : path.text ++ [backslash] =
    path.drive :: colon :: backslash :: join backslash path.words := by
  rw [text, words]
  split_ifs
  · rfl
  · exact body_separator _ _

theorem noBackslash_words (path : LocalPath) : ∀ w ∈ path.words, backslash ∉ w := by
  intro w hw
  rw [words] at hw
  split_ifs at hw
  · rw [List.mem_singleton.mp hw]
    exact List.not_mem_nil
  · obtain ⟨e, -, rfl⟩ := List.mem_map.mp hw
    exact e.noBackslash

theorem notMem_body {c : UInt16} (hdrive : c ≠ x) (hcolon : c ≠ colon) (hback : c ≠ backslash)
    (hes : ∀ e ∈ es, c ∉ e.name) : c ∉ body x es := by
  rw [body, List.mem_cons, List.mem_cons, List.mem_flatMap]
  rintro (h | h | ⟨e, he, h⟩)
  · exact hdrive h
  · exact hcolon h
  · rcases List.mem_cons.mp h with h | h
    · exact hback h
    · exact hes e he h

/-- No two separators stand together. -/
theorem isChain_body (hx : x ≠ backslash) (es : List Element) :
    (body x es).IsChain fun c d => ¬ (c = backslash ∧ d = backslash) := by
  have hname : ∀ e : Element, (backslash :: e.name).IsChain
      fun c d => ¬ (c = backslash ∧ d = backslash) := by
    intro e
    have hall : ∀ l : List UInt16, backslash ∉ l →
        ∀ c, (c :: l).IsChain fun c d => ¬ (c = backslash ∧ d = backslash) := by
      intro l
      induction l with
      | nil => exact fun _ c => List.isChain_singleton c
      | cons d l ih =>
        intro hl c
        refine List.isChain_cons_cons.mpr ⟨fun h => ?_, ih (fun h => ?_) d⟩
        · exact hl (h.2 ▸ List.mem_cons_self ..)
        · exact hl (List.mem_cons_of_mem _ h)
    exact hall e.name e.noBackslash backslash
  have hrest : ∀ es : List Element, (es.flatMap fun e => backslash :: e.name).IsChain
      fun c d => ¬ (c = backslash ∧ d = backslash) := by
    intro es
    induction es with
    | nil => exact .nil
    | cons e es ih =>
      rw [List.flatMap_cons]
      refine (hname e).append ih fun c hc d _ => ?_
      have hmem : c ∈ e.name := by
        rw [List.getLast?_cons, List.getLast?_eq_some_getLast e.ne_nil] at hc
        exact Option.some.inj hc ▸ List.getLast_mem e.ne_nil
      exact fun h => e.noBackslash (h.1 ▸ hmem)
  rw [body]
  refine List.isChain_cons_cons.mpr ⟨fun h => hx h.1, ?_⟩
  refine List.isChain_cons.mpr ⟨fun c _ h => absurd h.1 (by decide), hrest es⟩

theorem not_twice_body (hx : x ≠ backslash) {l : List UInt16}
    (hl : [backslash, backslash] <:+: l) : ¬ l <:+: body x es := by
  intro hsub
  obtain ⟨front, rest, heq⟩ := hl.trans hsub
  have hchain := isChain_body hx es
  rw [← heq] at hchain
  exact (List.isChain_cons_cons.mp hchain.left_of_append.right_of_append).1 ⟨rfl, rfl⟩

theorem getLast?_body (hes : es ≠ []) : (body x es).getLast? ≠ some backslash := by
  obtain ⟨front, e, rfl⟩ := List.eq_nil_or_concat' es |>.resolve_left hes
  have hbody : body x (front ++ [e]) = body x front ++ [backslash] ++ e.name := by
    simp [body]
  rw [hbody, List.getLast?_append_of_ne_nil _ e.ne_nil]
  exact fun h => e.noBackslash (List.mem_of_getLast? h)

/-- **The texts of local paths are normalised.** -/
theorem normalised_text (path : LocalPath) : Normalised path.text := by
  have hlong : [backslash, backslash] <:+: longMark := ⟨[], [0x3f, 0x5c], rfl⟩
  have hscheme : [backslash, backslash] <:+:
      replaceChar slash backslash (fileScheme ++ [slash, slash]) :=
    ⟨[0x66, 0x69, 0x6c, 0x65, 0x3a], [0x5c, 0x5c], rfl⟩
  rw [text]
  split_ifs with hroot
  · refine ⟨?_, ?_, fun _ => ⟨_, rfl⟩, fun x h => ?_, fun h => ?_, fun h => ?_⟩
    · simp [path.noNul.symm, colon, backslash]
    · simp only [colon, backslash, slash, List.mem_cons, List.not_mem_nil, or_false, not_or]
      exact ⟨path.noSlash.symm, by decide, by decide⟩
    · exact nomatch (List.cons.inj (List.cons.inj h).2).2
    · exact absurd (show 4 ≤ 3 from h.length_le) (by decide)
    · exact absurd (show 9 ≤ 3 from h.length_le) (by decide)
  · refine ⟨?_, ?_, fun h => absurd h (getLast?_body hroot), fun x h => ?_,
      not_twice_body path.noBackslash hlong, not_twice_body path.noBackslash hscheme⟩
    · exact notMem_body path.noNul.symm (by decide) (by decide) fun e _ => e.noNul
    · exact notMem_body path.noSlash.symm (by decide) (by decide) fun e _ => e.noSlash
    · obtain ⟨e, es, hes⟩ := List.exists_cons_of_ne_nil hroot
      rw [hes] at h
      simp [body] at h

/-- A normalised text is set as it is. -/
theorem win_setFromUnknown {w : List UInt16} (h : Normalised w) :
    (SetFromUnknown w).GetWinPathString = w := by
  have hfwd := h.setFwdslashPath
  exact Spells.win ⟨h, .inl rfl, .inr hfwd, .inr hfwd⟩

/-- A drive becomes its root. -/
theorem win_setFromUnknown_drive (hroot : path.elements = []) :
    (SetFromUnknown [path.drive, colon]).GetWinPathString = path.text := by
  have htext : path.text = [path.drive, colon, backslash] := if_pos hroot
  have hkeep : (if path.drive = backslash then slash else path.drive) = path.drive :=
    if_neg path.noBackslash
  have hchar : replaceChar backslash slash [path.drive, colon] = [path.drive, colon] := by
    rw [replaceChar, List.map_cons, hkeep]
    rfl
  have hfwd : SetFwdslashPath [path.drive, colon] = replaceChar backslash slash path.text := by
    have htrim : [path.drive, colon].rdropWhile (fun d => decide (d = slash)) =
        [path.drive, colon] := rfl
    have hlong : ¬ fwdLongMark <:+: [path.drive, colon] := fun h =>
      absurd (show 4 ≤ 2 from h.length_le) (by decide)
    have hscheme : ¬ (fileScheme ++ [slash, slash]) <:+: [path.drive, colon, slash] := fun h =>
      absurd (show 9 ≤ 3 from h.length_le) (by decide)
    have hset : replaceChar backslash slash [path.drive, colon, backslash] =
        [path.drive, colon, slash] := by
      rw [replaceChar, List.map_cons, hkeep]
      rfl
    rw [SetFwdslashPath, hchar, htrim, Lib.Text.replace_of_absent hlong, htext, hset]
    exact Lib.Text.replace_of_absent hscheme
  exact Spells.win ⟨path.normalised_text, .inl rfl, .inr hfwd, .inr hfwd⟩

end LocalPath

/-! ### The root of local paths -/

section Root

variable {paths : List CTSVNPath} {locals : List LocalPath} {root : List UInt16} {x : UInt16}
  {cs : List Element}

theorem exists_longestCommon (hne : locals ≠ []) : ∃ cs, LongestCommon cs locals := by
  obtain ⟨l, rest, rfl⟩ := List.exists_cons_of_ne_nil hne
  refine ⟨commonAll l.elements (rest.map LocalPath.elements), fun es => ?_⟩
  have hcons : (∀ p ∈ l :: rest, es <+: p.elements) ↔ _ := List.forall_mem_cons
  rw [starts_commonAll_iff, List.forall_mem_map, hcons]

theorem name_injective : Function.Injective Element.name := by
  rintro ⟨v, _, _, _, _⟩ ⟨w, _, _, _, _⟩ h
  obtain rfl : v = w := h
  rfl

theorem common_locals (htexts : paths.map GetWinPathString = locals.map LocalPath.text)
    (hroot : Common root paths) (s : List UInt16) : s <+: root ↔ ∀ l ∈ locals,
      s <+: l.drive :: colon :: backslash :: join backslash l.words := by
  have hmap : (∀ p ∈ paths, s <+: p.GetWinPathString ++ [backslash]) ↔
      ∀ w ∈ paths.map GetWinPathString, s <+: w ++ [backslash] := by
    rw [List.forall_mem_map]
  rw [hroot s, hmap, htexts, List.forall_mem_map]
  simp only [LocalPath.text_separator]

/-- The words that all paths begin with. Only drive roots have an empty word. -/
theorem starts_words_iff (hne : locals ≠ []) (hcs : LongestCommon cs locals)
    (s : List (List UInt16)) :
    s <+: (if ∀ l ∈ locals, l.elements = [] then [[]] else cs.map Element.name) ↔
      ∀ l ∈ locals, s <+: l.words := by
  by_cases hroots : ∀ l ∈ locals, l.elements = []
  · rw [if_pos hroots]
    have hwords : ∀ l ∈ locals, l.words = [[]] := fun l hl => if_pos (hroots l hl)
    obtain ⟨l, hl⟩ := List.exists_mem_of_ne_nil _ hne
    exact ⟨fun hs p hp => hwords p hp ▸ hs, fun hs => hwords l hl ▸ hs l hl⟩
  · rw [if_neg hroots]
    push Not at hroots
    obtain ⟨l, hl, hlne⟩ := hroots
    have hwordsl : l.words = l.elements.map Element.name := if_neg hlne
    have hself := (hcs cs).mp (List.prefix_refl cs)
    constructor
    · intro hs p hp
      rw [LocalPath.words]
      split_ifs with hp0
      · have hnil : cs = [] := List.prefix_nil.mp (hp0 ▸ hself p hp)
        rw [hnil, List.map_nil, List.prefix_nil] at hs
        exact hs ▸ List.nil_prefix
      · exact hs.trans ((hself p hp).map _)
    · intro hs
      have hsl := hs l hl
      rw [hwordsl, List.prefix_map_iff] at hsl
      obtain ⟨ds, hds, rfl⟩ := hsl
      refine List.IsPrefix.map _ ((hcs ds).mpr fun p hp => ?_)
      have hsp := hs p hp
      rw [LocalPath.words] at hsp
      split_ifs at hsp with hp0
      · -- no element is an empty word
        cases ds with
        | nil => exact List.nil_prefix
        | cons d ds =>
          rw [List.map_cons, List.cons_prefix_cons] at hsp
          exact absurd hsp.1 d.ne_nil
      · exact (List.prefix_map_iff_of_injective name_injective).mp hsp

/-- The common text consists of the common words and a part of the next word. -/
theorem exists_common_text (hne : locals ≠ []) (hdrive : ∀ l ∈ locals, l.drive = x)
    (htexts : paths.map GetWinPathString = locals.map LocalPath.text) (hroot : Common root paths)
    {ws : List (List UInt16)} (hws : ∀ s, s <+: ws ↔ ∀ l ∈ locals, s <+: l.words) :
    ∃ t, backslash ∉ t ∧ root = (x :: colon :: backslash :: join backslash ws) ++ t := by
  have hself := (hws ws).mp (List.prefix_refl ws)
  have hwsback : ∀ w ∈ ws, backslash ∉ w := by
    obtain ⟨l, hl⟩ := List.exists_mem_of_ne_nil _ hne
    exact fun w hw => l.noBackslash_words w ((hself l hl).subset hw)
  have hstart : x :: colon :: backslash :: join backslash ws <+: root := by
    rw [common_locals htexts hroot]
    intro l hl
    rw [hdrive l hl]
    simp only [List.cons_prefix_cons, true_and]
    exact (starts_join_iff hwsback l.noBackslash_words).mpr (hself l hl)
  obtain ⟨t, rfl⟩ := hstart
  refine ⟨t, fun ht => ?_, rfl⟩
  -- a further separator would end a further common word
  obtain ⟨a, b, rfl, -⟩ := List.eq_append_cons_of_mem ht
  have hmore : ∀ l ∈ locals, (join backslash ws ++ a) ++ [backslash] <+: join backslash l.words := by
    intro l hl
    have hlong : x :: colon :: backslash :: ((join backslash ws ++ a) ++ [backslash]) <+:
        x :: colon :: backslash :: join backslash ws ++ (a ++ backslash :: b) := ⟨b, by simp⟩
    have hsub := (common_locals htexts hroot _).mp hlong l hl
    rw [hdrive l hl] at hsub
    simpa only [List.cons_prefix_cons, true_and] using hsub
  obtain ⟨l, hl⟩ := List.exists_mem_of_ne_nil _ hne
  obtain ⟨vs, -, hvs, heq⟩ := exists_of_starts_join l.noBackslash_words (hmore l hl)
  have hvsback : ∀ v ∈ vs, backslash ∉ v := fun v hv => l.noBackslash_words v (hvs.subset hv)
  have hcommon : vs <+: ws := (hws vs).mpr fun p hp =>
    (starts_join_iff hvsback p.noBackslash_words).mp (heq ▸ hmore p hp)
  have hlen := ((starts_join_iff hvsback hwsback).mpr hcommon).length_le
  rw [← heq, List.length_append, List.length_append, List.length_singleton] at hlen
  omega

/-- On one drive, the root has the common elements. -/
theorem cutRoot_text (hne : locals ≠ []) {path : LocalPath}
    (hdrive : ∀ l ∈ locals, l.drive = path.drive) (hcs : LongestCommon path.elements locals)
    (htexts : paths.map GetWinPathString = locals.map LocalPath.text) (hroot : Common root paths) :
    (cutRoot root root.length).GetWinPathString = path.text := by
  obtain ⟨t, ht, rfl⟩ := exists_common_text hne hdrive htexts hroot
    (starts_words_iff hne hcs)
  by_cases hroots : ∀ l ∈ locals, l.elements = []
  · have hnil : path.elements = [] := by
      obtain ⟨l, hl⟩ := List.exists_mem_of_ne_nil _ hne
      exact List.prefix_nil.mp (hroots l hl ▸ (hcs path.elements).mp (List.prefix_refl _) l hl)
    have htext : path.text = [path.drive, colon, backslash] := if_pos hnil
    have hsplit : path.drive :: colon :: backslash :: join backslash [[]] ++ t =
        path.text ++ backslash :: t := by
      rw [htext]
      rfl
    rw [if_pos hroots, hsplit, cutRoot_eq ht, LocalPath.win_setFromUnknown path.normalised_text]
  · rw [if_neg hroots]
    by_cases hnil : path.elements = []
    · have hsplit : path.drive :: colon :: backslash :: join backslash
          (path.elements.map Element.name) ++ t = [path.drive, colon] ++ backslash :: t := by
        rw [hnil]
        rfl
      rw [hsplit, cutRoot_eq ht, path.win_setFromUnknown_drive hnil]
    · have htext : path.text = LocalPath.body path.drive path.elements := if_neg hnil
      have hsplit : path.drive :: colon :: backslash :: join backslash
          (path.elements.map Element.name) ++ t = path.text ++ backslash :: t := by
        rw [← LocalPath.body_separator, htext, List.append_assoc, List.singleton_append]
      rw [hsplit, cutRoot_eq ht, LocalPath.win_setFromUnknown path.normalised_text]

/-- On different drives, there is no root. -/
theorem cutRoot_nil (hdrive : ¬ ∃ x, ∀ l ∈ locals, l.drive = x)
    (htexts : paths.map GetWinPathString = locals.map LocalPath.text) (hroot : Common root paths) :
    cutRoot root root.length = ⟨[], []⟩ := by
  have hnil : root = [] := by
    by_contra hne
    obtain ⟨x, rest, rfl⟩ := List.exists_cons_of_ne_nil hne
    refine hdrive ⟨x, fun l hl => ?_⟩
    have hstart := (common_locals htexts hroot _).mp (List.prefix_refl _) l hl
    exact (List.cons_prefix_cons.mp hstart).1.symm
  rw [hnil]
  decide

/-- A local path that another one begins with is its ancestor. -/
theorem above_text (m : CaseMap) {path child : LocalPath} (hdrive : child.drive = path.drive)
    (hes : path.elements <+: child.elements) : Above (m.key path.text) (m.key child.text) := by
  obtain ⟨rest, hrest⟩ := hes
  by_cases hnil : path.elements = []
  · have htext : path.text = [path.drive, colon, backslash] := if_pos hnil
    have hstarts : path.text <+: child.text := by
      rw [htext, LocalPath.text, hdrive]
      split_ifs with hchild
      · exact List.prefix_refl _
      · obtain ⟨e, es, hes⟩ := List.exists_cons_of_ne_nil hchild
        rw [hes]
        exact ⟨e.name ++ es.flatMap fun e => backslash :: e.name, rfl⟩
    have hcolon : (m.key path.text)[1]? = some 0x3a := by
      have hsecond := getElem?_key (s := path.text) (i := 1) (fun _ => m.towlower_eq_colon)
      exact hsecond.mpr (by rw [htext]; rfl)
    exact .inr (.inr ⟨⟨by rw [htext]; rfl, hcolon⟩, hstarts.map _⟩)
  · have htext : path.text = LocalPath.body path.drive path.elements := if_neg hnil
    have hchild : child.text = path.text ++ rest.flatMap fun e => backslash :: e.name := by
      have hne : child.elements ≠ [] := hrest ▸ List.append_ne_nil_of_left_ne_nil hnil _
      rw [htext, LocalPath.text, if_neg hne, ← hrest, hdrive, LocalPath.body, LocalPath.body,
        List.flatMap_append]
      rfl
    cases rest with
    | nil =>
      rw [hchild, List.flatMap_nil, List.append_nil]
      exact .inl rfl
    | cons e rest =>
      have hback : m.towlower backslash = backslash := m.towlower_eq_backslash.mpr rfl
      have hsep : m.key [backslash] = [0x5c] := by
        rw [CaseMap.key, List.map_singleton, hback]
        rfl
      refine .inr (.inl ?_)
      rw [← hsep, CaseMap.key, CaseMap.key, ← List.map_append, hchild]
      exact List.IsPrefix.map _ ⟨e.name ++ rest.flatMap fun e => backslash :: e.name, by simp⟩

end Root

/-- What the common root of some paths should be. -/
structure IsCommonRoot (paths : List CTSVNPath) (locals : List LocalPath) (root : CTSVNPath) :
    Prop where
  longest : (∃ path : LocalPath, (∀ l ∈ locals, l.drive = path.drive) ∧
      LongestCommon path.elements locals ∧ root.GetWinPathString = path.text) ∨
    (¬ ∃ x, ∀ l ∈ locals, l.drive = x) ∧ root = ⟨[], []⟩
  order : ∀ paths' : List CTSVNPath, paths'.Perm paths → GetCommonRoot paths' = root
  ancestor : root ≠ ⟨[], []⟩ → ∀ (m : CaseMap), ∀ p ∈ paths, IsAncestorOf m root p = true

/-- **The common root of local paths is made of what they have in common.** -/
theorem getCommonRoot_spec {paths : List CTSVNPath} {locals : List LocalPath}
    (hlen : 2 ≤ paths.length) (htexts : paths.map GetWinPathString = locals.map LocalPath.text) :
    IsCommonRoot paths locals (GetCommonRoot paths) := by
  obtain ⟨root, hroot, heq⟩ := getCommonRoot_eq hlen
  have hne : locals ≠ [] := by
    rintro rfl
    rw [List.map_nil, List.map_eq_nil_iff] at htexts
    rw [htexts] at hlen
    exact absurd hlen (by decide)
  by_cases hdrive : ∃ x, ∀ l ∈ locals, l.drive = x
  · obtain ⟨x, hx⟩ := hdrive
    obtain ⟨cs, hcs⟩ := exists_longestCommon hne
    obtain ⟨l, hl⟩ := List.exists_mem_of_ne_nil _ hne
    obtain ⟨path, hpath, hes⟩ : ∃ path : LocalPath, path.drive = x ∧ path.elements = cs :=
      ⟨{ l with elements := cs }, hx l hl, rfl⟩
    subst hpath hes
    have htext : (GetCommonRoot paths).GetWinPathString = path.text := by
      rw [heq]
      exact cutRoot_text hne hx hcs htexts hroot
    refine ⟨.inl ⟨path, hx, hcs, htext⟩, fun paths' hperm => getCommonRoot_perm hlen hperm,
      fun _ m p hp => ?_⟩
    obtain ⟨child, hchild, hwin⟩ := List.mem_map.mp
      (htexts ▸ List.mem_map_of_mem (f := GetWinPathString) hp)
    rw [isAncestorOf_iff, htext, ← hwin]
    exact above_text m (hx child hchild) ((hcs _).mp (List.prefix_refl _) child hchild)
  · have hempty : GetCommonRoot paths = ⟨[], []⟩ := heq.trans (cutRoot_nil hdrive htexts hroot)
    exact ⟨.inr ⟨hdrive, hempty⟩, fun paths' hperm => getCommonRoot_perm hlen hperm,
      fun h => absurd hempty h⟩

/-- Two entries of the drive root. -/
theorem getCommonRoot_spec_two :
    IsCommonRoot [⟨[67, 58, 92, 97], []⟩, ⟨[67, 58, 92, 98], []⟩]
      [⟨67, [⟨[97], by decide, by decide, by decide, by decide⟩], by decide, by decide, by decide⟩,
        ⟨67, [⟨[98], by decide, by decide, by decide, by decide⟩], by decide, by decide, by decide⟩]
      (GetCommonRoot [⟨[67, 58, 92, 97], []⟩, ⟨[67, 58, 92, 98], []⟩]) :=
  getCommonRoot_spec (by decide) (by decide)

end CTSVNPathList

end TortoiseSvn.Svn
