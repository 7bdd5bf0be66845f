import TortoiseSvn.Merge.Undo

/-!
# Undoing and redoing actions

An action of the user is one step, or several steps between `BeginGrouping` and `EndGrouping`.
The end points of a group are numbers of steps that can be undone. `Undo` compares the last end
point with the number of steps that can be undone, and `Redo` with the number of those that can be
redone, although it is the same end point. So `Redo` moves over a whole group only if there are as
many steps before the group as after it.

Main result: `wholeActions_iff`.
-/

namespace TortoiseSvn.Merge

open Lib

/-- A step and the position of the caret before it. -/
abbrev Step := Allviewstate × Point

/-- An action of the user: one step, or a group of one or more steps. -/
inductive Action
  | single (step : Step)
  | group (first : Step) (rest : List Step)

namespace Action

/-- The number of steps of an action. -/
def size : Action → ℕ
  | single _ => 1
  | group _ rest => rest.length + 1

theorem size_pos (a : Action) : 0 < a.size := by
  cases a with
  | single => exact Nat.one_pos
  | group => exact Nat.succ_pos _

/-- Record the steps of an action. -/
def perform (u : CUndo) : Action → CUndo
  | single step => u.addState step.1 step.2
  | group first rest =>
    ((first :: rest).foldl (fun u step => u.addState step.1 step.2) u.beginGrouping).endGrouping

/-- The group of an action that is made when there are `b` steps. -/
def span (b : ℕ) : Action → List (ℕ × ℕ)
  | single _ => []
  | group _ rest => [(b, b + (rest.length + 1))]

end Action

/-- The number of steps of a list of actions. -/
def total (actions : List Action) : ℕ := (actions.map Action.size).sum

@[simp] theorem total_nil : total [] = 0 := rfl

@[simp] theorem total_cons (a : Action) (l : List Action) : total (a :: l) = a.size + total l := by
  simp [total]

@[simp] theorem total_append (l₁ l₂ : List Action) : total (l₁ ++ l₂) = total l₁ + total l₂ := by
  simp [total]

/-- The groups of a list of actions, the first of which is made when there are `b` steps. -/
def spans : ℕ → List Action → List (ℕ × ℕ)
  | _, [] => []
  | b, a :: l => a.span b ++ spans (b + a.size) l

theorem spans_append (b : ℕ) (l₁ l₂ : List Action) :
    spans b (l₁ ++ l₂) = spans b l₁ ++ spans (b + total l₁) l₂ := by
  induction l₁ generalizing b with
  | nil => simp [spans]
  | cons a l₁ ih => simp [spans, ih, Nat.add_assoc]

/-- The end points of a list of groups. -/
def endPoints (l : List (ℕ × ℕ)) : List ℕ := l.flatMap fun p => [p.1, p.2]

@[simp] theorem endPoints_nil : endPoints [] = [] := rfl

theorem endPoints_append (l₁ l₂ : List (ℕ × ℕ)) :
    endPoints (l₁ ++ l₂) = endPoints l₁ ++ endPoints l₂ := List.flatMap_append

theorem endPoints_concat (l : List (ℕ × ℕ)) (p : ℕ × ℕ) :
    endPoints (l ++ [p]) = endPoints l ++ [p.1, p.2] := by
  rw [endPoints_append]
  rfl

/-- Groups lie between the number of steps before the actions and the one after them. -/
theorem mem_spans {b : ℕ} {l : List Action} {p : ℕ × ℕ} (h : p ∈ spans b l) :
    b ≤ p.1 ∧ p.1 < p.2 ∧ p.2 ≤ b + total l := by
  induction l generalizing b with
  | nil => exact absurd h List.not_mem_nil
  | cons a l ih =>
    rw [total_cons]
    rcases List.mem_append.mp h with h | h
    · cases a with
      | single => exact absurd h List.not_mem_nil
      | group first rest =>
        obtain rfl := List.mem_singleton.mp h
        simp only [Action.size]
        omega
    · obtain ⟨h₁, h₂, h₃⟩ := ih h
      omega

theorem le_of_mem_endPoints {b x : ℕ} {l : List Action} (h : x ∈ endPoints (spans b l)) :
    x ≤ b + total l := by
  obtain ⟨p, hp, hx⟩ := List.mem_flatMap.mp h
  obtain ⟨-, h₂, h₃⟩ := mem_spans hp
  rcases List.mem_cons.mp hx with rfl | hx
  · exact h₂.le.trans h₃
  · rwa [List.mem_singleton.mp hx]

/-! ### Recording -/

namespace CUndo

/-- The heights of the stacks and the end points of the groups. -/
structure Heights (u : CUndo) (undo redo : ℕ) (groups redogroups : List ℕ) : Prop where
  viewstates : u.viewstates.length = undo
  caretpoints : u.caretpoints.length = undo
  redoviewstates : u.redoviewstates.length = redo
  redocaretpoints : u.redocaretpoints.length = redo
  groups : u.groups = groups
  redogroups : u.redogroups = redogroups

variable {u : CUndo} {v : Views} {n m : ℕ} {gs rs : List ℕ}

/-- A new step clears what can be redone. -/
theorem Heights.addState (h : u.Heights n m gs rs) (step : Step) :
    (u.addState step.1 step.2).Heights (n + 1) 0 gs [] where
  viewstates := by simp [CUndo.addState, h.viewstates]
  caretpoints := by simp [CUndo.addState, h.caretpoints]
  redoviewstates := rfl
  redocaretpoints := rfl
  groups := h.groups
  redogroups := rfl

theorem Heights.addStates (h : u.Heights n 0 gs []) (steps : List Step) :
    (steps.foldl (fun u step => u.addState step.1 step.2) u).Heights (n + steps.length) 0 gs [] := by
  induction steps generalizing u n with
  | nil => exact h
  | cons step steps ih =>
    have := ih (h.addState step)
    rwa [List.length_cons, Nat.add_comm steps.length 1, ← Nat.add_assoc]

theorem groupCount_addStates (u : CUndo) (steps : List Step) :
    (steps.foldl (fun u step => u.addState step.1 step.2) u).groupCount = u.groupCount := by
  induction steps generalizing u with
  | nil => rfl
  | cons step steps ih => exact ih _

/-- An action adds its steps, and its group to the groups. -/
theorem Heights.perform (h : u.Heights n 0 gs []) (hc : u.groupCount = 0) (a : Action) :
    (a.perform u).Heights (n + a.size) 0 (gs ++ endPoints (a.span n)) [] ∧
      (a.perform u).groupCount = 0 := by
  cases a with
  | single step =>
    have := h.addState step
    rw [← List.append_nil gs] at this
    exact ⟨this, hc⟩
  | group first rest =>
    have hbegin : u.beginGrouping.Heights n 0 (gs ++ [n]) [] :=
      { viewstates := h.viewstates
        caretpoints := h.caretpoints
        redoviewstates := h.redoviewstates
        redocaretpoints := h.redocaretpoints
        groups := by simp [beginGrouping, hc, h.groups, h.caretpoints]
        redogroups := h.redogroups }
    have hsteps := hbegin.addStates (first :: rest)
    have hcount := groupCount_addStates u.beginGrouping (first :: rest)
    have hone : u.beginGrouping.groupCount = 1 := by simp [beginGrouping, hc]
    rw [hone] at hcount
    refine ⟨{ viewstates := hsteps.viewstates
              caretpoints := hsteps.caretpoints
              redoviewstates := hsteps.redoviewstates
              redocaretpoints := hsteps.redocaretpoints
              groups := ?_
              redogroups := hsteps.redogroups }, ?_⟩
    · rw [Action.perform, endGrouping, hcount]
      simp only [sub_self, if_true, hsteps.groups, hsteps.caretpoints]
      simp [Action.span, endPoints]
    · simp only [Action.perform, endGrouping, hcount, sub_self]

end CUndo

/-- Record a run of actions.
Source: `Undo.cpp` `AddState`, `Undo.h` `BeginGrouping`, `EndGrouping` -/
def performAll (actions : List Action) : CUndo := actions.foldl Action.perform {}

/-- What a run of actions leaves. -/
theorem performAll_heights (actions : List Action) :
    (performAll actions).Heights (total actions) 0 (endPoints (spans 0 actions)) [] := by
  have key : ∀ (l : List Action) (u : CUndo) (n : ℕ) (gs : List ℕ), u.Heights n 0 gs [] →
      u.groupCount = 0 →
      (l.foldl Action.perform u).Heights (n + total l) 0 (gs ++ endPoints (spans n l)) [] := by
    intro l
    induction l with
    | nil =>
      intro u n gs h _
      simpa [spans] using h
    | cons a l ih =>
      intro u n gs h hc
      obtain ⟨h', hc'⟩ := h.perform hc a
      have := ih _ _ _ h' hc'
      rwa [List.append_assoc, ← endPoints_append, Nat.add_assoc, ← total_cons] at this
  have := key actions {} 0 [] ⟨rfl, rfl, rfl, rfl, rfl, rfl⟩ rfl
  rwa [Nat.zero_add, List.nil_append] at this

/-! ### Undo and redo on the heights -/

namespace CUndo

variable {u : CUndo} {v : Views} {n m b k fuel : ℕ} {gs rs : List ℕ}

theorem Heights.undoOne (h : u.Heights (n + 1) m gs rs) (v : Views) :
    ∃ u' v', u.undoOne v = some (u', v') ∧ u'.Heights n (m + 1) gs rs := by
  obtain ⟨steps, a, hs, hslen⟩ := exists_concat h.viewstates
  obtain ⟨pts, pt, hp, hplen⟩ := exists_concat h.caretpoints
  refine ⟨_, _, undoOne_eq hs hp, hslen, hplen, ?_, ?_, h.groups, h.redogroups⟩
  · simp [h.redoviewstates]
  · simp [h.redocaretpoints]

theorem Heights.redoOne (h : u.Heights n (m + 1) gs rs) (v : Views) :
    ∃ u' v', u.redoOne v = some (u', v') ∧ u'.Heights (n + 1) m gs rs := by
  obtain ⟨steps, a, hs, hslen⟩ := exists_concat h.redoviewstates
  obtain ⟨pts, pt, hp, hplen⟩ := exists_concat h.redocaretpoints
  refine ⟨_, _, redoOne_eq hs hp, ?_, ?_, hslen, hplen, h.groups, h.redogroups⟩
  · simp [h.viewstates]
  · simp [h.caretpoints]

theorem Heights.undoDownTo (h : u.Heights (b + k) m gs rs) (hk : k ≤ fuel) (v : Views) :
    ∃ u' v', CUndo.undoDownTo b fuel u v = some (u', v') ∧ u'.Heights b (m + k) gs rs := by
  induction fuel generalizing u v k m with
  | zero =>
    obtain rfl := Nat.le_zero.mp hk
    exact ⟨u, v, rfl, h⟩
  | succ fuel ih =>
    unfold CUndo.undoDownTo
    rw [h.caretpoints]
    cases k with
    | zero => exact ⟨u, v, by simp, h⟩
    | succ k =>
      obtain ⟨u₁, v₁, h₁, hh₁⟩ := Heights.undoOne (n := b + k) h v
      obtain ⟨u', v', h', hh'⟩ := ih hh₁ (Nat.le_of_succ_le_succ hk) v₁
      refine ⟨u', v', ?_, ?_⟩
      · rw [if_pos (by omega), h₁]
        exact h'
      · rwa [Nat.add_assoc, Nat.add_comm 1 k] at hh'

theorem Heights.redoDownTo (h : u.Heights n (b + k) gs rs) (hk : k ≤ fuel) (v : Views) :
    ∃ u' v', CUndo.redoDownTo b fuel u v = some (u', v') ∧ u'.Heights (n + k) b gs rs := by
  induction fuel generalizing u v k n with
  | zero =>
    obtain rfl := Nat.le_zero.mp hk
    exact ⟨u, v, rfl, h⟩
  | succ fuel ih =>
    unfold CUndo.redoDownTo
    rw [h.redocaretpoints]
    cases k with
    | zero => exact ⟨u, v, by simp, h⟩
    | succ k =>
      obtain ⟨u₁, v₁, h₁, hh₁⟩ := Heights.redoOne (m := b + k) h v
      obtain ⟨u', v', h', hh'⟩ := ih hh₁ (Nat.le_of_succ_le_succ hk) v₁
      refine ⟨u', v', ?_, ?_⟩
      · rw [if_pos (by omega), h₁]
        exact h'
      · rwa [Nat.add_assoc, Nat.add_comm 1 k] at hh'

/-- Telling the views does not touch the stacks. -/
theorem Heights.report (h : u.Heights n m gs rs) (steps : List Allviewstate) (v : Views) :
    (CUndo.report steps u v).1.Heights n m gs rs :=
  ⟨h.viewstates, h.caretpoints, h.redoviewstates, h.redocaretpoints, h.groups, h.redogroups⟩

theorem Heights.canUndo (h : u.Heights n m gs rs) : u.canUndo = decide (0 < n) := by
  rw [CUndo.canUndo, ← h.viewstates]
  cases u.viewstates <;> simp

theorem Heights.canRedo (h : u.Heights n m gs rs) : u.canRedo = decide (0 < m) := by
  rw [CUndo.canRedo, ← h.redoviewstates]
  cases u.redoviewstates <;> simp

/-- `Undo` does nothing when there is no step to undo. -/
theorem Heights.undo_none (h : u.Heights 0 m gs rs) (v : Views) : u.undo v = some (u, v) := by
  simp [CUndo.undo, h.canUndo]

theorem Heights.redo_none (h : u.Heights n 0 gs rs) (v : Views) : u.redo v = some (u, v) := by
  simp [CUndo.redo, h.canRedo]

/-- `Undo` moves one step when no group ends here. -/
theorem Heights.undo_single (h : u.Heights (n + 1) m gs rs) (hg : gs.getLast? ≠ some (n + 1))
    (v : Views) : ∃ u' v', u.undo v = some (u', v') ∧ u'.Heights n (m + 1) gs rs := by
  obtain ⟨u₁, v₁, h₁, hh₁⟩ := h.undoOne v
  have hno : ¬u.groups.getLast? = some u.caretpoints.length := by
    rwa [h.groups, h.caretpoints]
  refine ⟨_, (CUndo.report u₁.viewstates u₁ v₁).2, ?_, hh₁.report u₁.viewstates v₁⟩
  simp [CUndo.undo, h.canUndo, CUndo.undoSteps, hno, h₁]

theorem Heights.redo_single (h : u.Heights n (m + 1) gs rs) (hg : rs.getLast? ≠ some (m + 1))
    (v : Views) : ∃ u' v', u.redo v = some (u', v') ∧ u'.Heights (n + 1) m gs rs := by
  obtain ⟨u₁, v₁, h₁, hh₁⟩ := h.redoOne v
  have hno : ¬u.redogroups.getLast? = some u.redocaretpoints.length := by
    rwa [h.redogroups, h.redocaretpoints]
  refine ⟨_, (CUndo.report u₁.redoviewstates u₁ v₁).2, ?_, hh₁.report u₁.redoviewstates v₁⟩
  simp [CUndo.redo, h.canRedo, CUndo.redoSteps, hno, h₁]

/-- `Undo` moves the steps of a group that ends here. -/
theorem Heights.undo_group (h : u.Heights (b + k) m (gs ++ [b, b + k]) rs) (hk : 0 < k)
    (v : Views) :
    ∃ u' v', u.undo v = some (u', v') ∧ u'.Heights b (m + k) gs (rs ++ [b, b + k]) := by
  have hlast : u.groups.getLast? = some u.caretpoints.length := by
    simp [h.groups, h.caretpoints]
  have hdrop : u.groups.dropLast.getLast? = some b ∧ u.groups.dropLast.dropLast = gs := by
    rw [h.groups, show gs ++ [b, b + k] = gs ++ [b] ++ [b + k] by simp, List.dropLast_concat]
    exact ⟨List.getLast?_concat, List.dropLast_concat⟩
  have hmark : CUndo.Heights
      { u with
        groups := u.groups.dropLast.dropLast
        redogroups := u.redogroups ++ [b, u.caretpoints.length] } (b + k) m gs
      (rs ++ [b, b + k]) :=
    ⟨h.viewstates, h.caretpoints, h.redoviewstates, h.redocaretpoints, hdrop.2,
      by rw [h.redogroups, h.caretpoints]⟩
  have hfuel : k ≤ u.caretpoints.length := by rw [h.caretpoints]; omega
  obtain ⟨u₁, v₁, h₁, hh₁⟩ := hmark.undoDownTo hfuel v
  refine ⟨_, (CUndo.report u₁.viewstates u₁ v₁).2, ?_, hh₁.report u₁.viewstates v₁⟩
  have hpos : 0 < b + k := by omega
  simp [CUndo.undo, h.canUndo, hpos, CUndo.undoSteps, hlast, hdrop.1, h₁]

theorem Heights.redo_group (h : u.Heights n (b + k) gs (rs ++ [b, b + k])) (hk : 0 < k)
    (v : Views) :
    ∃ u' v', u.redo v = some (u', v') ∧ u'.Heights (n + k) b (gs ++ [b, b + k]) rs := by
  have hlast : u.redogroups.getLast? = some u.redocaretpoints.length := by
    simp [h.redogroups, h.redocaretpoints]
  have hdrop : u.redogroups.dropLast.getLast? = some b ∧
      u.redogroups.dropLast.dropLast = rs := by
    rw [h.redogroups, show rs ++ [b, b + k] = rs ++ [b] ++ [b + k] by simp, List.dropLast_concat]
    exact ⟨List.getLast?_concat, List.dropLast_concat⟩
  have hmark : CUndo.Heights
      { u with
        redogroups := u.redogroups.dropLast.dropLast
        groups := u.groups ++ [b, u.redocaretpoints.length] } n (b + k) (gs ++ [b, b + k]) rs :=
    ⟨h.viewstates, h.caretpoints, h.redoviewstates, h.redocaretpoints,
      by rw [h.groups, h.redocaretpoints], hdrop.2⟩
  have hfuel : k ≤ u.redocaretpoints.length := by rw [h.redocaretpoints]; omega
  obtain ⟨u₁, v₁, h₁, hh₁⟩ := hmark.redoDownTo hfuel v
  refine ⟨_, (CUndo.report u₁.redoviewstates u₁ v₁).2, ?_, hh₁.report u₁.redoviewstates v₁⟩
  have hpos : 0 < b + k := by omega
  simp [CUndo.redo, h.canRedo, hpos, CUndo.redoSteps, hlast, hdrop.1, h₁]

end CUndo

/-! ### Moving over actions -/

/-- The stacks when the actions `undone` are undone and `done` are not. -/
def Cursor (done undone : List Action) (u : CUndo) : Prop :=
  u.Heights (total done) (total undone) (endPoints (spans 0 done))
    (endPoints (spans (total done) undone).reverse)

/-- Every group has as many steps before it as after it. -/
def Centered (actions : List Action) : Prop :=
  ∀ pre first rest post, actions = pre ++ .group first rest :: post → total pre = total post

/-- A group of a list of actions. -/
theorem exists_of_mem_spans {b : ℕ} {l : List Action} {p : ℕ × ℕ} (h : p ∈ spans b l) :
    ∃ pre first rest post, l = pre ++ .group first rest :: post ∧ p.1 = b + total pre ∧
      p.2 = p.1 + (rest.length + 1) := by
  induction l generalizing b with
  | nil => exact absurd h List.not_mem_nil
  | cons a l ih =>
    rcases List.mem_append.mp h with h | h
    · cases a with
      | single => exact absurd h List.not_mem_nil
      | group first rest =>
        obtain rfl := List.mem_singleton.mp h
        exact ⟨[], first, rest, l, rfl, rfl, rfl⟩
    · obtain ⟨pre, first, rest, post, rfl, h₁, h₂⟩ := ih h
      refine ⟨a :: pre, first, rest, post, rfl, ?_, h₂⟩
      rw [h₁, total_cons, Nat.add_assoc]

/-- `Undo` takes back the latest action that is not undone. -/
theorem Cursor.undo {done undone : List Action} {a : Action} {u : CUndo}
    (h : Cursor (done ++ [a]) undone u) (v : Views) :
    ∃ u' v', u.undo v = some (u', v') ∧ Cursor done (a :: undone) u' := by
  unfold Cursor at h ⊢
  rw [total_append, total_cons, total_nil, Nat.add_zero, spans_append, Nat.zero_add] at h
  cases a with
  | single step =>
    have hg : (endPoints (spans 0 done)).getLast? ≠ some (total done + 1) := by
      intro hlast
      have hle := le_of_mem_endPoints (List.mem_of_getLast? hlast)
      omega
    obtain ⟨u', v', hu, hh⟩ := CUndo.Heights.undo_single (by
      simpa [spans, Action.span, Action.size] using h) hg v
    refine ⟨u', v', hu, ?_⟩
    simpa [spans, Action.span, Action.size, Nat.add_comm] using hh
  | group first rest =>
    have h' : u.Heights (total done + (rest.length + 1)) (total undone)
        (endPoints (spans 0 done) ++ [total done, total done + (rest.length + 1)])
        (endPoints (spans (total done + (rest.length + 1)) undone).reverse) := by
      have := h
      simp only [spans, Action.span, Action.size, List.append_nil] at this
      rwa [endPoints_concat] at this
    obtain ⟨u', v', hu, hh⟩ := h'.undo_group (Nat.succ_pos _) v
    refine ⟨u', v', hu, ?_⟩
    simp only [spans, Action.span, Action.size, List.singleton_append, List.reverse_cons,
      total_cons]
    rwa [endPoints_concat, Nat.add_comm (rest.length + 1)]

/-- `Redo` takes up the latest undone action again, if the groups have as many steps before
them as after them. -/
theorem Cursor.redo {done undone : List Action} {a : Action} {u : CUndo}
    (hc : Centered (done ++ a :: undone)) (h : Cursor done (a :: undone) u) (v : Views) :
    ∃ u' v', u.redo v = some (u', v') ∧ Cursor (done ++ [a]) undone u' := by
  unfold Cursor at h ⊢
  rw [total_append, total_cons, total_nil, Nat.add_zero, spans_append, Nat.zero_add]
  cases a with
  | single step =>
    have hg : (endPoints (spans (total done + 1) undone).reverse).getLast? ≠
        some (total undone + 1) := by
      intro hlast
      obtain ⟨p, hp, hx⟩ := List.mem_flatMap.mp (List.mem_of_getLast? hlast)
      obtain ⟨pre, first, rest, post, hl, h₁, h₂⟩ := exists_of_mem_spans (List.mem_reverse.mp hp)
      have hmid := hc (done ++ .single step :: pre) first rest post (by simp [hl])
      have htot : total undone = total pre + (rest.length + 1 + total post) := by
        rw [hl, total_append, total_cons]
        rfl
      have hx' : total undone + 1 = p.1 ∨ total undone + 1 = p.2 := by simpa using hx
      simp only [total_append, total_cons, Action.size] at hmid
      omega
    obtain ⟨u', v', hu, hh⟩ := CUndo.Heights.redo_single (by
      simpa [spans, Action.span, Action.size, Nat.add_comm 1] using h) hg v
    refine ⟨u', v', hu, ?_⟩
    simpa [spans, Action.span, Action.size] using hh
  | group first rest =>
    have hmid : total done = total undone := hc done first rest undone rfl
    have h' : u.Heights (total done) (total done + (rest.length + 1))
        (endPoints (spans 0 done))
        (endPoints (spans (total done + (rest.length + 1)) undone).reverse ++
          [total done, total done + (rest.length + 1)]) := by
      have := h
      simp only [spans, Action.span, Action.size, List.singleton_append, List.reverse_cons,
        total_cons] at this
      rwa [endPoints_concat, Nat.add_comm, ← hmid] at this
    obtain ⟨u', v', hu, hh⟩ := h'.redo_group (Nat.succ_pos _) v
    refine ⟨u', v', hu, ?_⟩
    simp only [spans, Action.span, Action.size, List.append_nil]
    rw [endPoints_concat, ← hmid]
    exact hh

/-! ### Sequences of calls -/

/-- A call of `Undo` or `Redo`. -/
inductive Call
  | undo | redo

/-- Make a call. -/
def Call.exec : Call → CUndo × Views → Option (CUndo × Views)
  | undo, s => s.1.undo s.2
  | redo, s => s.1.redo s.2

/-- Make calls one after the other. -/
def runCalls : List Call → CUndo × Views → Option (CUndo × Views)
  | [], s => some s
  | c :: cs, s => (c.exec s).bind (runCalls cs)

/-- The number of actions that are not undone after a call, of `n` actions, if `c` were not
before. -/
def Call.move (n c : ℕ) : Call → ℕ
  | undo => c - 1
  | redo => min (c + 1) n

/-- The number of actions that are not undone after calls. -/
def position (n : ℕ) (cs : List Call) (c : ℕ) : ℕ := cs.foldl (Call.move n) c

theorem position_le {n c : ℕ} (h : c ≤ n) (cs : List Call) : position n cs c ≤ n := by
  induction cs generalizing c with
  | nil => exact h
  | cons call cs ih =>
    refine ih ?_
    cases call with
    | undo => exact (Nat.sub_le c 1).trans h
    | redo => exact min_le_right _ _

theorem position_replicate_undo (n k c : ℕ) :
    position n (List.replicate k .undo) c = c - k := by
  induction k generalizing c with
  | zero => rfl
  | succ k ih =>
    rw [List.replicate_succ]
    refine (ih (c - 1)).trans ?_
    omega

theorem position_replicate_redo {n k c : ℕ} (h : c + k ≤ n) :
    position n (List.replicate k .redo) c = c + k := by
  induction k generalizing c with
  | zero => rfl
  | succ k ih =>
    rw [List.replicate_succ]
    have hmin : Call.move n c .redo = c + 1 := min_eq_left (by omega)
    refine (congrArg (position n (List.replicate k .redo)) hmin).trans ?_
    rw [ih (by omega)]
    omega

/-- **The calls move over whole actions.** After any calls, exactly the steps of the actions that
are not undone can be undone and the others redone; and `k` times `Undo` and `k` times `Redo` from
there lead back to the same numbers of steps and the same group boundaries. -/
def WholeActions (actions : List Action) : Prop :=
  ∀ (v : Views) (cs : List Call), ∃ u v', runCalls cs (performAll actions, v) = some (u, v') ∧
    u.viewstates.length = total (actions.take (position actions.length cs actions.length)) ∧
    u.redoviewstates.length = total (actions.drop (position actions.length cs actions.length)) ∧
    ∀ k ≤ position actions.length cs actions.length, ∃ u' v'',
      runCalls (List.replicate k .undo ++ List.replicate k .redo) (u, v') = some (u', v'') ∧
      u'.viewstates.length = u.viewstates.length ∧
      u'.redoviewstates.length = u.redoviewstates.length ∧
      u'.groups.toFinset = u.groups.toFinset

/-- The cursor after calls when the groups have as many steps before them as after them. -/
theorem runCalls_cursor {actions : List Action} (hc : Centered actions) {c : ℕ}
    (hle : c ≤ actions.length) {u : CUndo} (h : Cursor (actions.take c) (actions.drop c) u)
    (v : Views) (cs : List Call) : ∃ u' v', runCalls cs (u, v) = some (u', v') ∧
      Cursor (actions.take (position actions.length cs c))
        (actions.drop (position actions.length cs c)) u' := by
  induction cs generalizing c u v with
  | nil => exact ⟨u, v, rfl, h⟩
  | cons call cs ih =>
    have hstep : ∃ u₁ v₁, call.exec (u, v) = some (u₁, v₁) ∧
        Cursor (actions.take (call.move actions.length c))
          (actions.drop (call.move actions.length c)) u₁ := by
      cases call with
      | undo =>
        cases c with
        | zero =>
          have h₀ : u.Heights 0 (total actions) [] (endPoints (spans 0 actions).reverse) := h
          exact ⟨u, v, h₀.undo_none v, h⟩
        | succ c =>
          rw [List.take_succ_eq_append_getElem hle] at h
          obtain ⟨u₁, v₁, hu, hh⟩ := h.undo v
          refine ⟨u₁, v₁, hu, ?_⟩
          rwa [← List.drop_eq_getElem_cons] at hh
      | redo =>
        rcases hle.eq_or_lt with rfl | hlt
        · have hmove : Call.move actions.length actions.length .redo = actions.length :=
            min_eq_right (Nat.le_succ _)
          rw [hmove]
          have h₀ : u.Heights (total (actions.take actions.length)) 0
              (endPoints (spans 0 (actions.take actions.length))) [] := by
            have := h
            rwa [List.drop_length] at this
          exact ⟨u, v, h₀.redo_none v, h⟩
        · have hmove : Call.move actions.length c .redo = c + 1 := min_eq_left hlt
          rw [hmove]
          rw [List.drop_eq_getElem_cons hlt] at h
          obtain ⟨u₁, v₁, hu, hh⟩ := h.redo (by
            rwa [← List.drop_eq_getElem_cons, List.take_append_drop]) v
          refine ⟨u₁, v₁, hu, ?_⟩
          rwa [← List.take_succ_eq_append_getElem hlt] at hh
    obtain ⟨u₁, v₁, hu, hh⟩ := hstep
    obtain ⟨u', v', hu', hh'⟩ := ih (position_le hle [call]) hh v₁
    refine ⟨u', v', ?_, hh'⟩
    rw [runCalls, hu]
    exact hu'

theorem cursor_performAll (actions : List Action) :
    Cursor (actions.take actions.length) (actions.drop actions.length) (performAll actions) := by
  rw [List.take_length, List.drop_length]
  exact performAll_heights actions

/-- `Undo` takes back the latest actions, one with each call. -/
theorem runCalls_undo {done undone : List Action} {u : CUndo} (h : Cursor (done ++ undone) [] u)
    (v : Views) : ∃ u' v', runCalls (List.replicate undone.length .undo) (u, v) = some (u', v') ∧
      Cursor done undone u' := by
  have key : ∀ (l rest : List Action) (u : CUndo) (v : Views), Cursor (done ++ l.reverse) rest u →
      ∃ u' v', runCalls (List.replicate l.length .undo) (u, v) = some (u', v') ∧
        Cursor done (l.reverse ++ rest) u' := by
    intro l
    induction l with
    | nil =>
      intro rest u v h
      rw [List.reverse_nil, List.append_nil] at h
      exact ⟨u, v, rfl, h⟩
    | cons a l ih =>
      intro rest u v h
      rw [List.reverse_cons, ← List.append_assoc] at h
      obtain ⟨u₁, v₁, hu, hh⟩ := h.undo v
      obtain ⟨u', v', hu', hh'⟩ := ih (a :: rest) u₁ v₁ hh
      refine ⟨u', v', ?_, ?_⟩
      · rw [List.length_cons, List.replicate_succ, runCalls, Call.exec, hu]
        exact hu'
      · rwa [List.reverse_cons, List.append_assoc, List.singleton_append]
  have := key undone.reverse [] u v (by rwa [List.reverse_reverse])
  rwa [List.length_reverse, List.reverse_reverse, List.append_nil] at this

/-- A group that does not have as many steps before it as after it is not redone as a group. -/
theorem redo_of_not_centered {done undone : List Action} {first : Step} {rest : List Step}
    {u : CUndo} (hne : total done ≠ total undone)
    (h : Cursor done (.group first rest :: undone) u) (v : Views) :
    ∃ u' v', u.redo v = some (u', v') ∧ u'.groups = endPoints (spans 0 done) := by
  have h' : u.Heights (total done) (total undone + rest.length + 1) (endPoints (spans 0 done))
      (endPoints (spans (total done + (rest.length + 1)) undone).reverse ++
        [total done, total done + (rest.length + 1)]) := by
    have := h
    unfold Cursor at this
    simp only [spans, Action.span, Action.size, List.singleton_append, List.reverse_cons,
      total_cons] at this
    rwa [endPoints_concat, Nat.add_comm _ (total undone), ← Nat.add_assoc] at this
  obtain ⟨u', v', hu, hh⟩ := h'.redo_single (by simp; omega) v
  exact ⟨u', v', hu, hh.groups⟩

/-- **Undo and redo move over whole actions, in every sequence of calls after the actions, if and
only if every group of steps has as many steps before it as after it.** -/
theorem wholeActions_iff (actions : List Action) : WholeActions actions ↔ Centered actions := by
  constructor
  · rintro hw pre first rest post rfl
    by_contra hne
    -- undo the actions behind the group, then the group, and redo it
    obtain ⟨v₀⟩ : Nonempty Views := ⟨⟨fun _ => {}, .left, fun _ pt => pt⟩⟩
    have hlen : (pre ++ .group first rest :: post).length - post.length = pre.length + 1 := by
      simp
      omega
    have hstart : Cursor (pre ++ [.group first rest] ++ post) []
        (performAll (pre ++ .group first rest :: post)) := by
      rw [List.append_assoc, List.singleton_append]
      exact performAll_heights _
    obtain ⟨u, v', hrun, -, -, hback⟩ := hw v₀ (List.replicate post.length .undo)
    rw [position_replicate_undo, hlen] at hback
    obtain ⟨u', v'', hrun', -, -, hgroups⟩ := hback 1 (by omega)
    obtain ⟨w, vw, hw₁, hcur⟩ := runCalls_undo hstart v₀
    obtain ⟨rfl, rfl⟩ := Prod.mk.inj (Option.some.inj (hrun.symm.trans hw₁))
    obtain ⟨u₁, v₁, hu₁, hcur₁⟩ := hcur.undo v'
    obtain ⟨u₂, v₂, hu₂, hgr₂⟩ := redo_of_not_centered hne hcur₁ v₁
    have hboth : runCalls (List.replicate 1 .undo ++ List.replicate 1 .redo) (u, v') =
        some (u₂, v₂) := by
      simp [runCalls, Call.exec, hu₁, hu₂]
    obtain ⟨rfl, rfl⟩ := Prod.mk.inj (Option.some.inj (hrun'.symm.trans hboth))
    -- the end of the group is no longer a group boundary
    have hmem : total pre + (rest.length + 1) ∈ u.groups := by
      rw [hcur.groups, spans_append, endPoints_append]
      simp [spans, Action.span, endPoints]
    have hmem' : total pre + (rest.length + 1) ∈ u'.groups :=
      List.mem_toFinset.mp (hgroups ▸ List.mem_toFinset.mpr hmem)
    rw [hgr₂] at hmem'
    have := le_of_mem_endPoints hmem'
    omega
  · intro hc v cs
    obtain ⟨u, v', hrun, hcur⟩ := runCalls_cursor hc le_rfl (cursor_performAll actions) v cs
    have hle := position_le (le_refl actions.length) cs
    refine ⟨u, v', hrun, hcur.viewstates, hcur.redoviewstates, fun k hk => ?_⟩
    obtain ⟨u', v'', hrun', hcur'⟩ := runCalls_cursor hc hle hcur v'
      (List.replicate k .undo ++ List.replicate k .redo)
    have hpos : position actions.length (List.replicate k .undo ++ List.replicate k .redo)
        (position actions.length cs actions.length) =
        position actions.length cs actions.length := by
      have happ := position_replicate_undo actions.length k
        (position actions.length cs actions.length)
      refine (List.foldl_append ..).trans ?_
      refine (congrArg (position actions.length (List.replicate k .redo)) happ).trans ?_
      rw [position_replicate_redo (by omega)]
      omega
    rw [hpos] at hcur'
    refine ⟨u', v'', hrun', ?_, ?_, ?_⟩
    · rw [hcur'.viewstates, hcur.viewstates]
    · rw [hcur'.redoviewstates, hcur.redoviewstates]
    · rw [hcur'.groups, hcur.groups]

/-- A group of two steps and a single step: after two times `Undo`, one `Redo` redoes one step of
the group. -/
theorem group_is_redone_in_part :
    ∃ actions : List Action, ¬WholeActions actions := by
  refine ⟨[.group (fun _ => {}, {}) [(fun _ => {}, {})], .single (fun _ => {}, {})], fun h => ?_⟩
  obtain ⟨u, v', hrun, hundo, -, -⟩ := h ⟨fun _ => {}, .left, fun _ pt => pt⟩
    [.undo, .undo, .redo]
  have hsize := congrArg (Option.map fun s => s.1.viewstates.length) hrun
  simp only [Option.map_some, hundo] at hsize
  exact absurd hsize (by decide)

end TortoiseSvn.Merge
