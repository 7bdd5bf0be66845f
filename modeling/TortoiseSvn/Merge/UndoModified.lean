import TortoiseSvn.Merge.Undo

/-!
# The modified flag

After `Undo` and `Redo` the views are told whether they are modified. What is told is found from
the marks that the steps carry and from the number of steps at which a view was saved. A step that
was undone and redone has lost its mark, and `Redo` looks at the stack of steps that can be
redone. The flag is right as long as no lost mark is needed.

Main result: `unmodified_is_saved`.
-/

namespace TortoiseSvn.Merge

open Lib

/-- The lines of all views. -/
abbrev Lines := Side → Option (List Viewdata)

/-- An edit: the lines before and after it and the views it modifies. -/
structure Edit where
  before : Lines
  after : Lines
  modifies : Side → Bool
  unmodified : ∀ side, modifies side = false → after side = before side

/-- A session: the undo data and the views, with the edits that are done and undone (the last one
of which is the next to be undone or redone) and the lines at the last save. -/
structure Session where
  undo : CUndo
  views : Views
  done : List Edit
  undone : List Edit
  saved : Lines

/-- What the user does. -/
inductive Event
  | edit (e : Edit) (allstate : Allviewstate) (pt : Point) (views : Views)
  | save (selected : Side → Bool)
  | undo
  | redo

/-- The session when files are loaded. -/
def Session.load (v : Views) : Session := ⟨{}, v, [], [], v.lines⟩

/-- What an event makes of a session. An edit is recorded with a mark for the views it modifies,
and steps are undone and redone exactly. A call that finds nothing to undo or redo does
nothing. -/
inductive Event.Happens (s : Session) : Event → Session → Prop
  | edit {e : Edit} {allstate : Allviewstate} {pt : Point} {v : Views}
      (before : e.before = s.views.lines) (after : v.lines = e.after)
      (marks : ∀ side, (allstate side).modifies = e.modifies side) :
      Happens s (.edit e allstate pt v)
        ⟨s.undo.addState allstate pt, v, s.done ++ [e], [], s.saved⟩
  | save {selected : Side → Bool} :
      Happens s (.save selected)
        ⟨s.undo.markAsOriginalState selected, s.views, s.done, s.undone,
          fun side => if selected side then s.views.lines side else s.saved side⟩
  | undo {es : List Edit} {e : Edit} {u : CUndo} {v : Views} (done : s.done = es ++ [e])
      (call : s.undo.undo s.views = some (u, v)) (lines : v.lines = e.before) :
      Happens s .undo ⟨u, v, es, s.undone ++ [e], s.saved⟩
  | redo {es : List Edit} {e : Edit} {u : CUndo} {v : Views} (undone : s.undone = es ++ [e])
      (call : s.undo.redo s.views = some (u, v)) (lines : v.lines = e.after) :
      Happens s .redo ⟨u, v, s.done ++ [e], es, s.saved⟩

/-- No lost mark is needed. `Redo` tells a view that it is modified, or no step from the original
state up to the redone one modifies the view. A view is saved when no step modifies it above the
last one that carries a mark. -/
def MarksSuffice (s : Session) : Event → Prop
  | .edit _ _ _ _ => True
  | .undo => True
  | .redo => ∀ side k, s.undo.originalstate side = some k →
      s.undo.redoviewstates.length ≤ k ∨
        ∀ e ∈ s.done.drop k ++ s.undone.getLast?.toList, e.modifies side = false
  | .save selected => ∀ side, selected side →
      ∀ e ∈ s.done.drop (CUndo.lastModifying s.undo.viewstates side), e.modifies side = false

/-- The sessions that are reached from `v` by events that meet a condition. -/
inductive Reached (condition : Session → Event → Prop) (v : Views) : Session → Prop
  | load : Reached condition v (Session.load v)
  | event {s s' : Session} {ev : Event} (h : Reached condition v s) (hc : condition s ev)
      (hap : ev.Happens s s') : Reached condition v s'

/-! ### Chains of edits -/

/-- The edits lead a view from lines `a` to lines `b`. -/
def Leads (side : Side) : Option (List Viewdata) → List Edit → Option (List Viewdata) → Prop
  | a, [], b => a = b
  | a, e :: l, b => e.before side = a ∧ Leads side (e.after side) l b

variable {side : Side} {a b : Option (List Viewdata)} {l : List Edit} {e : Edit}

theorem leads_concat : Leads side a (l ++ [e]) b ↔ Leads side a l (e.before side) ∧
    e.after side = b := by
  induction l generalizing a with
  | nil => simp [Leads, eq_comm]
  | cons f l ih => simp [Leads, ih, and_assoc]

theorem leads_append {l' : List Edit} :
    Leads side a (l ++ l') b ↔ ∃ c, Leads side a l c ∧ Leads side c l' b := by
  induction l generalizing a with
  | nil => simp [Leads]
  | cons f l ih => simp [Leads, ih, and_assoc]

/-- Edits that do not modify a view lead nowhere. -/
theorem Leads.eq (h : Leads side a l b) (hl : ∀ e ∈ l, e.modifies side = false) : a = b := by
  induction l generalizing a with
  | nil => exact h
  | cons e l ih =>
    obtain ⟨rfl, h⟩ := h
    have := ih h fun f hf => hl f (List.mem_cons_of_mem _ hf)
    rwa [e.unmodified side (hl e (by simp))] at this

/-! ### The invariant -/

/-- From the original state on, the edits lead from the saved lines to the present ones, and a
step without a mark does not modify the view. -/
structure OriginalAt (s : Session) (side : Side) (k : ℕ) : Prop where
  le : k ≤ s.done.length
  leads : Leads side (s.saved side) (s.done.drop k) (s.views.lines side)
  marks : ∀ i, k ≤ i → ∀ st e, s.undo.viewstates[i]? = some st → s.done[i]? = some e →
    (st side).modifies = false → e.modifies side = false

/-- The stacks are those of the edits, there are no groups, and the original states are right. -/
structure Session.Sound (s : Session) : Prop where
  viewstates : s.undo.viewstates.length = s.done.length
  caretpoints : s.undo.caretpoints.length = s.done.length
  redoviewstates : s.undo.redoviewstates.length = s.undone.length
  redocaretpoints : s.undo.redocaretpoints.length = s.undone.length
  groups : s.undo.groups = []
  redogroups : s.undo.redogroups = []
  back : ∀ side, ∃ a, Leads side a s.done (s.views.lines side)
  onward : ∀ side, ∃ b, Leads side (s.views.lines side) s.undone.reverse b
  original : ∀ side k, s.undo.originalstate side = some k → OriginalAt s side k

theorem sound_load (v : Views) : (Session.load v).Sound where
  viewstates := rfl
  caretpoints := rfl
  redoviewstates := rfl
  redocaretpoints := rfl
  groups := rfl
  redogroups := rfl
  back := fun side => ⟨_, rfl⟩
  onward := fun side => ⟨_, rfl⟩
  original := by
    rintro side k hk
    obtain rfl := Option.some.inj hk
    exact ⟨le_rfl, rfl, fun i _ st e hst => absurd hst (by simp [Session.load])⟩

namespace Session.Sound

variable {s s' : Session}

theorem edit (h : s.Sound) {allstate : Allviewstate} {pt : Point} {v : Views}
    (before : e.before = s.views.lines) (after : v.lines = e.after)
    (marks : ∀ side, (allstate side).modifies = e.modifies side) :
    Sound ⟨s.undo.addState allstate pt, v, s.done ++ [e], [], s.saved⟩ where
  viewstates := by simp [CUndo.addState, h.viewstates]
  caretpoints := by simp [CUndo.addState, h.caretpoints]
  redoviewstates := rfl
  redocaretpoints := rfl
  groups := h.groups
  redogroups := rfl
  back := by
    intro side
    obtain ⟨a, ha⟩ := h.back side
    exact ⟨a, leads_concat.mpr ⟨by rwa [before], (congrFun after side).symm⟩⟩
  onward := fun side => ⟨_, rfl⟩
  original := by
    intro side k hk
    obtain ⟨hle, hleads, hmarks⟩ := h.original side k hk
    refine ⟨by simp; omega, ?_, ?_⟩
    · rw [List.drop_append_of_le_length hle]
      exact leads_concat.mpr ⟨by rwa [before], (congrFun after side).symm⟩
    · intro i hi st f hst hf hno
      rcases Nat.lt_or_ge i s.done.length with hlt | hge
      · simp only [CUndo.addState] at hst
        rw [List.getElem?_append_left (by rwa [h.viewstates])] at hst
        rw [List.getElem?_append_left hlt] at hf
        exact hmarks i hi st f hst hf hno
      · -- the new step carries the mark of the edit
        obtain rfl : i = s.done.length := by
          have := (List.getElem?_eq_some_iff.mp hf).1
          simp only [List.length_append, List.length_singleton] at this
          omega
        obtain rfl : e = f := by simpa using hf
        obtain rfl : allstate = st := by
          simpa [CUndo.addState, ← h.viewstates] using hst
        rw [← marks side]
        exact hno

/-- Saving is sound when no unmarked step above the last marked one modifies a saved view. -/
theorem save (h : s.Sound) {selected : Side → Bool} (hc : MarksSuffice s (.save selected)) :
    Sound ⟨s.undo.markAsOriginalState selected, s.views, s.done, s.undone,
      fun side => if selected side then s.views.lines side else s.saved side⟩ where
  viewstates := h.viewstates
  caretpoints := h.caretpoints
  redoviewstates := h.redoviewstates
  redocaretpoints := h.redocaretpoints
  groups := h.groups
  redogroups := h.redogroups
  back := h.back
  onward := h.onward
  original := by
    intro side k hk
    simp only [CUndo.markAsOriginalState] at hk
    split at hk
    · rename_i hsel
      obtain rfl := Option.some.inj hk
      have hno := hc side hsel
      have hle : CUndo.lastModifying s.undo.viewstates side ≤ s.done.length := by
        rw [← h.viewstates]
        exact (List.rdropWhile_prefix _ _).length_le
      obtain ⟨a, ha⟩ := h.back side
      rw [← List.take_append_drop (CUndo.lastModifying s.undo.viewstates side) s.done] at ha
      obtain ⟨c, -, hleads⟩ := leads_append.mp ha
      refine ⟨hle, ?_, ?_⟩
      · have hceq := hleads.eq hno
        rw [hceq] at hleads
        simpa [hsel] using hleads
      · intro i hi st f _ hf _
        refine hno f (List.mem_iff_getElem?.mpr
          ⟨i - CUndo.lastModifying s.undo.viewstates side, ?_⟩)
        rw [List.getElem?_drop, Nat.add_sub_cancel' hi]
        exact hf
    · rename_i hsel
      obtain ⟨hle, hleads, hmarks⟩ := h.original side k hk
      exact ⟨hle, by simpa [hsel] using hleads, hmarks⟩

end Session.Sound

theorem forget_eq_some {o : Option ℕ} {steps : List Allviewstate} {k : ℕ}
    (h : CUndo.forget o steps = some k) : o = some k ∧ k ≤ steps.length := by
  obtain ⟨k', rfl, hk⟩ := Option.bind_eq_some_iff.mp h
  split at hk
  · exact absurd hk (by simp)
  · rename_i hlt
    obtain rfl := Option.some.inj hk
    exact ⟨rfl, not_lt.mp hlt⟩

/-- What `Undo` does when there are no groups. -/
theorem undo_ungrouped {u : CUndo} {v : Views} {steps : List Allviewstate} {st : Allviewstate}
    {pts : List Point} {pt : Point} (hg : u.groups = []) (hs : u.viewstates = steps ++ [st])
    (hp : u.caretpoints = pts ++ [pt]) :
    u.undo v = some (CUndo.report steps { u with
      redocaretpoints := u.redocaretpoints ++ [v.getCaretPosition v.target]
      redoviewstates := u.redoviewstates ++ [(CUndo.doAll st v pt).1]
      viewstates := steps
      caretpoints := pts } (CUndo.doAll st v pt).2) := by
  have hcan : u.canUndo = true := by simp [CUndo.canUndo, hs]
  have hsteps : u.undoSteps v = u.undoOne v := by simp [CUndo.undoSteps, hg]
  rw [CUndo.undo, if_pos hcan, hsteps, CUndo.undoOne_eq hs hp]
  rfl

/-- What `Redo` does when there are no groups. -/
theorem redo_ungrouped {u : CUndo} {v : Views} {steps : List Allviewstate} {st : Allviewstate}
    {pts : List Point} {pt : Point} (hg : u.redogroups = [])
    (hs : u.redoviewstates = steps ++ [st]) (hp : u.redocaretpoints = pts ++ [pt]) :
    u.redo v = some (CUndo.report steps { u with
      caretpoints := u.caretpoints ++ [v.getCaretPosition v.target]
      viewstates := u.viewstates ++ [(CUndo.doAll st v pt).1]
      redoviewstates := steps
      redocaretpoints := pts } (CUndo.doAll st v pt).2) := by
  have hcan : u.canRedo = true := by simp [CUndo.canRedo, hs]
  have hsteps : u.redoSteps v = u.redoOne v := by simp [CUndo.redoSteps, hg]
  rw [CUndo.redo, if_pos hcan, hsteps, CUndo.redoOne_eq hs hp]
  rfl

namespace Session.Sound

variable {s : Session} {es : List Edit} {u : CUndo} {v : Views}

/-- Undoing is sound, and a view that is told that it is not modified has the saved lines. -/
theorem undo (h : s.Sound) (done : s.done = es ++ [e]) (call : s.undo.undo s.views = some (u, v))
    (lines : v.lines = e.before) :
    Sound ⟨u, v, es, s.undone ++ [e], s.saved⟩ ∧
      ∀ side, (v.view side).modified = false → v.lines side = s.saved side := by
  have hlen : s.done.length = es.length + 1 := by simp [done]
  obtain ⟨steps, st, hs, hslen⟩ := CUndo.exists_concat (h.viewstates.trans hlen)
  obtain ⟨pts, pt, hp, hplen⟩ := CUndo.exists_concat (h.caretpoints.trans hlen)
  rw [undo_ungrouped h.groups hs hp] at call
  obtain ⟨rfl, rfl⟩ := Prod.mk.inj (Option.some.inj call)
  have horig : ∀ side k, CUndo.forget (s.undo.originalstate side) steps = some k →
      k ≤ es.length ∧ Leads side (s.saved side) (es.drop k) (e.before side) ∧
      ∀ i, k ≤ i → ∀ st' f, steps[i]? = some st' → es[i]? = some f →
        (st' side).modifies = false → f.modifies side = false := by
    intro side k hk
    obtain ⟨hk, hle⟩ := forget_eq_some hk
    obtain ⟨-, hleads, hmarks⟩ := h.original side k hk
    rw [hslen] at hle
    rw [done, List.drop_append_of_le_length hle] at hleads
    refine ⟨hle, (leads_concat.mp hleads).1, fun i hi st' f hst hf => hmarks i hi st' f ?_ ?_⟩
    · rw [hs, List.getElem?_append_left (List.getElem?_eq_some_iff.mp hst).1]
      exact hst
    · rw [done, List.getElem?_append_left (List.getElem?_eq_some_iff.mp hf).1]
      exact hf
  have hcur : ∀ side, e.after side = s.views.lines side := by
    intro side
    obtain ⟨a, ha⟩ := h.back side
    rw [done] at ha
    exact (leads_concat.mp ha).2
  refine ⟨⟨hslen, hplen, ?_, ?_, h.groups, h.redogroups, ?_, ?_, ?_⟩, ?_⟩
  · simp [h.redoviewstates]
  · simp [h.redocaretpoints]
  · intro side
    obtain ⟨a, ha⟩ := h.back side
    rw [done] at ha
    exact ⟨a, by rw [lines]; exact (leads_concat.mp ha).1⟩
  · intro side
    obtain ⟨b, hb⟩ := h.onward side
    refine ⟨b, ?_⟩
    rw [List.reverse_append, List.reverse_singleton, List.singleton_append]
    exact ⟨(congrFun lines side).symm, by rwa [hcur side]⟩
  · intro side k hk
    obtain ⟨hle, hleads, hmarks⟩ := horig side k hk
    exact ⟨hle, by rwa [lines], hmarks⟩
  · intro side hmod
    have hmod' : CUndo.isModified (CUndo.forget (s.undo.originalstate side) steps) steps side =
        false := hmod
    rcases hk : CUndo.forget (s.undo.originalstate side) steps with _ | k
    · rw [hk] at hmod'
      exact absurd hmod' (by simp [CUndo.isModified])
    · obtain ⟨-, hleads, hmarks⟩ := horig side k hk
      rw [hk] at hmod'
      simp only [CUndo.isModified, List.any_eq_false, Bool.not_eq_true] at hmod'
      rw [lines]
      refine (hleads.eq fun f hf => ?_).symm
      obtain ⟨i, hi⟩ := List.mem_iff_getElem?.mp hf
      rw [List.getElem?_drop] at hi
      have hlt : k + i < steps.length := by
        rw [hslen]
        exact (List.getElem?_eq_some_iff.mp hi).1
      refine hmarks (k + i) (by omega) _ f (List.getElem?_eq_getElem hlt) hi (hmod' _ ?_)
      refine List.mem_iff_getElem?.mpr ⟨i, ?_⟩
      rw [List.getElem?_drop, List.getElem?_eq_getElem hlt]

/-- Redoing is sound where no lost mark is needed. -/
theorem redo (h : s.Sound) (hc : MarksSuffice s .redo) (undone : s.undone = es ++ [e])
    (call : s.undo.redo s.views = some (u, v)) (lines : v.lines = e.after) :
    Sound ⟨u, v, s.done ++ [e], es, s.saved⟩ ∧
      ∀ side, (v.view side).modified = false → v.lines side = s.saved side := by
  have hlen : s.undone.length = es.length + 1 := by simp [undone]
  obtain ⟨steps, st, hs, hslen⟩ := CUndo.exists_concat (h.redoviewstates.trans hlen)
  obtain ⟨pts, pt, hp, hplen⟩ := CUndo.exists_concat (h.redocaretpoints.trans hlen)
  rw [redo_ungrouped h.redogroups hs hp] at call
  obtain ⟨rfl, rfl⟩ := Prod.mk.inj (Option.some.inj call)
  have hcur : ∀ side, e.before side = s.views.lines side ∧
      ∃ b, Leads side (e.after side) es.reverse b := by
    intro side
    obtain ⟨b, hb⟩ := h.onward side
    rw [undone, List.reverse_append, List.reverse_singleton, List.singleton_append] at hb
    exact ⟨hb.1, b, hb.2⟩
  have horig : ∀ side k, CUndo.forget (s.undo.originalstate side) steps = some k →
      k ≤ s.done.length ∧ Leads side (s.saved side) ((s.done ++ [e]).drop k) (e.after side) ∧
      ∀ f ∈ (s.done ++ [e]).drop k, f.modifies side = false := by
    intro side k hk
    obtain ⟨hk, hle⟩ := forget_eq_some hk
    obtain ⟨hdone, hleads, -⟩ := h.original side k hk
    rw [List.drop_append_of_le_length hdone]
    refine ⟨hdone, leads_concat.mpr ⟨by rwa [(hcur side).1], rfl⟩, ?_⟩
    rcases hc side k hk with hlt | hno
    · rw [hs, List.length_append, List.length_singleton] at hlt
      omega
    · have hlast : s.undone.getLast?.toList = [e] := by simp [undone]
      rwa [hlast] at hno
  refine ⟨⟨?_, ?_, hslen, hplen, h.groups, h.redogroups, ?_, ?_, ?_⟩, ?_⟩
  · simp [h.viewstates]
  · simp [h.caretpoints]
  · intro side
    obtain ⟨a, ha⟩ := h.back side
    exact ⟨a, leads_concat.mpr ⟨by rwa [(hcur side).1], (congrFun lines side).symm⟩⟩
  · intro side
    obtain ⟨b, hb⟩ := (hcur side).2
    exact ⟨b, by rwa [lines]⟩
  · intro side k hk
    obtain ⟨hle, hleads, hno⟩ := horig side k hk
    refine ⟨by simp; omega, by rwa [lines], fun i hi _ f _ hf _ => hno f ?_⟩
    refine List.mem_iff_getElem?.mpr ⟨i - k, ?_⟩
    rw [List.getElem?_drop, Nat.add_sub_cancel' hi]
    exact hf
  · intro side hmod
    have hmod' : CUndo.isModified (CUndo.forget (s.undo.originalstate side) steps) steps side =
        false := hmod
    rcases hk : CUndo.forget (s.undo.originalstate side) steps with _ | k
    · rw [hk] at hmod'
      exact absurd hmod' (by simp [CUndo.isModified])
    · obtain ⟨-, hleads, hno⟩ := horig side k hk
      rw [lines]
      exact (hleads.eq hno).symm

end Session.Sound

/-- Every event that needs no lost mark is sound. -/
theorem Event.Happens.sound {s s' : Session} {ev : Event} (hap : ev.Happens s s') (h : s.Sound)
    (hc : MarksSuffice s ev) : s'.Sound := by
  cases hap with
  | edit before after marks => exact h.edit before after marks
  | save => exact h.save hc
  | undo done call lines => exact (h.undo done call lines).1
  | redo undone call lines => exact (h.redo hc undone call lines).1

/-- Every session is sound that is reached without needing a lost mark. -/
theorem Reached.sound {v : Views} {s : Session} (h : Reached MarksSuffice v s) : s.Sound := by
  induction h with
  | load => exact sound_load v
  | event _ hc hap ih => exact hap.sound ih hc

/-- The event is a call of `Undo` or `Redo`. -/
def Event.IsCall : Event → Prop
  | .undo => True
  | .redo => True
  | _ => False

/-- What `Undo` and `Redo` have to tell: a view that is told that it is not modified has the lines
it had at the last save. -/
def TellsTruth (s' : Session) : Prop :=
  ∀ side, (s'.views.view side).modified = false → s'.views.lines side = s'.saved side

/-- **In a run that needs no lost mark, a view that `Undo` or `Redo` tells that it is not modified
has the lines it had when it was saved or loaded.** -/
theorem unmodified_is_saved {v : Views} {s s' : Session} {ev : Event}
    (h : Reached MarksSuffice v s) (hc : MarksSuffice s ev) (hap : ev.Happens s s')
    (hcall : ev.IsCall) : TellsTruth s' := by
  have hsound := h.sound
  cases hap with
  | edit => exact hcall.elim
  | save => exact hcall.elim
  | undo done call lines => exact (hsound.undo done call lines).2
  | redo undone call lines => exact (hsound.redo hc undone call lines).2

/-! ### One edited line -/

/-- The line after it was edited. -/
def editedLine : Viewdata := { someLine with state := .edited }

/-- The edit of the only line on the right. -/
def editOfLine : Edit where
  before := (rightViews [someLine]).lines
  after := (rightViews [editedLine]).lines
  modifies := fun side => match side with
    | .right => true
    | _ => false
  unmodified := by
    intro side h
    cases side with
    | right => exact absurd h (by decide)
    | left => rfl
    | bottom => rfl

/-- The record of the edit. -/
def stateOfLine : Allviewstate
  | .right => { replacedlines := SortedMap.empty.assign 0 someLine, modifies := true }
  | _ => {}

/-- The session after the edit. -/
def editedSession : Session :=
  ⟨CUndo.addState {} stateOfLine {}, rightViews [editedLine], [editOfLine], [],
    (rightViews [someLine]).lines⟩

theorem reached_editedSession {condition : Session → Event → Prop}
    (hc : ∀ s e allstate pt v, condition s (.edit e allstate pt v)) :
    Reached condition (rightViews [someLine]) editedSession := by
  refine Reached.load.event (hc _ editOfLine stateOfLine {} (rightViews [editedLine])) ?_
  exact Event.Happens.edit rfl rfl fun side => by cases side <;> rfl

/-- The session after the edit is undone. -/
def undoneSession : Session :=
  let r := CUndo.report []
    { redocaretpoints := [{}]
      redoviewstates := [(CUndo.doAll stateOfLine (rightViews [editedLine]) {}).1] }
    (CUndo.doAll stateOfLine (rightViews [editedLine]) {}).2
  ⟨r.1, r.2, [], [editOfLine], (rightViews [someLine]).lines⟩

theorem undo_editedSession : Event.undo.Happens editedSession undoneSession := by
  refine @Event.Happens.undo editedSession [] editOfLine _ _ rfl
    (undo_ungrouped rfl rfl rfl) ?_
  funext side
  cases side <;> rfl

/-- A line is edited and the edit undone: the lines are those that were loaded. -/
theorem unmodified_is_saved_line : TellsTruth undoneSession :=
  have hc : MarksSuffice editedSession .undo := trivial
  unmodified_is_saved (reached_editedSession fun _ _ _ _ _ => trivial) hc undo_editedSession trivial

/-- A line is edited, the edit undone and redone: the view is told that it is not modified. -/
theorem redo_tells_unmodified : ∃ v s s' ev, Reached (fun _ _ => True) v s ∧
    Event.Happens s ev s' ∧ ev.IsCall ∧ ¬TellsTruth s' := by
  have hundone : Reached (fun _ _ => True) (rightViews [someLine]) undoneSession :=
    (reached_editedSession fun _ _ _ _ _ => trivial).event trivial undo_editedSession
  have hredo := @redo_ungrouped undoneSession.undo undoneSession.views []
    (CUndo.doAll stateOfLine (rightViews [editedLine]) {}).1 [] {} rfl rfl rfl
  refine ⟨_, _, _, .redo, hundone, @Event.Happens.redo undoneSession [] editOfLine _ _ rfl hredo
    (funext fun side => by cases side <;> rfl), trivial, fun h => ?_⟩
  have hlines := h .right rfl
  have hstates := congrArg (Option.map fun l => l.map Viewdata.state) hlines
  exact absurd hstates (by decide)

end TortoiseSvn.Merge
