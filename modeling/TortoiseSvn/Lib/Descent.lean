import Mathlib.Data.Finset.Card
import Mathlib.Tactic

/-!
# Recursive descents

A recursive procedure calls itself at other nodes, one after the other, and then succeeds or fails.
Nothing says that the calls are at smaller nodes, so it may go down for ever. `run` bounds the depth
of the calls; `Entered` describes the stacks of calls that it gets to.

Main results: `run_ends_iff`, a descent ends iff no stack has a node twice, and `run_error_iff`,
where a failure comes from.
-/

namespace TortoiseSvn.Lib

variable {ν ε α β : Type}

/-- Go on with the result of a part that has ended with success. -/
def andThen (r : Option (Except ε α)) (f : α → Option (Except ε β)) : Option (Except ε β) :=
  match r with
  | none => none
  | some (.error e) => some (.error e)
  | some (.ok a) => f a

@[simp] theorem andThen_none (f : α → Option (Except ε β)) : andThen none f = none := rfl

@[simp] theorem andThen_error (e : ε) (f : α → Option (Except ε β)) :
    andThen (some (.error e)) f = some (.error e) := rfl

@[simp] theorem andThen_ok (a : α) (f : α → Option (Except ε β)) :
    andThen (some (.ok a)) f = f a := rfl

/-- An outcome without its value. -/
def outcome (r : Option (Except ε α)) : Option (Except ε Unit) := r.map (Except.map fun _ => ())

theorem outcome_andThen (r : Option (Except ε α)) (f : α → Option (Except ε β)) :
    outcome (andThen r f) = andThen r fun a => outcome (f a) := by
  rcases r with _ | e | a
  · rfl
  · rfl
  · rfl

theorem andThen_eq_outcome (r : Option (Except ε α)) (f : Unit → Option (Except ε β)) :
    (andThen r fun _ => f ()) = andThen (outcome r) f := by
  rcases r with _ | e | a
  · rfl
  · rfl
  · rfl

theorem outcome_eq_some {r : Option (Except ε α)} {o : Except ε Unit} (h : outcome r = some o) :
    ∃ r', r = some r' ∧ r'.map (fun _ => ()) = o := by
  cases r with
  | none => exact nomatch h
  | some r' => exact ⟨r', rfl, Option.some.inj h⟩

/-- What a recursive procedure does at a node: the nodes of its calls to itself, in their order, and
the failure behind them, if any. -/
structure Descent (ν ε : Type) where
  calls : ν → List ν
  stop : ν → Option ε

namespace Descent

/-- Make calls one after the other until one fails. -/
def sequence (call : ν → Option (Except ε Unit)) : List ν → Option (Except ε Unit)
  | [] => some (.ok ())
  | v :: vs => andThen (call v) fun _ => sequence call vs

variable (d : Descent ν ε)

/-- The result of a node whose calls have succeeded. -/
def leave (v : ν) : Except ε Unit :=
  match d.stop v with
  | none => .ok ()
  | some e => .error e

/-- Run the procedure at a node, calls being nested no deeper than `fuel`. -/
def run : ℕ → ν → Option (Except ε Unit)
  | 0, _ => none
  | fuel + 1, v => andThen (sequence (run fuel) (d.calls v)) fun _ => some (d.leave v)

/-- Nothing fails at a node or below. -/
inductive Fine : ν → Prop
  | intro {v : ν} : (∀ c ∈ d.calls v, Fine c) → d.stop v = none → Fine v

/-- The nodes of the calls in progress, the innermost one first, when the procedure was called at
`root`: a call is made if those in front of it succeed. -/
inductive Entered (root : ν) : List ν → Prop
  | root : Entered root [root]
  | call {v c : ν} {stack before after : List ν} : Entered root (v :: stack) →
      d.calls v = before ++ c :: after → (∀ x ∈ before, d.Fine x) → Entered root (c :: v :: stack)

variable {d} {root v c : ν} {stack : List ν} {e : ε} {n m : ℕ} {r : Except ε Unit}

/-! ### Fuel -/

theorem sequence_mono {f g : ν → Option (Except ε Unit)}
    (hfg : ∀ v r, f v = some r → g v = some r) {vs : List ν} (h : sequence f vs = some r) :
    sequence g vs = some r := by
  induction vs with
  | nil => exact h
  | cons v vs ih =>
    rw [sequence] at h ⊢
    cases hv : f v with
    | none =>
      rw [hv] at h
      exact nomatch h
    | some r' =>
      rw [hfg v r' hv]
      rw [hv] at h
      cases r' with
      | error e => exact h
      | ok a => exact ih h

theorem run_succ (h : d.run n v = some r) : d.run (n + 1) v = some r := by
  induction n generalizing v r with
  | zero => exact nomatch h
  | succ n ih =>
    rw [run] at h ⊢
    cases hs : sequence (d.run n) (d.calls v) with
    | none =>
      rw [hs] at h
      exact nomatch h
    | some r' =>
      rw [sequence_mono (fun v r => ih) hs]
      rw [hs] at h
      exact h

theorem run_mono (hnm : n ≤ m) (h : d.run n v = some r) : d.run m v = some r := by
  induction hnm with
  | refl => exact h
  | step _ ih => exact run_succ ih

theorem run_unique {r' : Except ε Unit} (h : d.run n v = some r) (h' : d.run m v = some r') :
    r = r' :=
  Option.some.inj ((run_mono (le_max_left n m) h).symm.trans (run_mono (le_max_right n m) h'))

/-! ### Success -/

theorem sequence_ok_iff {f : ν → Option (Except ε Unit)} {vs : List ν} :
    sequence f vs = some (.ok ()) ↔ ∀ v ∈ vs, f v = some (.ok ()) := by
  induction vs with
  | nil => simp [sequence]
  | cons v vs ih =>
    rw [sequence, List.forall_mem_cons]
    cases hv : f v with
    | none => simp
    | some r =>
      cases r with
      | error e => simp
      | ok a => simp [ih]

theorem run_succ_ok_iff : d.run (n + 1) v = some (.ok ()) ↔
    (∀ c ∈ d.calls v, d.run n c = some (.ok ())) ∧ d.stop v = none := by
  rw [run, ← sequence_ok_iff, leave]
  cases hs : sequence (d.run n) (d.calls v) with
  | none => simp
  | some r =>
    cases r with
    | error e => simp
    | ok a => cases d.stop v <;> simp

theorem exists_run_calls {vs : List ν} (h : ∀ v ∈ vs, ∃ n, d.run n v = some (.ok ())) :
    ∃ n, ∀ v ∈ vs, d.run n v = some (.ok ()) := by
  induction vs with
  | nil => exact ⟨0, fun v hv => absurd hv List.not_mem_nil⟩
  | cons v vs ih =>
    obtain ⟨n, hn⟩ := h v List.mem_cons_self
    obtain ⟨m, hm⟩ := ih fun x hx => h x (List.mem_cons_of_mem v hx)
    refine ⟨max n m, List.forall_mem_cons.mpr ⟨run_mono (le_max_left n m) hn, fun x hx => ?_⟩⟩
    exact run_mono (le_max_right n m) (hm x hx)

/-- A descent succeeds iff nothing fails below its node. -/
theorem run_ok_iff : (∃ n, d.run n v = some (.ok ())) ↔ d.Fine v := by
  constructor
  · rintro ⟨n, hn⟩
    induction n generalizing v with
    | zero => exact nomatch hn
    | succ n ih =>
      obtain ⟨hcalls, hstop⟩ := run_succ_ok_iff.mp hn
      exact .intro (fun c hc => ih (hcalls c hc)) hstop
  · intro h
    induction h with
    | intro _ hstop ih =>
      obtain ⟨n, hn⟩ := exists_run_calls ih
      exact ⟨n + 1, run_succ_ok_iff.mpr ⟨hn, hstop⟩⟩

theorem Fine.run_eq (h : d.Fine v) (hr : d.run n v = some r) : r = .ok () := by
  obtain ⟨m, hm⟩ := run_ok_iff.mpr h
  exact run_unique hr hm

/-! ### Stacks -/

/-- A call from the root leads to the stacks of what it calls. -/
theorem Entered.append {before after : List ν} (h : d.Entered c stack)
    (hcalls : d.calls root = before ++ c :: after) (hbefore : ∀ x ∈ before, d.Fine x) :
    d.Entered root (stack ++ [root]) := by
  induction h with
  | root => exact .call .root hcalls hbefore
  | call _ hv hfine ih => exact .call ih hv hfine

/-- The lower part of a stack. -/
theorem Entered.drop {upper : List ν} (h : d.Entered root (upper ++ v :: stack)) :
    d.Entered root (v :: stack) := by
  induction upper with
  | nil => exact h
  | cons c upper ih =>
    apply ih
    rw [List.cons_append] at h
    cases hu : upper ++ v :: stack with
    | nil => exact absurd hu (List.append_ne_nil_of_right_ne_nil _ (List.cons_ne_nil _ _))
    | cons w rest =>
      rw [hu] at h
      cases h with
      | call h _ _ => exact h

/-- The upper part of a stack. -/
theorem Entered.take {upper : List ν} (h : d.Entered root (upper ++ v :: stack)) :
    d.Entered v (upper ++ [v]) := by
  induction upper with
  | nil => exact .root
  | cons c upper ih =>
    rw [List.cons_append] at h ⊢
    cases hu : upper ++ v :: stack with
    | nil => exact absurd hu (List.append_ne_nil_of_right_ne_nil _ (List.cons_ne_nil _ _))
    | cons w rest =>
      rw [hu] at h
      cases h with
      | call h hcalls hbefore =>
        have hw : ∃ rest', upper ++ [v] = w :: rest' := by
          cases upper with
          | nil => exact ⟨[], by rw [List.nil_append, (List.cons.inj hu).1]⟩
          | cons x upper => exact ⟨upper ++ [v], by rw [← (List.cons.inj hu).1]; rfl⟩
        obtain ⟨rest', hw⟩ := hw
        have h' := ih (hu ▸ h)
        rw [hw] at h' ⊢
        exact .call h' hcalls hbefore

/-- If calls end, the first that is not known to be fine has ended, too. -/
theorem sequence_split {before after : List ν} (hbefore : ∀ x ∈ before, d.Fine x)
    (h : sequence (d.run n) (before ++ c :: after) = some r) :
    ∃ r', d.run n c = some r' ∧ ∀ e, r' = .error e → r = .error e := by
  induction before with
  | nil =>
    rw [List.nil_append, sequence] at h
    cases hc : d.run n c with
    | none =>
      rw [hc] at h
      exact nomatch h
    | some r' =>
      refine ⟨r', rfl, ?_⟩
      rintro e rfl
      rw [hc] at h
      exact (Option.some.inj h).symm
  | cons x before ih =>
    rw [List.cons_append, sequence] at h
    cases hx : d.run n x with
    | none =>
      rw [hx] at h
      exact nomatch h
    | some r' =>
      obtain rfl := (hbefore x List.mem_cons_self).run_eq hx
      rw [hx] at h
      exact ih (fun y hy => hbefore y (List.mem_cons_of_mem x hy)) h

/-- If the root ends, all calls that it gets to have ended, with less fuel. -/
theorem Entered.ended (h : d.Entered root (v :: stack)) (hr : d.run n root = some r) :
    ∃ k r', k + stack.length = n ∧ d.run k v = some r' := by
  generalize hs : v :: stack = s at h
  induction h generalizing v stack with
  | root =>
    obtain ⟨rfl, rfl⟩ := List.cons.inj hs
    exact ⟨n, r, rfl, hr⟩
  | call _ hcalls hbefore ih =>
    obtain ⟨rfl, rfl⟩ := List.cons.inj hs
    obtain ⟨k, r', hk, hv⟩ := ih rfl
    cases k with
    | zero => exact nomatch hv
    | succ k =>
      rw [run, hcalls] at hv
      cases hseq : sequence (d.run k) (_ ++ v :: _) with
      | none =>
        rw [hseq] at hv
        exact nomatch hv
      | some r'' =>
        obtain ⟨r₁, hr₁, -⟩ := sequence_split hbefore hseq
        exact ⟨k, r₁, by rw [List.length_cons]; omega, hr₁⟩

/-- A node that gets to itself never ends. -/
theorem Entered.run_eq_none (h : d.Entered v (v :: stack ++ [v])) (n : ℕ) : d.run n v = none := by
  induction n using Nat.strong_induction_on with
  | _ n ih =>
    cases hr : d.run n v with
    | none => rfl
    | some r =>
      rw [List.cons_append] at h
      obtain ⟨k, r', hk, hv⟩ := h.ended hr
      rw [List.length_append, List.length_singleton] at hk
      rw [ih k (by omega)] at hv
      exact nomatch hv

/-! ### The end -/

theorem Entered.nodup_of_ends (h : d.Entered root stack) (hr : d.run n root = some r) :
    stack.Nodup := by
  induction h with
  | root => exact List.nodup_singleton _
  | call hv hcalls hbefore ih =>
    refine List.nodup_cons.mpr ⟨fun hmem => ?_, ih⟩
    obtain ⟨upper, lower, hsplit⟩ := List.append_of_mem hmem
    have h := Entered.call hv hcalls hbefore
    rw [hsplit, ← List.cons_append] at h
    obtain ⟨k, r', -, hended⟩ := h.drop.ended hr
    rw [h.take.run_eq_none k] at hended
    exact nomatch hended

/-- The rest of the calls of a node ends if each of them ends when it is made. -/
theorem sequence_ends {before rest : List ν} (hbefore : ∀ x ∈ before, d.Fine x)
    (h : ∀ before c after, (∀ x ∈ before, d.Fine x) → d.calls v = before ++ c :: after →
      ∃ n r, d.run n c = some r) (hcalls : d.calls v = before ++ rest) :
    ∃ n r, sequence (d.run n) rest = some r := by
  induction rest generalizing before with
  | nil => exact ⟨0, _, rfl⟩
  | cons c after ih =>
    obtain ⟨n, r, hr⟩ := h before c after hbefore hcalls
    cases r with
    | error e =>
      refine ⟨n, .error e, ?_⟩
      rw [sequence, hr, andThen_error]
    | ok a =>
      have hc : d.Fine c := run_ok_iff.mp ⟨n, hr⟩
      have hnext : ∀ x ∈ before ++ [c], d.Fine x := by
        intro x hx
        rcases List.mem_append.mp hx with hx | hx
        · exact hbefore x hx
        · exact List.mem_singleton.mp hx ▸ hc
      obtain ⟨m, r', hm⟩ := ih hnext (by rw [hcalls, List.append_assoc]; rfl)
      refine ⟨max n m, r', ?_⟩
      rw [sequence, run_mono (le_max_left n m) hr, andThen_ok]
      exact sequence_mono (fun v r => run_mono (le_max_right n m)) hm

/-- Along stacks without repetition the descent ends: the callers are distinct nodes of a finite
set. -/
theorem Entered.ends {S : Finset ν} (hS : ∀ v, d.calls v ≠ [] → v ∈ S)
    (hnodup : ∀ s, d.Entered root s → s.Nodup) (k : ℕ) {v : ν} {stack : List ν}
    (h : d.Entered root (v :: stack)) (hstack : ∀ x ∈ stack, x ∈ S)
    (hk : S.card ≤ stack.length + k) : ∃ n r, d.run n v = some r := by
  classical
  induction k generalizing v stack with
  | zero =>
    -- the stack is all of the set, so the node has no calls
    have hcard : stack.toFinset = S := by
      apply Finset.eq_of_subset_of_card_le fun x hx => hstack x (List.mem_toFinset.mp hx)
      rw [List.toFinset_card_of_nodup (List.nodup_cons.mp (hnodup _ h)).2]
      exact hk
    have hnil : d.calls v = [] := by
      by_contra hne
      have hv := hS v hne
      rw [← hcard, List.mem_toFinset] at hv
      exact (List.nodup_cons.mp (hnodup _ h)).1 hv
    exact ⟨1, d.leave v, by rw [run, hnil]; rfl⟩
  | succ k ih =>
    by_cases hnil : d.calls v = []
    · exact ⟨1, d.leave v, by rw [run, hnil]; rfl⟩
    · have hcall : ∀ before c after, (∀ x ∈ before, d.Fine x) → d.calls v = before ++ c :: after →
          ∃ n r, d.run n c = some r := by
        intro before c after hbefore hcalls
        apply ih (.call h hcalls hbefore)
        · exact List.forall_mem_cons.mpr ⟨hS v hnil, hstack⟩
        · rw [List.length_cons]
          omega
      obtain ⟨n, r, hr⟩ := sequence_ends (fun x hx => absurd hx List.not_mem_nil) hcall
        (List.nil_append _).symm
      cases r with
      | error e => exact ⟨n + 1, .error e, by rw [run, hr, andThen_error]⟩
      | ok a => exact ⟨n + 1, d.leave v, by rw [run, hr, andThen_ok]⟩

/-- **If only finitely many nodes call others, a descent ends iff none of the stacks that it gets to
has a node twice.** -/
theorem run_ends_iff {S : Finset ν} (hS : ∀ v, d.calls v ≠ [] → v ∈ S) :
    (∃ n r, d.run n root = some r) ↔ ∀ s, d.Entered root s → s.Nodup := by
  constructor
  · rintro ⟨n, r, hr⟩ s hs
    exact hs.nodup_of_ends hr
  · intro h
    exact Entered.root.ends hS h S.card (fun x hx => absurd hx List.not_mem_nil) (by simp)

/-! ### Failure -/

/-- A call that fails lets its callers fail. -/
theorem Entered.error (h : d.Entered root (v :: stack)) (hv : ∃ n, d.run n v = some (.error e)) :
    ∃ n, d.run n root = some (.error e) := by
  generalize hs : v :: stack = s at h
  induction h generalizing v stack with
  | root =>
    obtain ⟨rfl, rfl⟩ := List.cons.inj hs
    exact hv
  | @call w c stack' before after _ hcalls hbefore ih =>
    obtain ⟨rfl, rfl⟩ := List.cons.inj hs
    apply ih _ rfl
    obtain ⟨n, hn⟩ := hv
    obtain ⟨m, hm⟩ := exists_run_calls fun x hx => run_ok_iff.mpr (hbefore x hx)
    refine ⟨max n m + 1, ?_⟩
    have hseq : ∀ b, (∀ x ∈ b, d.run (max n m) x = some (.ok ())) →
        sequence (d.run (max n m)) (b ++ v :: after) = some (.error e) := by
      intro b hb
      induction b with
      | nil => rw [List.nil_append, sequence, run_mono (le_max_left n m) hn, andThen_error]
      | cons x b ihb =>
        rw [List.cons_append, sequence, hb x List.mem_cons_self, andThen_ok]
        exact ihb fun y hy => hb y (List.mem_cons_of_mem x hy)
    rw [run, hcalls, hseq before fun x hx => run_mono (le_max_right n m) (hm x hx), andThen_error]

theorem exists_split_of_error {f : ν → Option (Except ε Unit)} {vs : List ν}
    (h : sequence f vs = some (.error e)) : ∃ before c after, vs = before ++ c :: after ∧
      (∀ x ∈ before, f x = some (.ok ())) ∧ f c = some (.error e) := by
  induction vs with
  | nil => exact nomatch h
  | cons v vs ih =>
    rw [sequence] at h
    cases hv : f v with
    | none =>
      rw [hv] at h
      exact nomatch h
    | some r =>
      rw [hv] at h
      cases r with
      | error e' =>
        obtain rfl : e' = e := by simpa using h
        exact ⟨[], v, vs, rfl, fun x hx => absurd hx List.not_mem_nil, hv⟩
      | ok a =>
        obtain ⟨before, c, after, rfl, hbefore, hc⟩ := ih h
        exact ⟨v :: before, c, after, rfl, List.forall_mem_cons.mpr ⟨hv, hbefore⟩, hc⟩

/-- **A descent fails iff it gets to a node that fails behind its calls.** -/
theorem run_error_iff : (∃ n, d.run n root = some (.error e)) ↔
    ∃ v stack, d.Entered root (v :: stack) ∧ (∀ c ∈ d.calls v, d.Fine c) ∧ d.stop v = some e := by
  constructor
  · rintro ⟨n, hn⟩
    induction n generalizing root with
    | zero => exact nomatch hn
    | succ n ih =>
      rw [run] at hn
      cases hs : sequence (d.run n) (d.calls root) with
      | none =>
        rw [hs] at hn
        exact nomatch hn
      | some r =>
        rw [hs] at hn
        cases r with
        | error e' =>
          obtain rfl : e' = e := by simpa using hn
          obtain ⟨before, c, after, hcalls, hbefore, hc⟩ := exists_split_of_error hs
          obtain ⟨v, stack, hv, hfine, hstop⟩ := ih hc
          refine ⟨v, stack ++ [root], ?_, hfine, hstop⟩
          exact hv.append hcalls fun x hx => run_ok_iff.mp ⟨n, hbefore x hx⟩
        | ok a =>
          refine ⟨root, [], .root, fun c hc => run_ok_iff.mp ⟨n, sequence_ok_iff.mp hs c hc⟩, ?_⟩
          rw [andThen_ok, leave] at hn
          cases hstop : d.stop root with
          | none => simp [hstop] at hn
          | some e' => simpa [hstop] using hn
  · rintro ⟨v, stack, hv, hfine, hstop⟩
    apply hv.error
    obtain ⟨n, hn⟩ := exists_run_calls fun c hc => run_ok_iff.mpr (hfine c hc)
    refine ⟨n + 1, ?_⟩
    rw [run, sequence_ok_iff.mpr hn, andThen_ok, leave, hstop]

end Descent

end TortoiseSvn.Lib
