/-
Module: Workflow.Lib.Run
Layer: Lib
Purpose: Runs of a system with labelled steps. `Reachable m ok` are the states that a run reaches
  whose every step meets the condition `ok`; an invariant that such a step keeps holds in all of
  them. `runChecked` runs a list of labels and checks the condition on the way.
Trusted boundary: none
Main exports: Machine, Reachable, Reachable.invariant, Machine.ofFunction, runChecked_machine,
  runChecked_reachable
-/
import Mathlib.Logic.Basic

namespace Workflow.Lib

universe u v

variable {σ : Type u} {α : Type v}

/-- A system: where it starts and what its steps do. -/
structure Machine (σ : Type u) (α : Type v) where
  init : σ → Prop
  step : σ → α → σ → Prop

/-- The states reached by runs whose every step meets `ok`. -/
inductive Reachable (m : Machine σ α) (ok : σ → α → Prop) : σ → Prop where
  | init {s : σ} (h : m.init s) : Reachable m ok s
  | step {s t : σ} {a : α} (h : Reachable m ok s) (hok : ok s a) (hstep : m.step s a t) :
      Reachable m ok t

/-- What holds at the start and is kept by every step holds in every reachable state. -/
theorem Reachable.invariant {m : Machine σ α} {ok : σ → α → Prop} {P : σ → Prop}
    (hinit : ∀ s, m.init s → P s) (hstep : ∀ s a t, P s → ok s a → m.step s a t → P t) {s : σ}
    (h : Reachable m ok s) : P s := by
  induction h with
  | init h => exact hinit _ h
  | step _ hok hs ih => exact hstep _ _ _ ih hok hs

/-- A system whose steps are computed with fuel; `none` is a step that cannot be taken. -/
def Machine.ofFunction (start : σ) (exec : Nat → σ → α → Option σ) : Machine σ α where
  init := fun s => s = start
  step := fun s a t => ∃ fuel, exec fuel s a = some t

/-- Run a list of labels, all with the same fuel, as long as the condition holds. -/
def runChecked (exec : Nat → σ → α → Option σ) (ok : σ → α → Prop) [∀ s a, Decidable (ok s a)]
    (fuel : Nat) : σ → List α → Option σ
  | s, [] => some s
  | s, a :: rest =>
      if ok s a then (exec fuel s a).bind fun t => runChecked exec ok fuel t rest else none

theorem runChecked_machine {m : Machine σ α} {exec : Nat → σ → α → Option σ} {ok : σ → α → Prop}
    [∀ s a, Decidable (ok s a)] (hm : ∀ fuel s a t, exec fuel s a = some t → m.step s a t)
    {fuel : Nat} {labels : List α} {s t : σ} (hs : Reachable m ok s)
    (h : runChecked exec ok fuel s labels = some t) : Reachable m ok t := by
  induction labels generalizing s with
  | nil =>
      simp only [runChecked, Option.some.injEq] at h
      exact h ▸ hs
  | cons a rest ih =>
      unfold runChecked at h
      split at h
      · rename_i hok
        obtain ⟨s', hexec, hrest⟩ := Option.bind_eq_some_iff.mp h
        exact ih (hs.step hok (hm fuel s a s' hexec)) hrest
      · cases h

theorem runChecked_reachable {start : σ} {exec : Nat → σ → α → Option σ} {ok : σ → α → Prop}
    [∀ s a, Decidable (ok s a)] {fuel : Nat} {labels : List α} {s t : σ}
    (hs : Reachable (Machine.ofFunction start exec) ok s)
    (h : runChecked exec ok fuel s labels = some t) :
    Reachable (Machine.ofFunction start exec) ok t :=
  runChecked_machine (m := Machine.ofFunction start exec) (fun fuel _ _ _ hexec => ⟨fuel, hexec⟩) hs h

end Workflow.Lib
