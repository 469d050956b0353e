/-
Module: Workflow.Lib.Trace
Layer: Lib
Purpose: Runs that leave a trace of visible events, and refinement between two levels: when a
  relation carries every step of the program to the step that its event makes on the abstract level,
  and a silent step to no step, every trace of the program is one of the abstract machine.
Trusted boundary: none
Main exports: Traced, Traced.invariant, runTrace, runTrace_traced, replay, Traced.refines, performAll,
  specAll, Meets, performAll_refines
-/
import Mathlib.Logic.Basic

namespace Workflow.Lib

universe u v w x

variable {σ : Type u} {α : Type v} {ε : Type w} {τ : Type x}

/-- The states that runs from `start` reach, each with the events on the way. -/
inductive Traced (exec : σ → α → Option (σ × Option ε)) (start : σ) : List ε → σ → Prop where
  | start : Traced exec start [] start
  | step {events : List ε} {s t : σ} {a : α} {e : Option ε} (h : Traced exec start events s)
      (hstep : exec s a = some (t, e)) : Traced exec start (events ++ e.toList) t

variable {exec : σ → α → Option (σ × Option ε)} {start : σ}

/-- What holds at the start and is kept by every step holds in every state of a run. -/
theorem Traced.invariant {P : σ → Prop} (hstart : P start)
    (hstep : ∀ s a t e, P s → exec s a = some (t, e) → P t) {events : List ε} {s : σ}
    (h : Traced exec start events s) : P s := by
  induction h with
  | start => exact hstart
  | step _ hs ih => exact hstep _ _ _ _ ih hs

/-- Run a list of labels and collect the events. -/
def runTrace (exec : σ → α → Option (σ × Option ε)) : σ → List α → Option (σ × List ε)
  | s, [] => some (s, [])
  | s, a :: labels =>
      (exec s a).bind fun (t, e) =>
        (runTrace exec t labels).map fun (u, events) => (u, e.toList ++ events)

theorem runTrace_traced {labels : List α} {before events : List ε} {s t : σ}
    (h : Traced exec start before s) (hrun : runTrace exec s labels = some (t, events)) :
    Traced exec start (before ++ events) t := by
  induction labels generalizing before events s with
  | nil =>
      simp only [runTrace, Option.some.injEq, Prod.mk.injEq] at hrun
      obtain ⟨rfl, rfl⟩ := hrun
      rwa [List.append_nil]
  | cons a labels ih =>
      simp only [runTrace, Option.bind_eq_some_iff, Option.map_eq_some_iff, Prod.exists,
        Prod.mk.injEq] at hrun
      obtain ⟨u, e, hstep, v, rest, hrest, rfl, rfl⟩ := hrun
      rw [← List.append_assoc]
      exact ih (h.step hstep) hrest

/-- The abstract machine on a list of events. -/
def replay (next : τ → ε → Option τ) : τ → List ε → Option τ
  | q, [] => some q
  | q, e :: events => (next q e).bind fun q' => replay next q' events

theorem replay_append (next : τ → ε → Option τ) (q : τ) (events more : List ε) :
    replay next q (events ++ more) = (replay next q events).bind fun q' => replay next q' more := by
  induction events generalizing q with
  | nil => rfl
  | cons e events ih =>
      rw [List.cons_append, replay, replay, Option.bind_assoc]
      exact congrArg _ (funext ih)

/-- One step of the program against at most one step of the abstract machine. -/
theorem Traced.refines {next : τ → ε → Option τ} {R : σ → τ → Prop} {q₀ : τ} (hstart : R start q₀)
    (hstep : ∀ s a t e q, R s q → exec s a = some (t, e) →
      ∃ q', replay next q e.toList = some q' ∧ R t q')
    {events : List ε} {s : σ} (h : Traced exec start events s) :
    ∃ q, replay next q₀ events = some q ∧ R s q := by
  induction h with
  | start => exact ⟨q₀, rfl, hstart⟩
  | step _ hs ih =>
      obtain ⟨q, hreplay, hR⟩ := ih
      obtain ⟨q', hnext, hR'⟩ := hstep _ _ _ _ q hR hs
      refine ⟨q', ?_, hR'⟩
      rw [replay_append, hreplay]
      exact hnext

/-! ### Operations with answers -/

section Operations

universe y

variable {ρ : Type y}

/-- Perform operations one after another and collect their answers; `none` is an operation that
fails. -/
def performAll (perform : σ → α → Option (σ × ρ)) : σ → List α → Option (σ × List ρ)
  | s, [] => some (s, [])
  | s, a :: ops =>
      (perform s a).bind fun (t, r) =>
        (performAll perform t ops).map fun (u, answers) => (u, r :: answers)

/-- The same for a specification, whose operations do not fail. -/
def specAll (spec : τ → α → τ × ρ) : τ → List α → τ × List ρ
  | q, [] => (q, [])
  | q, a :: ops =>
      let rest := specAll spec (spec q a).1 ops
      (rest.1, (spec q a).2 :: rest.2)

/-- Every operation meets the condition in the state it finds. -/
def Meets (spec : τ → α → τ × ρ) (ok : τ → α → Prop) : τ → List α → Prop
  | _, [] => True
  | q, a :: ops => ok q a ∧ Meets spec ok (spec q a).1 ops

instance Meets.decidable (spec : τ → α → τ × ρ) (ok : τ → α → Prop) [∀ q a, Decidable (ok q a)] :
    (q : τ) → (ops : List α) → Decidable (Meets spec ok q ops)
  | _, [] => isTrue trivial
  | q, a :: ops =>
      have := Meets.decidable spec ok (spec q a).1 ops
      inferInstanceAs (Decidable (_ ∧ _))

/-- If an operation that meets the condition gives the answer of the specification and keeps the two
states related, so does every sequence of such operations. -/
theorem performAll_refines {perform : σ → α → Option (σ × ρ)} {spec : τ → α → τ × ρ}
    {ok : τ → α → Prop} {R : σ → τ → Prop}
    (hstep : ∀ s q a, R s q → ok q a → ∃ t, perform s a = some (t, (spec q a).2) ∧ R t (spec q a).1)
    {ops : List α} {s : σ} {q : τ} (h : R s q) (hok : Meets spec ok q ops) :
    ∃ t, performAll perform s ops = some (t, (specAll spec q ops).2) ∧
      R t (specAll spec q ops).1 := by
  induction ops generalizing s q with
  | nil => exact ⟨s, rfl, h⟩
  | cons a ops ih =>
      obtain ⟨t, hperform, hR⟩ := hstep s q a h hok.1
      obtain ⟨u, hrest, hR'⟩ := ih hR hok.2
      exact ⟨u, by simp only [performAll, hperform, Option.bind_some, hrest, Option.map_some, specAll],
        hR'⟩

end Operations

end Workflow.Lib
