/-
Module: Workflow.Lib.Loop
Layer: Lib
Purpose: Loops that may not end. A loop is a step function and is run with fuel, `none` standing for
  "still running". A loop halts when its steps descend in a well-founded order, and it does not halt
  when a set of states is closed under its steps. `wellFounded_of_acyclic` supplies the order for a
  loop that follows links between finitely many places.
Trusted boundary: none
Main exports: Step, loop, Halts, loop_mono, halts_of_wellFounded, not_halts_of_invariant,
  loop_invariant, Reaches, passes, exists_fuel, logged, loop_logged, logged_induction,
  wellFounded_of_acyclic
-/
import Mathlib.Data.Fintype.Pigeonhole
import Mathlib.Logic.Relation
import Mathlib.Order.WellFounded

namespace Workflow.Lib

universe u v

variable {σ : Type u} {ρ : Type v}

/-- One pass through the body of a loop. -/
inductive Step (σ : Type u) (ρ : Type v) where
  | next (s : σ)
  | done (r : ρ)

/-- Run a loop for at most `fuel` passes. -/
def loop (step : σ → Step σ ρ) : Nat → σ → Option ρ
  | 0, _ => none
  | fuel + 1, s =>
      match step s with
      | .next t => loop step fuel t
      | .done r => some r

/-- The loop ends. -/
def Halts (step : σ → Step σ ρ) (s : σ) : Prop :=
  ∃ fuel r, loop step fuel s = some r

variable {step : σ → Step σ ρ}

theorem loop_zero (s : σ) : loop step 0 s = none :=
  rfl

theorem loop_next {s t : σ} (h : step s = .next t) (fuel : Nat) :
    loop step (fuel + 1) s = loop step fuel t := by
  simp only [loop, h]

theorem loop_done {s : σ} {r : ρ} (h : step s = .done r) (fuel : Nat) :
    loop step (fuel + 1) s = some r := by
  simp only [loop, h]

/-- More fuel does not change a result. -/
theorem loop_mono {fuel fuel' : Nat} {s : σ} {r : ρ} (hle : fuel ≤ fuel')
    (h : loop step fuel s = some r) : loop step fuel' s = some r := by
  induction fuel generalizing fuel' s with
  | zero => simp [loop_zero] at h
  | succ fuel ih =>
      obtain ⟨more, rfl⟩ : ∃ more, fuel' = more + 1 := ⟨fuel' - 1, by omega⟩
      cases hstep : step s with
      | next t =>
          rw [loop_next hstep] at h ⊢
          exact ih (by omega) h
      | done r' =>
          rw [loop_done hstep] at h ⊢
          exact h

theorem halts_next {s t : σ} (h : step s = .next t) : Halts step s ↔ Halts step t := by
  constructor
  · rintro ⟨fuel, r, hr⟩
    cases fuel with
    | zero => simp [loop_zero] at hr
    | succ fuel => exact ⟨fuel, r, by rwa [loop_next h] at hr⟩
  · rintro ⟨fuel, r, hr⟩
    exact ⟨fuel + 1, r, by rwa [loop_next h]⟩

theorem halts_done {s : σ} {r : ρ} (h : step s = .done r) : Halts step s :=
  ⟨1, r, loop_done h 0⟩

/-- A loop whose steps keep an invariant and descend ends. -/
theorem halts_of_wellFounded {r : σ → σ → Prop} (hr : WellFounded r) {P : σ → Prop}
    (hstep : ∀ s t, P s → step s = .next t → P t ∧ r t s) (s : σ) (hs : P s) : Halts step s := by
  induction s using hr.induction with
  | _ s ih =>
      cases h : step s with
      | next t =>
          obtain ⟨ht, hlt⟩ := hstep s t hs h
          exact (halts_next h).mpr (ih t hlt ht)
      | done r => exact halts_done h

/-- A loop that stays in a set of states from which it always goes on does not end. -/
theorem not_halts_of_invariant {P : σ → Prop}
    (hP : ∀ s, P s → ∃ t, step s = .next t ∧ P t) {s : σ} (hs : P s) : ¬ Halts step s := by
  rintro ⟨fuel, r, hr⟩
  induction fuel generalizing s with
  | zero => simp [loop_zero] at hr
  | succ fuel ih =>
      obtain ⟨t, hnext, ht⟩ := hP s hs
      rw [loop_next hnext] at hr
      exact ih ht hr

/-- What a loop returns, from an invariant of its passes. -/
theorem loop_invariant {P : σ → Prop} {Q : ρ → Prop}
    (hnext : ∀ s t, P s → step s = .next t → P t) (hdone : ∀ s r, P s → step s = .done r → Q r)
    {fuel : Nat} {s : σ} {r : ρ} (hs : P s) (h : loop step fuel s = some r) : Q r := by
  induction fuel generalizing s with
  | zero => simp [loop_zero] at h
  | succ fuel ih =>
      cases hstep : step s with
      | next t => exact ih (hnext s t hs hstep) (by rwa [loop_next hstep] at h)
      | done r' =>
          rw [loop_done hstep, Option.some.injEq] at h
          exact h ▸ hdone s r' hs hstep

/-- The states at which the loop begins a pass. -/
def Reaches (step : σ → Step σ ρ) : σ → σ → Prop :=
  Relation.ReflTransGen fun s t => step s = .next t

/-- An invariant holds at the beginning of every pass. -/
theorem Reaches.invariant {P : σ → Prop} (hstep : ∀ s t, P s → step s = .next t → P t) {s t : σ}
    (h : Reaches step s t) (hs : P s) : P t := by
  induction h with
  | refl => exact hs
  | tail _ hnext ih => exact hstep _ _ ih hnext

/-- The states at which the first `fuel` passes begin. -/
def passes (step : σ → Step σ ρ) : Nat → σ → List σ
  | 0, _ => []
  | fuel + 1, s =>
      s :: match step s with
        | .next t => passes step fuel t
        | .done _ => []

/-- A loop that has ended has begun no other passes. -/
theorem Reaches.mem_passes {fuel : Nat} {s t : σ} {r : ρ} (h : Reaches step s t)
    (hloop : loop step fuel s = some r) : t ∈ passes step fuel s := by
  induction fuel generalizing s with
  | zero => simp [loop_zero] at hloop
  | succ fuel ih =>
      rcases Relation.ReflTransGen.cases_head h with rfl | ⟨next, hnext, hrest⟩
      · exact List.mem_cons_self
      · rw [loop_next hnext] at hloop
        refine List.mem_cons_of_mem s ?_
        rw [hnext]
        exact ih hrest hloop

/-- One amount of fuel is enough for finitely many starts. -/
theorem exists_fuel (start : Nat → σ) (n : Nat) (h : ∀ i < n, Halts step (start i)) :
    ∃ fuel, ∀ i < n, (loop step fuel (start i)).isSome := by
  induction n with
  | zero => exact ⟨0, fun i hi => absurd hi (Nat.not_lt_zero i)⟩
  | succ n ih =>
      obtain ⟨fuel, hfuel⟩ := ih fun i hi => h i (by omega)
      obtain ⟨last, r, hr⟩ := h n (by omega)
      refine ⟨max fuel last, fun i hi => ?_⟩
      rcases Nat.lt_succ_iff_lt_or_eq.mp hi with hlt | rfl
      · obtain ⟨r', hr'⟩ := Option.isSome_iff_exists.mp (hfuel i hlt)
        simp [loop_mono (Nat.le_max_left fuel last) hr']
      · simp [loop_mono (Nat.le_max_right fuel last) hr]

/-- The loop that also writes down what each of its passes does. -/
def logged {α : Type u} (step : σ → Step σ ρ) (notes : σ → List α) (s : σ × List α) :
    Step (σ × List α) (ρ × List α) :=
  match step s.1 with
  | .next t => .next (t, s.2 ++ notes s.1)
  | .done r => .done (r, s.2 ++ notes s.1)

/-- Writing down what the passes do does not change what the loop returns. -/
theorem loop_logged {α : Type u} (notes : σ → List α) (fuel : Nat) (s : σ) (log : List α) :
    (loop (logged step notes) fuel (s, log)).map Prod.fst = loop step fuel s := by
  induction fuel generalizing s log with
  | zero => rfl
  | succ fuel ih =>
      cases hstep : step s with
      | next t =>
          have hlogged : logged step notes (s, log) = .next (t, log ++ notes s) := by
            simp only [logged, hstep]
          rw [loop_next hlogged, loop_next hstep]
          exact ih t (log ++ notes s)
      | done r =>
          have hlogged : logged step notes (s, log) = .done (r, log ++ notes s) := by
            simp only [logged, hstep]
          rw [loop_done hlogged, loop_done hstep]
          rfl

/-- What a loop returns and writes down, from the last pass backwards. -/
theorem logged_induction {α : Type u} {notes : σ → List α} {I : σ → Prop}
    {P : σ → ρ → List α → Prop} (hinv : ∀ s t, I s → step s = .next t → I t)
    (hdone : ∀ s r, I s → step s = .done r → P s r (notes s))
    (hnext : ∀ s t r new, I s → step s = .next t → P t r new → P s r (notes s ++ new))
    {fuel : Nat} {s : σ} {log log' : List α} {r : ρ} (hs : I s)
    (h : loop (logged step notes) fuel (s, log) = some (r, log')) :
    ∃ new, log' = log ++ new ∧ P s r new := by
  induction fuel generalizing s log with
  | zero => simp [loop_zero] at h
  | succ fuel ih =>
      cases hstep : step s with
      | next t =>
          have hlogged : logged step notes (s, log) = .next (t, log ++ notes s) := by
            simp only [logged, hstep]
          rw [loop_next hlogged] at h
          obtain ⟨new, hlog, hP⟩ := ih (hinv s t hs hstep) h
          exact ⟨notes s ++ new, by rw [hlog, List.append_assoc], hnext s t r new hs hstep hP⟩
      | done r' =>
          have hlogged : logged step notes (s, log) = .done (r', log ++ notes s) := by
            simp only [logged, hstep]
          rw [loop_done hlogged] at h
          cases h
          exact ⟨notes s, rfl, hdone s r hs hstep⟩

/-- Links that leave finitely many places and never lead back to where they started end. -/
theorem wellFounded_of_acyclic {link : Nat → Nat → Prop} {n : Nat}
    (hbound : ∀ a b, link a b → a < n) (hacyclic : ∀ a, ¬ Relation.TransGen link a a) :
    WellFounded (fun b a => link a b) := by
  rw [wellFounded_iff_isEmpty_descending_chain]
  refine ⟨fun ⟨chain, hchain⟩ => ?_⟩
  have hlater : ∀ i d, Relation.TransGen link (chain i) (chain (i + d + 1)) := by
    intro i d
    induction d with
    | zero => exact .single (hchain i)
    | succ d ih => exact ih.tail (hchain (i + d + 1))
  obtain ⟨i, j, hne, heq⟩ := Finite.exists_ne_map_eq_of_infinite
    (fun k => (⟨chain k, hbound _ _ (hchain k)⟩ : Fin n))
  have heq : chain i = chain j := by simpa using heq
  rcases Nat.lt_or_gt_of_ne hne with hlt | hgt
  · have hcycle := hlater i (j - i - 1)
    rw [show i + (j - i - 1) + 1 = j by omega, ← heq] at hcycle
    exact hacyclic _ hcycle
  · have hcycle := hlater j (i - j - 1)
    rw [show j + (i - j - 1) + 1 = i by omega, heq] at hcycle
    exact hacyclic _ hcycle

end Workflow.Lib
