/-
Module: Workflow.Lib.Reading
Layer: Lib
Purpose: Computations that read memory and keep a record of the addresses they read, so that "reads
  nothing outside the buffer" can be said of a program and proved from its parts.
Trusted boundary: none
Main exports: Reading, load, loadAll, Within, within_bind, within_loadAll, Stored.loadAll
-/
import Mathlib.Data.List.Basic

namespace Workflow.Lib

universe u v

/-- A value together with the addresses that were read on the way to it, in order. -/
structure Reading (α : Type u) where
  value : α
  reads : List Nat

namespace Reading

variable {α β : Type u} {γ : Type v}

instance : Monad Reading where
  pure a := ⟨a, []⟩
  bind m f := ⟨(f m.value).value, m.reads ++ (f m.value).reads⟩

@[simp]
theorem value_pure (a : α) : (pure a : Reading α).value = a :=
  rfl

/-- The second part reads on from what the first one yields. -/
@[simp]
theorem value_bind (m : Reading α) (f : α → Reading β) : (m >>= f).value = (f m.value).value :=
  rfl

@[simp]
theorem value_ite (p : Prop) [Decidable p] (m m' : Reading α) :
    (if p then m else m').value = if p then m.value else m'.value :=
  apply_ite value p m m'

/-! ### Reading from memory -/

/-- Read the cell at `p`. -/
def load (mem : Nat → γ) (p : Nat) : Reading γ :=
  ⟨mem p, [p]⟩

/-- Read `count` cells from `p` on. -/
def loadAll (mem : Nat → γ) : Nat → Nat → Reading (List γ)
  | 0, _ => ⟨[], []⟩
  | count + 1, p => ⟨mem p :: (loadAll mem count (p + 1)).value,
      p :: (loadAll mem count (p + 1)).reads⟩

@[simp]
theorem value_load (mem : Nat → γ) (p : Nat) : (load mem p).value = mem p :=
  rfl

/-- As many cells are loaded as are asked for. -/
@[simp]
theorem length_loadAll (mem : Nat → γ) (count p : Nat) :
    (loadAll mem count p).value.length = count := by
  induction count generalizing p with
  | zero => rfl
  | succ count ih => rw [loadAll, List.length_cons, ih]

/-- The memory holds these cells from `p` on. -/
def Stored (mem : Nat → γ) : Nat → List γ → Prop
  | _, [] => True
  | p, x :: xs => mem p = x ∧ Stored mem (p + 1) xs

/-- Two texts are stored together exactly if the second one lies right behind the first. -/
theorem stored_append {mem : Nat → γ} {p : Nat} {xs ys : List γ} :
    Stored mem p (xs ++ ys) ↔ Stored mem p xs ∧ Stored mem (p + xs.length) ys := by
  induction xs generalizing p with
  | nil => simp [Stored]
  | cons x xs ih =>
      rw [List.cons_append, Stored, Stored, ih, List.length_cons, and_assoc,
        Nat.add_right_comm p 1 xs.length, Nat.add_assoc p]

/-- What is stored is what is read. -/
theorem Stored.loadAll {mem : Nat → γ} {p : Nat} {xs : List γ} (h : Stored mem p xs) :
    (loadAll mem xs.length p).value = xs := by
  induction xs generalizing p with
  | nil => rfl
  | cons x xs ih =>
      obtain ⟨hhead, htail⟩ := h
      rw [List.length_cons, Reading.loadAll, hhead, ih htail]

/-! ### Reading within bounds -/

/-- Only addresses with this property are read. -/
def Within (P : Nat → Prop) (m : Reading γ) : Prop :=
  ∀ p ∈ m.reads, P p

variable {P : Nat → Prop}

@[simp]
theorem within_pure (a : α) : Within P (pure a) :=
  fun _ h => absurd h List.not_mem_nil

/-- Both parts stay inside. -/
@[simp]
theorem within_bind {m : Reading α} {f : α → Reading β} :
    Within P (m >>= f) ↔ Within P m ∧ Within P (f m.value) :=
  List.forall_mem_append

@[simp]
theorem within_load {mem : Nat → γ} {p : Nat} : Within P (load mem p) ↔ P p :=
  List.forall_mem_singleton

/-- A run of cells is read inside exactly if each of its cells lies inside. -/
theorem within_loadAll {mem : Nat → γ} {count p : Nat} :
    Within P (loadAll mem count p) ↔ ∀ q, p ≤ q → q < p + count → P q := by
  induction count generalizing p with
  | zero =>
      constructor
      · intro _ q hle hlt
        omega
      · exact fun _ _ h => absurd h List.not_mem_nil
  | succ count ih =>
      have hsplit : Within P (loadAll mem (count + 1) p) ↔
          P p ∧ Within P (loadAll mem count (p + 1)) := List.forall_mem_cons
      rw [hsplit, ih]
      constructor
      · rintro ⟨hhead, htail⟩ q hle hlt
        by_cases heq : q = p
        · rwa [heq]
        · exact htail q (by omega) (by omega)
      · intro h
        exact ⟨h p (Nat.le_refl p) (by omega), fun q hle hlt => h q (by omega) (by omega)⟩

end Reading

end Workflow.Lib
