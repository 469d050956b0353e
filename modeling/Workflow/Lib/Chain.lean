/-
Module: Workflow.Lib.Chain
Layer: Lib
Purpose: Links that lead from a name to the next one, where they lead anywhere. A chain that ends
  takes each link once, so it has no more links than there are places to take them from; a chain
  that comes back to an equivalent name does not end.
Trusted boundary: none
Main exports: ChainEnds, ChainEnds.unique, ChainEnds.places, Cyclic, Cyclic.not_chainEnds
-/
import Mathlib.Data.Finset.Card
import Mathlib.Logic.Relation

namespace Workflow.Lib

universe u v

variable {α : Type u} {ι : Type v} {next : α → Option α}

/-- From `a` there are `k` links, and the last one leads to `e`. -/
inductive ChainEnds (next : α → Option α) : α → Nat → α → Prop where
  | stop {a : α} : next a = none → ChainEnds next a 0 a
  | link {a b e : α} {k : Nat} : next a = some b → ChainEnds next b k e → ChainEnds next a (k + 1) e

theorem ChainEnds.of_link {a b e : α} {k : Nat} (h : ChainEnds next a k e) (hlink : next a = some b) :
    ∃ j, k = j + 1 ∧ ChainEnds next b j e := by
  cases h with
  | stop hnone => rw [hnone] at hlink; cases hlink
  | link hnext hrest =>
      rw [hnext, Option.some.injEq] at hlink
      exact ⟨_, rfl, hlink ▸ hrest⟩

theorem ChainEnds.unique {a e e' : α} {k k' : Nat} (h : ChainEnds next a k e)
    (h' : ChainEnds next a k' e') : k = k' ∧ e = e' := by
  induction h generalizing k' with
  | stop hnone =>
      cases h' with
      | stop _ => exact ⟨rfl, rfl⟩
      | link hnext _ => rw [hnone] at hnext; cases hnext
  | link hnext _ ih =>
      obtain ⟨j, rfl, hrest⟩ := h'.of_link hnext
      obtain ⟨rfl, rfl⟩ := ih hrest
      exact ⟨rfl, rfl⟩

/-- The links of a chain that ends are taken from different places. -/
theorem ChainEnds.places {place : α → Option ι} {target : ι → α}
    (hnext : ∀ a, next a = (place a).map target) {a e : α} {k : Nat} (h : ChainEnds next a k e) :
    ∃ s : Finset ι, s.card = k ∧
      ∀ i ∈ s, (∃ b, place b = some i) ∧ ∃ j < k, ChainEnds next (target i) j e := by
  classical
  induction h with
  | stop _ => exact ⟨∅, rfl, by simp⟩
  | @link a b e k hlink hrest ih =>
      obtain ⟨s, hcard, hs⟩ := ih
      rw [hnext] at hlink
      obtain ⟨i, hplace, rfl⟩ := Option.map_eq_some_iff.mp hlink
      -- the same place would lead to the same number of links
      have hnew : i ∉ s := by
        intro hi
        obtain ⟨-, j, hlt, hj⟩ := hs i hi
        exact absurd (hj.unique hrest).1 (Nat.ne_of_lt hlt)
      refine ⟨insert i s, by rw [Finset.card_insert_of_notMem hnew, hcard], fun i' hi' => ?_⟩
      rcases Finset.mem_insert.mp hi' with rfl | hold
      · exact ⟨⟨a, hplace⟩, k, Nat.lt_succ_self k, hrest⟩
      · obtain ⟨hb, j, hlt, hj⟩ := hs i' hold
        exact ⟨hb, j, Nat.lt_succ_of_lt hlt, hj⟩

/-- From `a` the links lead to two names that are the same up to `same`. -/
def Cyclic (next : α → Option α) (same : α → α → Prop) (a : α) : Prop :=
  ∃ b c, Relation.ReflTransGen (fun x y => next x = some y) a b ∧
    Relation.TransGen (fun x y => next x = some y) b c ∧ same b c

theorem ChainEnds.of_path {a b e : α} {k : Nat} (h : ChainEnds next a k e)
    (hpath : Relation.ReflTransGen (fun x y => next x = some y) a b) :
    ∃ j, j ≤ k ∧ ChainEnds next b j e := by
  induction hpath with
  | refl => exact ⟨k, Nat.le_refl k, h⟩
  | tail _ hlink ih =>
      obtain ⟨j, hle, hj⟩ := ih
      obtain ⟨i, rfl, hi⟩ := hj.of_link hlink
      exact ⟨i, by omega, hi⟩

theorem Cyclic.not_chainEnds {same : α → α → Prop} (hsame : ∀ a b, same a b → next a = next b)
    {a : α} (h : Cyclic next same a) (k : Nat) (e : α) : ¬ ChainEnds next a k e := by
  intro hends
  obtain ⟨b, c, hpath, hcycle, hbc⟩ := h
  obtain ⟨j, -, hb⟩ := hends.of_path hpath
  obtain ⟨d, hfirst, hrest⟩ := Relation.TransGen.head'_iff.mp hcycle
  obtain ⟨i, rfl, hd⟩ := hb.of_link hfirst
  obtain ⟨i', hle, hc⟩ := hd.of_path hrest
  obtain ⟨i'', rfl, hd'⟩ := hc.of_link ((hsame b c hbc).symm.trans hfirst)
  have heq := (hd.unique hd').1
  omega

end Workflow.Lib
