/-
Module: Workflow.Proofs.QueryString
Layer: Proofs
Purpose: What the two functions that split a query make of a query that was joined from keys and
  values. A value is taken up to its first `=`, so they give back what was joined exactly when no
  value has one.
Trusted boundary: none
Main exports: collected, splitQueryStrict_joined, splitQuery_eq, querySplitting_iff
-/
import Workflow.Util.QueryString
import Mathlib.Data.List.Induction

namespace Workflow.Util

open Workflow.Lib

/-! ### The two functions agree -/

/-- The map with the first of the values of every key. -/
def firsts (res : StrMap (List (List Byte))) : StrMap (List Byte) :=
  fun key => (res key).bind List.head?

/-- No key of the map is without a value. -/
def Filled (res : StrMap (List (List Byte))) : Prop :=
  ∀ key, res key ≠ some []

theorem addFirst_firsts {res : StrMap (List (List Byte))} (h : Filled res) (ele : List Byte) :
    addFirst (firsts res) ele = firsts (addStrict res ele) ∧ Filled (addStrict res ele) := by
  unfold addFirst addStrict
  by_cases hele : ele = []
  · rw [if_pos hele, if_pos hele]
    exact ⟨rfl, h⟩
  rw [if_neg hele, if_neg hele]
  obtain ⟨key, val⟩ := keyValue ele
  simp only
  by_cases hkey : key = []
  · rw [if_pos (Or.inl hkey), if_pos hkey]
    exact ⟨rfl, h⟩
  rw [if_neg hkey]
  have hfilled : Filled (Function.update res key (some ((res key).getD [] ++ [val]))) := by
    intro k
    by_cases hk : k = key
    · rw [hk, Function.update_self]
      simp
    · rw [Function.update_of_ne hk]
      exact h k
  refine ⟨?_, hfilled⟩
  cases hres : res key with
  | none =>
      have hnone : ¬ (key = [] ∨ (firsts res key).isSome = true) := by
        rw [firsts, hres]
        simpa using hkey
      rw [if_neg hnone]
      funext k
      by_cases hk : k = key
      · rw [hk, Function.update_self, firsts, Function.update_self]
        rfl
      · rw [Function.update_of_ne hk, firsts, firsts, Function.update_of_ne hk]
  | some values =>
      obtain ⟨first, rest, rfl⟩ : ∃ first rest, values = first :: rest :=
        List.exists_cons_of_ne_nil fun hnil => h key (hnil ▸ hres)
      have hsome : key = [] ∨ (firsts res key).isSome = true := by
        rw [firsts, hres]
        exact Or.inr rfl
      rw [if_pos hsome]
      funext k
      by_cases hk : k = key
      · rw [hk, firsts, firsts, Function.update_self, hres]
        rfl
      · rw [firsts, firsts, Function.update_of_ne hk]

theorem foldl_addFirst (arr : List (List Byte)) {res : StrMap (List (List Byte))} (h : Filled res) :
    arr.foldl addFirst (firsts res) = firsts (arr.foldl addStrict res) := by
  induction arr generalizing res with
  | nil => rfl
  | cons ele arr ih =>
      obtain ⟨hfirst, hfilled⟩ := addFirst_firsts h ele
      rw [List.foldl_cons, List.foldl_cons, hfirst, ih hfilled]

/-- On every query, `split_query` has the first of the values that `split_query_strict` has. -/
theorem splitQuery_eq (query : List Byte) : splitQuery query = firsts (splitQueryStrict query) := by
  have hempty : Filled fun _ => none := by
    intro _ h
    cases h
  unfold splitQuery splitQueryStrict
  split
  · rfl
  · exact foldl_addFirst _ hempty

/-! ### Joined queries -/

/-- `key=value`. -/
def joinPair (p : List Byte × List Byte) : List Byte :=
  p.1 ++ 61 :: p.2

/-- The pairs, joined with `&`. -/
def joinQuery (pairs : List (List Byte × List Byte)) : List Byte :=
  [38].intercalate (pairs.map joinPair)

/-- What a query is joined from. -/
def ValidPair (p : List Byte × List Byte) : Prop :=
  p.1 ≠ [] ∧ 38 ∉ p.1 ∧ 61 ∉ p.1 ∧ 38 ∉ p.2

/-- For each key its values, in order. -/
def collected (pairs : List (List Byte × List Byte)) : StrMap (List (List Byte)) :=
  fun key =>
    let values := (pairs.filter fun p => p.1 = key).map Prod.snd
    if values = [] then none else some values

/-- What is left of a pair: its value up to the first `=`. -/
def cutPair (p : List Byte × List Byte) : List Byte × List Byte :=
  (p.1, p.2.takeWhile (· ≠ 61))

/-- The first field behind the separator ends at the next one. -/
theorem head_splitOn (str : List Byte) :
    ∃ rest, str.splitOn 61 = str.takeWhile (· ≠ 61) :: rest := by
  induction str with
  | nil => exact ⟨[], rfl⟩
  | cons c str ih =>
      obtain ⟨rest, hrest⟩ := ih
      by_cases hc : c = 61
      · rw [hc]
        exact ⟨str.splitOn 61, by rw [List.splitOn_cons_eq_if_modifyHead]; simp⟩
      · refine ⟨rest, ?_⟩
        rw [List.splitOn_cons_eq_if_modifyHead, hrest]
        simp [hc]

theorem keyValue_joinPair {p : List Byte × List Byte} (h : 61 ∉ p.1) :
    keyValue (joinPair p) = cutPair p := by
  obtain ⟨rest, hrest⟩ := head_splitOn p.2
  rw [keyValue, joinPair, split, List.splitOn_append_cons_self_of_not_mem h, hrest]
  rfl

theorem collected_snoc (pairs : List (List Byte × List Byte)) (p : List Byte × List Byte) :
    collected (pairs ++ [p]) =
      Function.update (collected pairs) p.1 (some ((collected pairs p.1).getD [] ++ [p.2])) := by
  funext key
  by_cases hkey : key = p.1
  · rw [hkey, Function.update_self]
    simp only [collected, List.filter_append, List.map_append]
    by_cases hnil : (pairs.filter fun q => q.1 = p.1).map Prod.snd = []
    · rw [hnil]
      simp
    · rw [if_neg hnil]
      simp
  · rw [Function.update_of_ne hkey]
    have hnone : [p].filter (fun q => q.1 = key) = [] := by
      simp only [List.filter_cons, List.filter_nil]
      rw [if_neg]
      simpa using Ne.symm hkey
    simp only [collected, List.filter_append, hnone, List.append_nil]

theorem foldl_addStrict (pairs : List (List Byte × List Byte)) (h : ∀ p ∈ pairs, ValidPair p) :
    (pairs.map joinPair).foldl addStrict (fun _ => none) = collected (pairs.map cutPair) := by
  induction pairs using List.reverseRecOn with
  | nil => rfl
  | append_singleton pairs p ih =>
      obtain ⟨hkey, -, heq, -⟩ := h p (by simp)
      have hnil : joinPair p ≠ [] := by simp [joinPair]
      rw [List.map_append, List.foldl_append, ih fun q hq => h q (by simp [hq]), List.map_append,
        List.map_singleton, List.map_singleton, collected_snoc, List.foldl_cons, List.foldl_nil,
        addStrict, if_neg hnil, keyValue_joinPair heq]
      exact if_neg hkey

/-- What `split_query_strict` gives on a joined query. -/
theorem splitQueryStrict_joined {pairs : List (List Byte × List Byte)}
    (h : ∀ p ∈ pairs, ValidPair p) :
    splitQueryStrict (joinQuery pairs) = collected (pairs.map cutPair) := by
  cases pairs with
  | nil => rfl
  | cons p rest =>
      have hne : joinQuery (p :: rest) ≠ [] := by
        cases rest <;> simp [joinQuery, joinPair]
      have hsplit : (joinQuery (p :: rest)).splitOn 38 = (p :: rest).map joinPair := by
        apply List.splitOn_intercalate
        · intro l hl
          obtain ⟨q, hq, rfl⟩ := List.mem_map.mp hl
          obtain ⟨-, hkey, -, hval⟩ := h q hq
          simp [joinPair, hkey, hval]
        · simp
      rw [splitQueryStrict, if_neg hne, split, hsplit]
      exact foldl_addStrict _ h

/-- What is promised of a list of pairs. -/
def SplitsBack (pairs : List (List Byte × List Byte)) : Prop :=
  splitQueryStrict (joinQuery pairs) = collected pairs ∧
    splitQuery (joinQuery pairs) = firsts (collected pairs)

/-- All values of a key, in order. -/
theorem getD_collected (pairs : List (List Byte × List Byte)) (key : List Byte) :
    (collected pairs key).getD [] = (pairs.filter fun p => p.1 = key).map Prod.snd := by
  rw [collected]
  split
  · rename_i hnil
    rw [hnil]
    rfl
  · rfl

theorem takeWhile_eq_iff (value : List Byte) : value.takeWhile (· ≠ 61) = value ↔ 61 ∉ value := by
  rw [List.takeWhile_eq_self_iff]
  constructor
  · intro h hmem
    simpa using h 61 hmem
  · intro h c hc
    have hne : c ≠ 61 := by
      rintro rfl
      exact h hc
    simpa using hne

/-- The joined pairs come back exactly when no value has a `=` in it; and on every query the two
functions agree. -/
theorem querySplitting_iff (pairs : List (List Byte × List Byte)) (h : ∀ p ∈ pairs, ValidPair p) :
    (SplitsBack pairs ∧ ∀ query, splitQuery query = firsts (splitQueryStrict query)) ↔
      ∀ p ∈ pairs, 61 ∉ p.2 := by
  rw [and_iff_left splitQuery_eq]
  constructor
  · rintro ⟨hstrict, -⟩ p hp
    rw [splitQueryStrict_joined h] at hstrict
    have hvalues := congrArg (fun res => (res p.1).getD []) hstrict
    simp only [getD_collected, List.filter_map, List.map_map] at hvalues
    have hcut := List.map_inj_left.mp hvalues p
      (List.mem_filter.mpr ⟨hp, by simp [cutPair]⟩)
    exact (takeWhile_eq_iff p.2).mp hcut
  · intro hvalues
    have hcut : pairs.map cutPair = pairs := by
      rw [List.map_congr_left fun p hp => ?_, List.map_id]
      rw [cutPair, (takeWhile_eq_iff p.2).mpr (hvalues p hp)]
      rfl
    have hstrict : splitQueryStrict (joinQuery pairs) = collected pairs := by
      rw [splitQueryStrict_joined h, hcut]
    exact ⟨hstrict, by rw [splitQuery_eq, hstrict]⟩

theorem querySplitting_iff_two :
    (SplitsBack [(ascii "a", ascii "1"), (ascii "a", [])] ∧
        ∀ query, splitQuery query = firsts (splitQueryStrict query)) ↔
      ∀ p ∈ [(ascii "a", ascii "1"), (ascii "a", [])], 61 ∉ p.2 :=
  querySplitting_iff _ fun p hp => by
    rcases List.mem_cons.mp hp with rfl | hp
    · exact ⟨by decide, by decide, by decide, by decide⟩
    · rw [List.mem_singleton.mp hp]
      exact ⟨by decide, by decide, by decide, by decide⟩

/-- A value with a `=` in it loses its end. -/
theorem querySplitting_cut :
    ¬ ∀ pairs, (∀ p ∈ pairs, ValidPair p) →
      SplitsBack pairs ∧ ∀ query, splitQuery query = firsts (splitQueryStrict query) := by
  intro hevery
  have hvalid : ∀ p ∈ [(ascii "a", ascii "b=c")], ValidPair p := by
    intro p hp
    rw [List.mem_singleton.mp hp]
    exact ⟨by decide, by decide, by decide, by decide⟩
  obtain ⟨⟨hstrict, -⟩, -⟩ := hevery [(ascii "a", ascii "b=c")] hvalid
  rw [splitQueryStrict_joined hvalid] at hstrict
  have hvalues := congrFun hstrict (ascii "a")
  revert hvalues
  decide

end Workflow.Util
