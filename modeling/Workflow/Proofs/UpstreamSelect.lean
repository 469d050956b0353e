/-
Module: Workflow.Proofs.UpstreamSelect
Layer: Proofs
Purpose: Selection in an upstream policy. Looking for a server only shuffles the groups; a group
  hands out its servers that are not fused and not in the selection history, and the consistent
  hash a server that is not fused. The weighted random policy draws, and can go wrong exactly when a
  server of the history is freed or its draws can end where nothing can be handed out.
Trusted boundary: none
Main exports: Shuffled, getOne_spec, isAlive_spec, consistentHashWithGroup_spec, drawAt, Stray,
  selectAddr_outcome, Stray.exists_draws
-/
import Workflow.Proofs.UpstreamBreaker
import Mathlib.Algebra.Order.BigOperators.Group.List
import Mathlib.Algebra.Order.Ring.Nat

namespace Workflow.Nameservice

open Workflow.Lib

namespace UPSGroupPolicy

variable {clean : Prop} {p p' : UPSGroupPolicy} {reg breaker : List Nat} {i : Nat}
  {living : Nat → Bool} {history : List Nat} {id : Int32}

/-! ### Shuffling -/

/-- The random numbers that shuffle nothing. -/
def Draws.still (first another : Nat) : Draws :=
  ⟨first, another, fun _ => ⟨fun servers => servers, fun _ => .refl _⟩⟩

/-- The same policy with shuffled groups. -/
structure Shuffled (p p' : UPSGroupPolicy) : Prop where
  rest : p' = { p with groups := p'.groups }
  mains : ∀ id, (p'.groups id).mains.Perm (p.groups id).mains
  backups : ∀ id, (p'.groups id).backups.Perm (p.groups id).backups
  counts : ∀ id, (p'.groups id).nalives = (p.groups id).nalives ∧
    (p'.groups id).weight = (p.groups id).weight

theorem Shuffled.refl (p : UPSGroupPolicy) : Shuffled p p :=
  ⟨rfl, fun _ => .refl _, fun _ => .refl _, fun _ => ⟨rfl, rfl⟩⟩

theorem Shuffled.trans {p₁ p₂ p₃ : UPSGroupPolicy} (h : Shuffled p₁ p₂) (h' : Shuffled p₂ p₃) :
    Shuffled p₁ p₃ := by
  refine ⟨?_, fun id => (h'.mains id).trans (h.mains id),
    fun id => (h'.backups id).trans (h.backups id),
    fun id => ⟨(h'.counts id).1.trans (h.counts id).1, (h'.counts id).2.trans (h.counts id).2⟩⟩
  rw [h'.rest, h.rest]

theorem Shuffled.gov_eq (hs : Shuffled p p') : p'.gov = p.gov := by
  rw [hs.rest]

theorem Shuffled.params_eq (hs : Shuffled p p') : p'.params = p.params := by
  rw [hs.rest]

theorem Shuffled.strategy_eq (hs : Shuffled p p') : p'.strategy = p.strategy := by
  rw [hs.rest]

theorem Shuffled.availableWeight_eq (hs : Shuffled p p') :
    p'.availableWeight = p.availableWeight := by
  rw [hs.rest]

theorem Shuffled.setGroup {group : EndpointGroup}
    (hmains : group.mains.Perm (p.groups id).mains)
    (hbackups : group.backups.Perm (p.groups id).backups)
    (hnalives : group.nalives = (p.groups id).nalives) (hweight : group.weight = (p.groups id).weight) :
    Shuffled p (p.setGroup id group) := by
  have hgroup : ∀ id', (p.setGroup id group).groups id' = if id' = id then group else p.groups id' :=
    fun id' => Function.update_apply ..
  refine ⟨rfl, fun id' => ?_, fun id' => ?_, fun id' => ?_⟩
  all_goals
    rw [hgroup]
    split
    · subst_vars
      first | assumption | exact ⟨hnalives, hweight⟩
    · first | exact .refl _ | exact ⟨rfl, rfl⟩

theorem PolicyInv.shuffled (h : PolicyInv clean p reg breaker) (hs : Shuffled p p') :
    PolicyInv clean p' reg breaker := by
  obtain ⟨hrest, hmains, hbackups, hcounts⟩ := hs
  generalize p'.groups = groups at hrest hmains hbackups hcounts
  subst hrest
  refine ⟨h.nodup, h.breaker, ⟨fun id => ?_, fun id => ?_, fun id => ?_, fun id => ?_,
    h.groups.ungrouped, h.groups.available⟩, h.main.servers, h.main.total⟩
  · exact (hmains id).trans (h.groups.mains id)
  · exact (hbackups id).trans (h.groups.backups id)
  · exact (hcounts id).1.trans (h.groups.nalives id)
  · exact (hcounts id).2.trans (h.groups.weight id)

/-! ### The servers of a group -/

/-- The loops of `get_one` find a server that is not fused and not in the history, if there is. -/
theorem findAvailable_spec {servers : List Nat} (history : List Nat)
    (h : ∀ i ∈ servers, ∃ a, p.gov.heap i = some a) :
    ∃ addr, p.findAvailable history servers = some addr ∧
      match addr with
      | some i => i ∈ servers ∧ p.gov.living i = true ∧ i ∉ history
      | none => ∀ i ∈ servers, p.gov.living i = true → i ∈ history := by
  induction servers with
  | nil => exact ⟨none, rfl, by simp⟩
  | cons i rest ih =>
      obtain ⟨a, ha⟩ := h i List.mem_cons_self
      obtain ⟨addr, hfind, hspec⟩ := ih fun j hj => h j (List.mem_cons_of_mem i hj)
      have hliving : p.gov.living i = decide (a.failCount < a.maxFails) := by
        simp [Governance.living, ha]
      unfold findAvailable
      simp only [ha, Option.bind_eq_bind, Option.bind_some]
      by_cases hfound : a.failCount < a.maxFails ∧ i ∉ history
      · rw [if_pos hfound]
        exact ⟨some i, rfl, List.mem_cons_self, by simp [hliving, hfound.1], hfound.2⟩
      · rw [if_neg hfound]
        refine ⟨addr, hfind, ?_⟩
        cases addr with
        | some j => exact ⟨List.mem_cons_of_mem i hspec.1, hspec.2⟩
        | none =>
            intro j hj hlive
            rcases List.mem_cons.mp hj with rfl | hj
            · by_contra hout
              exact hfound ⟨by simpa [hliving] using hlive, hout⟩
            · exact hspec j hj hlive

/-- The count of living servers of a group fits an int. -/
theorem PolicyInv.count_lt (h : PolicyInv clean p reg breaker) (id : Int32) :
    (reg.map (p.livingIn p.gov.living id)).sum < 2 ^ 31 := by
  have hle : (reg.map (p.livingIn p.gov.living id)).sum ≤ reg.length := by
    have hone : ∀ x ∈ reg.map (p.livingIn p.gov.living id), x ≤ 1 := by
      intro x hx
      obtain ⟨i, _, rfl⟩ := List.mem_map.mp hx
      unfold livingIn
      split <;> omega
    simpa using List.sum_le_card_nsmul _ 1 hone
  have hsmall := h.breaker.small
  rw [List.toFinset_card_of_nodup h.nodup] at hsmall
  omega

/-- `nalives` of a group tells whether a server of the group lives. -/
theorem PolicyInv.nalives_pos_iff (h : PolicyInv clean p reg breaker) (id : Int32) :
    0 < (p.groups id).nalives ↔ ∃ i ∈ reg, p.groupIdOf i = id ∧ p.gov.living i = true := by
  have hzero : (0 : Int32).toInt = 0 := rfl
  rw [h.groups.nalives, Int32.lt_iff_toInt_lt, hzero, Int32.toInt_ofNat_of_lt (h.count_lt id)]
  constructor
  · intro hpos
    by_contra hnone
    have hsum : (reg.map (p.livingIn p.gov.living id)).sum = 0 := by
      refine List.sum_eq_zero fun x hx => ?_
      obtain ⟨i, hi, rfl⟩ := List.mem_map.mp hx
      exact if_neg fun hin => hnone ⟨i, hi, hin⟩
    omega
  · rintro ⟨i, hi, hin⟩
    have hone : p.livingIn p.gov.living id i = 1 := if_pos hin
    have hle := List.single_le_sum (fun x _ => Nat.zero_le x) _
      (List.mem_map_of_mem (f := p.livingIn p.gov.living id) hi)
    omega

theorem PolicyInv.nalives_eq_zero_iff (h : PolicyInv clean p reg breaker) (id : Int32) :
    (p.groups id).nalives = 0 ↔ ∀ i ∈ reg, p.groupIdOf i = id → p.gov.living i = false := by
  have hpos := h.nalives_pos_iff id
  have hnonneg : ¬ (p.groups id).nalives < 0 := by
    rw [h.groups.nalives, Int32.lt_iff_toInt_lt, Int32.toInt_ofNat_of_lt (h.count_lt id)]
    exact Int.not_lt.mpr (Int.natCast_nonneg _)
  have hiff : (p.groups id).nalives = 0 ↔ ¬ 0 < (p.groups id).nalives := by
    rw [Int32.lt_iff_toInt_lt] at hnonneg ⊢
    rw [← Int32.toInt_inj]
    have hzero : (0 : Int32).toInt = 0 := rfl
    omega
  rw [hiff, hpos]
  simp only [not_exists, not_and, Bool.not_eq_true]

theorem PolicyInv.heap_of_mem (h : PolicyInv clean p reg breaker) (hi : i ∈ reg) :
    ∃ a, p.gov.heap i = some a :=
  (h.breaker.fused i (List.mem_toFinset.mpr hi)).imp fun _ ha => ha.1

/-- A server that a group may hand out. -/
def Available (p : UPSGroupPolicy) (reg history : List Nat) (id : Int32) (i : Nat) : Prop :=
  i ∈ reg ∧ p.groupIdOf i = id ∧ p.gov.living i = true ∧ i ∉ history

/-- `get_one` hands out an available server of the group, if there is one. -/
theorem getOne_spec (h : PolicyInv clean p reg breaker) (id : Int32) (history : List Nat)
    (shuffleMains shuffleBackups : Shuffle) :
    ∃ p' addr, p.getOne id history shuffleMains shuffleBackups = some (p', addr) ∧
      Shuffled p p' ∧ (∀ i, addr = some i → p.Available reg history id i) ∧
      (addr = none → ∀ i, ¬ p.Available reg history id i) := by
  unfold getOne
  by_cases hempty : (p.groups id).nalives = 0
  · simp only [hempty, if_true]
    refine ⟨p, none, rfl, .refl p, by simp, fun _ i havailable => ?_⟩
    have hdead := (h.nalives_eq_zero_iff id).mp hempty i havailable.1 havailable.2.1
    exact Bool.false_ne_true (hdead.symm.trans havailable.2.2.1)
  · simp only [hempty, if_false]
    have hmains : ∀ i, i ∈ shuffleMains.run (p.groups id).mains ↔
        i ∈ reg ∧ p.isMain i = true ∧ p.groupIdOf i = id := fun i => by
      rw [((shuffleMains.perm _).trans (h.groups.mains id)).mem_iff]
      simp
    have hbackups : ∀ i, i ∈ shuffleBackups.run (p.groups id).backups ↔
        i ∈ reg ∧ p.isMain i = false ∧ p.groupIdOf i = id := fun i => by
      rw [((shuffleBackups.perm _).trans (h.groups.backups id)).mem_iff]
      simp
    obtain ⟨main, hmain, hmainSpec⟩ := findAvailable_spec history fun i
      (hi : i ∈ shuffleMains.run (p.groups id).mains) => h.heap_of_mem ((hmains i).mp hi).1
    obtain ⟨backup, hbackup, hbackupSpec⟩ := findAvailable_spec history fun i
      (hi : i ∈ shuffleBackups.run (p.groups id).backups) => h.heap_of_mem ((hbackups i).mp hi).1
    simp only [hmain, Option.bind_eq_bind, Option.bind_some]
    cases main with
    | some i =>
        have hi := (hmains i).mp hmainSpec.1
        refine ⟨_, some i, rfl, .setGroup (shuffleMains.perm _) (.refl _) rfl rfl, ?_, by simp⟩
        rintro j ⟨⟩
        exact ⟨hi.1, hi.2.2, hmainSpec.2⟩
    | none =>
        simp only [hbackup, Option.bind_some]
        refine ⟨_, backup, rfl, .setGroup (shuffleMains.perm _) (shuffleBackups.perm _) rfl rfl,
          ?_, ?_⟩
        · rintro j rfl
          have hj := (hbackups j).mp hbackupSpec.1
          exact ⟨hj.1, hj.2.2, hbackupSpec.2⟩
        · rintro rfl j ⟨hj, hid, hlive, hout⟩
          cases hbool : p.isMain j with
          | true => exact hout (hmainSpec j ((hmains j).mpr ⟨hj, hbool, hid⟩) hlive)
          | false => exact hout (hbackupSpec j ((hbackups j).mpr ⟨hj, hbool, hid⟩) hlive)

/-- `get_one_backup` hands out an available server, if any. -/
theorem getOneBackup_spec (h : PolicyInv clean p reg breaker) (id : Int32) (history : List Nat)
    (shuffle : Shuffle) :
    ∃ p' addr, p.getOneBackup id history shuffle = some (p', addr) ∧ Shuffled p p' ∧
      ∀ i, addr = some i → p.Available reg history id i := by
  unfold getOneBackup
  by_cases hempty : (p.groups id).nalives = 0
  · simp only [hempty, if_true]
    exact ⟨p, none, rfl, .refl p, by simp⟩
  · simp only [hempty, if_false]
    have hbackups : ∀ i, i ∈ shuffle.run (p.groups id).backups ↔
        i ∈ reg ∧ p.isMain i = false ∧ p.groupIdOf i = id := fun i => by
      rw [((shuffle.perm _).trans (h.groups.backups id)).mem_iff]
      simp
    obtain ⟨backup, hbackup, hbackupSpec⟩ := findAvailable_spec history fun i
      (hi : i ∈ shuffle.run (p.groups id).backups) => h.heap_of_mem ((hbackups i).mp hi).1
    simp only [hbackup, Option.bind_eq_bind, Option.bind_some]
    refine ⟨_, backup, rfl, .setGroup (.refl _) (shuffle.perm _) rfl rfl, ?_⟩
    rintro j rfl
    have hj := (hbackups j).mp hbackupSpec.1
    exact ⟨hj.1, hj.2.2, hbackupSpec.2⟩

/-! ### Living servers and groups -/

/-- A server without a group lives, or a server of the group lives. -/
def Alive (p : UPSGroupPolicy) (reg : List Nat) (i : Nat) : Prop :=
  (p.groupIdOf i < 0 ∧ p.gov.living i = true) ∨
    (0 ≤ p.groupIdOf i ∧ ∃ j ∈ reg, p.groupIdOf j = p.groupIdOf i ∧ p.gov.living j = true)

theorem isAlive_spec (h : PolicyInv clean p reg breaker) (hi : i ∈ reg) :
    ∃ b, p.isAlive i = some b ∧ (b = true ↔ p.Alive reg i) := by
  obtain ⟨a, ha⟩ := h.heap_of_mem hi
  have hliving : p.gov.living i = decide (a.failCount < a.maxFails) := by
    simp [Governance.living, ha]
  unfold isAlive
  simp only [ha, Option.bind_eq_bind, Option.bind_some]
  refine ⟨_, rfl, ?_⟩
  rw [decide_eq_true_eq, groupOf, h.nalives_pos_iff, Alive, hliving, decide_eq_true_eq]

/-- `check_and_get(addr, false, tracing)` hands out a living server, or `addr` itself when its group
has nothing else. -/
theorem checkAndGet_spec (h : PolicyInv clean p reg breaker) (hi : i ∈ reg) (history : List Nat)
    (shuffleMains shuffleBackups : Shuffle) :
    ∃ p' j, p.checkAndGet (some i) history shuffleMains shuffleBackups = some (p', some j) ∧
      Shuffled p p' ∧ j ∈ reg ∧
      ((p.gov.living j = true ∧ (j = i ∨ p.Available reg history (p.groupIdOf i) j)) ∨
        (j = i ∧ p.gov.living i = false ∧
          (0 ≤ p.groupIdOf i → ∀ k, ¬ p.Available reg history (p.groupIdOf i) k))) := by
  obtain ⟨a, ha⟩ := h.heap_of_mem hi
  have hliving : p.gov.living i = decide (a.failCount < a.maxFails) := by
    simp [Governance.living, ha]
  unfold checkAndGet
  simp only [ha, Option.bind_eq_bind, Option.bind_some]
  by_cases hfused : a.maxFails ≤ a.failCount
  · have hdead : p.gov.living i = false := by simp [hliving, UInt32.not_lt.mpr hfused]
    by_cases hgroup : 0 ≤ p.groupIdOf i
    · rw [if_pos ⟨hfused, hgroup⟩]
      obtain ⟨p', addr, hget, hshuffled, hsome, hnone⟩ :=
        getOne_spec h (p.groupIdOf i) history shuffleMains shuffleBackups
      simp only [hget, Option.bind_some]
      cases addr with
      | some j =>
          have hj := hsome j rfl
          exact ⟨p', j, rfl, hshuffled, hj.1, Or.inl ⟨hj.2.2.1, Or.inr hj⟩⟩
      | none => exact ⟨p', i, rfl, hshuffled, hi, Or.inr ⟨rfl, hdead, fun _ => hnone rfl⟩⟩
    · rw [if_neg fun hand => hgroup hand.2]
      exact ⟨p, i, rfl, .refl p, hi, Or.inr ⟨rfl, hdead, fun hin => absurd hin hgroup⟩⟩
  · rw [if_neg fun hand => hfused hand.1]
    exact ⟨p, i, rfl, .refl p, hi, Or.inl ⟨by simp [hliving, UInt32.not_le.mp hfused], Or.inl rfl⟩⟩

/-- `check_and_get(addr, true, tracing)` hands out an available server of the group, if any. -/
theorem checkAndGetAvailable_spec (h : PolicyInv clean p reg breaker) (hi : i ∈ reg)
    (history : List Nat) (shuffleMains shuffleBackups : Shuffle) :
    ∃ p' addr, p.checkAndGetAvailable (some i) history shuffleMains shuffleBackups =
        some (p', addr) ∧ Shuffled p p' ∧
      (∀ j, addr = some j → p.groupIdOf i ≠ -1 ∧ p.Available reg history (p.groupIdOf i) j) ∧
      (addr = none → p.groupIdOf i = -1 ∨ ∀ k, ¬ p.Available reg history (p.groupIdOf i) k) := by
  obtain ⟨a, ha⟩ := h.heap_of_mem hi
  unfold checkAndGetAvailable
  simp only [ha, Option.bind_eq_bind, Option.bind_some]
  split
  · rename_i hfree
    exact ⟨p, none, rfl, .refl p, by simp, fun _ => Or.inl hfree⟩
  · rename_i hgroup
    obtain ⟨p', addr, hget, hshuffled, hsome, hnone⟩ :=
      getOne_spec h (p.groupIdOf i) history shuffleMains shuffleBackups
    exact ⟨p', addr, hget, hshuffled, fun j hj => ⟨hgroup, hsome j hj⟩,
      fun hnull => Or.inr (hnone hnull)⟩

/-! ### The consistent hash -/

theorem foldl_nearer (hash : UInt32) (i : Nat) (nodes : List UInt32) (best : UInt32 × Option Nat) :
    (nodes.foldl (nearer hash i) best).2 = best.2 ∨
      (nodes.foldl (nearer hash i) best).2 = some i := by
  induction nodes generalizing best with
  | nil => exact Or.inl rfl
  | cons node nodes ih =>
      rw [List.foldl_cons]
      rcases ih (nearer hash i best node) with hold | hnew
      · rw [hold]
        simp only [nearer]
        split
        · exact Or.inr rfl
        · exact Or.inl rfl
      · exact Or.inr hnew

theorem nearest_spec (h : PolicyInv clean p reg breaker) (hash : UInt32) {servers : List Nat}
    (hservers : ∀ i ∈ servers, i ∈ reg) (best : UInt32 × Option Nat) :
    ∃ best', p.nearest hash best servers = some best' ∧
      (best'.2 = best.2 ∨ ∃ i ∈ servers, best'.2 = some i ∧ p.Alive reg i) := by
  induction servers generalizing best with
  | nil => exact ⟨best, rfl, Or.inl rfl⟩
  | cons i rest ih =>
      obtain ⟨b, hb, halive⟩ := isAlive_spec h (hservers i List.mem_cons_self)
      have ih' := ih fun j hj => hservers j (List.mem_cons_of_mem i hj)
      unfold nearest
      simp only [hb, Option.bind_eq_bind, Option.bind_some]
      cases b with
      | false =>
          obtain ⟨best', hrest, hspec⟩ := ih' best
          refine ⟨best', hrest, hspec.imp id ?_⟩
          exact fun ⟨j, hj, hj'⟩ => ⟨j, List.mem_cons_of_mem i hj, hj'⟩
      | true =>
          obtain ⟨best', hrest, hspec⟩ :=
            ih' ((p.params i).consistentHash.foldl (nearer hash i) best)
          refine ⟨best', hrest, ?_⟩
          rcases hspec with hsame | ⟨j, hj, hj'⟩
          · rcases foldl_nearer hash i (p.params i).consistentHash best with hold | hnew
            · exact Or.inl (hsame.trans hold)
            · exact Or.inr ⟨i, List.mem_cons_self, hsame.trans hnew, halive.mp rfl⟩
          · exact Or.inr ⟨j, List.mem_cons_of_mem i hj, hj'⟩

/-- The consistent hash hands out a living server or NULL: it ignores the history, so the group of
a fused server has one. -/
theorem consistentHashWithGroup_spec (h : PolicyInv clean p reg breaker) (hash : UInt32)
    (shuffleMains shuffleBackups : Shuffle) :
    ∃ p' addr, p.consistentHashWithGroup hash shuffleMains shuffleBackups = some (p', addr) ∧
      Shuffled p p' ∧ ∀ i, addr = some i → i ∈ reg ∧ p.gov.living i = true := by
  have hservers : ∀ i ∈ p.gov.servers, i ∈ reg := fun i hi =>
    List.mem_of_mem_filter (h.main.servers ▸ hi)
  obtain ⟨best, hnearest, hspec⟩ := nearest_spec h hash hservers (-1, none)
  unfold consistentHashWithGroup
  simp only [hnearest, Option.bind_eq_bind, Option.bind_some]
  rcases hspec with hnone | ⟨i, hi, hsome, halive⟩
  · rw [hnone]
    exact ⟨p, none, rfl, .refl p, by simp⟩
  · rw [hsome]
    obtain ⟨p', j, hcheck, hshuffled, hj, hlive⟩ :=
      checkAndGet_spec h (hservers i hi) [] shuffleMains shuffleBackups
    refine ⟨p', some j, hcheck, hshuffled, ?_⟩
    rintro k ⟨⟩
    refine ⟨hj, ?_⟩
    rcases hlive with ⟨hlive, -⟩ | ⟨rfl, hdead, hnone⟩
    · exact hlive
    · rcases halive with ⟨_, hself⟩ | ⟨hgroup, k, hk, hid, hmate⟩
      · exact absurd (hself.symm.trans hdead) (by decide)
      · exact absurd ⟨hk, hid, hmate, List.not_mem_nil⟩ (hnone hgroup k)

/-! ### The strategies -/

/-- What a search for a server may come to, unless `bad`: it is defined, shuffles the groups, and
hands out a registered server that lives. -/
def Outcome (p : UPSGroupPolicy) (reg : List Nat) (bad : Prop)
    (result : Option (UPSGroupPolicy × Option Nat)) : Prop :=
  match result with
  | none => bad
  | some (p', addr) =>
      Shuffled p p' ∧ ∀ i, addr = some i → i ∈ reg ∧ (p.gov.living i = true ∨ bad)

theorem Outcome.mono {bad bad' : Prop} {result : Option (UPSGroupPolicy × Option Nat)}
    (h : Outcome p reg bad result) (himp : bad → bad') : Outcome p reg bad' result := by
  cases result with
  | none => exact himp h
  | some r => exact ⟨h.1, fun i hi => ⟨(h.2 i hi).1, (h.2 i hi).2.imp id himp⟩⟩

theorem Outcome.after {bad : Prop} {result : Option (UPSGroupPolicy × Option Nat)}
    (hs : Shuffled p p') (h : Outcome p' reg bad result) : Outcome p reg bad result := by
  have hgov : p'.gov = p.gov := by rw [hs.rest]
  cases result with
  | none => exact h
  | some r =>
      refine ⟨hs.trans h.1, fun i hi => ?_⟩
      rw [← hgov]
      exact h.2 i hi

/-! #### The weighted draws -/

/-- The server at which the weights add up to more than `x`; `s` is the sum of those before. -/
def drawAt (p : UPSGroupPolicy) (x : Int) (s : Int32) : List Nat → Option Nat
  | [] => none
  | i :: rest =>
      if x < (s + p.weightOf i).toInt then some i else p.drawAt x (s + p.weightOf i) rest

theorem drawAt_mem {x : Int} {s : Int32} {servers : List Nat} (h : p.drawAt x s servers = some i) :
    i ∈ servers := by
  induction servers generalizing s with
  | nil => cases h
  | cons j rest ih =>
      unfold drawAt at h
      split at h
      · cases h
        exact List.mem_cons_self
      · exact List.mem_cons_of_mem j (ih h)

/-- A draw that may run to its end is from the servers. -/
theorem drawAt_or_mem {x : Int} {servers last : List Nat} (hsub : ∀ j ∈ servers, j ∈ last)
    (h : (p.drawAt x 0 servers).or last.getLast? = some i) : i ∈ last := by
  rcases Option.or_eq_some_iff.mp h with hdraw | ⟨_, hlast⟩
  · exact hsub i (drawAt_mem hdraw)
  · exact List.mem_of_getLast? hlast

/-- The weight of the history. -/
def historyWeight (p : UPSGroupPolicy) (history : List Nat) : Int32 :=
  history.foldl (fun ret j => ret + p.weightOf j) 0

/-- The weights of the history can be read as long as its servers are not freed. -/
theorem selectHistoryWeight_fold (h : ∀ j ∈ history, p.gov.heap j ≠ none) :
    p.selectHistoryWeight history = some (p.historyWeight history) := by
  unfold selectHistoryWeight historyWeight
  generalize (0 : Int32) = start
  induction history generalizing start with
  | nil => rfl
  | cons j rest ih =>
      obtain ⟨a, ha⟩ := Option.ne_none_iff_exists'.mp (h j List.mem_cons_self)
      rw [List.foldlM_cons, ha]
      exact ih (fun k hk => h k (List.mem_cons_of_mem j hk)) _

theorem selectHistoryWeight_eq_none (h : ∃ j ∈ history, p.gov.heap j = none) :
    p.selectHistoryWeight history = none := by
  unfold selectHistoryWeight
  generalize (0 : Int32) = start
  induction history generalizing start with
  | nil => simp at h
  | cons j rest ih =>
      rw [List.foldlM_cons]
      cases ha : p.gov.heap j with
      | none => rfl
      | some a =>
          refine ih ?_ _
          obtain ⟨k, hk, hnone⟩ := h
          rcases List.mem_cons.mp hk with rfl | hk
          · exact absurd (hnone.symm.trans ha) (by simp)
          · exact ⟨k, hk, hnone⟩

/-- The loop of `first_strategy` draws from the servers outside the history. -/
theorem scanWeights_drawAt {servers : List Nat} (history : List Nat) (x : Int)
    (h : ∀ i ∈ servers, ∃ a, p.gov.heap i = some a) (s : Int32) :
    p.scanWeights history x s servers =
      some (p.drawAt x s (servers.filter fun i => i ∉ history)) := by
  induction servers generalizing s with
  | nil => rfl
  | cons i rest ih =>
      have ih' := ih fun j hj => h j (List.mem_cons_of_mem i hj)
      obtain ⟨a, ha⟩ := h i List.mem_cons_self
      unfold scanWeights
      by_cases hin : i ∈ history
      · rw [if_pos hin, List.filter_cons_of_neg (by simpa using hin), ih']
      · rw [if_neg hin, List.filter_cons_of_pos (by simpa using hin), drawAt]
        simp only [ha, Option.bind_eq_bind, Option.bind_some]
        split
        · rfl
        · exact ih' _

/-- The main servers for which `is_alive()` holds. -/
def aliveServers (p : UPSGroupPolicy) : List Nat :=
  p.gov.servers.filter fun i => p.isAlive i = some true

theorem Shuffled.aliveServers_eq (hs : Shuffled p p') : p'.aliveServers = p.aliveServers := by
  unfold aliveServers isAlive groupOf groupIdOf
  rw [hs.gov_eq, hs.params_eq]
  simp only [(hs.counts _).1]

theorem Shuffled.drawAt_eq (hs : Shuffled p p') (x : Int) (s : Int32) (servers : List Nat) :
    p'.drawAt x s servers = p.drawAt x s servers := by
  induction servers generalizing s with
  | nil => rfl
  | cons i rest ih =>
      have hweight : p'.weightOf i = p.weightOf i := by rw [weightOf, hs.params_eq, weightOf]
      rw [drawAt, drawAt, hweight, ih]

/-- The loop of `another_strategy` draws from the servers that are alive and keeps the last one. -/
theorem scanAlive_drawAt (h : PolicyInv clean p reg breaker) (x : Int) {servers : List Nat}
    (hservers : ∀ i ∈ servers, i ∈ reg) (s : Int32) (addr : Option Nat) :
    p.scanAlive x s addr servers =
      some ((p.drawAt x s (servers.filter fun i => p.isAlive i = some true)).or
        ((servers.filter fun i => p.isAlive i = some true).getLast?.or addr)) := by
  induction servers generalizing s addr with
  | nil => rfl
  | cons i rest ih =>
      obtain ⟨b, hb, -⟩ := isAlive_spec h (hservers i List.mem_cons_self)
      have ih' := ih fun j hj => hservers j (List.mem_cons_of_mem i hj)
      unfold scanAlive
      simp only [hb, Option.bind_eq_bind, Option.bind_some]
      cases b with
      | false => rw [List.filter_cons_of_neg (by simp [hb]), if_neg Bool.false_ne_true, ih']
      | true =>
          rw [List.filter_cons_of_pos (by simp [hb]), drawAt]
          simp only [if_true]
          split
          · rfl
          · rw [ih', List.getLast?_cons]
            cases (rest.filter fun i => p.isAlive i = some true).getLast? <;> rfl

/-! #### Where the draws may end -/

/-- `first_strategy` may draw `i`: at a number below the weights that the history leaves, or at 0;
the last main server takes the numbers that are too large. -/
def FirstDraw (p : UPSGroupPolicy) (history : List Nat) (i : Nat) : Prop :=
  ∃ x : Nat, (x = 0 ∨ (x : Int) < (p.totalWeight - p.historyWeight history).toInt) ∧
    (p.drawAt x 0 (p.gov.servers.filter fun j => j ∉ history)).or p.gov.servers.getLast? = some i

/-- `another_strategy` may draw `i`, at a number below `available_weight` or its negative. -/
def AnotherDraw (p : UPSGroupPolicy) (i : Nat) : Prop :=
  ∃ x : Nat, x < p.availableWeight.toInt.natAbs ∧
    (p.drawAt x 0 p.aliveServers).or p.aliveServers.getLast? = some i

/-- A fused server that has no group, or whose group has nothing available. -/
def Spent (p : UPSGroupPolicy) (reg history : List Nat) (i : Nat) : Prop :=
  p.gov.living i = false ∧
    (p.groupIdOf i = -1 ∨ ∀ k, ¬ p.Available reg history (p.groupIdOf i) k)

/-- `another_strategy` of the weighted random policy may have nothing to hand out:
`available_weight` is not zero, and no main server is alive or a spent one may be drawn. -/
def Stranded (p : UPSGroupPolicy) (reg history : List Nat) : Prop :=
  p.availableWeight ≠ 0 ∧
    (p.aliveServers = [] ∨ ∃ j, p.AnotherDraw j ∧ p.Spent reg history j)

/-- The weighted random policy may go wrong: it reads a freed server of the history, or
`first_strategy` may draw a spent server and `another_strategy` has nothing to hand out then. -/
def Stray (p : UPSGroupPolicy) (reg history : List Nat) : Prop :=
  p.strategy = .weightedRandom ∧ ((∃ j ∈ history, p.gov.heap j = none) ∨
    (p.gov.tryAnother = true ∧ (∃ i, p.FirstDraw history i ∧ p.Spent reg history i) ∧
      p.Stranded reg history))

/-- A shuffle does not change whether the policy is stranded. -/
theorem Shuffled.stranded_iff (hs : Shuffled p p') :
    p'.Stranded reg history ↔ p.Stranded reg history := by
  unfold Stranded AnotherDraw Spent Available groupIdOf
  rw [hs.availableWeight_eq, hs.aliveServers_eq, hs.gov_eq, hs.params_eq]
  simp only [hs.drawAt_eq]

theorem PolicyInv.mem_of_servers (h : PolicyInv clean p reg breaker) (hi : i ∈ p.gov.servers) :
    i ∈ reg :=
  List.mem_of_mem_filter (h.main.servers ▸ hi)

theorem firstWeighted_drawAt (h : PolicyInv clean p reg breaker)
    (hhistory : ∀ j ∈ history, p.gov.heap j ≠ none) (rand : Nat) :
    p.firstWeighted history rand =
      (p.drawAt (if 0 < p.totalWeight - p.historyWeight history then
          (rand : Int) % (p.totalWeight - p.historyWeight history).toInt else 0) 0
        (p.gov.servers.filter fun j => j ∉ history)).or p.gov.servers.getLast? := by
  have hheap : ∀ i ∈ p.gov.servers, ∃ a, p.gov.heap i = some a := fun i hi =>
    h.heap_of_mem (h.mem_of_servers hi)
  unfold firstWeighted
  simp only [selectHistoryWeight_fold hhistory, Option.bind_eq_bind, Option.bind_some,
    scanWeights_drawAt history _ hheap]
  cases p.drawAt _ 0 (p.gov.servers.filter fun j => j ∉ history) <;> rfl

/-- `first_strategy` draws a main server, at a number as `FirstDraw` has it. -/
theorem firstWeighted_spec (h : PolicyInv clean p reg breaker) (hne : p.gov.servers ≠ [])
    (hhistory : ∀ j ∈ history, p.gov.heap j ≠ none) (rand : Nat) :
    ∃ i, p.firstWeighted history rand = some i ∧ i ∈ p.gov.servers ∧ p.FirstDraw history i := by
  rw [firstWeighted_drawAt h hhistory]
  generalize hw : p.totalWeight - p.historyWeight history = w
  have hnumber : ∃ x : Nat, (x = 0 ∨ (x : Int) < w.toInt) ∧
      (if 0 < w then (rand : Int) % w.toInt else 0) = x := by
    split
    · rename_i hpos
      have hpos : 0 < w.toInt := Int32.lt_iff_toInt_lt.mp hpos
      have hnonneg := Int.emod_nonneg (rand : Int) hpos.ne'
      refine ⟨((rand : Int) % w.toInt).toNat, Or.inr ?_, (Int.toNat_of_nonneg hnonneg).symm⟩
      rw [Int.toNat_of_nonneg hnonneg]
      exact Int.emod_lt_of_pos _ hpos
    · exact ⟨0, Or.inl rfl, rfl⟩
  obtain ⟨x, hx, heq⟩ := hnumber
  rw [heq]
  obtain ⟨i, hi⟩ : ∃ i, (p.drawAt x 0 (p.gov.servers.filter fun j => j ∉ history)).or
      p.gov.servers.getLast? = some i := by
    refine Option.isSome_iff_exists.mp ?_
    rw [Option.isSome_or, List.getLast?_isSome.mpr hne, Bool.or_true]
  exact ⟨i, hi, drawAt_or_mem (fun j hj => List.mem_of_mem_filter hj) hi, x, hw ▸ hx, hi⟩

/-- Every draw of `FirstDraw` is one of `first_strategy`. -/
theorem FirstDraw.exists_rand (h : PolicyInv clean p reg breaker)
    (hhistory : ∀ j ∈ history, p.gov.heap j ≠ none) (hdraw : p.FirstDraw history i) :
    ∃ rand, p.firstWeighted history rand = some i := by
  obtain ⟨x, hx, hi⟩ := hdraw
  refine ⟨x, ?_⟩
  rw [firstWeighted_drawAt h hhistory]
  generalize p.totalWeight - p.historyWeight history = w at hx ⊢
  have hnumber : (if 0 < w then (x : Int) % w.toInt else 0) = x := by
    split
    · rename_i hpos
      have hpos : 0 < w.toInt := Int32.lt_iff_toInt_lt.mp hpos
      exact Int.emod_eq_of_lt (Int.natCast_nonneg x) (by omega)
    · rename_i hneg
      have hneg : ¬ 0 < w.toInt := fun hpos => hneg (Int32.lt_iff_toInt_lt.mpr hpos)
      omega
  rw [hnumber, hi]

/-- A main server that is alive and fused has a group. -/
theorem Alive.groupIdOf_ne (halive : p.Alive reg i) (hdead : p.gov.living i = false) :
    0 ≤ p.groupIdOf i ∧ p.groupIdOf i ≠ -1 := by
  rcases halive with ⟨_, hself⟩ | ⟨hgroup, _⟩
  · exact absurd (hself.symm.trans hdead) (by decide)
  · refine ⟨hgroup, fun heq => ?_⟩
    rw [heq] at hgroup
    exact absurd hgroup (by decide)

theorem mem_aliveServers (h : PolicyInv clean p reg breaker) (hi : i ∈ p.aliveServers) :
    i ∈ reg ∧ p.Alive reg i := by
  obtain ⟨hmem, halive⟩ := List.mem_filter.mp hi
  have hreg := h.mem_of_servers hmem
  obtain ⟨b, hb, hiff⟩ := isAlive_spec h hreg
  rw [decide_eq_true_eq, hb, Option.some.injEq] at halive
  exact ⟨hreg, hiff.mp halive⟩

/-- What `another_strategy` does with the server that it draws. -/
theorem anotherWeighted_eq (h : PolicyInv clean p reg breaker) (history : List Nat) (rand : Nat)
    (shuffleMains shuffleBackups : Shuffle) (hweight : p.availableWeight ≠ 0) :
    p.anotherWeighted history rand shuffleMains shuffleBackups =
      p.checkAndGet ((p.drawAt ((rand : Int).tmod p.availableWeight.toInt) 0 p.aliveServers).or
        p.aliveServers.getLast?) history shuffleMains shuffleBackups := by
  unfold anotherWeighted
  rw [if_neg hweight]
  simp only [scanAlive_drawAt h _ (fun i hi => h.mem_of_servers hi), Option.bind_eq_bind,
    Option.bind_some, Option.or_none]
  rfl

/-- The number that `another_strategy` draws. -/
theorem tmod_rand (rand : Nat) {w : Int} (hw : w ≠ 0) :
    ∃ x : Nat, (rand : Int).tmod w = x ∧ x < w.natAbs := by
  have hlt : (rand : Int).tmod w.natAbs < w.natAbs :=
    Int.tmod_lt_of_pos _ (by omega)
  have hnonneg : 0 ≤ (rand : Int).tmod w := Int.tmod_nonneg w (Int.natCast_nonneg rand)
  have habs : (rand : Int).tmod w.natAbs = (rand : Int).tmod w := by
    rcases Int.natAbs_eq w with heq | heq
    · rw [← heq]
    · conv_rhs => rw [heq, Int.tmod_neg]
  refine ⟨((rand : Int).tmod w).toNat, (Int.toNat_of_nonneg hnonneg).symm, ?_⟩
  omega

theorem anotherWeighted_outcome (h : PolicyInv clean p reg breaker) (history : List Nat)
    (rand : Nat) (shuffleMains shuffleBackups : Shuffle) :
    Outcome p reg (p.Stranded reg history)
      (p.anotherWeighted history rand shuffleMains shuffleBackups) := by
  by_cases hzero : p.availableWeight = 0
  · unfold anotherWeighted
    rw [if_pos hzero]
    exact ⟨.refl p, by simp⟩
  · rw [anotherWeighted_eq h history rand _ _ hzero]
    have hne : p.availableWeight.toInt ≠ 0 := fun heq => hzero (Int32.toInt_inj.mp heq)
    obtain ⟨x, hx, hlt⟩ := tmod_rand rand hne
    rw [hx]
    cases hdraw : (p.drawAt x 0 p.aliveServers).or p.aliveServers.getLast? with
    | none =>
        have hlast := (Option.or_eq_none_iff.mp hdraw).2
        exact ⟨hzero, Or.inl (List.getLast?_eq_none_iff.mp hlast)⟩
    | some i =>
        obtain ⟨hi, halive⟩ := mem_aliveServers h (drawAt_or_mem (fun _ hj => hj) hdraw)
        obtain ⟨p', j, hcheck, hshuffled, hj, hlive⟩ :=
          checkAndGet_spec h hi history shuffleMains shuffleBackups
        rw [hcheck]
        refine ⟨hshuffled, ?_⟩
        rintro k ⟨⟩
        refine ⟨hj, hlive.imp And.left ?_⟩
        rintro ⟨rfl, hdead, hnone⟩
        exact ⟨hzero, Or.inr ⟨j, ⟨x, hlt, hdraw⟩, hdead,
          Or.inr (hnone (halive.groupIdOf_ne hdead).1)⟩⟩

/-- With some number, whatever was shuffled before, `another_strategy` of a stranded policy is
undefined or hands out a fused server. -/
theorem Stranded.exists_rand (h : PolicyInv clean p reg breaker) (hbad : p.Stranded reg history) :
    ∃ rand, ∀ p₁, Shuffled p p₁ → ∀ shuffleMains shuffleBackups p' addr,
      p₁.anotherWeighted history rand shuffleMains shuffleBackups = some (p', addr) →
        ∃ i, addr = some i ∧ p.gov.living i = false := by
  obtain ⟨hzero, hnull | ⟨j, ⟨x, hlt, hdraw⟩, hdead, hspent⟩⟩ := hbad
  · refine ⟨0, fun p₁ hs shuffleMains shuffleBackups p' addr hanother => ?_⟩
    rw [anotherWeighted_eq (h.shuffled hs) history 0 _ _ (hs.availableWeight_eq ▸ hzero),
      hs.aliveServers_eq, hnull] at hanother
    cases hanother
  · obtain ⟨hj, halive⟩ := mem_aliveServers h (drawAt_or_mem (fun _ hk => hk) hdraw)
    have hnone := hspent.resolve_left (halive.groupIdOf_ne hdead).2
    have hx : (x : Int).tmod p.availableWeight.toInt = x := by
      rcases Int.natAbs_eq p.availableWeight.toInt with heq | heq
      · rw [heq]
        exact Int.tmod_eq_of_lt (Int.natCast_nonneg x) (by omega)
      · rw [heq, Int.tmod_neg]
        exact Int.tmod_eq_of_lt (Int.natCast_nonneg x) (by omega)
    refine ⟨x, fun p₁ hs shuffleMains shuffleBackups p' addr hanother => ?_⟩
    have h₁ := h.shuffled hs
    rw [anotherWeighted_eq h₁ history x _ _ (hs.availableWeight_eq ▸ hzero), hs.aliveServers_eq,
      hs.availableWeight_eq, hs.drawAt_eq, hx, hdraw] at hanother
    obtain ⟨p₂, k, hcheck, -, -, hlive⟩ :=
      checkAndGet_spec h₁ hj history shuffleMains shuffleBackups
    obtain ⟨rfl, rfl⟩ := Prod.mk.inj (Option.some.inj (hcheck.symm.trans hanother))
    rw [hs.gov_eq] at hlive
    refine ⟨k, rfl, ?_⟩
    rcases hlive with ⟨-, rfl | havailable⟩ | ⟨rfl, hfused, -⟩
    · exact hdead
    · unfold Available groupIdOf at havailable
      rw [hs.gov_eq, hs.params_eq] at havailable
      exact absurd havailable (hnone k)
    · exact hfused

theorem firstManual_spec (hne : p.gov.servers ≠ []) (idx : UInt32) :
    ∃ i, p.firstManual idx = some i ∧ i ∈ p.gov.servers := by
  have hpos := List.length_pos_iff.mpr hne
  have hlt : (if p.gov.servers.length ≤ idx.toNat then idx.toNat % p.gov.servers.length
      else idx.toNat) < p.gov.servers.length := by
    split
    · exact Nat.mod_lt _ hpos
    · omega
  exact ⟨_, List.getElem?_eq_getElem hlt, List.getElem_mem hlt⟩

/-! ### The selection -/

section Select

variable (stdHash : String → UInt64) (uri : ParsedURI) (draws : Draws)

/-- `first_strategy` finds a registered server or none; the weighted random policy draws one. -/
theorem firstStrategy_spec (h : PolicyInv clean p reg breaker) (hne : p.gov.servers ≠ [])
    (hhistory : p.strategy = .weightedRandom → ∀ j ∈ history, p.gov.heap j ≠ none) :
    ∃ p' first, p.firstStrategy stdHash uri history draws = some (p', first) ∧ Shuffled p p' ∧
      (∀ i, first = some i → i ∈ reg) ∧
      (p.strategy = .weightedRandom → p' = p ∧ ∃ i, first = some i ∧ p.FirstDraw history i) := by
  unfold firstStrategy
  cases hstrategy : p.strategy with
  | weightedRandom =>
      obtain ⟨i, hfirst, hi, hdraw⟩ := firstWeighted_spec h hne (hhistory hstrategy) draws.first
      refine ⟨p, some i, by simp [hfirst], .refl p, ?_, fun _ => ⟨rfl, i, rfl, hdraw⟩⟩
      rintro j ⟨⟩
      exact h.mem_of_servers hi
  | consistentHash route =>
      obtain ⟨p', addr, hhash, hshuffled, hmem⟩ := consistentHashWithGroup_spec h
        ((route.getD (defaultConsistentHash stdHash)).ofURI uri) (draws.shuffle 0) (draws.shuffle 1)
      exact ⟨p', addr, hhash, hshuffled, fun i hi => (hmem i hi).1, by simp⟩
  | manual manualSelect tryAnotherSelect =>
      obtain ⟨i, hfirst, hi⟩ := firstManual_spec hne (manualSelect.ofURI uri)
      refine ⟨p, some i, by simp [hfirst], .refl p, ?_, by simp⟩
      rintro j ⟨⟩
      exact h.mem_of_servers hi

theorem consistentHashWithGroup_outcome (h : PolicyInv clean p reg breaker) (hash : UInt32)
    (shuffleMains shuffleBackups : Shuffle) (bad : Prop) :
    Outcome p reg bad (p.consistentHashWithGroup hash shuffleMains shuffleBackups) := by
  obtain ⟨p', addr, hhash, hshuffled, hmem⟩ :=
    consistentHashWithGroup_spec h hash shuffleMains shuffleBackups
  rw [hhash]
  exact ⟨hshuffled, fun i hi => ⟨(hmem i hi).1, Or.inl (hmem i hi).2⟩⟩

theorem anotherStrategy_outcome (h : PolicyInv clean p reg breaker) (history : List Nat) :
    Outcome p reg (p.strategy = .weightedRandom ∧ p.Stranded reg history)
      (p.anotherStrategy stdHash uri history draws) := by
  unfold anotherStrategy
  cases hstrategy : p.strategy with
  | weightedRandom =>
      exact (anotherWeighted_outcome h history _ _ _).mono fun hbad => ⟨rfl, hbad⟩
  | consistentHash route => exact consistentHashWithGroup_outcome h _ _ _ _
  | manual manualSelect tryAnotherSelect => exact consistentHashWithGroup_outcome h _ _ _ _

/-- `another_strategy` in the course of a selection, when `first_strategy` found nothing. -/
theorem Outcome.another (h : PolicyInv clean p reg breaker) (hs : Shuffled p p')
    (htry : p'.gov.tryAnother = true)
    (hfirst : p.strategy = .weightedRandom → ∃ i, p.FirstDraw history i ∧ p.Spent reg history i) :
    Outcome p reg (p.Stray reg history) (p'.anotherStrategy stdHash uri history draws) := by
  refine ((anotherStrategy_outcome stdHash uri draws (h.shuffled hs) history).after hs).mono ?_
  rintro ⟨hweighted, hstranded⟩
  have hweighted := hs.strategy_eq.symm.trans hweighted
  exact ⟨hweighted, Or.inr ⟨hs.gov_eq ▸ htry, hfirst hweighted, hs.stranded_iff.mp hstranded⟩⟩

theorem selectMain_outcome (h : PolicyInv clean p reg breaker) (hne : p.gov.servers ≠ [])
    (history : List Nat) :
    Outcome p reg (p.Stray reg history) (p.selectMain stdHash uri history draws) := by
  unfold selectMain
  by_cases hfreed : p.strategy = .weightedRandom ∧ ∃ j ∈ history, p.gov.heap j = none
  · have hnone : p.firstStrategy stdHash uri history draws = none := by
      simp [firstStrategy, hfreed.1, firstWeighted, selectHistoryWeight_eq_none hfreed.2]
    rw [hnone]
    exact ⟨hfreed.1, Or.inl hfreed.2⟩
  · obtain ⟨p₁, first, hfirst, hshuffled₁, hmem, hweighted⟩ := firstStrategy_spec stdHash uri draws
      h hne fun hweighted j hj hnone => hfreed ⟨hweighted, j, hj, hnone⟩
    have h₁ := h.shuffled hshuffled₁
    simp only [hfirst, Option.bind_eq_bind, Option.bind_some]
    cases first with
    | none =>
        simp only
        split
        · rename_i htry
          refine .another stdHash uri draws h hshuffled₁ htry fun hstrategy => ?_
          obtain ⟨-, i, hnull, -⟩ := hweighted hstrategy
          cases hnull
        · exact ⟨hshuffled₁, by simp⟩
    | some i =>
        have hi := hmem i rfl
        obtain ⟨a, ha⟩ := h₁.heap_of_mem hi
        have hliving : p.gov.living i = decide (a.failCount < a.maxFails) := by
          simp [Governance.living, ← hshuffled₁.gov_eq, ha]
        simp only [ha, Option.bind_some]
        split
        · rename_i hfused
          obtain ⟨p₂, addr, hcheck, hshuffled₂, hsome, hnone⟩ := checkAndGetAvailable_spec h₁ hi
            history (draws.shuffle 2) (draws.shuffle 3)
          simp only [hcheck, Option.bind_some]
          split
          · rename_i hnull
            refine .another stdHash uri draws h (hshuffled₁.trans hshuffled₂) hnull.2
              fun hstrategy => ?_
            obtain ⟨rfl, j, hj, hdraw⟩ := hweighted hstrategy
            cases hj
            exact ⟨i, hdraw, by simp [hliving, UInt32.not_lt.mpr hfused],
              hnone (Option.isNone_iff_eq_none.mp hnull.1)⟩
          · refine ⟨hshuffled₁.trans hshuffled₂, fun j hj => ?_⟩
            obtain ⟨-, hreg, -, hlive, -⟩ := hsome j hj
            rw [← hshuffled₁.gov_eq]
            exact ⟨hreg, Or.inl hlive⟩
        · rename_i hfew
          refine ⟨hshuffled₁, ?_⟩
          rintro j ⟨⟩
          exact ⟨hi, Or.inl (by simp [hliving, UInt32.not_le.mp hfew])⟩

/-- The selection is defined, shuffles the groups and hands out a registered server that lives,
unless the weighted random policy goes wrong. -/
theorem selectAddr_outcome (h : PolicyInv clean p reg breaker) (hne : p.gov.servers ≠ [])
    (history : List Nat) :
    Outcome p reg (p.Stray reg history) (p.selectAddr stdHash uri history draws) := by
  have hmain := selectMain_outcome stdHash uri draws h hne history
  unfold selectAddr
  cases hselect : p.selectMain stdHash uri history draws with
  | none =>
      rw [hselect] at hmain
      exact hmain
  | some r =>
      obtain ⟨p₁, addr⟩ := r
      rw [hselect] at hmain
      simp only [Option.bind_eq_bind, Option.bind_some]
      cases addr with
      | some i => exact hmain
      | none =>
          obtain ⟨p₂, backup, hbackup, hshuffled, hsome⟩ :=
            getOneBackup_spec (h.shuffled hmain.1) (-1) history (draws.shuffle 6)
          simp only [hbackup]
          refine ⟨hmain.1.trans hshuffled, fun i hi => ?_⟩
          rw [← hmain.1.gov_eq]
          exact ⟨(hsome i hi).1, Or.inl (hsome i hi).2.2.1⟩

/-- `first_strategy` draws a spent server, and `another_strategy` comes next. -/
theorem selectMain_eq_another (h : PolicyInv clean p reg breaker)
    (hstrategy : p.strategy = .weightedRandom) (htry : p.gov.tryAnother = true)
    (hfirst : p.firstWeighted history draws.first = some i) (hi : i ∈ reg)
    (hspent : p.Spent reg history i) :
    ∃ p', Shuffled p p' ∧
      p.selectMain stdHash uri history draws = p'.anotherStrategy stdHash uri history draws := by
  obtain ⟨hdead, hnone⟩ := hspent
  obtain ⟨a, ha⟩ := h.heap_of_mem hi
  have hfused : a.maxFails ≤ a.failCount := by
    simpa [Governance.living, ha] using hdead
  obtain ⟨p', addr, hcheck, hshuffled, hsome, -⟩ := checkAndGetAvailable_spec h hi history
    (draws.shuffle 2) (draws.shuffle 3)
  have hnull : addr = none := by
    refine Option.eq_none_iff_forall_ne_some.mpr fun j hj => ?_
    obtain ⟨hgroup, havailable⟩ := hsome j hj
    exact hnone.resolve_left hgroup j havailable
  refine ⟨p', hshuffled, ?_⟩
  unfold selectMain firstStrategy
  rw [hstrategy]
  simp only [hfirst, ha, Option.bind_eq_bind, Option.bind_some, Option.pure_def, hfused, if_true,
    hcheck, hnull, Option.isNone_none, hshuffled.gov_eq, htry, and_self]

/-- When the weighted random policy may go wrong, it does so with some numbers. -/
theorem Stray.exists_draws (h : PolicyInv clean p reg breaker) (hbad : p.Stray reg history) :
    ∃ draws, ∀ p' addr, p.selectAddr stdHash uri history draws = some (p', addr) →
      ∃ i, addr = some i ∧ p.gov.living i = false := by
  obtain ⟨hstrategy, hbad⟩ := hbad
  by_cases hfreed : ∃ j ∈ history, p.gov.heap j = none
  · refine ⟨.still 0 0, fun p' addr hselect => ?_⟩
    have hnone : p.firstStrategy stdHash uri history (.still 0 0) = none := by
      simp [firstStrategy, hstrategy, firstWeighted, selectHistoryWeight_eq_none hfreed]
    unfold selectAddr selectMain at hselect
    rw [hnone] at hselect
    cases hselect
  · obtain ⟨htry, ⟨i, hdraw, hspent⟩, hstranded⟩ := hbad.resolve_left hfreed
    have hhistory : ∀ j ∈ history, p.gov.heap j ≠ none := fun j hj hnone => hfreed ⟨j, hj, hnone⟩
    have hi : i ∈ reg := by
      obtain ⟨x, -, hx⟩ := hdraw
      exact h.mem_of_servers (drawAt_or_mem (fun j hj => List.mem_of_mem_filter hj) hx)
    obtain ⟨first, hfirst⟩ := hdraw.exists_rand h hhistory
    obtain ⟨another, hanother⟩ := hstranded.exists_rand h
    refine ⟨.still first another, fun p' addr hselect => ?_⟩
    obtain ⟨p₁, hshuffled, hmain⟩ := selectMain_eq_another stdHash uri (.still first another) h
      hstrategy htry hfirst hi hspent
    obtain ⟨⟨p₂, found⟩, hfound, hselect⟩ := Option.bind_eq_some_iff.mp hselect
    rw [hmain, anotherStrategy, hshuffled.strategy_eq, hstrategy] at hfound
    obtain ⟨k, rfl, hdead⟩ := hanother p₁ hshuffled _ _ p₂ found hfound
    cases hselect
    exact ⟨k, rfl, hdead⟩

end Select

end UPSGroupPolicy

end Workflow.Nameservice
