/-
Module: Workflow.Proofs.ConsistentHash
Layer: Proofs
Purpose: The consistent hash over servers without a group. The virtual nodes of the living servers
  lie on a circle of 2 ^ 32 places, and the server of the node closest to the hash is handed out, the
  first one of equally close nodes. Servers that leave the circle change nothing for the others, and
  servers that come change the choice only to themselves.
Trusted boundary: none
Main exports: circular, OnCircle, chosen, consistentHashWithGroup_eq, Thins, Sets, ServerChange,
  consistentHash_stable
-/
import Workflow.Proofs.UpstreamRuns
import Workflow.Lib.FirstBest

namespace Workflow.Nameservice

open Workflow.Lib

/-! ### The circle -/

/-- The distance of two places on the circle: how far the closest representative of their
difference is from zero. -/
def circular (a b : UInt32) : Nat :=
  (Int.bmod ((a.toNat : Int) - b.toNat) (2 ^ 32)).natAbs

theorem uint32_toNat_min (a b : UInt32) : (min a b).toNat = min a.toNat b.toNat := by
  show (if a ≤ b then a else b).toNat = _
  split
  · rename_i hle
    rw [UInt32.le_iff_toNat_le] at hle
    exact (Nat.min_eq_left hle).symm
  · rename_i hle
    rw [UInt32.le_iff_toNat_le] at hle
    exact (Nat.min_eq_right (by omega)).symm

/-- The smaller of the two wrapping subtractions is the distance. -/
theorem toNat_min_sub (a b : UInt32) : (min (a - b) (b - a)).toNat = circular a b := by
  have ha := a.toNat_lt
  have hb := b.toNat_lt
  rw [uint32_toNat_min, UInt32.toNat_sub, UInt32.toNat_sub, circular, Int.bmod_def]
  split <;> omega

/-- No two places are further apart than half the circle. -/
theorem circular_le (a b : UInt32) : circular a b ≤ 2 ^ 31 := by
  rw [circular, Int.bmod_def]
  split <;> omega

namespace UPSGroupPolicy

variable {p p' : UPSGroupPolicy} {i : Nat}

/-- The servers that `first_strategy` may take. -/
def livingServers (p : UPSGroupPolicy) : List Nat :=
  p.gov.servers.filter p.gov.living

/-- The virtual nodes of some servers, in the order of the loops. -/
def virtualNodes (p : UPSGroupPolicy) (servers : List Nat) : List (Nat × UInt32) :=
  servers.flatMap fun i => (p.params i).consistentHash.map fun node => (i, node)

/-- The server of the first of the closest virtual nodes. -/
def chosen (p : UPSGroupPolicy) (hash : UInt32) : Option Nat :=
  ((p.virtualNodes p.livingServers).argmin fun node => circular hash node.2).map Prod.fst

/-- What is registered are server objects without a group. -/
structure Ungrouped (p : UPSGroupPolicy) : Prop where
  heap : ∀ i ∈ p.gov.servers, ∃ a, p.gov.heap i = some a
  ungrouped : ∀ i ∈ p.gov.servers, p.groupIdOf i < 0

/-! ### The loops -/

/-- The distances, in the order of the loops. -/
def keepNearer (hash : UInt32) : Nat × Option (Nat × UInt32) → Nat × UInt32 →
    Nat × Option (Nat × UInt32) :=
  keepLess fun node => circular hash node.2

/-- What a loop over the virtual nodes says of the closest server. -/
def AgreeOn (best : UInt32 × Option Nat) (best' : Nat × Option (Nat × UInt32)) : Prop :=
  best.1.toNat = best'.1 ∧ best.2 = best'.2.map Prod.fst

theorem nearer_agree {hash : UInt32} {best : UInt32 × Option Nat}
    {best' : Nat × Option (Nat × UInt32)} (h : AgreeOn best best') (i : Nat) (node : UInt32) :
    AgreeOn (nearer hash i best node) (keepNearer hash best' (i, node)) := by
  have hiff : min (hash - node) (node - hash) < best.1 ↔ circular hash node < best'.1 := by
    rw [UInt32.lt_iff_toNat_lt, toNat_min_sub, h.1]
  simp only [nearer, keepNearer, keepLess, hiff]
  split
  · exact ⟨toNat_min_sub hash node, rfl⟩
  · exact h

theorem foldl_nearer_agree {hash : UInt32} (i : Nat) (nodes : List UInt32)
    {best : UInt32 × Option Nat} {best' : Nat × Option (Nat × UInt32)} (h : AgreeOn best best') :
    AgreeOn (nodes.foldl (nearer hash i) best)
      ((nodes.map fun node => (i, node)).foldl (keepNearer hash) best') := by
  induction nodes generalizing best best' with
  | nil => exact h
  | cons node nodes ih => exact ih (nearer_agree h i node)

theorem isAlive_eq {a : EndpointAddress} (ha : p.gov.heap i = some a)
    (hgroup : p.groupIdOf i < 0) : p.isAlive i = some (p.gov.living i) := by
  have hnot : ¬ 0 ≤ p.groupIdOf i := Int32.not_le.mpr hgroup
  simp [isAlive, Governance.living, ha, hgroup, hnot]

/-- The loop over the servers looks at the virtual nodes of the living ones. -/
theorem nearest_agree {hash : UInt32} {servers : List Nat}
    (hservers : ∀ i ∈ servers, (∃ a, p.gov.heap i = some a) ∧ p.groupIdOf i < 0)
    {best : UInt32 × Option Nat} {best' : Nat × Option (Nat × UInt32)} (h : AgreeOn best best') :
    ∃ last, p.nearest hash best servers = some last ∧
      AgreeOn last ((p.virtualNodes (servers.filter p.gov.living)).foldl (keepNearer hash) best') := by
  induction servers generalizing best best' with
  | nil => exact ⟨best, rfl, h⟩
  | cons i rest ih =>
      obtain ⟨⟨⟨a, ha⟩, hgroup⟩, hrest⟩ := List.forall_mem_cons.mp hservers
      unfold nearest
      simp only [isAlive_eq ha hgroup, Option.bind_eq_bind, Option.bind_some]
      cases hlive : p.gov.living i with
      | false =>
          rw [List.filter_cons_of_neg (by simp [hlive])]
          exact ih hrest h
      | true =>
          rw [List.filter_cons_of_pos hlive, virtualNodes, List.flatMap_cons, List.foldl_append]
          exact ih hrest (foldl_nearer_agree i _ h)

/-- The function hands out the server of the first of the closest virtual nodes of the living
servers. -/
theorem consistentHashWithGroup_eq (h : p.Ungrouped) (hash : UInt32)
    (shuffleMains shuffleBackups : Shuffle) :
    p.consistentHashWithGroup hash shuffleMains shuffleBackups = some (p, p.chosen hash) := by
  have hstart : AgreeOn (-1, none) (2 ^ 32 - 1, none) := ⟨rfl, rfl⟩
  obtain ⟨last, hlast, -, hagree⟩ := nearest_agree
    (fun i hi => ⟨h.heap i hi, h.ungrouped i hi⟩) hstart
  have hfold := foldl_keepLess (p.virtualNodes p.livingServers)
    (fun node _ => (show circular hash node.2 < 2 ^ 32 - 1 by
      have hle := circular_le hash node.2
      omega))
  have hchosen : last.2 = p.chosen hash := by
    rw [hagree, chosen]
    unfold keepNearer
    rw [show p.gov.servers.filter p.gov.living = p.livingServers from rfl, hfold]
    cases (p.virtualNodes p.livingServers).argmin fun node => circular hash node.2 <;> rfl
  unfold consistentHashWithGroup
  simp only [hlast, Option.bind_eq_bind, Option.bind_some, hchosen]
  cases hsome : p.chosen hash with
  | none => rfl
  | some i =>
      obtain ⟨node, hnode, rfl⟩ := Option.map_eq_some_iff.mp hsome
      have hmem : node.1 ∈ p.gov.servers := by
        obtain ⟨j, hj, hin⟩ := List.mem_flatMap.mp (List.argmin_mem hnode)
        obtain ⟨_, _, rfl⟩ := List.mem_map.mp hin
        exact List.mem_of_mem_filter hj
      obtain ⟨a, ha⟩ := h.heap node.1 hmem
      have hgroup : ¬ 0 ≤ p.groupIdOf node.1 := Int32.not_le.mpr (h.ungrouped node.1 hmem)
      simp [checkAndGet, ha, hgroup]

/-! ### What the chosen server is -/

theorem mem_virtualNodes {servers : List Nat} {node : Nat × UInt32} :
    node ∈ p.virtualNodes servers ↔
      node.1 ∈ servers ∧ node.2 ∈ (p.params node.1).consistentHash := by
  obtain ⟨j, place⟩ := node
  simp [virtualNodes]

/-- A living server one of whose virtual nodes is as close to the hash as any of a living server. -/
def Closest (p : UPSGroupPolicy) (hash : UInt32) (i : Nat) : Prop :=
  i ∈ p.gov.servers ∧ p.gov.living i = true ∧ ∃ node ∈ (p.params i).consistentHash,
    ∀ j ∈ p.gov.servers, p.gov.living j = true → ∀ other ∈ (p.params j).consistentHash,
      circular hash node ≤ circular hash other

/-- What is handed out is closest to the hash. -/
theorem chosen_closest {hash : UInt32} (h : p.chosen hash = some i) : p.Closest hash i := by
  obtain ⟨node, hnode, rfl⟩ := Option.map_eq_some_iff.mp h
  obtain ⟨hlive, hplace⟩ := mem_virtualNodes.mp (List.argmin_mem hnode)
  obtain ⟨hmem, hliving⟩ := List.mem_filter.mp hlive
  refine ⟨hmem, hliving, node.2, hplace, fun j hj hjliving other hother => ?_⟩
  have hin : (j, other) ∈ p.virtualNodes p.livingServers :=
    mem_virtualNodes.mpr ⟨List.mem_filter.mpr ⟨hj, hjliving⟩, hother⟩
  have hleast := List.le_of_mem_argmin hin (Option.mem_def.mpr hnode)
  exact hleast

/-- None is handed out exactly when no server lives. -/
theorem chosen_eq_none_iff (p : UPSGroupPolicy) (hash : UInt32) :
    p.chosen hash = none ↔ ∀ i ∈ p.gov.servers, p.gov.living i = false := by
  rw [chosen, Option.map_eq_none_iff, List.argmin_eq_none, List.eq_nil_iff_forall_not_mem]
  constructor
  · intro hnone i hi
    by_contra hlive
    obtain ⟨node, hnode⟩ := List.exists_mem_of_ne_nil _ (p.params i).consistentHash_ne_nil
    exact hnone (i, node) (mem_virtualNodes.mpr
      ⟨List.mem_filter.mpr ⟨hi, by simpa using hlive⟩, hnode⟩)
  · intro hdead node hnode
    obtain ⟨hlive, -⟩ := mem_virtualNodes.mp hnode
    obtain ⟨hmem, hliving⟩ := List.mem_filter.mp hlive
    rw [hdead _ hmem] at hliving
    exact Bool.false_ne_true hliving

/-! ### Fewer living servers -/

/-- The living servers of `p'` are those of `p` that satisfy `q`, with the same virtual nodes. -/
structure Thins (q : Nat → Bool) (p p' : UPSGroupPolicy) : Prop where
  living : p'.livingServers = p.livingServers.filter q
  params : ∀ i ∈ p'.livingServers, p'.params i = p.params i

theorem Thins.virtualNodes {q : Nat → Bool} (h : Thins q p p') :
    p'.virtualNodes p'.livingServers =
      (p.virtualNodes p.livingServers).filter fun node => q node.1 := by
  have hsame : p'.virtualNodes p'.livingServers = p.virtualNodes p'.livingServers := by
    unfold UPSGroupPolicy.virtualNodes
    exact List.flatMap_congr fun i hi => by rw [h.params i hi]
  rw [hsame, h.living]
  unfold UPSGroupPolicy.virtualNodes
  generalize p.livingServers = servers
  induction servers with
  | nil => rfl
  | cons i rest ih =>
      rw [List.flatMap_cons, List.filter_append, ← ih]
      cases hq : q i with
      | true =>
          have hall : ((p.params i).consistentHash.map fun node => (i, node)).filter
              (fun node => q node.1) = (p.params i).consistentHash.map fun node => (i, node) := by
            rw [List.filter_eq_self]
            intro node hnode
            obtain ⟨_, _, rfl⟩ := List.mem_map.mp hnode
            exact hq
          rw [hall, List.filter_cons_of_pos hq, List.flatMap_cons]
      | false =>
          have hnone : ((p.params i).consistentHash.map fun node => (i, node)).filter
              (fun node => q node.1) = [] := by
            rw [List.filter_eq_nil_iff]
            intro node hnode
            obtain ⟨_, _, rfl⟩ := List.mem_map.mp hnode
            simp [hq]
          rw [hnone, List.filter_cons_of_neg (by simp [hq]), List.nil_append]

/-- The choice differs only where the server that was chosen is no longer there. -/
theorem Thins.chosen {q : Nat → Bool} (h : Thins q p p') (hash : UInt32) :
    p'.chosen hash = p.chosen hash ∨ ∃ i, p.chosen hash = some i ∧ q i = false := by
  unfold UPSGroupPolicy.chosen
  rw [h.virtualNodes]
  rcases argmin_filter_or (f := fun node => circular hash node.2) (fun node => q node.1)
    (p.virtualNodes p.livingServers) with hsame | ⟨node, hnode, hgone⟩
  · rw [hsame]
    exact .inl rfl
  · rw [hnode]
    exact .inr ⟨node.1, rfl, hgone⟩

/-! ### Fusing and recovering -/

/-- The servers of `ids` live now as `b` says; nothing else about the servers has changed. -/
structure Sets (b : Bool) (ids : List Nat) (p p' : UPSGroupPolicy) : Prop where
  servers : p'.gov.servers = p.gov.servers
  params : p'.params = p.params
  heap : ∀ i ∈ p.gov.servers, (∃ a, p.gov.heap i = some a) → ∃ a, p'.gov.heap i = some a
  living : ∀ i ∈ p.gov.servers, p'.gov.living i = if i ∈ ids then b else p.gov.living i

theorem Sets.refl (b : Bool) (p : UPSGroupPolicy) : Sets b [] p p :=
  ⟨rfl, rfl, fun _ _ h => h, fun _ _ => by simp⟩

theorem Sets.trans {b : Bool} {ids ids' : List Nat} {p'' : UPSGroupPolicy} (h : Sets b ids p p')
    (h' : Sets b ids' p' p'') : Sets b (ids ++ ids') p p'' := by
  refine ⟨h'.servers.trans h.servers, h'.params.trans h.params, fun i hi ha => ?_, fun i hi => ?_⟩
  · exact h'.heap i (h.servers ▸ hi) (h.heap i hi ha)
  · rw [h'.living i (h.servers ▸ hi), h.living i hi]
    by_cases hold : i ∈ ids <;> by_cases hnew : i ∈ ids' <;> simp [hold, hnew]

theorem Sets.ungrouped {b : Bool} {ids : List Nat} (h : Sets b ids p p') (hp : p.Ungrouped) :
    p'.Ungrouped := by
  refine ⟨fun i hi => ?_, fun i hi => ?_⟩
  · rw [h.servers] at hi
    exact h.heap i hi (hp.heap i hi)
  · rw [h.servers] at hi
    rw [groupIdOf, h.params]
    exact hp.ungrouped i hi

/-- Fused servers leave the circle. -/
theorem Sets.thins {ids : List Nat} (h : Sets false ids p p') :
    Thins (fun i => i ∉ ids) p p' := by
  refine ⟨?_, fun i _ => by rw [h.params]⟩
  unfold livingServers
  rw [h.servers, List.filter_filter]
  refine List.filter_congr fun i hi => ?_
  rw [h.living i hi]
  by_cases hin : i ∈ ids <;> simp [hin]

/-- Recovered servers come to the circle, if they were not there. -/
theorem Sets.thickens {ids : List Nat} (h : Sets true ids p p') :
    Thins (fun i => i ∉ ids ∨ p.gov.living i = true) p' p := by
  refine ⟨?_, fun i _ => by rw [h.params]⟩
  unfold livingServers
  rw [h.servers, List.filter_filter]
  refine List.filter_congr fun i hi => ?_
  rw [h.living i hi]
  by_cases hin : i ∈ ids <;> simp [hin]

/-- Writing to one server object, with whatever hooks. -/
theorem Sets.of_update {a : EndpointAddress} {b : Bool} (hservers : p'.gov.servers = p.gov.servers)
    (hparams : p'.params = p.params)
    (hheap : p'.gov.heap = Function.update p.gov.heap i (some a))
    (hb : decide (a.failCount < a.maxFails) = b) : Sets b [i] p p' := by
  refine ⟨hservers, hparams, fun j _ hj => ?_, fun j _ => ?_⟩
  · rcases eq_or_ne j i with rfl | hne
    · exact ⟨a, by rw [hheap, Function.update_self]⟩
    · rwa [hheap, Function.update_of_ne hne]
  · rw [Governance.living_of_update hheap, hb]
    rcases eq_or_ne j i with rfl | hne
    · simp
    · simp [hne]

theorem foldlM_sets {b : Bool} {f : UPSGroupPolicy → Nat → Option UPSGroupPolicy}
    (hf : ∀ {q q' : UPSGroupPolicy} {i : Nat}, f q i = some q' → Sets b [i] q q') {ids : List Nat}
    (h : ids.foldlM f p = some p') : Sets b ids p p' := by
  induction ids generalizing p with
  | nil =>
      obtain rfl := Option.some.inj h
      exact .refl b _
  | cons i ids ih =>
      rw [List.foldlM_cons] at h
      obtain ⟨p₁, hfirst, hrest⟩ := Option.bind_eq_some_iff.mp h
      exact (hf hfirst).trans (ih hrest)

theorem recoverServerFromBreaker_sets (h : p.recoverServerFromBreaker i = some p') :
    Sets true [i] p p' := by
  rw [recoverServerFromBreaker_eq] at h
  obtain ⟨g, hg, rfl⟩ := Option.map_eq_some_iff.mp h
  obtain ⟨g₁, hmodify, -⟩ := Option.bind_eq_some_iff.mp hg
  obtain ⟨a, ha, -⟩ := Governance.modify_eq_some hmodify
  refine .of_update (Governance.recoverServerFromBreaker_sameRefs hg).servers ?_
    (Governance.recoverServerFromBreaker_heap ha hg) (decide_eq_true a.maxFails_pos)
  split
  · rw [recoverOneServer_eq]
  · rfl

/-- A server with as many failures as it may have is fused, if it was not. -/
theorem fuseServerToBreaker_sets {now : Int} {a : EndpointAddress} (ha : p.gov.heap i = some a)
    (hfused : ¬ a.failCount < a.maxFails) (h : fuseServerToBreaker now p i = some p') :
    Sets false [i] p p' := by
  rw [fuseServerToBreaker_eq] at h
  obtain ⟨g, hg, rfl⟩ := Option.map_eq_some_iff.mp h
  obtain ⟨a', hheap, hfail, hmax⟩ := Governance.fuseServerToBreaker_heap ha hg
  refine .of_update (Governance.fuseServerToBreaker_sameRefs hg).servers ?_ hheap
    (decide_eq_false (by rwa [hfail, hmax]))
  split
  · rw [fuseOneServer_eq]
  · rfl

/-- A write and a change that follows it, to the same server. -/
theorem Sets.after_put {a : EndpointAddress} {b : Bool}
    (h : Sets b [i] { p with gov := p.gov.put i a } p') : Sets b [i] p p' := by
  refine ⟨h.servers, h.params, fun j hj ha => h.heap j hj ?_, fun j hj => ?_⟩
  · rcases eq_or_ne j i with rfl | hne
    · exact ⟨a, by simp⟩
    · simpa [hne] using ha
  · rw [h.living j hj]
    rcases eq_or_ne j i with rfl | hne
    · simp
    · simp [hne, Governance.living]

theorem disableOne_sets {now : Int} (h : disableOne now p i = some p') : Sets false [i] p p' := by
  obtain ⟨g, hmodify, h⟩ := Option.bind_eq_some_iff.mp h
  obtain ⟨a, ha, rfl⟩ := Governance.modify_eq_some hmodify
  exact (fuseServerToBreaker_sets (p := { p with gov := p.gov.put i { a with
    failCount := a.maxFails } }) (Function.update_self ..) (by simp) h).after_put

/-- A failure that reaches the limit, of a server that is still referred to elsewhere. -/
def LastFailure (p : UPSGroupPolicy) (i : Nat) : Prop :=
  ∃ a, p.gov.heap i = some a ∧ a.failCount + 1 = a.maxFails ∧ a.ref ≠ 1

theorem sub_one_ne_zero {n : UInt32} (h : n ≠ 1) : ¬ n - 1 = 0 := by
  intro hzero
  have hone : n - 1 + 1 = 0 + 1 := congrArg (· + 1) hzero
  rw [UInt32.sub_add_cancel, UInt32.zero_add] at hone
  exact h hone

theorem failed_sets {now : Int} (hlast : p.LastFailure i) (h : failed now p i = some p') :
    Sets false [i] p p' := by
  obtain ⟨a, ha, hmax, href⟩ := hlast
  unfold failed at h
  simp only [ha, Option.bind_eq_bind, Option.bind_some, sub_one_ne_zero href, if_false, hmax,
    if_true, Governance.modify_of_heap ha] at h
  exact (fuseServerToBreaker_sets (p := { p with gov := p.gov.put i { a with
    ref := a.ref - 1, failCount := a.maxFails } }) (Function.update_self ..) (by simp) h).after_put

/-- A server that is registered and selected is referred to more than once. -/
def Selected (p : UPSGroupPolicy) (i : Nat) : Prop :=
  i ∈ p.gov.servers → ∀ a, p.gov.heap i = some a → a.ref ≠ 1

theorem success_sets (hselected : p.Selected i) (h : p.success i = some p') :
    Sets true [i] p p' := by
  obtain ⟨p₁, hrecover, h⟩ := Option.bind_eq_some_iff.mp h
  obtain ⟨g, hunref, h⟩ := Option.bind_eq_some_iff.mp h
  cases h
  have hset := recoverServerFromBreaker_sets hrecover
  have hsame : p.gov.SameRefs p₁.gov := by
    rw [recoverServerFromBreaker_eq] at hrecover
    obtain ⟨g₁, hg₁, rfl⟩ := Option.map_eq_some_iff.mp hrecover
    exact Governance.recoverServerFromBreaker_sameRefs hg₁
  obtain ⟨a, ha, -⟩ := Option.bind_eq_some_iff.mp hunref
  obtain ⟨hservers, -, -, hheap⟩ := Governance.unref_frame hunref
  rw [Governance.unref_of_heap ha, Option.some.injEq] at hunref
  -- a registered server keeps its object
  have hself : i ∈ p.gov.servers → g = p₁.gov.put i { a with ref := a.ref - 1 } := by
    intro hi
    obtain ⟨old, hold, hview⟩ : ∃ old, p.gov.heap i = some old ∧
        Governance.refView old = Governance.refView a := by
      have hview := hsame.heap i
      rw [ha] at hview
      exact Option.map_eq_some_iff.mp hview.symm
    have href : a.ref = old.ref := (congrArg Prod.snd hview).symm
    rw [← hunref, if_neg (sub_one_ne_zero (href ▸ hselected hi old hold))]
  refine ⟨hservers.trans hset.servers, hset.params, fun j hj hlive => ?_, fun j hj => ?_⟩
  · rcases eq_or_ne j i with rfl | hne
    · exact ⟨_, by rw [hself hj]; exact Function.update_self ..⟩
    · rw [show ({ p₁ with gov := g } : UPSGroupPolicy).gov.heap j = _ from hheap j hne]
      exact hset.heap j hj hlive
  · rw [← hset.living j hj]
    rcases eq_or_ne j i with rfl | hne
    · rw [hself hj]
      simp [Governance.living, ha]
    · simp [Governance.living, hheap j hne]

/-- A server that timed out recovers, any other stays as it is. -/
theorem checkServer_sets {now : Int} (h : checkServer now p i = some p') :
    ∃ ids, Sets true ids p p' := by
  obtain ⟨a, ha, -⟩ := Option.bind_eq_some_iff.mp h
  rw [checkServer_eq now p ha] at h
  obtain ⟨g, hg, rfl⟩ := Option.map_eq_some_iff.mp h
  have hservers := (Governance.checkServer_sameRefs hg).servers
  by_cases hrevive : a.brokenTimeout ≤ now ∧ a.maxFails ≤ a.failCount
  · have hlive : a.maxFails - 1 < a.maxFails :=
      UInt32.not_le.mp (not_le_sub_one a.maxFails_pos)
    refine ⟨[i], .of_update hservers ?_ (Governance.checkServer_heap ha hrevive.2 hrevive.1 hg)
      (decide_eq_true hlive)⟩
    rw [if_pos hrevive, recoverOneServer_eq]
  · have hheap : g.heap = p.gov.heap := by
      unfold Governance.checkServer Governance.reviveServer at hg
      simp only [ha, Option.bind_eq_bind, Option.bind_some] at hg
      split at hg
      · rename_i htime
        rw [if_neg fun hfused => hrevive ⟨htime, hfused⟩] at hg
        have hunlink : p.gov.unlink i = some g := hg
        rw [Governance.unlink_eq_some hunlink]
      · cases hg
        rfl
    rw [if_neg hrevive]
    refine ⟨[], hservers, rfl, fun j _ hj => by rwa [hheap], fun j _ => ?_⟩
    simp [Governance.living, hheap]

theorem checkBreaker_sets {fuel : Nat} {now : Int} (h : checkBreaker fuel now p = some p') :
    ∃ ids, Sets true ids p p' := by
  unfold checkBreaker at h
  split at h
  · obtain rfl := Option.some.inj h
    exact ⟨[], .refl true _⟩
  · obtain ⟨pos, -, h⟩ := Option.bind_eq_some_iff.mp h
    obtain ⟨r, hloop, rfl⟩ := Option.bind_eq_some_iff.mp h
    refine loop_invariant (P := fun s => ∃ ids, Sets true ids p s.1)
      (Q := fun r => ∀ p', r = some p' → ∃ ids, Sets true ids p p') ?_ ?_
      ⟨[], .refl true p⟩ hloop p' rfl
    · rintro ⟨p₁, node, tmp⟩ ⟨p₂, node', tmp'⟩ ⟨ids, hsets⟩ hstep
      unfold checkBreakerStep at hstep
      split at hstep
      · cases hstep
      · rename_i heq
        cases heq
        split at hstep
        · rename_i hcheck
          cases hstep
          obtain ⟨ids', hsets'⟩ := checkServer_sets hcheck
          exact ⟨_, hsets.trans hsets'⟩
        · cases hstep
    · rintro ⟨p₁, node, tmp⟩ r hsets hstep p₂ rfl
      unfold checkBreakerStep at hstep
      split at hstep
      · rename_i heq
        cases heq
        cases hstep
        exact hsets
      · split at hstep <;> cases hstep

/-! ### Removing and adding -/

/-- What retiring servers leaves as it is. -/
structure SameObjects (p p' : UPSGroupPolicy) : Prop where
  servers : p'.gov.servers = p.gov.servers
  serverMap : p'.gov.serverMap = p.gov.serverMap
  heap : p'.gov.heap = p.gov.heap
  params : p'.params = p.params

theorem retireServer_sameObjects (h : p.retireServer i = some p') : SameObjects p p' := by
  obtain ⟨a, ha, -⟩ := Option.bind_eq_some_iff.mp h
  rw [retireServer_eq p ha] at h
  obtain ⟨g, hg, rfl⟩ := Option.map_eq_some_iff.mp h
  have hsame := Governance.retireServer_sameRefs hg
  refine ⟨hsame.servers, hsame.serverMap, Governance.retireServer_heap hg, ?_⟩
  show (if a.failCount < a.maxFails then p.fuseOneServer i else p).params = p.params
  split
  · rw [fuseOneServer_eq]
  · rfl

theorem dropWeight_sameObjects (h : p.dropWeight i = some p') : SameObjects p p' := by
  obtain ⟨a, -, h⟩ := Option.bind_eq_some_iff.mp h
  obtain rfl := Option.some.inj h
  split <;> exact ⟨rfl, rfl, rfl, rfl⟩

theorem foldlM_sameObjects {f : UPSGroupPolicy → Nat → Option UPSGroupPolicy}
    (hf : ∀ {q q' : UPSGroupPolicy} {i : Nat}, f q i = some q' → SameObjects q q')
    {ids : List Nat} (h : ids.foldlM f p = some p') : SameObjects p p' := by
  induction ids generalizing p with
  | nil =>
      obtain rfl := Option.some.inj h
      exact ⟨rfl, rfl, rfl, rfl⟩
  | cons i ids ih =>
      rw [List.foldlM_cons] at h
      obtain ⟨p₁, hfirst, hrest⟩ := Option.bind_eq_some_iff.mp h
      have h₁ := hf hfirst
      have h₂ := ih hrest
      exact ⟨h₂.servers.trans h₁.servers, h₂.serverMap.trans h₁.serverMap,
        h₂.heap.trans h₁.heap, h₂.params.trans h₁.params⟩

theorem foldlM_unref_heap {ids : List Nat} {g g' : Governance}
    (h : ids.foldlM Governance.unref g = some g') :
    g'.servers = g.servers ∧ ∀ j ∉ ids, g'.heap j = g.heap j := by
  induction ids generalizing g with
  | nil =>
      obtain rfl := Option.some.inj h
      exact ⟨rfl, fun _ _ => rfl⟩
  | cons i ids ih =>
      rw [List.foldlM_cons] at h
      obtain ⟨g₁, hfirst, hrest⟩ := Option.bind_eq_some_iff.mp h
      obtain ⟨hservers, -, -, hheap⟩ := Governance.unref_frame hfirst
      obtain ⟨hservers', hheap'⟩ := ih hrest
      refine ⟨hservers'.trans hservers, fun j hj => ?_⟩
      rw [List.mem_cons, not_or] at hj
      rw [hheap' j hj.2, hheap j hj.1]

/-- What `remove_server` does: the servers of the address go, the other ones keep their places and
their objects. -/
theorem removeServer_frame {address : String} {n : Int32}
    (h : p.removeServer address = some (p', n)) :
    p'.gov.servers = (p.gov.servers.filter fun i => ¬ p.gov.addressOf i = some address) ∧
      p'.params = p.params ∧ ∀ j ∉ p.gov.serverMap address, p'.gov.heap j = p.gov.heap j := by
  have hgroups : ∃ p₁, SameObjects p p₁ ∧ p₁.removeFromGroups address = some (p', n) := by
    unfold removeServer removeServerLocked at h
    split at h
    · obtain ⟨p₁, hdrop, h⟩ := Option.bind_eq_some_iff.mp h
      exact ⟨p₁, foldlM_sameObjects dropWeight_sameObjects hdrop, h⟩
    · exact ⟨p, ⟨rfl, rfl, rfl, rfl⟩, h⟩
  obtain ⟨p₁, hsame₁, h⟩ := hgroups
  obtain ⟨p₂, hretire, h⟩ := Option.bind_eq_some_iff.mp h
  obtain ⟨servers, hkept, h⟩ := Option.bind_eq_some_iff.mp h
  obtain ⟨g, hunref, h⟩ := Option.bind_eq_some_iff.mp h
  cases h
  have hsame₂ := foldlM_sameObjects retireServer_sameObjects hretire
  obtain ⟨hservers, hheap⟩ := foldlM_unref_heap hunref
  have haddress : ∀ i, p₂.gov.addressOf i = p.gov.addressOf i := fun i => by
    rw [Governance.addressOf, hsame₂.heap, hsame₁.heap, ← Governance.addressOf]
  refine ⟨?_, hsame₂.params.trans hsame₁.params, fun j hj => ?_⟩
  · rw [hservers, Governance.keepOthers_eq hkept, hsame₂.servers, hsame₁.servers]
    simp only [haddress]
  · rw [hheap j (by rwa [hsame₁.serverMap]), hsame₂.heap, hsame₁.heap]

/-- What `add_server` does: a new server object without failures, at the end of the servers if it is
a main server. -/
theorem addServer_frame {stdHash : String → UInt64} {address : String} {params : AddressParams}
    (h : p.addServer stdHash address params = some p') :
    (p'.gov.servers = p.gov.servers ∨ p'.gov.servers = p.gov.servers ++ [p.gov.fresh]) ∧
      p'.params = Function.update p.params p.gov.fresh (.new stdHash params address) ∧
      p'.gov.heap = Function.update p.gov.heap p.gov.fresh (some (.new address params.maxFails)) := by
  have ha : (p.alloc stdHash address params).gov.heap p.gov.fresh =
      some (.new address params.maxFails) := Function.update_self ..
  obtain ⟨total, -, hadd⟩ := addServerLocked_eq ha
  unfold addServer at h
  rw [hadd, Option.some.injEq] at h
  subst h
  generalize hq : ({ p.alloc stdHash address params with gov := _ } : UPSGroupPolicy) = q
  obtain ⟨hgov, hparams, -, -⟩ := entered_kept q p.gov.fresh
  simp only [hgov, hparams]
  subst hq
  refine ⟨?_, rfl, rfl⟩
  simp only [Governance.recoverOneServer]
  split
  · exact .inr rfl
  · exact .inl rfl

/-! ### Stability -/

/-- How the servers change: by the calls of the user, and by what the breaker finds. -/
inductive ServerChange where
  | removeServer (address : String)
  | disableServer (address : String) (now : Int)
  | failed (i : Nat) (now : Int)
  | addServer (address : String) (params : AddressParams)
  | enableServer (address : String)
  | success (i : Nat)
  | checkBreaker (fuel : Nat) (now : Int)

/-- The policy after the change. -/
def change (stdHash : String → UInt64) (p : UPSGroupPolicy) : ServerChange → Option UPSGroupPolicy
  | .removeServer address => (p.removeServer address).map Prod.fst
  | .disableServer address now => p.disableServer now address
  | .failed i now => failed now p i
  | .addServer address params => p.addServer stdHash address params
  | .enableServer address => p.enableServer address
  | .success i => p.success i
  | .checkBreaker fuel now => checkBreaker fuel now p

/-- The change takes server `i` away. -/
def Takes (p : UPSGroupPolicy) : ServerChange → Nat → Prop
  | .removeServer address, i => p.gov.addressOf i = some address
  | .disableServer address _, i => i ∈ p.gov.serverMap address
  | .failed j _, i => i = j
  | _, _ => False

/-- The change brings server `i`. -/
def Brings (p : UPSGroupPolicy) : ServerChange → Nat → Prop
  | .addServer _ _, i => i = p.gov.fresh
  | .enableServer address, i => i ∈ p.gov.serverMap address
  | .success j, i => i = j
  | .checkBreaker _ _, i => p.gov.living i = false
  | _, _ => False

/-- The change is one of a server that is removed, fused, added without a group, or recovered. -/
def Single (p : UPSGroupPolicy) : ServerChange → Prop
  | .failed i _ => p.LastFailure i
  | .addServer _ params => params.groupId < 0
  | .success i => p.Selected i
  | _ => True

/-- The servers without a group are registered under their addresses, and a new server object is
none of them. -/
structure OnCircle (p : UPSGroupPolicy) : Prop extends p.Ungrouped where
  mapped : ∀ address, ∀ i ∈ p.gov.serverMap address, i ∈ p.gov.servers →
    p.gov.addressOf i = some address
  fresh : p.gov.fresh ∉ p.gov.servers

/-- A removed server leaves the circle. -/
theorem removeServer_thins (hp : p.OnCircle) {address : String} {n : Int32}
    (h : p.removeServer address = some (p', n)) :
    p'.Ungrouped ∧ Thins (fun i => ¬ p.gov.addressOf i = some address) p p' := by
  obtain ⟨hservers, hparams, hheap⟩ := removeServer_frame h
  have hstay : ∀ i ∈ p'.gov.servers, i ∈ p.gov.servers ∧ p'.gov.heap i = p.gov.heap i := by
    intro i hi
    rw [hservers, List.mem_filter, decide_eq_true_eq] at hi
    exact ⟨hi.1, hheap i fun hin => hi.2 (hp.mapped address i hin hi.1)⟩
  refine ⟨⟨fun i hi => ?_, fun i hi => ?_⟩, ?_, fun i _ => by rw [hparams]⟩
  · obtain ⟨hold, hsame⟩ := hstay i hi
    rw [hsame]
    exact hp.heap i hold
  · rw [groupIdOf, hparams]
    exact hp.ungrouped i (hstay i hi).1
  · have hliving : p'.livingServers = p'.gov.servers.filter p.gov.living :=
      List.filter_congr fun i hi => by rw [Governance.living, (hstay i hi).2, ← Governance.living]
    rw [hliving, hservers, livingServers, List.filter_filter, List.filter_filter]
    exact List.filter_congr fun i _ => Bool.and_comm _ _

/-- A new server comes to the circle. -/
theorem addServer_thickens (hp : p.OnCircle) {stdHash : String → UInt64} {address : String}
    {params : AddressParams} (hgroup : params.groupId < 0)
    (h : p.addServer stdHash address params = some p') :
    p'.Ungrouped ∧ Thins (fun i => i ≠ p.gov.fresh) p' p := by
  obtain ⟨hservers, hparams, hheap⟩ := addServer_frame h
  have hne : ∀ i ∈ p.gov.servers, i ≠ p.gov.fresh := fun i hi heq => hp.fresh (heq ▸ hi)
  have hold : ∀ i ∈ p.gov.servers, p'.params i = p.params i := fun i hi => by
    rw [hparams, Function.update_of_ne (hne i hi)]
  have hcases : ∀ i ∈ p'.gov.servers, i ∈ p.gov.servers ∨ i = p.gov.fresh := by
    intro i hi
    rcases hservers with hsame | hmore
    · exact .inl (hsame ▸ hi)
    · rw [hmore] at hi
      simpa using hi
  refine ⟨⟨fun i hi => ?_, fun i hi => ?_⟩, ?_, fun i hi => ?_⟩
  · rcases hcases i hi with hi | rfl
    · rw [hheap, Function.update_of_ne (hne i hi)]
      exact hp.heap i hi
    · exact ⟨_, by rw [hheap, Function.update_self]⟩
  · rcases hcases i hi with hi | rfl
    · rw [groupIdOf, hold i hi]
      exact hp.ungrouped i hi
    · rw [groupIdOf, hparams, Function.update_self]
      simp only [UPSAddrParams.new, if_pos hgroup]
      decide
  · -- the old servers live as before, in their order
    have hkept : ∀ servers : List Nat, (∀ i ∈ servers, i ≠ p.gov.fresh) →
        servers.filter p.gov.living =
          (servers.filter p'.gov.living).filter fun i => i ≠ p.gov.fresh := by
      intro servers hother
      rw [List.filter_filter]
      refine List.filter_congr fun i hi => ?_
      have hliving : p'.gov.living i = p.gov.living i := by
        rw [Governance.living, hheap, Function.update_of_ne (hother i hi), ← Governance.living]
      simp [hliving, hother i hi]
    unfold livingServers
    rw [hkept _ hne]
    rcases hservers with hsame | hmore
    · rw [hsame]
    · rw [hmore, List.filter_append, List.filter_append]
      cases hnew : p'.gov.living p.gov.fresh <;> simp [hnew]
  · exact (hold i (List.mem_of_mem_filter hi)).symm

/-- What one change does to the circle: it takes servers away, or it brings some. -/
theorem change_circle (hp : p.OnCircle) {stdHash : String → UInt64} {c : ServerChange}
    (hc : p.Single c) (h : p.change stdHash c = some p') :
    p'.Ungrouped ∧ ((∃ q, Thins q p p' ∧ ∀ i, q i = false → p.Takes c i) ∨
      ∃ q, Thins q p' p ∧ ∀ i, q i = false → p.Brings c i) := by
  have hfuse : ∀ {ids : List Nat}, Sets false ids p p' → (∀ i ∈ ids, p.Takes c i) →
      p'.Ungrouped ∧ ∃ q, Thins q p p' ∧ ∀ i, q i = false → p.Takes c i := fun hsets htakes =>
    ⟨hsets.ungrouped hp.toUngrouped, _, hsets.thins, fun i hi => htakes i (by simpa using hi)⟩
  have hrecover : ∀ {ids : List Nat}, Sets true ids p p' →
      (∀ i ∈ ids, p.gov.living i = false → p.Brings c i) →
      p'.Ungrouped ∧ ∃ q, Thins q p' p ∧ ∀ i, q i = false → p.Brings c i := fun hsets hbrings =>
    ⟨hsets.ungrouped hp.toUngrouped, _, hsets.thickens, fun i hi => by
      simp only [decide_eq_false_iff_not, not_or, not_not, Bool.not_eq_true] at hi
      exact hbrings i hi.1 hi.2⟩
  cases c with
  | removeServer address =>
      obtain ⟨⟨q, n⟩, hremove, rfl⟩ := Option.map_eq_some_iff.mp h
      obtain ⟨hungrouped, hthins⟩ := removeServer_thins hp hremove
      refine ⟨hungrouped, .inl ⟨_, hthins, fun i hi => ?_⟩⟩
      show p.gov.addressOf i = some address
      simpa using hi
  | disableServer address now =>
      exact (hfuse (foldlM_sets disableOne_sets h) fun _ hi => hi).imp_right .inl
  | failed i now =>
      exact (hfuse (failed_sets hc h) fun _ hi => List.mem_singleton.mp hi).imp_right .inl
  | addServer address params =>
      obtain ⟨hungrouped, hthins⟩ := addServer_thickens hp hc h
      refine ⟨hungrouped, .inr ⟨_, hthins, fun i hi => ?_⟩⟩
      show i = p.gov.fresh
      simpa using hi
  | enableServer address =>
      exact (hrecover (foldlM_sets recoverServerFromBreaker_sets h) fun _ hi _ => hi).imp_right .inr
  | success i =>
      exact (hrecover (success_sets hc h) fun _ hi _ => List.mem_singleton.mp hi).imp_right .inr
  | checkBreaker fuel now =>
      obtain ⟨ids, hsets⟩ := checkBreaker_sets h
      exact (hrecover hsets fun _ _ hdead => hdead).imp_right .inr

/-- After a change of the servers the consistent hash hands out the same server, unless the change took
that server away or brought the one that is handed out now. -/
theorem OnCircle.chosen_change (hp : p.OnCircle) (hash : UInt32) {stdHash : String → UInt64}
    {c : ServerChange} (hc : p.Single c) (h : p.change stdHash c = some p') :
    p'.Ungrouped ∧ (p'.chosen hash = p.chosen hash ∨
      (∃ i, p.chosen hash = some i ∧ p.Takes c i) ∨
        ∃ i, p'.chosen hash = some i ∧ p.Brings c i) := by
  obtain ⟨hungrouped, hcircle⟩ := change_circle hp hc h
  refine ⟨hungrouped, ?_⟩
  rcases hcircle with ⟨q, hthins, htakes⟩ | ⟨q, hthins, hbrings⟩
  · rcases hthins.chosen hash with hsame | ⟨i, hi, hgone⟩
    · exact .inl hsame
    · exact .inr (.inl ⟨i, hi, htakes i hgone⟩)
  · rcases hthins.chosen hash with hsame | ⟨i, hi, hnew⟩
    · exact .inl hsame.symm
    · exact .inr (.inr ⟨i, hi, hbrings i hnew⟩)

/-- The consistent hash hands out a living server closest to the hash, NULL exactly when no server
lives. After a change of the servers it hands out the same server, unless the change took that
server away or brought the one that is handed out now. -/
theorem consistentHash_stable (hp : p.OnCircle) (hash : UInt32)
    (shuffleMains shuffleBackups : Shuffle) :
    ∃ addr, p.consistentHashWithGroup hash shuffleMains shuffleBackups = some (p, addr) ∧
      (addr = none ↔ ∀ i ∈ p.gov.servers, p.gov.living i = false) ∧
      (∀ i, addr = some i → p.Closest hash i) ∧
      ∀ stdHash c p', p.Single c → p.change stdHash c = some p' →
        ∃ addr', p'.consistentHashWithGroup hash shuffleMains shuffleBackups = some (p', addr') ∧
          (addr' = addr ∨ (∃ i, addr = some i ∧ p.Takes c i) ∨
            ∃ i, addr' = some i ∧ p.Brings c i) := by
  refine ⟨p.chosen hash, consistentHashWithGroup_eq hp.toUngrouped hash _ _,
    chosen_eq_none_iff p hash, fun i => chosen_closest, fun stdHash c p' hc h => ?_⟩
  obtain ⟨hungrouped, hchange⟩ := hp.chosen_change hash hc h
  exact ⟨p'.chosen hash, consistentHashWithGroup_eq hungrouped hash _ _, hchange⟩

/-- Two servers, one at the place 10 and one at the place 20 of the circle. -/
def twoServers : UPSGroupPolicy :=
  { UPSGroupPolicy.new (.consistentHash none) 10 false with
    gov := { Governance.new 10 false with
      heap := fun i => if i = 0 then some (.new "a" 1) else if i = 1 then some (.new "b" 1) else none
      servers := [0, 1]
      serverMap := fun address => if address = "a" then [0] else if address = "b" then [1] else []
      nalives := 2
      fresh := 2 }
    params := fun i => .new (fun _ => if i = 0 then 10 else 20) ⟨1, 1, 0, -1⟩ "" }

theorem twoServers_onCircle : twoServers.OnCircle := by
  refine ⟨⟨fun i hi => ?_, fun i hi => ?_⟩, fun address i hi _ => ?_, by decide⟩
  · have hcases : i = 0 ∨ i = 1 := by simpa [twoServers] using hi
    rcases hcases with rfl | rfl <;> exact ⟨_, rfl⟩
  · exact show (-1 : Int32) < 0 by decide
  · simp only [twoServers] at hi
    split at hi
    · rename_i ha
      rw [List.mem_singleton.mp hi, ha]
      rfl
    · split at hi
      · rename_i hb
        rw [List.mem_singleton.mp hi, hb]
        rfl
      · cases hi

/-- The hash 12 is closer to the place 10, also after the other server has been removed. -/
theorem consistentHash_stable_two : twoServers.chosen 12 = some 0 ∧
    (twoServers.removeServer "b").isSome ∧
    ∀ p' n, twoServers.removeServer "b" = some (p', n) →
      (p'.consistentHashWithGroup 12 ⟨id, .refl⟩ ⟨id, .refl⟩).map Prod.snd = some (some 0) := by
  have hzero : twoServers.chosen 12 = some 0 := by decide
  refine ⟨hzero, by decide, fun p' n h => ?_⟩
  obtain ⟨addr, haddr, -, -, hstable⟩ :=
    consistentHash_stable twoServers_onCircle 12 ⟨id, .refl⟩ ⟨id, .refl⟩
  have hchosen := consistentHashWithGroup_eq twoServers_onCircle.toUngrouped 12 ⟨id, .refl⟩ ⟨id, .refl⟩
  obtain rfl : addr = some 0 := by
    rw [haddr, hzero] at hchosen
    simpa using hchosen
  obtain ⟨addr', haddr', hcases⟩ := hstable (fun _ => 0) (.removeServer "b") p' trivial
    (by rw [change, h]; rfl)
  rw [haddr', Option.map_some]
  rcases hcases with rfl | ⟨i, hi, htaken⟩ | ⟨i, -, hbrought⟩
  · rfl
  · cases hi
    have hother : ¬ twoServers.gov.addressOf 0 = some "b" := by decide
    exact absurd htaken hother
  · exact hbrought.elim

end UPSGroupPolicy

/-- A run in which no main server was added to a group leaves the main servers on the circle. -/
theorem UPSSystem.Inv.onCircle {strategy : Strategy} {s : UPSSystem} (h : s.Inv strategy true) :
    s.policy.OnCircle := by
  obtain ⟨-, reg, breaker, hpolicy, href, -⟩ := h
  have hreg : ∀ i ∈ s.policy.gov.servers, i ∈ reg ∧ s.policy.isMain i = true := fun i hi =>
    List.mem_filter.mp (hpolicy.main.servers ▸ hi)
  refine ⟨⟨fun i hi => hpolicy.heap_of_mem (hreg i hi).1,
    fun i hi => hpolicy.groups.ungrouped rfl i (hreg i hi).1 (hreg i hi).2⟩,
    fun address i hi _ => (href.mem_serverMap.mp hi).2, fun hin => ?_⟩
  exact Nat.lt_irrefl _ (hpolicy.breaker.old _ (List.mem_toFinset.mpr (hreg _ hin).1))

/-- So the choice is stable in every state of such a run: the closest living server, and after one
change of the servers the same one, unless the change concerns it. -/
theorem UPSSystem.reachable_chosen {stdHash : String → UInt64} {strategy : Strategy}
    {mttrSecond : UInt32} {tryAnother : Bool} {s : UPSSystem}
    (h : Reachable (machine stdHash strategy mttrSecond tryAnother) (StepOk stdHash true) s)
    (hash : UInt32) :
    (∀ i, s.policy.chosen hash = some i → s.policy.Closest hash i) ∧
      ∀ c p', s.policy.Single c → s.policy.change stdHash c = some p' →
        p'.chosen hash = s.policy.chosen hash ∨
          (∃ i, s.policy.chosen hash = some i ∧ s.policy.Takes c i) ∨
            ∃ i, p'.chosen hash = some i ∧ s.policy.Brings c i :=
  ⟨fun _ => UPSGroupPolicy.chosen_closest,
    fun _ _ hc hchange => ((reachable_inv h).onCircle.chosen_change hash hc hchange).2⟩

end Workflow.Nameservice
