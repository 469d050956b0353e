/-
Module: Workflow.Proofs.KafkaRange
Layer: Proofs
Purpose: The range assignor deals out every partition of a subscribed topic once, to a subscriber:
  the subscribers of a topic, in the order of their ids, get consecutive ranges, the larger ones
  first, and it does not matter how the members are listed.
Trusted boundary: none
Main exports: consumersOf, startOf, flatMap_rangeOf, kafkaRangeAssignor_eq, RangeShares, RangeRight,
  rangeRight
-/
import Workflow.Proofs.KafkaAssignor
import Mathlib.Algebra.BigOperators.Group.List.Basic
import Mathlib.Data.List.Count

namespace Workflow.Kafka

open Workflow.Lib

/-! ### The ranges -/

/-- The first partition of the member at place `i` of a topic. -/
def startOf (partitions consumers i : Nat) : Nat :=
  partitions / consumers * i + min i (partitions % consumers)

/-- What a member gets more than nothing: the quotient, and one of the remainder. -/
theorem startOf_succ (partitions consumers i : Nat) :
    startOf partitions consumers (i + 1) = startOf partitions consumers i +
      (partitions / consumers + if i < partitions % consumers then 1 else 0) := by
  unfold startOf
  rw [Nat.mul_succ]
  generalize partitions / consumers = quotient
  generalize partitions % consumers = extra
  split <;> omega

/-- The last range ends with the last partition. -/
theorem startOf_end {partitions consumers : Nat} (h : 0 < consumers) :
    startOf partitions consumers consumers = partitions := by
  have hmod := Nat.mod_lt partitions h
  have hdiv := Nat.div_add_mod partitions consumers
  rw [Nat.mul_comm] at hdiv
  rw [startOf, Nat.min_eq_right (Nat.le_of_lt hmod), hdiv]

/-- A range begins at its start, and one of the first is one longer. -/
theorem rangeOf_eq (partitions consumers i : Nat) :
    rangeOf partitions consumers i = List.range' (startOf partitions consumers i)
      (partitions / consumers + if i < partitions % consumers then 1 else 0) := by
  rw [rangeOf, startOf]
  congr 2
  split <;> split <;> omega

/-- The ranges of the first places meet and cover the first partitions. -/
theorem flatMap_rangeOf (partitions consumers n : Nat) :
    (List.range n).flatMap (rangeOf partitions consumers) =
      List.range (startOf partitions consumers n) := by
  induction n with
  | zero => simp [startOf]
  | succ n ih =>
      have hmeet : ∀ start length,
          List.range start ++ List.range' start length = List.range (start + length) := by
        intro start length
        have happend := List.range'_append_1 (s := 0) (m := start) (n := length)
        rwa [Nat.zero_add, ← List.range_eq_range', ← List.range_eq_range'] at happend
      rw [List.range_succ, List.flatMap_append, ih, List.flatMap_singleton, rangeOf_eq, hmeet,
        startOf_succ]

/-! ### Who subscribes -/

theorem strcmpLe_antisymm {a b : List Byte} (h : StrcmpLe id a b) (h' : StrcmpLe id b a) :
    a = b := by
  have heq : a.map UInt8.toNat = b.map UInt8.toNat := le_antisymm h h'
  exact List.map_injective_iff.mpr (fun x y hxy => UInt8.toNat_inj.mp hxy) heq

instance : Std.Antisymm (StrcmpLe (id : List Byte → List Byte)) :=
  ⟨fun _ _ => strcmpLe_antisymm⟩

/-- Topics and ids are compared byte by byte. -/
local instance lawfulTopics : LawfulBEq (List Byte) := inferInstance

/-- The ids of the members that subscribe to a topic, in ascending order. -/
def consumersOf (members : List Subscription) (topic : List Byte) : List (List Byte) :=
  ((members.filter fun m => topic ∈ m.2).map Prod.fst).insertionSort (StrcmpLe id)

/-- The order of the members does not matter. -/
theorem consumersOf_perm {members members' : List Subscription} (h : members.Perm members')
    (topic : List Byte) : consumersOf members topic = consumersOf members' topic := by
  have hperm : (consumersOf members topic).Perm (consumersOf members' topic) :=
    (List.perm_insertionSort _ _).trans
      (((h.filter _).map _).trans (List.perm_insertionSort _ _).symm)
  exact hperm.eq_of_pairwise' (List.pairwise_insertionSort _ _) (List.pairwise_insertionSort _ _)

theorem mem_consumersOf {members : List Subscription} {topic id : List Byte} :
    id ∈ consumersOf members topic ↔ ∃ m ∈ members, topic ∈ m.2 ∧ m.1 = id := by
  simp [consumersOf, and_assoc]

theorem consumersOf_nodup {members : List Subscription} (h : (members.map Prod.fst).Nodup)
    (topic : List Byte) : (consumersOf members topic).Nodup := by
  rw [consumersOf, (List.perm_insertionSort _ _).nodup_iff]
  exact (List.filter_sublist.map Prod.fst).nodup h

/-! ### What the members hold -/

/-- Every member gets more partitions, by its place in the array. -/
def grow (share : Nat → List Toppar) (group : List KafkaMember) : List KafkaMember :=
  group.mapIdx fun p m => { m with assignedTopparList := m.assignedTopparList ++ share p }

theorem getElem?_grow (share : Nat → List Toppar) (group : List KafkaMember) (p : Nat) :
    (grow share group)[p]? = group[p]?.map fun m =>
      { m with assignedTopparList := m.assignedTopparList ++ share p } :=
  List.getElem?_mapIdx

theorem grow_nil (group : List KafkaMember) : grow (fun _ => []) group = group := by
  refine List.ext_getElem? fun p => ?_
  rw [getElem?_grow]
  cases group[p]? <;> simp

theorem grow_grow (share share' : Nat → List Toppar) (group : List KafkaMember) :
    grow share' (grow share group) = grow (fun p => share p ++ share' p) group := by
  refine List.ext_getElem? fun p => ?_
  rw [getElem?_grow, getElem?_grow, getElem?_grow]
  cases group[p]? <;> simp

theorem grow_subscription (share : Nat → List Toppar) (group : List KafkaMember) :
    (grow share group).map KafkaMember.subscription = group.map KafkaMember.subscription := by
  refine List.ext_getElem? fun p => ?_
  rw [List.getElem?_map, List.getElem?_map, getElem?_grow]
  cases group[p]? <;> rfl

theorem assign_eq_grow (group : List KafkaMember) (k : Nat) (toppar : Toppar) :
    assign group k toppar = grow (fun p => if p = k then [toppar] else []) group := by
  refine List.ext_getElem? fun p => ?_
  rw [assign, getElem?_grow, List.getElem?_modify]
  by_cases heq : k = p
  · simp [heq]
  · cases group[p]? <;> simp [heq, Ne.symm heq]

/-- A loop whose passes let the members grow, each by what the ids and topics of the members say. -/
theorem foldl_grow {α : Type} {step : List KafkaMember → α → List KafkaMember}
    {share : α → Nat → List Toppar} {members : List Subscription} {xs : List α}
    (h : ∀ group, group.map KafkaMember.subscription = members → ∀ a ∈ xs,
      step group a = grow (share a) group) {group : List KafkaMember}
    (hgroup : group.map KafkaMember.subscription = members) :
    xs.foldl step group = grow (fun p => xs.flatMap fun a => share a p) group := by
  induction xs generalizing group with
  | nil => exact (grow_nil group).symm
  | cons a xs ih =>
      rw [List.foldl_cons, h group hgroup a List.mem_cons_self,
        ih (fun g hg b hb => h g hg b (List.mem_cons_of_mem a hb))
          ((grow_subscription (share a) group).trans hgroup), grow_grow]
      rfl

/-! ### One topic -/

/-- The share of the member at place `p` when the members of a topic are dealt to in an order. -/
theorem flatMap_zipIdx {β : Type} (share : Nat → List β) {l : List Nat} (hnodup : l.Nodup)
    (p n : Nat) : ((l.zipIdx n).flatMap fun x => if p = x.1 then share x.2 else []) =
      if p ∈ l then share (n + l.idxOf p) else [] := by
  induction l generalizing n with
  | nil => rfl
  | cons k l ih =>
      obtain ⟨hk, hnodup⟩ := List.nodup_cons.mp hnodup
      rw [List.zipIdx_cons, List.flatMap_cons, ih hnodup]
      by_cases heq : p = k
      · subst heq
        simp [hk]
      · simp only [heq, if_false, List.nil_append, List.mem_cons, false_or]
        rw [List.idxOf_cons_ne _ (Ne.symm heq)]
        by_cases hin : p ∈ l
        · rw [if_pos hin, if_pos hin, Nat.add_right_comm, Nat.add_assoc]
        · rw [if_neg hin, if_neg hin]

/-- The share of an id in a topic: its range, if it subscribes. -/
def topicShare (members : List Subscription) (info : KafkaMeta) (id : List Byte) : List Toppar :=
  let consumers := consumersOf members info.topic
  if id ∈ consumers then
    (rangeOf info.partitionElements consumers.length (consumers.idxOf id)).map
      fun i => ⟨info.topic, i⟩
  else []

/-- The id of the member at a place. -/
def idAt (members : List Subscription) (p : Nat) : List Byte :=
  (members[p]?.map Prod.fst).getD []

/-- The places of the members that subscribe to a topic. -/
def placesOf (members : List Subscription) (topic : List Byte) : List Nat :=
  (List.range members.length).filter fun i => (members[i]?).any fun m => topic ∈ m.2

theorem subscribersOf_eq {group : List KafkaMember} (metaList : List KafkaMeta) :
    subscribersOf group metaList = (metaList.map fun info =>
      (⟨info, placesOf (group.map KafkaMember.subscription) info.topic⟩ :
        KafkaMetaSubscriber)).filter fun subscriber => ¬ subscriber.member = [] := by
  simp only [subscribersOf, placesOf, List.length_map, List.getElem?_map, Option.any_map]
  rfl

theorem map_idAt_placesOf (members : List Subscription) (topic : List Byte) :
    (placesOf members topic).map (idAt members) =
      (members.filter fun m => topic ∈ m.2).map Prod.fst := by
  induction members with
  | nil => rfl
  | cons m members ih =>
      have hrest : ((List.range members.length).map Nat.succ).filter
          (fun i => ((m :: members)[i]?).any fun m => topic ∈ m.2) =
          (placesOf members topic).map Nat.succ := by
        rw [List.filter_map]
        rfl
      have hids : ((placesOf members topic).map Nat.succ).map (idAt (m :: members)) =
          (placesOf members topic).map (idAt members) := by
        rw [List.map_map]
        rfl
      rw [placesOf, List.length_cons, List.range_succ_eq_map, List.filter_cons, hrest,
        List.filter_cons]
      by_cases htopic : topic ∈ m.2
      · simp only [List.getElem?_cons_zero, Option.any_some, htopic, decide_true, if_true,
          List.map_cons, hids, ih]
        rfl
      · simp only [List.getElem?_cons_zero, Option.any_some, htopic, decide_false,
          Bool.false_eq_true, if_false, hids, ih]

/-- The places of the subscribers are sorted as their ids are. -/
theorem map_idAt_sortByMember {group : List KafkaMember} (topic : List Byte) :
    (sortByMember group (placesOf (group.map KafkaMember.subscription) topic)).map
        (idAt (group.map KafkaMember.subscription)) =
      consumersOf (group.map KafkaMember.subscription) topic := by
  have hid : (fun k => (group[k]?.map KafkaMember.memberId).getD []) =
      idAt (group.map KafkaMember.subscription) := by
    funext k
    simp [idAt, KafkaMember.subscription, Function.comp_def]
  have hsort := List.map_insertionSort (r := StrcmpLe (idAt (group.map KafkaMember.subscription)))
    (s := StrcmpLe id) (idAt (group.map KafkaMember.subscription))
    (placesOf (group.map KafkaMember.subscription) topic) fun _ _ _ _ => Iff.rfl
  rw [sortByMember, hid, hsort, map_idAt_placesOf]
  rfl

/-- Different members have different ids. -/
theorem idAt_injective {members : List Subscription} (hids : (members.map Prod.fst).Nodup)
    {p q : Nat} (hp : p < members.length) (hq : q < members.length)
    (h : idAt members p = idAt members q) : p = q := by
  have hget : ∀ {k : Nat}, k < members.length → (members.map Prod.fst)[k]? =
      some (idAt members k) := by
    intro k hk
    simp [idAt, hk]
  refine (List.getElem?_inj (by simpa using hp) hids).mp ?_
  rw [hget hp, hget hq, h]

theorem idxOf_map {l : List Nat} {f : Nat → List Byte} {p : Nat}
    (h : ∀ q ∈ l, f q = f p → q = p) : (l.map f).idxOf (f p) = l.idxOf p := by
  induction l with
  | nil => rfl
  | cons q l ih =>
      have hiff : f q = f p ↔ q = p := ⟨h q List.mem_cons_self, fun heq => by rw [heq]⟩
      rw [List.map_cons, List.idxOf_cons, List.idxOf_cons,
        ih fun r hr => h r (List.mem_cons_of_mem q hr)]
      by_cases heq : q = p
      · simp [heq]
      · have hne : ¬ f q = f p := fun hf => heq (hiff.mp hf)
        rw [beq_false_of_ne heq, beq_false_of_ne hne]

theorem grow_congr {share share' : Nat → List Toppar} {group : List KafkaMember}
    (h : ∀ p < group.length, share p = share' p) : grow share group = grow share' group := by
  refine List.ext_getElem? fun p => ?_
  rw [getElem?_grow, getElem?_grow]
  cases hp : group[p]? with
  | none => rfl
  | some m => rw [Option.map_some, Option.map_some, h p (List.getElem?_eq_some_iff.mp hp).1]

/-- One topic: every member gets the share of its id. -/
theorem rangeTopic_eq {members : List Subscription} (hids : (members.map Prod.fst).Nodup)
    (info : KafkaMeta) {group : List KafkaMember}
    (hgroup : group.map KafkaMember.subscription = members) :
    rangeTopic group ⟨info, placesOf members info.topic⟩ =
      grow (fun p => topicShare members info (idAt members p)) group := by
  obtain ⟨sorted, hsorted⟩ : ∃ sorted, sorted = sortByMember group (placesOf members info.topic) :=
    ⟨_, rfl⟩
  have hconsumers : sorted.map (idAt members) = consumersOf members info.topic := by
    subst hgroup
    rw [hsorted, map_idAt_sortByMember]
  have hlen : sorted.length = (consumersOf members info.topic).length := by
    rw [← hconsumers, List.length_map]
  have hplaces : ∀ q ∈ sorted, q < members.length := by
    intro q hq
    rw [hsorted, sortByMember, List.mem_insertionSort] at hq
    exact List.mem_range.mp (List.mem_of_mem_filter hq)
  have hnodup : sorted.Nodup := by
    rw [hsorted, sortByMember, (List.perm_insertionSort _ _).nodup_iff]
    exact List.nodup_range.filter _
  -- the passes for one member
  have hinner : ∀ g, g.map KafkaMember.subscription = members → ∀ x ∈ sorted.zipIdx,
      (rangeOf info.partitionElements sorted.length x.2).foldl
        (fun group j => assign group x.1 ⟨info.topic, j⟩) g =
      grow (fun p => if p = x.1 then (rangeOf info.partitionElements sorted.length x.2).map
        fun i => (⟨info.topic, i⟩ : Toppar) else []) g := by
    intro g hg x _
    rw [foldl_grow (fun g' _ j _ => assign_eq_grow g' x.1 ⟨info.topic, j⟩) hg]
    refine grow_congr fun p _ => ?_
    by_cases heq : p = x.1
    · simp only [heq, if_true, ← List.map_eq_flatMap]
    · simp [heq]
  unfold rangeTopic
  simp only [← hsorted]
  rw [foldl_grow hinner hgroup]
  refine grow_congr fun p hp => ?_
  have hp' : p < members.length := by
    rw [← hgroup, List.length_map]
    exact hp
  have hsame : ∀ q ∈ sorted, idAt members q = idAt members p → q = p := fun q hq =>
    idAt_injective hids (hplaces q hq) hp'
  have hmem : idAt members p ∈ consumersOf members info.topic ↔ p ∈ sorted := by
    rw [← hconsumers, List.mem_map]
    exact ⟨fun ⟨q, hq, heq⟩ => hsame q hq heq ▸ hq, fun hin => ⟨p, hin, rfl⟩⟩
  have hdealt := flatMap_zipIdx (fun i => (rangeOf info.partitionElements sorted.length i).map
    fun i => (⟨info.topic, i⟩ : Toppar)) hnodup p 0
  rw [hdealt, topicShare, ← hlen, Nat.zero_add]
  simp only [hmem]
  rw [← hconsumers, idxOf_map hsame]

/-! ### All topics -/

/-- What an id gets of all topics. -/
def shareOf (members : List Subscription) (metaList : List KafkaMeta) (id : List Byte) :
    List Toppar :=
  metaList.flatMap fun info => topicShare members info id

/-- The assignor lets every member get the share of its id. -/
theorem kafkaRangeAssignor_eq {members : List Subscription} (hids : (members.map Prod.fst).Nodup)
    (metaList : List KafkaMeta) {group : List KafkaMember}
    (hgroup : group.map KafkaMember.subscription = members) :
    kafkaRangeAssignor group (subscribersOf group metaList) =
      some (0, grow (fun p => shareOf members metaList (idAt members p)) group) := by
  have hshare : ∀ id, ((subscribersOf group metaList).flatMap fun subscriber =>
      topicShare members subscriber.info id) = shareOf members metaList id := by
    intro id
    rw [subscribersOf_eq, hgroup, shareOf]
    induction metaList with
    | nil => rfl
    | cons info rest ih =>
        rw [List.map_cons, List.flatMap_cons, ← ih]
        by_cases hnone : placesOf members info.topic = []
        · have hconsumers : consumersOf members info.topic = [] := by
            rw [consumersOf, ← map_idAt_placesOf, hnone]
            rfl
          rw [List.filter_cons_of_neg (by simp [hnone])]
          simp [topicShare, hconsumers]
        · rw [List.filter_cons_of_pos (by simp [hnone]), List.flatMap_cons]
  have hstep : ∀ g, g.map KafkaMember.subscription = members →
      ∀ subscriber ∈ subscribersOf group metaList, rangeTopic g subscriber =
        grow (fun p => topicShare members subscriber.info (idAt members p)) g := by
    intro g hg subscriber hmem
    rw [subscribersOf_eq, hgroup] at hmem
    obtain ⟨info, -, rfl⟩ := List.mem_map.mp (List.mem_of_mem_filter hmem)
    exact rangeTopic_eq hids info hg
  unfold kafkaRangeAssignor
  rw [foldl_grow hstep hgroup]
  simp only [hshare]


/-! ### The result -/

/-- A right assignment in which the subscribers of each topic, in the order of their ids, get
consecutive ranges of its partitions, the larger ones first and of sizes that differ by at most
one. -/
structure RangeShares (members : List Subscription) (metaList : List KafkaMeta)
    (assignment : List Byte → List Toppar) : Prop
    extends RightAssignment members metaList assignment where
  ranges : ∀ info ∈ metaList, consumersOf members info.topic ≠ [] → ∃ start size : Nat → Nat,
    (∀ i, ∀ h : i < (consumersOf members info.topic).length,
      ((assignment (consumersOf members info.topic)[i]).filter
        fun toppar => toppar.topic = info.topic).map Toppar.partition =
          List.range' (start i) (size i)) ∧
    start 0 = 0 ∧ (∀ i, start (i + 1) = start i + size i) ∧
    start (consumersOf members info.topic).length = info.partitionElements ∧
    ∀ i j, i ≤ j → size j ≤ size i ∧ size i ≤ size j + 1

/-- There is one such assignment, and every run gives it, whatever the order of the members is. -/
def RangeRight (members : List Subscription) (metaList : List KafkaMeta) : Prop :=
  ∃ assignment, RangeShares members metaList assignment ∧ ∀ group, Lists members group →
    ∃ result, runAssignor group metaList "range" = some (0, result) ∧
      result.map KafkaMember.subscription = group.map KafkaMember.subscription ∧
      ∀ m ∈ result, m.assignedTopparList = assignment m.memberId

theorem topicShare_topic {members : List Subscription} {info : KafkaMeta} {id : List Byte}
    {toppar : Toppar} (h : toppar ∈ topicShare members info id) :
    toppar.topic = info.topic ∧ id ∈ consumersOf members info.topic := by
  unfold topicShare at h
  simp only at h
  split at h
  · rename_i hin
    obtain ⟨_, _, rfl⟩ := List.mem_map.mp h
    exact ⟨rfl, hin⟩
  · cases h

/-- The partitions of one topic come from that topic only. -/
theorem filter_shareOf {members : List Subscription} {metaList : List KafkaMeta}
    (htopics : (metaList.map KafkaMeta.topic).Nodup) {info : KafkaMeta} (hinfo : info ∈ metaList)
    (id : List Byte) : (shareOf members metaList id).filter
      (fun toppar => toppar.topic = info.topic) = topicShare members info id := by
  have hother : ∀ other : KafkaMeta, other.topic ≠ info.topic →
      (topicShare members other id).filter (fun toppar => toppar.topic = info.topic) = [] := by
    intro other hne
    refine List.filter_eq_nil_iff.mpr fun toppar hin => ?_
    rw [(topicShare_topic hin).1]
    simpa using hne
  have hself : (topicShare members info id).filter (fun toppar => toppar.topic = info.topic) =
      topicShare members info id :=
    List.filter_eq_self.mpr fun toppar hin => by simp [(topicShare_topic hin).1]
  unfold shareOf
  induction metaList with
  | nil => cases hinfo
  | cons head rest ih =>
      rw [List.map_cons, List.nodup_cons] at htopics
      rw [List.flatMap_cons, List.filter_append]
      rcases List.mem_cons.mp hinfo with rfl | hin
      · have hrest : (rest.flatMap fun other => topicShare members other id).filter
            (fun toppar => toppar.topic = info.topic) = [] := by
          rw [List.filter_flatMap, List.flatMap_eq_nil_iff]
          intro other hmem
          exact hother other fun heq => htopics.1 (heq ▸ List.mem_map_of_mem hmem)
        rw [hself, hrest, List.append_nil]
      · have hne : head.topic ≠ info.topic := fun heq =>
          htopics.1 (heq ▸ List.mem_map_of_mem hin)
        rw [hother head hne, List.nil_append, ih htopics.2 hin]

/-- Members that do not count may be left out. -/
theorem sum_map_filter {members : List Subscription} {f : Subscription → Nat}
    {q : Subscription → Bool} (h : ∀ m ∈ members, q m = false → f m = 0) :
    (members.map f).sum = ((members.filter q).map f).sum := by
  induction members with
  | nil => rfl
  | cons m rest ih =>
      have hrest := ih fun m' hm' => h m' (List.mem_cons_of_mem m hm')
      cases hq : q m with
      | true =>
          rw [List.filter_cons_of_pos hq, List.map_cons, List.map_cons, List.sum_cons,
            List.sum_cons, hrest]
      | false =>
          rw [List.filter_cons_of_neg (by simp [hq]), List.map_cons, List.sum_cons,
            h m List.mem_cons_self hq, Nat.zero_add, hrest]

theorem topicShare_getElem {members : List Subscription} (hids : (members.map Prod.fst).Nodup)
    (info : KafkaMeta) {i : Nat} (h : i < (consumersOf members info.topic).length) :
    topicShare members info (consumersOf members info.topic)[i] =
      (rangeOf info.partitionElements (consumersOf members info.topic).length i).map
        fun i => ⟨info.topic, i⟩ := by
  unfold topicShare
  simp only [List.getElem_mem, if_true]
  rw [List.Nodup.idxOf_getElem (consumersOf_nodup hids info.topic)]

/-- Each partition of a topic is in the share of exactly one subscriber. -/
theorem sum_count_topicShare {members : List Subscription} (hids : (members.map Prod.fst).Nodup)
    {info : KafkaMeta} (hsome : consumersOf members info.topic ≠ []) {x : Nat}
    (hx : x < info.partitionElements) : (members.map fun m =>
      (topicShare members info m.1).count ⟨info.topic, x⟩).sum = 1 := by
  obtain ⟨consumers, hconsumers⟩ : ∃ consumers, consumers = consumersOf members info.topic :=
    ⟨_, rfl⟩
  have hperm : ((members.filter fun m => info.topic ∈ m.2).map Prod.fst).Perm consumers := by
    rw [hconsumers]
    exact (List.perm_insertionSort _ _).symm
  have hzero : ∀ m ∈ members, decide (info.topic ∈ m.2) = false →
      (topicShare members info m.1).count ⟨info.topic, x⟩ = 0 := by
    intro m hm hnot
    refine List.count_eq_zero_of_not_mem fun hin => ?_
    obtain ⟨m', hm', htopic, hid⟩ := mem_consumersOf.mp (topicShare_topic hin).2
    have hsame : m' = m := List.inj_on_of_nodup_map hids hm' hm hid
    subst hsame
    exact absurd htopic (of_decide_eq_false hnot)
  have hplaces : (consumers.map fun id => (topicShare members info id).count ⟨info.topic, x⟩) =
      (List.range consumers.length).map fun i =>
        (rangeOf info.partitionElements consumers.length i).count x := by
    refine List.ext_getElem (by simp) fun i hi _ => ?_
    have hi' : i < (consumersOf members info.topic).length := by
      rw [← hconsumers]
      simpa using hi
    have hinj : Function.Injective fun i => (⟨info.topic, i⟩ : Toppar) := fun _ _ heq =>
      (Toppar.mk.inj heq).2
    simp only [List.getElem_map, List.getElem_range, hconsumers, topicShare_getElem hids info hi']
    exact List.count_map_of_injective _ _ hinj x
  have hcover : (List.range consumers.length).flatMap
      (rangeOf info.partitionElements consumers.length) = List.range info.partitionElements := by
    rw [flatMap_rangeOf, startOf_end (List.length_pos_iff.mpr (hconsumers ▸ hsome))]
  have hmap := (hperm.map fun id => (topicShare members info id).count ⟨info.topic, x⟩).sum_eq
  rw [List.map_map] at hmap
  calc (members.map fun m => (topicShare members info m.1).count ⟨info.topic, x⟩).sum
      = (consumers.map fun id => (topicShare members info id).count ⟨info.topic, x⟩).sum :=
        (sum_map_filter hzero).trans hmap
    _ = ((List.range consumers.length).flatMap
          (rangeOf info.partitionElements consumers.length)).count x := by
        rw [hplaces, List.count_flatMap]
        rfl
    _ = 1 := by
        rw [hcover]
        exact List.count_eq_one_of_mem List.nodup_range (List.mem_range.mpr hx)

theorem shareOf_rangeShares {members : List Subscription} {metaList : List KafkaMeta}
    (hids : (members.map Prod.fst).Nodup) (htopics : (metaList.map KafkaMeta.topic).Nodup) :
    RangeShares members metaList (shareOf members metaList) := by
  refine ⟨⟨fun info hinfo hsub x hx => ?_, fun m hm toppar hin => ?_⟩,
    fun info hinfo hsome => ?_⟩
  · obtain ⟨m, hm, htopic⟩ := hsub
    have hsome : consumersOf members info.topic ≠ [] :=
      List.ne_nil_of_mem (mem_consumersOf.mpr ⟨m, hm, htopic, rfl⟩)
    rw [← sum_count_topicShare hids hsome hx]
    refine congrArg List.sum (List.map_congr_left fun m' _ => ?_)
    rw [← filter_shareOf htopics hinfo, List.count_filter (by simp)]
  · obtain ⟨info, -, hshare⟩ := List.mem_flatMap.mp hin
    obtain ⟨htopic, hmem⟩ := topicShare_topic hshare
    obtain ⟨m', hm', hsub, hid⟩ := mem_consumersOf.mp hmem
    have hsame : m' = m := List.inj_on_of_nodup_map hids hm' hm hid
    rw [htopic, ← hsame]
    exact hsub
  · let n := (consumersOf members info.topic).length
    have hpos : 0 < n := List.length_pos_iff.mpr hsome
    refine ⟨startOf info.partitionElements n, fun i => info.partitionElements / n +
      if i < info.partitionElements % n then 1 else 0, fun i hi => ?_, ?_, ?_, ?_, ?_⟩
    · rw [filter_shareOf htopics hinfo, topicShare_getElem hids info hi, List.map_map, rangeOf_eq]
      exact List.map_id'' (fun _ => rfl) _
    · simp [startOf]
    · exact fun i => startOf_succ info.partitionElements n i
    · exact startOf_end hpos
    · intro i j hle
      simp only
      generalize info.partitionElements / n = quotient
      constructor <;> split <;> split <;> omega

/-- The range assignor deals out every partition of a subscribed topic to exactly one of its
subscribers, in consecutive ranges that differ by at most one, however the members are listed. -/
theorem rangeRight (members : List Subscription) (metaList : List KafkaMeta)
    (hids : (members.map Prod.fst).Nodup) (htopics : (metaList.map KafkaMeta.topic).Nodup) :
    RangeRight members metaList := by
  refine ⟨shareOf members metaList, shareOf_rangeShares hids htopics, fun group hlists => ?_⟩
  obtain ⟨members', hgroup⟩ : ∃ members', group.map KafkaMember.subscription = members' := ⟨_, rfl⟩
  have hperm : members'.Perm members := hgroup ▸ hlists.perm
  have hids' : (members'.map Prod.fst).Nodup := (hperm.map Prod.fst).nodup_iff.mpr hids
  have hshare : shareOf members' metaList = shareOf members metaList := by
    funext id
    refine congrArg (fun f => metaList.flatMap f) (funext fun info => ?_)
    rw [topicShare, topicShare, consumersOf_perm hperm]
  refine ⟨_, kafkaRangeAssignor_eq hids' metaList hgroup, grow_subscription _ group, fun m hm => ?_⟩
  obtain ⟨p, hp⟩ := List.mem_iff_getElem?.mp hm
  rw [getElem?_grow] at hp
  obtain ⟨m₀, hm₀, rfl⟩ := Option.map_eq_some_iff.mp hp
  have hid : idAt members' p = m₀.memberId := by
    rw [idAt, ← hgroup, List.getElem?_map, hm₀]
    rfl
  simp only [hlists.empty m₀ (List.mem_of_getElem? hm₀), List.nil_append, hshare, hid]

/-- Three members, two of which share a topic of three partitions. -/
theorem rangeRight_three : RangeRight
    [(ascii "B", [ascii "t"]), (ascii "C", [ascii "u"]), (ascii "A", [ascii "u", ascii "t"])]
    [⟨ascii "t", 3⟩, ⟨ascii "u", 1⟩] :=
  rangeRight _ _ (by decide) (by decide)

end Workflow.Kafka
