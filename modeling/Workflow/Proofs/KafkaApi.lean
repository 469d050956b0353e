/-
Module: Workflow.Proofs.KafkaApi
Layer: Proofs
Purpose: When the version that is chosen is the right one: the largest that both sides support. The
  choice compares the lower ends of the two ranges where it should compare the broker's lower end
  with the client's upper end, and it trusts the broker's range and the upper half of the key.
Trusted boundary: none
Main exports: Common, RightVersion, Misjudged, Mistaken, apiVersion_right_iff
-/
import Mathlib.Data.List.Nodup
import Mathlib.Order.Bounds.Basic
import Workflow.Protocol.KafkaApi

namespace Workflow.Kafka

open Workflow.Lib

/-- The broker lists the key with the version `v`, and the client supports it. -/
def Common (api : List KafkaApiVersion) (apiKey minVer maxVer : Int32) (v : Int) : Prop :=
  (∃ e ∈ api, e.apiKey.toInt = apiKey.toInt ∧ e.minVer.toInt ≤ v ∧ v ≤ e.maxVer.toInt) ∧
    minVer.toInt ≤ v ∧ v ≤ maxVer.toInt

/-- The largest common version, or -1 if there is none. -/
def RightVersion (api : List KafkaApiVersion) (apiKey minVer maxVer : Int32) (r : Int) : Prop :=
  IsGreatest { v | Common api apiKey minVer maxVer v } r ∨
    (∀ v, ¬ Common api apiKey minVer maxVer v) ∧ r = -1

/-- The table is sorted by distinct keys. -/
def SortedByKey (api : List KafkaApiVersion) : Prop :=
  api.Pairwise fun a b => a.apiKey.toInt < b.apiKey.toInt

/-- The entry of the key is misjudged: the broker's range begins inside the client's and reaches its
end, or it is empty and ends inside the client's. -/
def Misjudged (minVer maxVer : Int32) (e : KafkaApiVersion) : Prop :=
  (minVer.toInt < e.minVer.toInt ∧ e.minVer.toInt ≤ maxVer.toInt ∧ maxVer.toInt ≤ e.maxVer.toInt ∧
      maxVer.toInt ≠ -1) ∨
    (e.maxVer.toInt < e.minVer.toInt ∧ minVer.toInt ≤ e.maxVer.toInt ∧
      e.maxVer.toInt < maxVer.toInt ∧ e.maxVer.toInt ≠ -1)

/-- The entry of another key is taken for that of the key. -/
def Mistaken (minVer maxVer : Int32) (e : KafkaApiVersion) : Prop :=
  (e.maxVer.toInt < maxVer.toInt ∧ minVer.toInt ≤ e.maxVer.toInt ∧ e.maxVer.toInt ≠ -1) ∨
    (maxVer.toInt ≤ e.maxVer.toInt ∧ e.minVer.toInt ≤ minVer.toInt ∧ maxVer.toInt ≠ -1)

theorem cmp_eq_zero {a b : KafkaApiVersion} :
    kafkaApiVersionKeyCmp a b = 0 ↔ a.apiKey = b.apiKey := by
  rw [← Int16.toInt_inj, kafkaApiVersionKeyCmp]
  split
  · omega
  · split <;> omega

theorem inOrder_of_sorted {api : List KafkaApiVersion} (h : SortedByKey api)
    (sk : KafkaApiVersion) : InOrder (kafkaApiVersionKeyCmp sk) api := by
  refine h.imp fun {a b} hab hb => ?_
  unfold kafkaApiVersionKeyCmp at hb ⊢
  split at hb
  · rw [if_pos (by omega)]
    decide
  · split at hb
    · rw [if_pos (by omega)]
      decide
    · omega

/-- Keys are distinct. -/
theorem eq_of_key {api : List KafkaApiVersion} (h : SortedByKey api) {a b : KafkaApiVersion}
    (ha : a ∈ api) (hb : b ∈ api) (hkey : a.apiKey = b.apiKey) : a = b := by
  have hnodup : (api.map fun e => e.apiKey).Nodup := by
    refine List.pairwise_map.mpr (h.imp fun {a b} hab heq => ?_)
    rw [heq] at hab
    exact Int.lt_irrefl _ hab
  exact List.inj_on_of_nodup_map hnodup ha hb hkey

/-- What the choice makes of the entry it has found. -/
def chosen (minVer maxVer : Int32) (e : KafkaApiVersion) : Int :=
  if e.maxVer.toInt < maxVer.toInt then
    if e.maxVer.toInt < minVer.toInt then -1
    else e.maxVer.toInt
  else if e.minVer.toInt > minVer.toInt then -1
  else maxVer.toInt

/-- The entry of the key is the only one to be considered. -/
theorem common_iff {api : List KafkaApiVersion} (h : SortedByKey api) {e : KafkaApiVersion}
    (he : e ∈ api) {apiKey minVer maxVer : Int32} (hkey : e.apiKey.toInt = apiKey.toInt) (v : Int) :
    Common api apiKey minVer maxVer v ↔
      (e.minVer.toInt ≤ v ∧ v ≤ e.maxVer.toInt) ∧ minVer.toInt ≤ v ∧ v ≤ maxVer.toInt := by
  constructor
  · rintro ⟨⟨e', he', hkey', hrange⟩, hclient⟩
    obtain rfl := eq_of_key h he' he (Int16.toInt_inj.mp (hkey'.trans hkey.symm))
    exact ⟨hrange, hclient⟩
  · rintro ⟨hrange, hclient⟩
    exact ⟨⟨e, he, hkey, hrange⟩, hclient⟩

/-- The right version, from the two ranges. -/
theorem rightVersion_iff {api : List KafkaApiVersion} (h : SortedByKey api) {e : KafkaApiVersion}
    (he : e ∈ api) {apiKey minVer maxVer : Int32} (hkey : e.apiKey.toInt = apiKey.toInt) (r : Int) :
    RightVersion api apiKey minVer maxVer r ↔
      ((r = e.maxVer.toInt ∧ r ≤ maxVer.toInt ∨ r = maxVer.toInt ∧ r ≤ e.maxVer.toInt) ∧
          e.minVer.toInt ≤ r ∧ minVer.toInt ≤ r) ∨
        ((e.maxVer.toInt < e.minVer.toInt ∨ e.maxVer.toInt < minVer.toInt ∨
            maxVer.toInt < e.minVer.toInt ∨ maxVer.toInt < minVer.toInt) ∧ r = -1) := by
  have hcommon : ∀ v, Common api apiKey minVer maxVer v ↔
      (e.minVer.toInt ≤ v ∧ v ≤ e.maxVer.toInt) ∧ minVer.toInt ≤ v ∧ v ≤ maxVer.toInt :=
    common_iff h he hkey
  unfold RightVersion
  simp only [hcommon]
  refine or_congr ⟨fun hr => ?_, fun hr => ?_⟩ (and_congr_left fun _ => ?_)
  · obtain ⟨⟨⟨h1, h2⟩, h3, h4⟩, hup⟩ := hr
    have hnext : ¬ ((r + 1 ≤ e.maxVer.toInt) ∧ r + 1 ≤ maxVer.toInt) := fun hlt => by
      have hle := hup (show ((e.minVer.toInt ≤ r + 1 ∧ r + 1 ≤ e.maxVer.toInt) ∧
        minVer.toInt ≤ r + 1 ∧ r + 1 ≤ maxVer.toInt) by omega)
      omega
    omega
  · refine ⟨⟨⟨hr.2.1, by omega⟩, hr.2.2, by omega⟩, ?_⟩
    rintro v ⟨⟨h1, h2⟩, h3, h4⟩
    omega
  · constructor
    · intro hempty
      have hlow := hempty e.minVer.toInt
      have hclient := hempty minVer.toInt
      omega
    · intro hempty v hv
      omega

theorem chosen_right_iff {api : List KafkaApiVersion} (h : SortedByKey api) {e : KafkaApiVersion}
    (he : e ∈ api) {apiKey minVer maxVer : Int32} (hle : minVer.toInt ≤ maxVer.toInt)
    (hkey : e.apiKey.toInt = apiKey.toInt) :
    RightVersion api apiKey minVer maxVer (chosen minVer maxVer e) ↔ ¬ Misjudged minVer maxVer e := by
  rw [rightVersion_iff h he hkey, chosen, Misjudged]
  split
  · split
    · omega
    · omega
  · split
    · omega
    · omega

/-- The version that is chosen is the largest common one, or -1 if there is none, exactly if the
entry found is that of the key and is not misjudged, or is that of another key and is refused. -/
theorem apiVersion_right_iff (api : List KafkaApiVersion) (apiKey minVer maxVer : Int32)
    (hsorted : SortedByKey api) (hle : minVer.toInt ≤ maxVer.toInt) :
    RightVersion api apiKey minVer maxVer (kafkaBrokerGetApiVersion api apiKey minVer maxVer) ↔
      ∀ e ∈ api, e.apiKey = apiKey.toInt16 →
        if e.apiKey.toInt = apiKey.toInt then ¬ Misjudged minVer maxVer e
        else ¬ Mistaken minVer maxVer e := by
  have hunlisted : (∀ e ∈ api, e.apiKey.toInt ≠ apiKey.toInt) →
      ∀ r, RightVersion api apiKey minVer maxVer r ↔ r = -1 := by
    intro hnone r
    have hempty : ∀ v, ¬ Common api apiKey minVer maxVer v := by
      rintro v ⟨⟨e, he, hkey, -⟩, -⟩
      exact hnone e he hkey
    exact ⟨fun hr => hr.elim (fun hgreatest => absurd hgreatest.1 (hempty r)) And.right,
      fun hr => .inr ⟨hempty, hr⟩⟩
  have hlisted : ∀ e ∈ api, e.apiKey.toInt = apiKey.toInt → e.apiKey = apiKey.toInt16 := by
    intro e _ hkey
    -- a key that the broker lists fits into a short
    have hlow := e.apiKey.le_toInt
    have hhigh := e.apiKey.toInt_lt
    rw [← Int16.toInt_inj, Int32.toInt_toInt16, ← hkey]
    exact (Int.bmod_eq_of_le (by omega) (by omega)).symm
  unfold kafkaBrokerGetApiVersion
  simp only
  cases hfound : bsearch (kafkaApiVersionKeyCmp ⟨apiKey.toInt16, 0, 0⟩) api with
  | none =>
      have hnone := bsearch_none (inOrder_of_sorted hsorted _) hfound
      simp only [ne_eq, cmp_eq_zero] at hnone
      simp only
      rw [hunlisted fun e he hkey => hnone e he (hlisted e he hkey).symm]
      exact ⟨fun _ e he hkey => absurd hkey.symm (hnone e he), fun _ => rfl⟩
  | some e =>
      obtain ⟨he, hcmp⟩ := bsearch_some hfound
      have hkey : e.apiKey = apiKey.toInt16 := (cmp_eq_zero.mp hcmp).symm
      have honly : ∀ {P : KafkaApiVersion → Prop},
          (∀ e' ∈ api, e'.apiKey = apiKey.toInt16 → P e') ↔ P e :=
        ⟨fun hall => hall e he hkey, fun hP e' he' hkey' =>
          eq_of_key hsorted he he' (hkey.trans hkey'.symm) ▸ hP⟩
      rw [honly]
      change RightVersion api apiKey minVer maxVer (chosen minVer maxVer e) ↔ _
      by_cases hsame : e.apiKey.toInt = apiKey.toInt
      · rw [if_pos hsame]
        exact chosen_right_iff hsorted he hle hsame
      · rw [if_neg hsame, hunlisted, chosen, Mistaken]
        · split
          · split <;> omega
          · split <;> omega
        · intro e' he' hkey'
          have heq := eq_of_key hsorted he he' (hkey.trans (hlisted e' he' hkey').symm)
          exact hsame (heq ▸ hkey')

/-- A broker that has dropped the first version of an API: the client supports 0 to 3. -/
def newerBroker : List KafkaApiVersion :=
  [{ apiKey := 3, minVer := 1, maxVer := 5 }]

theorem apiVersion_right_produce :
    RightVersion [⟨0, 0, 9⟩] 0 3 7 (kafkaBrokerGetApiVersion [⟨0, 0, 9⟩] 0 3 7) :=
  (apiVersion_right_iff [⟨0, 0, 9⟩] 0 3 7 (List.pairwise_singleton _ _) (by decide)).mpr (by
    intro e he _
    rw [List.mem_singleton.mp he, if_pos (by decide), Misjudged]
    decide)

/-- The versions 1 to 3 are common, and the broker is refused. -/
theorem newerBroker_refused :
    SortedByKey newerBroker ∧
      ¬ RightVersion newerBroker 3 0 3 (kafkaBrokerGetApiVersion newerBroker 3 0 3) := by
  have hsorted : SortedByKey newerBroker := List.pairwise_singleton _ _
  refine ⟨hsorted, fun hright => ?_⟩
  have hvalue : kafkaBrokerGetApiVersion newerBroker 3 0 3 = -1 := by decide +kernel
  rw [hvalue, rightVersion_iff (e := newerBroker.head (by decide)) hsorted (by simp [newerBroker])
    (by decide)] at hright
  exact absurd hright (by decide)

end Workflow.Kafka
