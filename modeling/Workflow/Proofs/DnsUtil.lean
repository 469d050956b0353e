/-
Module: Workflow.Proofs.DnsUtil
Layer: Proofs
Purpose: What `DnsUtil::getaddrinfo` finds in a response that was accepted. A response has as many
  answers as its header says, and a chain of aliases that ends takes each of its links from another
  answer; so the budget of the loop, the number of answers, is used up exactly when the chain is
  cyclic or when every answer is an alias in it.
Trusted boundary: none
Main exports: AcceptedResponse, AcceptedResponse.answers, cnameOf, EndsAt, IsAddressOf, Describes,
  cname_resolution
-/
import Workflow.Lib.Chain
import Workflow.Protocol.DnsUtil
import Workflow.Proofs.DnsStray

namespace Workflow.Dns

open Workflow.Lib

/-! ### Responses that were accepted -/

/-- A parser that is waiting for the rest of its message. -/
inductive Waiting : DnsParser → Prop where
  | init (singlePacket : Bool) : Waiting (dnsParserInit singlePacket)
  | append {fuel n : Nat} {fresh : Nat → Byte} {buf : List Byte} {p q : DnsParser} :
      Waiting p → dnsParserAppendMessage fuel fresh buf p = some (0, n, q) → Waiting q

/-- A parser that has accepted its message. -/
def AcceptedResponse (q : DnsParser) : Prop :=
  ∃ fuel fresh buf p n, Waiting p ∧ dnsParserAppendMessage fuel fresh buf p = some (1, n, q)

/-- The data of a record are of its type. -/
structure DnsRdata.OfType (rdata : DnsRdata) (type : Nat) : Prop where
  a : type = 1 → ∃ bytes, rdata = .address bytes ∧ bytes.length = 4
  aaaa : type = 28 → ∃ bytes, rdata = .address bytes ∧ bytes.length = 16
  cname : type = 5 → ∃ name, rdata = .name name

/-- Where the function succeeds on a parser with `P`, its result and the parser have `Q`; where it
fails, the code is negative. -/
def Gives {α : Type} (P : DnsParser → Prop) (f : ParseM α) (Q : α → DnsParser → Prop) : Prop :=
  ∀ p r q, P p → f.run.run p = some (r, q) → (∀ a, r = .ok a → Q a q) ∧ ∀ e, r = .error e → e < 0

namespace Gives

variable {α β : Type} {P : DnsParser → Prop} {Q Q' : α → DnsParser → Prop}
  {R : β → DnsParser → Prop}

theorem ret {a : α} (h : ∀ p, P p → Q a p) : Gives P (pure a) Q := by
  rintro p r q hp ⟨⟩
  exact ⟨fun b hb => by cases hb; exact h p hp, nofun⟩

theorem write {f : DnsParser → DnsParser} {Q : Unit → DnsParser → Prop}
    (h : ∀ p, P p → Q ⟨⟩ (f p)) : Gives P (modify f) Q := by
  rintro p r q hp ⟨⟩
  exact ⟨fun _ _ => h p hp, nofun⟩

theorem keep {f : DnsParser → DnsParser} (h : ∀ p, P p → P (f p)) :
    Gives P (modify f) fun _ q => P q :=
  write h

theorem seq {f : ParseM α} {g : α → ParseM β} (hf : Gives P f Q) (hg : ∀ a, Gives (Q a) (g a) R) :
    Gives P (f >>= g) R := by
  intro p r q hp hrun
  cases hfirst : f.run.run p with
  | none =>
      rw [run_bind_none hfirst] at hrun
      cases hrun
  | some result =>
      obtain ⟨r₁, q₁⟩ := result
      obtain ⟨hok, herror⟩ := hf p r₁ q₁ hp hfirst
      cases r₁ with
      | error e =>
          simp only [ExceptT.run_bind, StateT.run_bind, hfirst, Option.bind_eq_bind,
            Option.bind_some] at hrun
          cases hrun
          exact ⟨nofun, fun e' he' => by cases he'; exact herror e rfl⟩
      | ok a =>
          rw [run_bind_ok hfirst] at hrun
          exact hg a q₁ r q (hok a rfl) hrun

theorem mono {f : ParseM α} (hf : Gives P f Q) (hQ : ∀ a q, Q a q → Q' a q) : Gives P f Q' :=
  fun p r q hp hrun => ⟨fun a ha => hQ a q ((hf p r q hp hrun).1 a ha), (hf p r q hp hrun).2⟩

/-- The parser is looked at, in front of the rest `g`. -/
theorem look {g : DnsParser → ParseM β} (hg : ∀ p, P p → Gives P (g p) R) :
    Gives P (get >>= g) R :=
  fun p r q hp hrun => hg p hp p r q hp hrun

/-- An early `return -2`, in front of the rest `g`. -/
theorem check {c : Prop} [Decidable c] {g : Unit → ParseM β} (hg : ¬ c → ∀ u, Gives P (g u) R) :
    Gives P (if c then throw (-2) >>= g else g ()) R := by
  split
  · intro p r q hp hrun
    cases hrun
    exact ⟨nofun, fun e he => by cases he; decide⟩
  · rename_i hc
    exact hg hc ()

/-- The parser before the function is given a name. -/
theorem since {f : ParseM α} (hf : ∀ p₀, P p₀ → Gives (· = p₀) f Q) : Gives P f Q :=
  fun p r q hp hrun => hf p hp p r q rfl hrun

theorem weaken {f : ParseM α} {P' : DnsParser → Prop} (hf : Gives P f Q) (hP : ∀ p, P' p → P p) :
    Gives P' f Q :=
  fun p r q hp hrun => hf p r q (hP p hp) hrun

end Gives

/-- The parser without its cursor. -/
def DnsParser.still (p : DnsParser) : DnsParser :=
  { p with cur := 0 }

section

variable (fuel : Nat) {r : DnsParser}

/-- The function moves nothing but the cursor. -/
theorem advance_gives (n : Nat) :
    Gives (·.still = r) (advance n) fun _ q => q.still = r :=
  Gives.write fun _ hp => hp

theorem parseHost_gives : Gives (·.still = r) (parseHost fuel) fun _ q => q.still = r := by
  intro p r q hp hrun
  rw [parseHost_run] at hrun
  split at hrun
  · cases hrun
    exact ⟨nofun, fun e he => by cases he; decide⟩
  · obtain ⟨⟨ret, s⟩, -, hres⟩ := Option.map_eq_some_iff.mp hrun
    dsimp only at hres
    split at hres
    · rename_i hneg
      cases hres
      exact ⟨nofun, fun e he => by cases he; exact hneg⟩
    · cases hres
      exact ⟨fun _ _ => hp, nofun⟩

theorem parseAddress_gives (size rdlength : Nat) :
    Gives (·.still = r) (parseAddress size rdlength) fun rdata q =>
      q.still = r ∧ ∃ bytes, rdata = .address bytes ∧ bytes.length = size := by
  unfold parseAddress
  refine Gives.check fun hsize _ => Gives.look fun p hp => ?_
  refine (advance_gives rdlength).seq fun _ => Gives.ret fun q hq => ⟨hq, _, rfl, ?_⟩
  rw [length_bytes]
  omega

theorem parseNames_gives (rdlength : Nat) :
    Gives (·.still = r) (parseNames fuel rdlength) fun rdata q =>
      q.still = r ∧ ∃ name, rdata = .name name :=
  Gives.look fun _ _ => (parseHost_gives fuel).seq fun name => Gives.look fun _ _ =>
    Gives.check fun _ _ => Gives.ret fun _ hq => ⟨hq, name, rfl⟩

theorem parseSoa_gives (rdlength : Nat) :
    Gives (·.still = r) (parseSoa fuel rdlength) fun _ q => q.still = r :=
  Gives.look fun _ _ => (parseHost_gives fuel).seq fun _ => (parseHost_gives fuel).seq fun _ =>
    Gives.look fun _ _ => Gives.check fun _ _ => (advance_gives 20).seq fun _ =>
      Gives.ret fun _ hq => hq

theorem parseSrv_gives (rdlength : Nat) :
    Gives (·.still = r) (parseSrv fuel rdlength) fun _ q => q.still = r :=
  Gives.look fun _ _ => Gives.check fun _ _ => (advance_gives 6).seq fun _ =>
    (parseHost_gives fuel).seq fun _ => Gives.look fun _ _ => Gives.check fun _ _ =>
      Gives.ret fun _ hq => hq

theorem parseMx_gives (rdlength : Nat) :
    Gives (·.still = r) (parseMx fuel rdlength) fun _ q => q.still = r :=
  Gives.look fun _ _ => Gives.check fun _ _ => (advance_gives 2).seq fun _ =>
    (parseHost_gives fuel).seq fun _ => Gives.look fun _ _ => Gives.check fun _ _ =>
      Gives.ret fun _ hq => hq

theorem parseRdata_gives (type rdlength : Nat) :
    Gives (·.still = r) (parseRdata fuel type rdlength) fun rdata q =>
      q.still = r ∧ rdata.OfType type := by
  have hname : ∀ type ≠ 1, type ≠ 28 → Gives (·.still = r) (parseNames fuel rdlength)
      fun rdata q => q.still = r ∧ rdata.OfType type := fun type h1 h28 =>
    (parseNames_gives fuel rdlength).mono fun rdata q hq =>
      ⟨hq.1, fun h => absurd h h1, fun h => absurd h h28, fun _ => hq.2⟩
  have hother : ∀ {f : ParseM DnsRdata} {type : Nat}, type ≠ 1 → type ≠ 28 → type ≠ 5 →
      Gives (·.still = r) f (fun _ q => q.still = r) →
      Gives (·.still = r) f fun rdata q => q.still = r ∧ rdata.OfType type :=
    fun h1 h28 h5 hf => hf.mono fun rdata q hq =>
      ⟨hq, fun h => absurd h h1, fun h => absurd h h28, fun h => absurd h h5⟩
  unfold parseRdata
  split
  · exact (parseAddress_gives 4 rdlength).mono fun rdata q hq => ⟨hq.1, fun _ => hq.2, nofun, nofun⟩
  · exact (parseAddress_gives 16 rdlength).mono fun rdata q hq => ⟨hq.1, nofun, fun _ => hq.2, nofun⟩
  · exact hname 2 (by decide) (by decide)
  · exact hname 5 (by decide) (by decide)
  · exact hname 12 (by decide) (by decide)
  · exact hother (by decide) (by decide) (by decide) (parseSoa_gives fuel rdlength)
  · exact hother (by decide) (by decide) (by decide) (parseSrv_gives fuel rdlength)
  · exact hother (by decide) (by decide) (by decide) (parseMx_gives fuel rdlength)
  · rename_i h1 h28 h2 h5 h12 h6 h33 h15
    refine hother h1 h28 h5 (Gives.look fun _ _ => (advance_gives rdlength).seq fun _ => ?_)
    exact Gives.ret fun _ hq => hq

/-- The section gets one more record. -/
theorem parseOneRecord_gives (idx : Section) :
    Gives (·.still = r) (parseOneRecord fuel idx) fun _ q =>
      ∃ record : DnsRecord, record.rdata.OfType record.type ∧ q.still = idx.addTail record r := by
  refine (parseHost_gives fuel).seq fun host => Gives.look fun p _ => Gives.check fun _ _ => ?_
  refine (advance_gives 10).seq fun _ => Gives.check fun _ _ => ?_
  refine (parseRdata_gives fuel _ _).seq fun rdata => Gives.write fun q hq => ?_
  refine ⟨{
    name := host
    type := p.uint16 p.cur
    rclass := p.uint16 (p.cur + 2)
    ttl := p.uint32 (p.cur + 4)
    rdlength := p.uint16 (p.cur + 8)
    rdata := rdata }, hq.2, ?_⟩
  rw [← hq.1]
  cases idx <;> rfl

/-- Records are added to the section, as many as are asked for. -/
theorem parseRecords_gives (idx : Section) (count : Nat) :
    Gives (·.still = r) (parseRecords fuel idx count) fun _ q =>
      ∃ records : List DnsRecord, records.length = count ∧
        (∀ record ∈ records, record.rdata.OfType record.type) ∧
        q.still = records.foldl (fun p record => idx.addTail record p) r := by
  induction count generalizing r with
  | zero => exact Gives.ret fun p hp => ⟨[], rfl, by simp, hp⟩
  | succ count ih =>
      refine (parseOneRecord_gives fuel idx).seq fun _ => Gives.since fun p hp => ?_
      obtain ⟨record, htype, hstill⟩ := hp
      refine (ih.weaken fun _ h => h ▸ hstill).mono fun _ q hq => ?_
      obtain ⟨records, hlen, htypes, hq⟩ := hq
      exact ⟨record :: records, by rw [List.length_cons, hlen],
        List.forall_mem_cons.mpr ⟨htype, htypes⟩, hq⟩

/-- The answers of the parser, and how many its header counts. -/
def DnsParser.answers (p : DnsParser) : List DnsRecord × Nat :=
  (p.answerList, p.header.ancount)

/-- The other sections leave the answers alone. -/
theorem addTail_answers {idx : Section} (hidx : idx ≠ .answer) (records : List DnsRecord)
    (p : DnsParser) :
    (records.foldl (fun p record => idx.addTail record p) p).answers = p.answers := by
  induction records generalizing p with
  | nil => rfl
  | cons record records ih =>
      rw [List.foldl_cons, ih]
      cases idx with
      | answer => exact absurd rfl hidx
      | authority => rfl
      | additional => rfl

theorem addTail_answer (records : List DnsRecord) (p : DnsParser) :
    (records.foldl (fun p record => Section.answer.addTail record p) p).answers =
      (p.answerList ++ records, p.header.ancount) := by
  induction records generalizing p with
  | nil => simp [DnsParser.answers]
  | cons record records ih =>
      rw [List.foldl_cons, ih]
      simp [Section.addTail]

/-- The parser that stands still keeps its answers. -/
theorem answers_still (p : DnsParser) : p.still.answers = p.answers :=
  rfl

/-- The other sections leave the answers alone. -/
theorem parseRecord_others {idx : Section} (hidx : idx ≠ .answer) (as : List DnsRecord × Nat) :
    Gives (·.answers = as) (parseRecord fuel idx) fun _ q => q.answers = as := by
  refine Gives.look fun p₀ _ => Gives.since fun p hp => ?_
  refine ((parseRecords_gives (r := p.still) fuel idx _).weaken (by rintro _ rfl; rfl)).mono ?_
  rintro - q ⟨records, -, -, hq⟩
  rw [← answers_still, hq, addTail_answers hidx, answers_still, hp]

/-- The answers of an accepted message: as many as the header counts, with data of their types. -/
structure Answered (q : DnsParser) : Prop where
  count : q.answerList.length = q.header.ancount
  types : ∀ record ∈ q.answerList, record.rdata.OfType record.type

/-- The section of the answers collects them in order. -/
theorem parseRecord_answer :
    Gives (·.answerList = []) (parseRecord fuel .answer) fun _ q => Answered q := by
  refine Gives.since fun p hp => Gives.look fun p₀ hp₀ => ?_
  subst hp₀
  refine ((parseRecords_gives (r := p₀.still) fuel .answer _).weaken (by rintro _ rfl; rfl)).mono ?_
  rintro - q ⟨records, hlen, htypes, hq⟩
  have hanswers : q.answers = (records, p₀.header.ancount) := by
    rw [← answers_still, hq, addTail_answer, show p₀.still.answerList = [] from hp]
    rfl
  simp only [DnsParser.answers, Prod.mk.injEq] at hanswers
  obtain ⟨hlist, hcount⟩ := hanswers
  exact ⟨by rw [hlist, hcount, hlen]; rfl, by rw [hlist]; exact htypes⟩

/-- So does the whole parse. -/
theorem parseAllM_gives :
    Gives (·.answerList = []) (parseAllM fuel) fun _ q => Answered q := by
  have hquestion : Gives (·.answerList = []) (parseQuestion fuel) fun _ q => q.answerList = [] := by
    have hhost : Gives (·.answerList = []) (parseHost fuel) fun _ q => q.answerList = [] :=
      Gives.since fun p hp =>
        ((parseHost_gives (r := p.still) fuel).weaken (by rintro _ rfl; rfl)).mono fun _ q hq =>
          (congrArg DnsParser.answerList hq).trans hp
    refine Gives.look fun _ _ => Gives.check fun _ _ => hhost.seq fun _ => Gives.look fun _ _ => ?_
    exact Gives.check fun _ _ => (Gives.keep (by intro p hp; exact hp)).seq fun _ =>
      Gives.keep (by intro p hp; exact hp)
  have hkeep : ∀ {idx : Section}, idx ≠ .answer →
      Gives Answered (parseRecord fuel idx) fun _ q => Answered q := by
    intro idx hidx
    refine Gives.since fun p hp => ?_
    refine ((parseRecord_others fuel hidx p.answers).weaken (by rintro _ rfl; rfl)).mono ?_
    intro _ q hq
    simp only [DnsParser.answers, Prod.mk.injEq] at hq
    exact ⟨by rw [hq.1, hq.2]; exact hp.count, by rw [hq.1]; exact hp.types⟩
  unfold parseAllM
  refine (Gives.keep (by intro p hp; exact hp)).seq fun _ => Gives.look fun _ _ => ?_
  refine Gives.check fun _ _ => ?_
  refine (Gives.keep (by intro p hp; exact hp)).seq fun _ => hquestion.seq fun _ => ?_
  exact (parseRecord_answer fuel).seq fun _ =>
    (hkeep (show Section.authority ≠ .answer from nofun)).seq fun _ =>
    hkeep (show Section.additional ≠ .answer from nofun)

end

/-- A parser that still waits has no answers. -/
theorem Waiting.answerList {p : DnsParser} (h : Waiting p) :
    p.complete = false ∧ p.answerList = [] := by
  induction h with
  | init singlePacket => exact ⟨rfl, rfl⟩
  | @append fuel n fresh buf p q hp hcall ih =>
      obtain ⟨hcomplete, hlist⟩ := ih
      have hcopy : (copyIn fresh buf p).complete = false ∧ (copyIn fresh buf p).answerList = [] := by
        unfold copyIn
        simp only
        split
        · exact ⟨hcomplete, hlist⟩
        · exact ⟨hcomplete, hlist⟩
      unfold dnsParserAppendMessage at hcall
      cases hreceive : receive fresh buf p with
      | error r =>
          rw [hreceive] at hcall
          cases hcall
          simp only [receive, hcomplete, Bool.false_eq_true, if_false] at hreceive
          split at hreceive
          · split at hreceive
            · cases hreceive
              exact hcopy
            · split at hreceive
              · cases hreceive
                exact hcopy
              · cases hreceive
          · cases hreceive
      | ok handed =>
          rw [hreceive] at hcall
          obtain ⟨⟨ret, r⟩, -, hres⟩ := Option.map_eq_some_iff.mp hcall
          simp only [Prod.mk.injEq] at hres
          have hret := hres.1
          split at hret
          · omega
          · cases hret

/-- Receiving bytes adds no answer. -/
theorem receive_answerList {fresh : Nat → Byte} {buf : List Byte} {p q : DnsParser} {n : Nat}
    (h : receive fresh buf p = .ok (n, q)) : q.answerList = p.answerList := by
  have hcopy : (copyIn fresh buf p).answerList = p.answerList := by
    unfold copyIn
    simp only
    split <;> rfl
  unfold receive at h
  split at h
  · cases h
  · split at h
    · simp only at h
      split at h
      · cases h
      · split at h
        · cases h
        · cases h
          exact hcopy
    · cases h
      rfl

/-- Hence the answers of an accepted response are those that were parsed. -/
theorem AcceptedResponse.answered {q : DnsParser} (h : AcceptedResponse q) : Answered q := by
  obtain ⟨fuel, fresh, buf, p, n, hp, hcall⟩ := h
  obtain ⟨hcomplete, hlist⟩ := hp.answerList
  unfold dnsParserAppendMessage at hcall
  cases hreceive : receive fresh buf p with
  | error r =>
      rw [hreceive] at hcall
      cases hcall
      simp only [receive, hcomplete, Bool.false_eq_true, if_false] at hreceive
      split at hreceive
      · split at hreceive
        · cases hreceive
        · split at hreceive <;> cases hreceive
      · cases hreceive
  | ok handed =>
      rw [hreceive] at hcall
      obtain ⟨⟨ret, r⟩, hparse, hres⟩ := Option.map_eq_some_iff.mp hcall
      simp only [Prod.mk.injEq] at hres
      obtain ⟨hret, -, rfl⟩ := hres
      obtain ⟨⟨result, r'⟩, hrun, hcode⟩ := Option.map_eq_some_iff.mp hparse
      have hstart : handed.2.answerList = [] := (receive_answerList hreceive).trans hlist
      obtain ⟨hok, herror⟩ := parseAllM_gives fuel handed.2 result r' hstart hrun
      cases result with
      | ok u =>
          cases hcode
          exact hok u rfl
      | error e =>
          cases hcode
          have hneg := herror ret rfl
          rw [if_pos hneg] at hret
          omega

/-! ### Chains of aliases -/

/-- The record is an alias of this name. -/
def IsAliasOf (name : List Byte) (r : DnsRecord) : Bool :=
  r.type = 5 && strcasecmpEq name r.name

/-- Where the first alias of a name leads. -/
def cnameOf (answers : List DnsRecord) (name : List Byte) : Option (List Byte) :=
  (answers.find? (IsAliasOf name)).map (·.rdata.cname)

theorem findCnameLoop_fst (answers : List DnsRecord) (name : List Byte) :
    (findCnameLoop name answers).1 = cnameOf answers name := by
  induction answers with
  | nil => rfl
  | cons r rest ih =>
      unfold findCnameLoop cnameOf
      by_cases halias : r.type = 5 ∧ strcasecmpEq name r.name = true
      · rw [if_pos halias, List.find?_cons_of_pos (by simpa [IsAliasOf] using halias)]
        rfl
      · rw [if_neg halias, List.find?_cons_of_neg (by simpa [IsAliasOf] using halias)]
        exact ih

/-- Names are compared without regard to case. -/
theorem cnameOf_congr {answers : List DnsRecord} {a b : List Byte} (h : strcasecmpEq a b = true) :
    cnameOf answers a = cnameOf answers b := by
  have hmap : a.map tolower = b.map tolower := by simpa [strcasecmpEq] using h
  have hsame : IsAliasOf a = IsAliasOf b := by
    funext r
    simp [IsAliasOf, strcasecmpEq, hmap]
  rw [cnameOf, cnameOf, hsame]

/-- A chain that ends has no more links than there are answers, and as many only if every answer is
an alias. -/
theorem cnames_le {answers : List DnsRecord} {a e : List Byte} {k : Nat}
    (h : ChainEnds (cnameOf answers) a k e) :
    k ≤ answers.length ∧ (k = answers.length → ∀ r ∈ answers, r.type = 5) := by
  classical
  have hnext : ∀ name, cnameOf answers name =
      (answers.find? (IsAliasOf name)).map fun r => r.rdata.cname := fun _ => rfl
  obtain ⟨s, hcard, hs⟩ := h.places hnext
  let aliases := answers.filter (·.type = 5)
  have hsub : s ⊆ aliases.toFinset := by
    intro r hr
    obtain ⟨⟨name, hfind⟩, -⟩ := hs r hr
    have halias : IsAliasOf name r = true := List.find?_some hfind
    simp only [IsAliasOf, Bool.and_eq_true, decide_eq_true_eq] at halias
    simp [aliases, List.mem_of_find?_eq_some hfind, halias.1]
  have hle : k ≤ aliases.length := by
    rw [← hcard]
    exact (Finset.card_le_card hsub).trans (List.toFinset_card_le aliases)
  have hall : aliases.length ≤ answers.length := List.length_filter_le _ _
  refine ⟨by omega, fun hk r hr => ?_⟩
  have hfull : aliases.length = answers.length := by omega
  simpa using List.length_filter_eq_length_iff.mp hfull r hr

/-- The name of the question. -/
def DnsParser.qname (q : DnsParser) : List Byte :=
  q.question.qname.getD []

/-- The chain that starts at the name of the question ends at `e`. -/
def EndsAt (q : DnsParser) (e : List Byte) : Prop :=
  ∃ k, ChainEnds (cnameOf q.answerList) q.qname k e

/-- The chain comes back to a name that differs in case at most. -/
def CyclicChain (q : DnsParser) : Prop :=
  Cyclic (cnameOf q.answerList) (fun a b => strcasecmpEq a b = true) q.qname

section

variable {answers : List DnsRecord} {a e : List Byte} {n : Int}

/-- A pass at the end of the chain. -/
theorem chainStep_none {s : ChainState} (hhead : s.cursor.head = answers)
    (h : cnameOf answers s.cname = none) :
    ∃ cursor, chainStep s = .done { s with cursor := cursor } := by
  have hfst : (findCname s.cname s.cursor).1 = none := by
    rw [← h, ← findCnameLoop_fst, ← hhead]
    rfl
  refine ⟨(findCname s.cname s.cursor).2, ?_⟩
  unfold chainStep
  split
  · rename_i cursor heq
    rw [heq]
  · rename_i cname cursor heq
    rw [heq] at hfst
    cases hfst

/-- A pass along the chain. -/
theorem chainStep_some {s : ChainState} {b : List Byte} (hhead : s.cursor.head = answers)
    (h : cnameOf answers s.cname = some b) :
    ∃ cursor : DnsRecordCursor, cursor.head = answers ∧
      chainStep s = if s.ancount > 0 then .next ⟨b, s.ancount - 1, cursor⟩
        else .done ⟨b, s.ancount - 1, cursor⟩ := by
  have hfst : (findCname s.cname s.cursor).1 = some b := by
    rw [← h, ← findCnameLoop_fst, ← hhead]
    rfl
  refine ⟨(findCname s.cname s.cursor).2, hhead, ?_⟩
  unfold chainStep
  split
  · rename_i cursor heq
    rw [heq] at hfst
    cases hfst
  · rename_i cname cursor heq
    rw [heq] at hfst ⊢
    cases hfst
    rfl

/-- A chain that ends within the budget is followed to its end. -/
theorem chain_followed {k : Nat} (h : ChainEnds (cnameOf answers) a k e) (hk : (k : Int) ≤ n)
    (cursor : DnsRecordCursor) (hhead : cursor.head = answers) :
    ∃ fuel s, loop chainStep fuel ⟨a, n, cursor⟩ = some s ∧ s.cname = e ∧ s.ancount = n - k := by
  induction h generalizing n cursor with
  | @stop a hnone =>
      obtain ⟨cursor', hstep⟩ := chainStep_none (s := ⟨a, n, cursor⟩) hhead hnone
      exact ⟨1, _, loop_done hstep 0, rfl, by simp⟩
  | @link a b e k hlink hrest ih =>
      obtain ⟨cursor', hhead', hstep⟩ := chainStep_some (s := ⟨a, n, cursor⟩) hhead hlink
      rw [if_pos (show n > 0 by omega)] at hstep
      obtain ⟨fuel, s, hloop, hname, hcount⟩ := ih (n := n - 1) (by omega) cursor' hhead'
      exact ⟨fuel + 1, s, by rw [loop_next hstep, hloop], hname, by rw [hcount]; omega⟩

/-- A chain without an end uses up the budget. -/
theorem chain_cut (m : Nat) (hno : ∀ k e, ¬ ChainEnds (cnameOf answers) a k e)
    (cursor : DnsRecordCursor) (hhead : cursor.head = answers) :
    ∃ fuel s, loop chainStep fuel ⟨a, m, cursor⟩ = some s ∧ s.ancount < 0 := by
  induction m generalizing a cursor with
  | zero =>
      cases hlink : cnameOf answers a with
      | none => exact absurd (.stop hlink) (hno 0 a)
      | some b =>
          obtain ⟨cursor', -, hstep⟩ := chainStep_some (s := ⟨a, 0, cursor⟩) hhead hlink
          rw [if_neg (by simp)] at hstep
          exact ⟨1, _, loop_done hstep 0, by simp⟩
  | succ m ih =>
      cases hlink : cnameOf answers a with
      | none => exact absurd (.stop hlink) (hno 0 a)
      | some b =>
          obtain ⟨cursor', hhead', hstep⟩ :=
            chainStep_some (s := ⟨a, (m : Int) + 1, cursor⟩) hhead hlink
          rw [if_pos (show (m : Int) + 1 > 0 by omega), show (m : Int) + 1 - 1 = m by omega] at hstep
          obtain ⟨fuel, s, hloop, hneg⟩ :=
            ih (fun k e hrest => hno (k + 1) e (.link hlink hrest)) cursor' hhead'
          exact ⟨fuel + 1, s, by rw [Nat.cast_succ, loop_next hstep, hloop], hneg⟩

end

/-! ### Addresses -/

/-- The record is an address of this name. -/
def IsAddressOf (e : List Byte) (r : DnsRecord) : Bool :=
  r.rclass = 1 && (r.type = 1 || r.type = 28) && strcasecmpEq r.name e

/-- The entry holds the address of the record, and the port. -/
structure Describes (port : UInt16) (info : AddrInfo) (r : DnsRecord) : Prop where
  family : info.family = if r.type = 1 then .inet else .inet6
  port : info.port = htons port
  addr : r.rdata = .address info.addr

/-- A record of another name or type gives no address. -/
theorem addressOf_of_not {port : UInt16} {e : List Byte} {r : DnsRecord}
    (h : IsAddressOf e r = false) : addressOf port e r = none := by
  refine if_pos fun hall => ?_
  obtain ⟨hclass, hkind, hname⟩ := hall
  simp only [IsAddressOf, hclass, hname, decide_true, Bool.true_and, Bool.and_true] at h
  rcases hkind with ha | haaaa
  · simp [ha] at h
  · simp [haaaa] at h

/-- An address record gives the address that it holds. -/
theorem addressOf_spec (port : UInt16) {e : List Byte} {r : DnsRecord}
    (htype : r.rdata.OfType r.type) (h : IsAddressOf e r = true) :
    ∃ info, addressOf port e r = some info ∧ Describes port info r := by
  simp only [IsAddressOf, Bool.and_eq_true, Bool.or_eq_true, decide_eq_true_eq] at h
  obtain ⟨⟨hclass, hkind⟩, hname⟩ := h
  unfold addressOf
  rw [if_neg (not_not_intro ⟨hclass, hkind, hname⟩)]
  by_cases ha : r.type = 1
  · obtain ⟨bytes, hdata, hlen⟩ := htype.a ha
    rw [if_pos ha]
    refine ⟨_, rfl, (if_pos ha).symm, rfl, ?_⟩
    rw [hdata, DnsRdata.addressBytes, ← hlen, List.take_length]
  · obtain ⟨bytes, hdata, hlen⟩ := htype.aaaa (hkind.resolve_left ha)
    rw [if_neg ha]
    refine ⟨_, rfl, (if_neg ha).symm, rfl, ?_⟩
    rw [hdata, DnsRdata.addressBytes, ← hlen, List.take_length]

/-- The entries are those of the addresses of the name, in the order of the answers. -/
theorem collect_spec (port : UInt16) (e : List Byte) {records : List DnsRecord}
    (htypes : ∀ r ∈ records, r.rdata.OfType r.type) :
    List.Forall₂ (Describes port) (collect port e records) (records.filter (IsAddressOf e)) := by
  induction records with
  | nil => exact .nil
  | cons r records ih =>
      obtain ⟨htype, hrest⟩ := List.forall_mem_cons.mp htypes
      unfold collect
      cases haddress : IsAddressOf e r with
      | false =>
          rw [addressOf_of_not haddress, List.filter_cons_of_neg (by simp [haddress])]
          exact ih hrest
      | true =>
          obtain ⟨info, hinfo, hdescribes⟩ := addressOf_spec port htype haddress
          rw [hinfo, List.filter_cons_of_pos haddress]
          exact .cons hdescribes (ih hrest)

/-- The name on the first entry changes nothing of what it says about the record. -/
theorem named_spec {port : UInt16} {e : List Byte} {infos : List AddrInfo}
    {records : List DnsRecord} (h : List.Forall₂ (Describes port) infos records) :
    if records = [] then named e infos = .error .nodata
    else ∃ result, named e infos = .ok result ∧ List.Forall₂ (Describes port) result records := by
  cases h with
  | nil => exact if_pos rfl ▸ rfl
  | cons hfirst hrest =>
      rw [if_neg (List.cons_ne_nil _ _)]
      exact ⟨_, rfl, .cons ⟨hfirst.family, hfirst.port, hfirst.addr⟩ hrest⟩

/-- An accepted response without an error is resolved: the loop over the aliases ends; where the
chain from the question ends, the result are the addresses of its last name, in the order of the
answers, or there is none; where the chain is cyclic there is none. -/
theorem cname_resolution (q : DnsParser) (port : UInt16) (h : AcceptedResponse q)
    (hrcode : q.header.rcode = 0) :
    ∃ fuel result, getaddrinfo fuel q port = some result ∧
      (∀ e, EndsAt q e →
        if q.answerList.filter (IsAddressOf e) = [] then result = .error .nodata
        else ∃ infos, result = .ok infos ∧
          List.Forall₂ (Describes port) infos (q.answerList.filter (IsAddressOf e))) ∧
      (CyclicChain q → result = .error .nodata) := by
  obtain ⟨hcount, htypes⟩ := h.answered
  have hresult : ∀ {fuel : Nat} {s : ChainState},
      loop chainStep fuel ⟨q.qname, q.header.ancount, dnsAnswerCursorInit q⟩ = some s →
      getaddrinfo fuel q port = some (if s.ancount ≤ 0 then .error .nodata else
        named s.cname (collect port s.cname q.answerList)) := by
    intro fuel s hloop
    have hrun : getaddrinfo fuel q port = (loop chainStep fuel ⟨q.qname, q.header.ancount,
        dnsAnswerCursorInit q⟩).map _ := rfl
    rw [hrun, hloop, Option.map_some]
    by_cases hover : s.ancount ≤ 0
    · simp [hrcode, hover]
    · simp [hrcode, hover, rcodeStatus, dnsAnswerCursorInit]
  by_cases hends : ∃ e, EndsAt q e
  · obtain ⟨e, k, hchain⟩ := hends
    obtain ⟨hle, hfull⟩ := cnames_le hchain
    rw [hcount] at hle hfull
    obtain ⟨fuel, s, hloop, hname, hleft⟩ :=
      chain_followed (n := q.header.ancount) hchain (by omega) (dnsAnswerCursorInit q) rfl
    refine ⟨fuel, _, hresult hloop, fun e' hends' => ?_, fun hcycle => ?_⟩
    · obtain ⟨k', hchain'⟩ := hends'
      obtain ⟨-, rfl⟩ := hchain.unique hchain'
      have hinfos := collect_spec port e htypes
      rw [hname]
      by_cases hall : s.ancount ≤ 0
      · -- every answer is an alias of the chain
        have hnone : q.answerList.filter (IsAddressOf e) = [] := by
          rw [List.filter_eq_nil_iff]
          intro r hr
          have hfive := hfull (by omega) r hr
          simp [IsAddressOf, hfive]
        rw [if_pos hall, if_pos hnone]
      · rw [if_neg hall]
        exact named_spec hinfos
    · exact absurd hchain (hcycle.not_chainEnds (fun _ _ hsame => cnameOf_congr hsame) k e)
  · have hno : ∀ k e, ¬ ChainEnds (cnameOf q.answerList) q.qname k e := fun k e hchain =>
      hends ⟨e, k, hchain⟩
    obtain ⟨fuel, s, hloop, hneg⟩ := chain_cut q.header.ancount hno (dnsAnswerCursorInit q) rfl
    refine ⟨fuel, _, hresult hloop, fun e hend => absurd ⟨e, hend⟩ hends, fun _ => ?_⟩
    rw [if_pos (by omega)]

/-- `a` is an alias of `b`, and `b` has the address 1.2.3.4. -/
def aliasResponse : List Byte :=
  [0, 7, 0x81, 0x80, 0, 1, 0, 2, 0, 0, 0, 0, 1, 97, 0, 0, 1, 0, 1,
    0xC0, 12, 0, 5, 0, 1, 0, 0, 0, 60, 0, 3, 1, 98, 0,
    1, 66, 0, 0, 1, 0, 1, 0, 0, 0, 60, 0, 4, 1, 2, 3, 4]

theorem cname_resolution_alias :
    ∃ q fuel result, AcceptedResponse q ∧ getaddrinfo fuel q 80 = some result ∧
      (∀ e, EndsAt q e →
        if q.answerList.filter (IsAddressOf e) = [] then result = .error .nodata
        else ∃ infos, result = .ok infos ∧
          List.Forall₂ (Describes 80) infos (q.answerList.filter (IsAddressOf e))) := by
  have hrun : ((dnsParserAppendMessage 8 (fun _ => 0) aliasResponse (dnsParserInit true)).map
      fun r => (r.1, r.2.2.header.rcode)) = some (1, 0) := by decide +kernel
  obtain ⟨⟨ret, n, q⟩, hcall, hres⟩ := Option.map_eq_some_iff.mp hrun
  simp only [Prod.mk.injEq] at hres
  obtain ⟨rfl, hrcode⟩ := hres
  have haccepted : AcceptedResponse q := ⟨8, fun _ => 0, aliasResponse, _, n, .init true, hcall⟩
  obtain ⟨fuel, result, hresult, hends, -⟩ := cname_resolution q 80 haccepted hrcode
  exact ⟨q, fuel, result, haccepted, hresult, hends⟩

end Workflow.Dns
