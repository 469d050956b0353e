/-
Module: Workflow.Proofs.DnsTermination
Layer: Proofs
Purpose: When the DNS parser returns. Labels are bounded by the size of a name, so a domain name that
  is never finished follows compression pointers in a circle; without such a circle every name and
  with it the whole message is parsed.
Trusted boundary: none
Main exports: Jump, NoPointerCycle, hostStep_halts, not_halts_of_cycle, Ends, parseAllM_ends,
  dnsParser_returns_iff, dnsParserAppendMessage_returns
-/
import Workflow.Protocol.DnsParser

namespace Workflow.Dns

open Workflow.Lib

/-! ### Compression pointers -/

/-- The position `a` holds a compression pointer to `b` that the parser follows. -/
def Jump (m : DnsMessage) (a b : Nat) : Prop :=
  a < m.msgend ∧ m.msgbuf a &&& 0xC0 = 0xC0 ∧ m.uint16 a % 2 ^ 14 < m.msgsize ∧
    b = m.msgbase + m.uint16 a % 2 ^ 14

/-- No chain of compression pointers leads back to where it started. -/
def NoPointerCycle (m : DnsMessage) : Prop :=
  ∀ a, ¬ Relation.TransGen (Jump m) a a

/-- A pass through the loop follows a pointer, or makes the name longer. -/
theorem hostStep_next {m : DnsMessage} {s t : HostState} (h : hostStep m s = .next t) :
    (Jump m s.cur t.cur ∧ t.host = s.host) ∨
      (s.host.length < t.host.length ∧ t.host.length ≤ dnsNamesMax) := by
  unfold hostStep at h
  split at h
  · rename_i hcur
    simp only at h
    split at h
    · split at h
      · simp at h
      · split at h
        · simp at h
        · rename_i hlen hok
          simp only [Step.next.injEq] at h
          have hdot : (ascii ".").length = 1 := rfl
          simp only [← h, List.length_append, DnsMessage.bytes, List.length_map, List.length_range,
            hdot]
          omega
    · split at h
      · split at h
        · simp at h
        · rename_i hptr hin
          simp only [Step.next.injEq] at h
          rw [← h]
          exact Or.inl ⟨⟨hcur, hptr, by omega, rfl⟩, rfl⟩
      · simp at h
  · simp at h

/-- A pointer is followed whatever the name is so far. -/
theorem hostStep_of_jump {m : DnsMessage} {s : HostState} {b : Nat} (h : Jump m s.cur b) :
    ∃ t, hostStep m s = .next t ∧ t.cur = b := by
  obtain ⟨hcur, hptr, hin, rfl⟩ := h
  have hlabel : ¬ (m.msgbuf s.cur &&& 0xC0 = 0) := by
    rw [hptr]
    decide
  refine ⟨{ s with
    cur := m.msgbase + m.uint16 s.cur % 2 ^ 14
    curbackup := some (s.curbackup.getD (s.cur + 2)) }, ?_, rfl⟩
  unfold hostStep
  simp only
  rw [if_pos hcur, if_neg hlabel, if_pos hptr, if_neg (Nat.not_le.mpr hin)]

/-- Without a circle of pointers every name comes to an end. -/
theorem hostStep_halts {m : DnsMessage} (h : NoPointerCycle m) (s : HostState) :
    Halts (hostStep m) s := by
  have hjump : WellFounded (fun b a => Jump m a b) :=
    wellFounded_of_acyclic (n := m.msgend) (fun a b hab => hab.1) h
  -- a label uses up room in the name, a pointer descends along the pointers
  have hwf := InvImage.wf (fun s : HostState => (dnsNamesMax - s.host.length, s.cur))
    (Prod.lex ⟨_, Nat.lt_wfRel.wf⟩ ⟨_, hjump⟩).wf
  refine halts_of_wellFounded hwf (P := fun _ => True) (fun s t _ hst => ⟨trivial, ?_⟩) s trivial
  rcases hostStep_next hst with ⟨hj, hhost⟩ | ⟨hlt, hle⟩
  · simp only [InvImage, hhost]
    exact Prod.Lex.right _ hj
  · exact Prod.Lex.left _ _ (show _ < _ by omega)

/-- A name that enters a circle of pointers never comes to an end. -/
theorem not_halts_of_cycle {m : DnsMessage} {s : HostState}
    (h : Relation.TransGen (Jump m) s.cur s.cur) : ¬ Halts (hostStep m) s := by
  refine not_halts_of_invariant (P := fun s => Relation.TransGen (Jump m) s.cur s.cur)
    (fun s hs => ?_) h
  obtain ⟨b, hb, hback⟩ := Relation.TransGen.head'_iff.mp hs
  obtain ⟨t, hnext, ht⟩ := hostStep_of_jump hb
  refine ⟨t, hnext, ?_⟩
  rw [ht]
  exact Relation.TransGen.tail' hback hb

/-! ### Functions that return -/

/-- The function returns on every parser of the message `m` and leaves the message alone. -/
def Ends (m : DnsMessage) {α : Type} (f : ParseM α) : Prop :=
  ∀ p : DnsParser, p.toDnsMessage = m →
    ∃ r q, f.run.run p = some (r, q) ∧ q.toDnsMessage = m

namespace Ends

variable {m : DnsMessage} {α β : Type}

theorem ret (a : α) : Ends m (pure a) :=
  fun p hp => ⟨_, p, rfl, hp⟩

theorem fail (e : Int) : Ends m (throw e : ParseM α) :=
  fun p hp => ⟨_, p, rfl, hp⟩

theorem read : Ends m get :=
  fun p hp => ⟨_, p, rfl, hp⟩

theorem write {f : DnsParser → DnsParser} (hf : ∀ p, (f p).toDnsMessage = p.toDnsMessage) :
    Ends m (modify f) :=
  fun p hp => ⟨_, f p, rfl, (hf p).trans hp⟩

/-- Two parts that return do so one after the other. -/
theorem seq {f : ParseM α} {g : α → ParseM β} (hf : Ends m f) (hg : ∀ a, Ends m (g a)) :
    Ends m (f >>= g) := by
  intro p hp
  obtain ⟨r, q, hrun, hq⟩ := hf p hp
  cases r with
  | error e => exact ⟨.error e, q, by simp [ExceptT.run_bind, hrun], hq⟩
  | ok a =>
      obtain ⟨r', q', hrun', hq'⟩ := hg a q hq
      exact ⟨r', q', by simp [ExceptT.run_bind, hrun, hrun'], hq'⟩

/-- An early `return` with an error code, in front of the rest `g`. -/
theorem check {c : Prop} [Decidable c] {e : Int} {g : Unit → ParseM α} (hg : ∀ u, Ends m (g u)) :
    Ends m (if c then throw e >>= g else g ()) := by
  split
  · exact (fail e).seq hg
  · exact hg ()

end Ends

theorem advance_ends {m : DnsMessage} (n : Nat) : Ends m (advance n) :=
  Ends.write fun _ => rfl

theorem parseAddress_ends {m : DnsMessage} (size rdlength : Nat) :
    Ends m (parseAddress size rdlength) := by
  unfold parseAddress
  exact Ends.check fun _ => Ends.read.seq fun _ => (advance_ends rdlength).seq fun _ => Ends.ret _

section

variable {m : DnsMessage} {fuel : Nat}

theorem parseNames_ends (hhost : Ends m (parseHost fuel)) (rdlength : Nat) :
    Ends m (parseNames fuel rdlength) :=
  Ends.read.seq fun _ => hhost.seq fun _ => Ends.read.seq fun _ => Ends.check fun _ => Ends.ret _

theorem parseSoa_ends (hhost : Ends m (parseHost fuel)) (rdlength : Nat) :
    Ends m (parseSoa fuel rdlength) :=
  Ends.read.seq fun _ => hhost.seq fun _ => hhost.seq fun _ => Ends.read.seq fun _ =>
    Ends.check fun _ => (advance_ends 20).seq fun _ => Ends.ret _

theorem parseSrv_ends (hhost : Ends m (parseHost fuel)) (rdlength : Nat) :
    Ends m (parseSrv fuel rdlength) :=
  Ends.read.seq fun _ => Ends.check fun _ => (advance_ends 6).seq fun _ => hhost.seq fun _ =>
    Ends.read.seq fun _ => Ends.check fun _ => Ends.ret _

theorem parseMx_ends (hhost : Ends m (parseHost fuel)) (rdlength : Nat) :
    Ends m (parseMx fuel rdlength) :=
  Ends.read.seq fun _ => Ends.check fun _ => (advance_ends 2).seq fun _ => hhost.seq fun _ =>
    Ends.read.seq fun _ => Ends.check fun _ => Ends.ret _

theorem parseOthers_ends (rdlength : Nat) : Ends m (parseOthers rdlength) :=
  Ends.read.seq fun _ => (advance_ends rdlength).seq fun _ => Ends.ret _

/-- The data of a record is parsed if its names are. -/
theorem parseRdata_ends (hhost : Ends m (parseHost fuel)) (type rdlength : Nat) :
    Ends m (parseRdata fuel type rdlength) := by
  unfold parseRdata
  split
  · exact parseAddress_ends 4 rdlength
  · exact parseAddress_ends 16 rdlength
  · exact parseNames_ends hhost rdlength
  · exact parseNames_ends hhost rdlength
  · exact parseNames_ends hhost rdlength
  · exact parseSoa_ends hhost rdlength
  · exact parseSrv_ends hhost rdlength
  · exact parseMx_ends hhost rdlength
  · exact parseOthers_ends rdlength

theorem parseOneRecord_ends (hhost : Ends m (parseHost fuel)) (idx : Section) :
    Ends m (parseOneRecord fuel idx) := by
  refine hhost.seq fun _ => Ends.read.seq fun _ => Ends.check fun _ => (advance_ends 10).seq fun _ =>
    Ends.check fun _ => (parseRdata_ends hhost _ _).seq fun _ => Ends.write fun _ => ?_
  cases idx <;> rfl

/-- So are the records of a section. -/
theorem parseRecords_ends (hhost : Ends m (parseHost fuel)) (idx : Section) (count : Nat) :
    Ends m (parseRecords fuel idx count) := by
  induction count with
  | zero => exact Ends.ret _
  | succ count ih => exact (parseOneRecord_ends hhost idx).seq fun _ => ih

/-- So is the question. -/
theorem parseQuestion_ends (hhost : Ends m (parseHost fuel)) : Ends m (parseQuestion fuel) :=
  Ends.read.seq fun _ => Ends.check fun _ => hhost.seq fun _ => Ends.read.seq fun _ =>
    Ends.check fun _ => (advance_ends 4).seq fun _ => Ends.write fun _ => rfl

/-- If every name is parsed, so is the message. -/
theorem parseAllM_ends (hhost : Ends m (parseHost fuel)) : Ends m (parseAllM fuel) := by
  have hrecord : ∀ idx, Ends m (parseRecord fuel idx) := fun idx =>
    Ends.read.seq fun _ => parseRecords_ends hhost idx _
  unfold parseAllM
  refine (Ends.write (by intro p; rfl)).seq fun _ => Ends.read.seq fun _ => ?_
  refine Ends.check fun _ => ?_
  refine (Ends.write (by intro p; rfl)).seq fun _ => (parseQuestion_ends hhost).seq fun _ => ?_
  exact (hrecord .answer).seq fun _ => (hrecord .authority).seq fun _ => hrecord .additional

end

/-! ### The parser as a whole -/

/-- The loop over a name, as a loop. -/
theorem parseHost_run (fuel : Nat) (p : DnsParser) :
    (parseHost fuel).run.run p =
      if p.cur ≥ p.msgend then some (.error (-2), p)
      else
        (loop (hostStep p.toDnsMessage) fuel (hostStart p.cur)).map fun (ret, s) =>
          if ret < 0 then (.error ret, { p with cur := s.cur })
          else (.ok (hostName s.host), { p with cur := s.curbackup.getD s.cur }) :=
  rfl

/-- Without a circle of pointers, one amount of fuel is enough for the names at all positions. -/
theorem parseHost_ends {m : DnsMessage} (h : NoPointerCycle m) :
    ∃ fuel, Ends m (parseHost fuel) := by
  obtain ⟨fuel, hfuel⟩ := exists_fuel hostStart m.msgend fun i _ => hostStep_halts h (hostStart i)
  refine ⟨fuel, fun p hp => ?_⟩
  subst hp
  rw [parseHost_run]
  by_cases hcur : p.cur ≥ p.msgend
  · exact ⟨_, p, if_pos hcur, rfl⟩
  · obtain ⟨⟨ret, s⟩, hr⟩ := Option.isSome_iff_exists.mp (hfuel p.cur (by omega))
    rw [if_neg hcur, hr, Option.map_some]
    simp only
    split
    · exact ⟨_, _, rfl, rfl⟩
    · exact ⟨_, _, rfl, rfl⟩

/-- A domain name is parsed at the position `start`. -/
def HostReturns (p : DnsParser) (start : Nat) : Prop :=
  ∃ fuel r, (parseHost fuel).run.run { p with cur := start } = some r

/-- `dns_parser_parse_all` returns. -/
def ParseAllReturns (p : DnsParser) : Prop :=
  ∃ fuel r, dnsParserParseAll fuel p = some r

theorem parseAllReturns_of_noPointerCycle {p : DnsParser} (h : NoPointerCycle p.toDnsMessage) :
    ParseAllReturns p := by
  obtain ⟨fuel, hfuel⟩ := parseHost_ends h
  obtain ⟨r, q, hrun, _⟩ := parseAllM_ends hfuel p rfl
  exact ⟨fuel, _, by rw [dnsParserParseAll, hrun]; rfl⟩

/-- A name at a position on a circle of pointers is never parsed. -/
theorem not_hostReturns_of_cycle {p : DnsParser} {start : Nat}
    (h : Relation.TransGen (Jump p.toDnsMessage) start start) : ¬ HostReturns p start := by
  rintro ⟨fuel, r, hr⟩
  obtain ⟨b, hb, _⟩ := Relation.TransGen.head'_iff.mp h
  have hcur : ¬ start ≥ p.msgend := Nat.not_le.mpr hb.1
  rw [parseHost_run, if_neg hcur, Option.map_eq_some_iff] at hr
  obtain ⟨r', hr', _⟩ := hr
  exact not_halts_of_cycle (s := hostStart start) h ⟨fuel, r', hr'⟩

/-- The parser returns on a message, from every position and as a whole, exactly when the compression
pointers of the message do not form a circle. -/
theorem dnsParser_returns_iff (p : DnsParser) :
    ((∀ start, HostReturns p start) ∧ ParseAllReturns p) ↔ NoPointerCycle p.toDnsMessage := by
  constructor
  · rintro ⟨hhost, _⟩ start hcycle
    exact not_hostReturns_of_cycle hcycle (hhost start)
  · intro h
    obtain ⟨fuel, hfuel⟩ := parseHost_ends h
    refine ⟨fun start => ?_, parseAllReturns_of_noPointerCycle h⟩
    obtain ⟨r, q, hrun, _⟩ := hfuel { p with cur := start } rfl
    exact ⟨fuel, _, hrun⟩

/-- A call returns whenever the message it hands on has no circle of pointers. -/
theorem dnsParserAppendMessage_returns {fresh : Nat → Byte} {buf : List Byte} {p : DnsParser}
    (h : ∀ n q, receive fresh buf p = .ok (n, q) → NoPointerCycle q.toDnsMessage) :
    ∃ fuel r, dnsParserAppendMessage fuel fresh buf p = some r := by
  unfold dnsParserAppendMessage
  cases hreceive : receive fresh buf p with
  | error r => exact ⟨0, r, rfl⟩
  | ok handed =>
      obtain ⟨fuel, r, hr⟩ := parseAllReturns_of_noPointerCycle (h handed.1 handed.2 hreceive)
      exact ⟨fuel, _, by simp only [hr]; rfl⟩

/-! ### A message that is never parsed -/

theorem run_get_bind {α : Type} (g : DnsParser → ParseM α) (p : DnsParser) :
    (get >>= g).run.run p = (g p).run.run p :=
  rfl

theorem run_modify_bind {α : Type} (f : DnsParser → DnsParser) (g : PUnit → ParseM α)
    (p : DnsParser) : (modify f >>= g).run.run p = (g ⟨⟩).run.run (f p) :=
  rfl

theorem run_bind_none {α β : Type} {f : ParseM α} {g : α → ParseM β} {p : DnsParser}
    (h : f.run.run p = none) : (f >>= g).run.run p = none := by
  simp [ExceptT.run_bind, h]

theorem run_bind_ok {α β : Type} {f : ParseM α} {g : α → ParseM β} {p q : DnsParser} {a : α}
    (h : f.run.run p = some (.ok a, q)) : (f >>= g).run.run p = (g a).run.run q := by
  simp [ExceptT.run_bind, h]

/-- The parser after the header was read. -/
def afterHeader (p : DnsParser) : DnsParser :=
  { p with complete := true, header := p.readHeader, cur := p.msgbase + dnsHeaderSize }

/-- The message cannot be parsed before its question is. -/
theorem dnsParserParseAll_none {fuel : Nat} {p : DnsParser} (hsize : dnsHeaderSize ≤ p.msgsize)
    (hcount : p.readHeader.qdcount = 1) (h : (parseHost fuel).run.run (afterHeader p) = none) :
    dnsParserParseAll fuel p = none := by
  have hquestion : (parseQuestion fuel).run.run (afterHeader p) = none := by
    unfold parseQuestion
    rw [run_get_bind]
    simp only
    rw [if_neg fun hne => hne hcount]
    exact run_bind_none h
  have hall : (parseAllM fuel).run.run p = none := by
    unfold parseAllM
    rw [run_modify_bind, run_get_bind]
    simp only
    rw [if_neg (Nat.not_lt.mpr hsize), run_modify_bind]
    exact run_bind_none hquestion
  rw [dnsParserParseAll, hall]
  rfl

/-- A response whose question name is a pointer to itself. -/
def selfPointer : List Byte :=
  [0, 0, 0x81, 0x80, 0, 1, 0, 0, 0, 0, 0, 0, 0xC0, 0x0C, 0, 1, 0, 1]

/-- The parser that holds it after it arrived over UDP. -/
def selfPointerParser : DnsParser :=
  { dnsParserInit true with
    msgbuf := memcpy (fun _ => 0) 0 selfPointer
    msgsize := selfPointer.length
    bufsize := selfPointer.length }

theorem dnsParser_selfPointer :
    receive (fun _ => 0) selfPointer (dnsParserInit true) =
        .ok (selfPointer.length, selfPointerParser) ∧
      ¬ HostReturns selfPointerParser 12 ∧ ¬ ParseAllReturns selfPointerParser := by
  have hjump : Jump selfPointerParser.toDnsMessage 12 12 :=
    ⟨by decide, by decide, by decide, by decide⟩
  have hhost : ¬ HostReturns selfPointerParser 12 := not_hostReturns_of_cycle (.single hjump)
  refine ⟨rfl, hhost, ?_⟩
  rintro ⟨fuel, r, hr⟩
  have hnone : (parseHost fuel).run.run (afterHeader selfPointerParser) = none := by
    rw [parseHost_run, if_neg (by decide), Option.map_eq_none_iff]
    cases hloop : loop (hostStep (afterHeader selfPointerParser).toDnsMessage) fuel
        (hostStart (afterHeader selfPointerParser).cur) with
    | none => rfl
    | some r' => exact absurd ⟨fuel, r', hloop⟩ (not_halts_of_cycle (s := hostStart 12) (.single hjump))
  rw [dnsParserParseAll_none (by decide) (by decide) hnone] at hr
  simp at hr

end Workflow.Dns
