/-
Module: Workflow.Proofs.MsgQueue
Layer: Proofs
Purpose: The two lists of msgqueue.c are one FIFO queue, for any number of threads and any order of
  their steps. The links form two chains; one belongs to the thread that holds `get_mutex`, also while
  `get_head` already points at the other one, and the queue is the first chain followed by the second.
Trusted boundary: none
Main exports: Leads, QueueLinks, QueueThreads, fifoNext, msgqueue_fifo
-/
import Workflow.Kernel.MsgQueue
import Mathlib.Data.List.Nodup

namespace Workflow.Kernel

open Workflow.Lib

/-! ### Chains of links -/

section Chains

variable {ι : Type}

/-- From the cell `p` the links lead through the messages `msgs`, and the last cell `e` holds NULL. -/
def Leads (cell : Link ι → Option (Link ι)) : Link ι → List ι → Link ι → Prop
  | p, [], e => p = e ∧ cell p = none
  | p, msg :: msgs, e => cell p = some (.of msg) ∧ Leads cell (.of msg) msgs e

variable {cell cell' : Link ι → Option (Link ι)} {p e : Link ι} {msgs : List ι} {msg : ι}

theorem Leads.congr (h : Leads cell p msgs e) (hp : cell' p = cell p)
    (hmsgs : ∀ m ∈ msgs, cell' (.of m) = cell (.of m)) : Leads cell' p msgs e := by
  induction msgs generalizing p with
  | nil => exact ⟨h.1, hp.trans h.2⟩
  | cons m msgs ih =>
      rw [List.forall_mem_cons] at hmsgs
      exact ⟨hp.trans h.1, ih h.2 hmsgs.1 hmsgs.2⟩

/-- The last cell is the first one or lies in a message. -/
theorem Leads.end_mem (h : Leads cell p msgs e) : e = p ∨ ∃ m ∈ msgs, e = .of m := by
  induction msgs generalizing p with
  | nil => exact .inl h.1.symm
  | cons m msgs ih =>
      rcases ih h.2 with hend | ⟨m', hm', hend⟩
      · exact .inr ⟨m, List.mem_cons_self, hend⟩
      · exact .inr ⟨m', List.mem_cons_of_mem m hm', hend⟩

/-- Only the last cell holds NULL. -/
theorem Leads.isSome_iff (h : Leads cell p msgs e) : (cell p).isSome ↔ msgs ≠ [] := by
  cases msgs with
  | nil => simp [h.2]
  | cons m msgs => simp [h.1]

/-- `*put_tail = link` with a link that holds NULL. -/
theorem Leads.snoc [DecidableEq ι] (h : Leads cell p msgs e) (hhead : ∀ m, p ≠ .of m)
    (hnodup : (msgs ++ [msg]).Nodup) (hnull : cell (.of msg) = none) :
    Leads (Function.update cell e (some (.of msg))) p (msgs ++ [msg]) (.of msg) := by
  -- the cells on the way are all different, so the last one is written and no other
  have hgo : ∀ (p : Link ι) (msgs : List ι), Leads cell p msgs e → (msgs ++ [msg]).Nodup →
      (∀ m ∈ msgs ++ [msg], p ≠ .of m) →
      Leads (Function.update cell e (some (.of msg))) p (msgs ++ [msg]) (.of msg) := by
    intro p msgs
    induction msgs generalizing p with
    | nil =>
        intro h _ hp
        obtain ⟨rfl, _⟩ := h
        have hne : (Link.of msg) ≠ p := (hp msg List.mem_cons_self).symm
        refine ⟨Function.update_self _ _ _, rfl, ?_⟩
        rw [Function.update_of_ne hne, hnull]
    | cons m msgs ih =>
        intro h hnodup hp
        rw [List.cons_append, List.nodup_cons] at hnodup
        have hne : p ≠ e := by
          rcases h.2.end_mem with rfl | ⟨m', hm', rfl⟩
          · exact hp m (by simp)
          · exact hp m' (by simp [hm'])
        refine ⟨(Function.update_of_ne hne _ _).trans h.1, ih (.of m) h.2 hnodup.2 ?_⟩
        rintro m' hm' heq
        exact hnodup.1 (Link.of.inj heq ▸ hm')
  exact hgo p msgs h hnodup fun m _ => hhead m

/-- `*get_head = *(void **)*get_head`. -/
theorem Leads.tail [DecidableEq ι] (h : Leads cell p (msg :: msgs) e) (hhead : ∀ m, p ≠ .of m) :
    ∃ e', Leads (Function.update cell p (cell (.of msg))) p msgs e' := by
  have hself : Function.update cell p (cell (.of msg)) p = cell (.of msg) :=
    Function.update_self _ _ _
  cases msgs with
  | nil => exact ⟨p, rfl, hself.trans h.2.2⟩
  | cons m msgs =>
      refine ⟨e, hself.trans h.2.1, h.2.2.congr ?_ fun m' _ => ?_⟩
      · exact Function.update_of_ne (hhead m).symm _ _
      · exact Function.update_of_ne (hhead m').symm _ _

end Chains

variable {θ ι : Type} {s : MsgQueue θ ι} {own : Link ι} {gl pl : List ι} {t : θ} {msg : ι}

/-! ### The invariant -/

/-- The thread is about to queue this message. -/
def Putting (pc : Pc ι) (msg : ι) : Prop :=
  pc = .put msg ∨ pc = .putWait msg

/-- The thread is in `__msgqueue_swap` and has this `get_head`. -/
def Swapping (pc : Pc ι) (getHead : Link ι) : Prop :=
  pc = .swap getHead ∨ pc = .swapWait getHead

/-- The links: the messages `gl` behind the head `own` of the consumers and `pl` behind `put_head`. -/
structure QueueLinks (s : MsgQueue θ ι) (own : Link ι) (gl pl : List ι) : Prop where
  getChain : ∃ e, Leads s.cell own gl e
  putChain : Leads s.cell s.putHead pl s.putTail
  cnt : s.msgCnt = pl.length
  heads : own ≠ s.putHead
  ownHead : ∀ m, own ≠ .of m
  putHead : ∀ m, s.putHead ≠ .of m
  nodup : (gl ++ pl).Nodup
  owned : ∀ m ∈ gl ++ pl, m ∈ s.live

/-- What is true when the thread `t` is at `pc`. -/
def PcFits (s : MsgQueue θ ι) (own : Link ι) (gl pl : List ι) (t : θ) : Pc ι → Prop
  | .idle => True
  | .put m | .putWait m => m ∈ s.live ∧ m ∉ gl ++ pl ∧ s.cell (.of m) = none
  | .get => s.getMutex = some t
  | .swap h | .swapWait h => s.getMutex = some t ∧ h = own ∧ s.getHead = s.putHead ∧ gl = []
  | .take => s.getMutex = some t ∧ gl ≠ []

/-- The threads. Unless one of them is in `__msgqueue_swap`, `get_head` is the head of the
consumers. -/
structure QueueThreads (s : MsgQueue θ ι) (own : Link ι) (gl pl : List ι) : Prop where
  fits : ∀ t, PcFits s own gl pl t (s.pc t)
  apart : ∀ t t' m, Putting (s.pc t) m → Putting (s.pc t') m → t = t'
  quiet : (∀ t h, ¬ Swapping (s.pc t) h) → s.getHead = own

theorem queueLinks_create (maxlen : UInt64) :
    QueueLinks (MsgQueue.create θ ι maxlen) .head1 [] [] where
  getChain := ⟨.head1, rfl, rfl⟩
  putChain := ⟨rfl, rfl⟩
  cnt := rfl
  heads := by simp [MsgQueue.create]
  ownHead := by simp
  putHead := by simp [MsgQueue.create]
  nodup := List.nodup_nil
  owned := by simp

theorem queueThreads_create (maxlen : UInt64) : QueueThreads (MsgQueue.create θ ι maxlen) .head1 [] [] where
  fits := fun _ => trivial
  apart := by simp [MsgQueue.create, Putting]
  quiet := fun _ => rfl

variable [DecidableEq θ] [DecidableEq ι]

/-! ### What the steps do to the links -/

omit [DecidableEq θ] [DecidableEq ι] in
/-- The links do not depend on the threads, on `get_head` and on the flags. -/
theorem QueueLinks.congr {s' : MsgQueue θ ι} (h : QueueLinks s own gl pl) (hcell : s'.cell = s.cell)
    (hhead : s'.putHead = s.putHead) (htail : s'.putTail = s.putTail) (hcnt : s'.msgCnt = s.msgCnt)
    (hlive : s'.live = s.live) : QueueLinks s' own gl pl where
  getChain := hcell ▸ h.getChain
  putChain := by
    rw [hcell, hhead, htail]
    exact h.putChain
  cnt := hcnt.trans h.cnt
  heads := hhead ▸ h.heads
  ownHead := h.ownHead
  putHead := hhead ▸ h.putHead
  nodup := h.nodup
  owned := hlive ▸ h.owned

omit [DecidableEq ι] in
theorem QueueLinks.goto (h : QueueLinks s own gl pl) (pc : Pc ι) : QueueLinks (s.goto t pc) own gl pl :=
  h.congr rfl rfl rfl rfl rfl

theorem QueueLinks.enterPut (h : QueueLinks s own gl pl) (hfresh : msg ∉ s.live) :
    QueueLinks (s.enterPut t msg) own gl pl where
  getChain := by
    obtain ⟨e, hchain⟩ := h.getChain
    refine ⟨e, hchain.congr (Function.update_of_ne (h.ownHead msg) _ _) fun m hm => ?_⟩
    refine Function.update_of_ne (fun heq => ?_) _ _
    exact hfresh (Link.of.inj heq ▸ h.owned m (List.mem_append_left pl hm))
  putChain := by
    refine h.putChain.congr (Function.update_of_ne (h.putHead msg) _ _) fun m hm => ?_
    refine Function.update_of_ne (fun heq => ?_) _ _
    exact hfresh (Link.of.inj heq ▸ h.owned m (List.mem_append_right gl hm))
  cnt := h.cnt
  heads := h.heads
  ownHead := h.ownHead
  putHead := h.putHead
  nodup := h.nodup
  owned := fun m hm => List.mem_cons_of_mem msg (h.owned m hm)

omit [DecidableEq θ] in
theorem QueueLinks.append (h : QueueLinks s own gl pl) (hlive : msg ∈ s.live) (hfresh : msg ∉ gl ++ pl)
    (hnull : s.cell (.of msg) = none) : QueueLinks (s.append msg) own gl (pl ++ [msg]) where
  getChain := by
    obtain ⟨e, hchain⟩ := h.getChain
    -- `put_tail` lies in the other chain
    have htail : ∀ p, (p = own ∨ ∃ m ∈ gl, p = .of m) → p ≠ s.putTail := by
      intro p hp htail
      have hdisjoint := List.disjoint_of_nodup_append h.nodup
      rcases h.putChain.end_mem with hend | ⟨m', hm', hend⟩
      · rcases hp with rfl | ⟨m, hm, rfl⟩
        · exact h.heads (htail.trans hend)
        · exact h.putHead m (htail.trans hend).symm
      · rcases hp with rfl | ⟨m, hm, rfl⟩
        · exact h.ownHead m' (htail.trans hend)
        · obtain rfl := Link.of.inj (htail.trans hend)
          exact hdisjoint hm hm'
    refine ⟨e, hchain.congr ?_ fun m hm => ?_⟩
    · exact Function.update_of_ne (htail own (.inl rfl)) _ _
    · exact Function.update_of_ne (htail _ (.inr ⟨m, hm, rfl⟩)) _ _
  putChain := by
    refine h.putChain.snoc h.putHead ?_ hnull
    refine List.Nodup.append h.nodup.of_append_right (List.nodup_singleton msg) ?_
    intro m hm hmsg
    rw [List.mem_singleton] at hmsg
    exact hfresh (List.mem_append_right gl (hmsg ▸ hm))
  cnt := by rw [List.length_append, List.length_singleton, ← h.cnt]; rfl
  heads := h.heads
  ownHead := h.ownHead
  putHead := h.putHead
  nodup := by
    rw [← List.append_assoc]
    refine List.Nodup.append h.nodup (List.nodup_singleton msg) ?_
    intro m hm hmsg
    rw [List.mem_singleton] at hmsg
    exact hfresh (hmsg ▸ hm)
  owned := by
    intro m hm
    rw [← List.append_assoc, List.mem_append, List.mem_singleton] at hm
    rcases hm with hm | rfl
    · exact h.owned m hm
    · exact hlive

omit [DecidableEq θ] [DecidableEq ι] in
/-- After a swap the producers have the empty chain and the consumers the other one. -/
theorem QueueLinks.finishSwap (h : QueueLinks s own [] pl) :
    QueueLinks (s.finishSwap own) s.putHead pl [] where
  getChain := ⟨_, h.putChain⟩
  putChain := by
    obtain ⟨e, rfl, hnull⟩ := h.getChain
    exact ⟨rfl, hnull⟩
  cnt := rfl
  heads := h.heads.symm
  ownHead := h.putHead
  putHead := h.ownHead
  nodup := by simpa using h.nodup
  owned := fun m hm => h.owned m (by simpa using hm)

omit [DecidableEq θ] in
theorem QueueLinks.pop (h : QueueLinks s own (msg :: gl) pl) (hown : s.getHead = own) :
    QueueLinks (s.pop msg) own gl pl where
  getChain := by
    obtain ⟨e, hchain⟩ := h.getChain
    rw [← hown] at hchain ⊢
    exact hchain.tail (hown ▸ h.ownHead)
  putChain := by
    rw [MsgQueue.pop, hown]
    refine h.putChain.congr (Function.update_of_ne h.heads.symm _ _) fun m _ => ?_
    exact Function.update_of_ne (h.ownHead m).symm _ _
  cnt := h.cnt
  heads := h.heads
  ownHead := h.ownHead
  putHead := h.putHead
  nodup := by
    have hnodup := h.nodup
    rw [List.cons_append, List.nodup_cons] at hnodup
    exact hnodup.2
  owned := by
    intro m hm
    have hnodup := h.nodup
    rw [List.cons_append, List.nodup_cons] at hnodup
    have hne : m ≠ msg := fun heq => hnodup.1 (heq ▸ hm)
    exact (List.mem_erase_of_ne hne).mpr (h.owned m (List.mem_cons_of_mem msg hm))

/-! ### What the steps do to the threads -/

/-- The places where `get_mutex` is held. -/
def InGet (pc : Pc ι) : Prop :=
  pc = .get ∨ (∃ p, Swapping pc p) ∨ pc = .take

omit [DecidableEq θ] [DecidableEq ι] in
theorem PcFits.mutex {pc : Pc ι} (h : PcFits s own gl pl t pc) (hget : InGet pc) :
    s.getMutex = some t := by
  rcases hget with rfl | ⟨p, rfl | rfl⟩ | rfl
  · exact h
  · exact h.1
  · exact h.1
  · exact h.1

omit [DecidableEq θ] [DecidableEq ι] in
theorem QueueThreads.fits_at (h : QueueThreads s own gl pl) {pc : Pc ι} (hpc : s.pc t = pc) :
    PcFits s own gl pl t pc :=
  hpc ▸ h.fits t

omit [DecidableEq θ] [DecidableEq ι] in
/-- Nobody else is in `msgqueue_get`. -/
theorem QueueThreads.alone (h : QueueThreads s own gl pl) (hmutex : s.getMutex = some t) {t' : θ}
    (hne : t' ≠ t) :
    ¬ InGet (s.pc t') := by
  intro hget
  exact hne (Option.some.inj (((h.fits t').mutex hget).symm.trans hmutex))

omit [DecidableEq θ] [DecidableEq ι] in
theorem QueueThreads.getHead_eq (h : QueueThreads s own gl pl) (hmutex : s.getMutex = some t)
    (hpc : ∀ p, ¬ Swapping (s.pc t) p) : s.getHead = own := by
  refine h.quiet fun t' p hswap => ?_
  rcases eq_or_ne t' t with rfl | hne
  · exact hpc p hswap
  · exact h.alone hmutex hne (.inr (.inl ⟨p, hswap⟩))

omit [DecidableEq ι] in
/-- A step of the thread `t` to `pc`: what the other threads rely on has to stay. -/
theorem QueueThreads.step {s' : MsgQueue θ ι} {own' : Link ι} {gl' pl' : List ι} {pc : Pc ι}
    (h : QueueThreads s own gl pl) (hpc : s'.pc = Function.update s.pc t pc)
    (hself : PcFits s' own' gl' pl' t pc)
    (hothers : ∀ t' ≠ t, PcFits s own gl pl t' (s.pc t') → PcFits s' own' gl' pl' t' (s.pc t'))
    (hputs : ∀ m, Putting pc m → Putting (s.pc t) m ∨ m ∉ s.live)
    (hquiet : (∀ t h, ¬ Swapping (s'.pc t) h) → s'.getHead = own') : QueueThreads s' own' gl' pl' where
  fits := by
    intro t'
    rcases eq_or_ne t' t with rfl | hne
    · rw [hpc, Function.update_self]
      exact hself
    · rw [hpc, Function.update_of_ne hne]
      exact hothers t' hne (h.fits t')
  apart := by
    -- a message that `t` begins to queue is one that nobody else has
    have hnew : ∀ t' m, t' ≠ t → Putting (s.pc t') m → ¬ Putting pc m := by
      intro t' m hne hput hself
      rcases hputs m hself with hold | hdead
      · exact hne (h.apart t' t m hput hold)
      · have hfits := h.fits t'
        rcases hput with hput | hput
        · rw [hput] at hfits
          exact hdead hfits.1
        · rw [hput] at hfits
          exact hdead hfits.1
    intro t₁ t₂ m h₁ h₂
    rw [hpc] at h₁ h₂
    rcases eq_or_ne t₁ t with rfl | hne₁
    · rcases eq_or_ne t₂ t₁ with rfl | hne₂
      · rfl
      · rw [Function.update_self] at h₁
        rw [Function.update_of_ne hne₂] at h₂
        exact absurd h₁ (hnew t₂ m hne₂ h₂)
    · rw [Function.update_of_ne hne₁] at h₁
      rcases eq_or_ne t₂ t with rfl | hne₂
      · rw [Function.update_self] at h₂
        exact absurd h₂ (hnew t₁ m hne₁ h₁)
      · rw [Function.update_of_ne hne₂] at h₂
        exact h.apart t₁ t₂ m h₁ h₂
  quiet := hquiet

/-- A message that waits to be queued. -/
def Ready (s : MsgQueue θ ι) (gl pl : List ι) (msg : ι) : Prop :=
  msg ∈ s.live ∧ msg ∉ gl ++ pl ∧ s.cell (.of msg) = none

omit [DecidableEq θ] [DecidableEq ι] in
/-- A thread outside of `msgqueue_get` relies on the message that it is about to queue. -/
theorem PcFits.outside {s' : MsgQueue θ ι} {own' : Link ι} {gl' pl' : List ι} {pc : Pc ι}
    (h : PcFits s own gl pl t pc) (hout : ¬ InGet pc)
    (hready : ∀ m, Putting pc m → Ready s gl pl m → Ready s' gl' pl' m) :
    PcFits s' own' gl' pl' t pc := by
  cases pc with
  | idle => trivial
  | put m => exact hready m (.inl rfl) h
  | putWait m => exact hready m (.inr rfl) h
  | get => exact absurd (.inl rfl) hout
  | swap p => exact absurd (.inr (.inl ⟨p, .inl rfl⟩)) hout
  | swapWait p => exact absurd (.inr (.inl ⟨p, .inr rfl⟩)) hout
  | take => exact absurd (.inr (.inr rfl)) hout

omit [DecidableEq θ] [DecidableEq ι] in
/-- A thread inside of `msgqueue_get` relies on the heads and the messages of the consumers. -/
theorem PcFits.producer {s' : MsgQueue θ ι} {pl' : List ι} {pc : Pc ι}
    (h : PcFits s own gl pl t pc) (hmutex : s'.getMutex = s.getMutex) (hget : s'.getHead = s.getHead)
    (hput : s'.putHead = s.putHead)
    (hready : ∀ m, Putting pc m → Ready s gl pl m → Ready s' gl pl' m) :
    PcFits s' own gl pl' t pc := by
  cases pc with
  | idle => trivial
  | put m => exact hready m (.inl rfl) h
  | putWait m => exact hready m (.inr rfl) h
  | get => exact hmutex.trans h
  | swap p => exact ⟨hmutex.trans h.1, h.2.1, hget.trans (h.2.2.1.trans hput.symm), h.2.2.2⟩
  | swapWait p => exact ⟨hmutex.trans h.1, h.2.1, hget.trans (h.2.2.1.trans hput.symm), h.2.2.2⟩
  | take => exact ⟨hmutex.trans h.1, h.2⟩

omit [DecidableEq ι] in
theorem goto_pc_self (pc : Pc ι) : (s.goto t pc).pc t = pc :=
  Function.update_self _ _ _

omit [DecidableEq ι] in
theorem goto_pc_of_ne {t' : θ} (hne : t' ≠ t) (pc : Pc ι) : (s.goto t pc).pc t' = s.pc t' :=
  Function.update_of_ne hne _ _

omit [DecidableEq ι] in
/-- A thread moves on without touching the queue. -/
theorem QueueThreads.goto {pc : Pc ι} (h : QueueThreads s own gl pl) (hself : PcFits s own gl pl t pc)
    (hputs : ∀ m, Putting pc m → Putting (s.pc t) m)
    (hswap : ∀ p, Swapping (s.pc t) p → Swapping pc p) : QueueThreads (s.goto t pc) own gl pl := by
  refine h.step rfl hself (fun t' _ hfits => hfits) (fun m hm => .inl (hputs m hm)) fun hquiet => ?_
  refine h.quiet fun t' p hp => ?_
  rcases eq_or_ne t' t with rfl | hne
  · refine hquiet t' p ?_
    rw [goto_pc_self]
    exact hswap p hp
  · refine hquiet t' p ?_
    rw [goto_pc_of_ne hne]
    exact hp

omit [DecidableEq ι] in
theorem quiet_of_update {pc : Pc ι} {s' : MsgQueue θ ι} (h : QueueThreads s own gl pl)
    (hpc : s'.pc = Function.update s.pc t pc) (hself : ∀ p, ¬ Swapping (s.pc t) p)
    (hquiet : ∀ t p, ¬ Swapping (s'.pc t) p) : s.getHead = own := by
  refine h.quiet fun t' p hp => ?_
  rcases eq_or_ne t' t with rfl | hne
  · exact hself p hp
  · refine hquiet t' p ?_
    rw [hpc, Function.update_of_ne hne]
    exact hp

theorem QueueThreads.enterPut (h : QueueThreads s own gl pl) (hlinked : QueueLinks s own gl pl)
    (hidle : s.pc t = .idle) (hfresh : msg ∉ s.live) : QueueThreads (s.enterPut t msg) own gl pl := by
  have hnew : Ready (s.enterPut t msg) gl pl msg :=
    ⟨List.mem_cons_self, fun hm => hfresh (hlinked.owned msg hm), Function.update_self _ _ _⟩
  refine h.step rfl hnew (fun t' _ hfits => hfits.producer rfl rfl rfl fun m _ hready => ?_)
    (fun m hm => ?_)
    fun hquiet => show s.getHead = own from
      quiet_of_update h rfl (by simp [hidle, Swapping]) hquiet
  · have hne : (Link.of m) ≠ .of msg := fun heq => hfresh (Link.of.inj heq ▸ hready.1)
    exact ⟨List.mem_cons_of_mem msg hready.1, hready.2.1,
      (Function.update_of_ne hne _ _).trans hready.2.2⟩
  · right
    rcases hm with hm | hm
    · cases hm
      exact hfresh
    · cases hm

omit [DecidableEq θ] [DecidableEq ι] in
/-- The tail is not inside of a message that waits to be queued. -/
theorem QueueLinks.putTail_ne (h : QueueLinks s own gl pl) {m : ι} (hm : m ∉ gl ++ pl) :
    (Link.of m) ≠ s.putTail := by
  rcases h.putChain.end_mem with hend | ⟨m', hm', hend⟩
  · exact fun heq => h.putHead m (heq.trans hend).symm
  · intro heq
    obtain rfl := Link.of.inj (heq.trans hend)
    exact hm (List.mem_append_right gl hm')

theorem QueueThreads.append (h : QueueThreads s own gl pl) (hlinked : QueueLinks s own gl pl)
    (hput : s.pc t = .put msg) :
    QueueThreads ((s.append msg).goto t .idle) own gl (pl ++ [msg]) := by
  refine h.step rfl trivial (fun t' hne hfits => hfits.producer rfl rfl rfl fun m hm hready => ?_)
    (fun m hm => absurd hm (by simp [Putting]))
    fun hquiet => show s.getHead = own from
      quiet_of_update h rfl (by simp [hput, Swapping]) hquiet
  have hother : m ≠ msg := by
    rintro rfl
    exact hne (h.apart t' t m hm (.inl hput))
  refine ⟨hready.1, ?_, ?_⟩
  · rw [← List.append_assoc, List.mem_append, List.mem_singleton]
    exact fun hmem => hmem.elim hready.2.1 hother
  · exact (Function.update_of_ne (hlinked.putTail_ne hready.2.1) _ _).trans hready.2.2

omit [DecidableEq ι] in
theorem QueueThreads.callGet (h : QueueThreads s own gl pl) (hidle : s.pc t = .idle)
    (hfree : s.getMutex = none) :
    QueueThreads { s.goto t .get with getMutex := some t } own gl pl := by
  refine h.step rfl rfl (fun t' _ hfits => hfits.outside ?_ fun m _ hready => hready)
    (fun m hm => absurd hm (by simp [Putting]))
    fun hquiet => show s.getHead = own from
      quiet_of_update h rfl (by simp [hidle, Swapping]) hquiet
  intro hget
  cases hfree.symm.trans (hfits.mutex hget)

omit [DecidableEq ι] in
theorem QueueThreads.enterSwap (h : QueueThreads s own [] pl) (hget : s.pc t = .get) :
    QueueThreads (s.enterSwap t) own [] pl := by
  have hmutex : s.getMutex = some t := h.fits_at hget
  have hown : s.getHead = own := h.getHead_eq hmutex (by simp [hget, Swapping])
  have hself : PcFits (s.enterSwap t) own [] pl t (.swap s.getHead) := ⟨hmutex, hown, rfl, rfl⟩
  refine h.step rfl hself
    (fun t' hne hfits => hfits.outside (h.alone hmutex hne) fun m _ hready => hready)
    (fun m hm => absurd hm (by simp [Putting])) fun hquiet => ?_
  refine absurd (.inl ?_) (hquiet t s.getHead)
  exact Function.update_self _ _ _

omit [DecidableEq ι] in
/-- The end of a swap, whatever the thread does next. -/
theorem QueueThreads.finishSwap {s' : MsgQueue θ ι} {pc : Pc ι} {p : Link ι} (h : QueueThreads s own gl pl)
    (hswap : s.pc t = .swap p) (hpc : s'.pc = Function.update s.pc t pc)
    (hcell : s'.cell = s.cell) (hlive : s'.live = s.live) (hhead : s'.getHead = s.getHead)
    (hself : PcFits s' s.putHead pl [] t pc) (hputs : ∀ m, ¬ Putting pc m) :
    QueueThreads s' s.putHead pl [] := by
  have hfits := h.fits_at hswap
  obtain ⟨hmutex, -, hsame, rfl⟩ := hfits
  refine h.step hpc hself
    (fun t' hne hfits => hfits.outside (h.alone hmutex hne) fun m _ hready => ?_)
    (fun m hm => absurd hm (hputs m)) fun _ => hhead.trans hsame
  refine ⟨hlive ▸ hready.1, ?_, hcell ▸ hready.2.2⟩
  rw [List.append_nil]
  exact hready.2.1

theorem QueueThreads.pop (h : QueueThreads s own (msg :: gl) pl) (hlinked : QueueLinks s own (msg :: gl) pl)
    (htake : s.pc t = .take) : QueueThreads ((s.pop msg).leaveGet t) own gl pl := by
  have hfits := h.fits_at htake
  have hmutex := hfits.1
  have hown : s.getHead = own := h.getHead_eq hmutex (by simp [htake, Swapping])
  refine h.step rfl trivial
    (fun t' hne hfits => hfits.outside (h.alone hmutex hne) fun m _ hready => ?_)
    (fun m hm => absurd hm (by simp [Putting])) fun _ => hown
  rw [Ready, List.cons_append, List.mem_cons, not_or] at hready
  refine ⟨(List.mem_erase_of_ne hready.2.1.1).mpr hready.1, hready.2.1.2, ?_⟩
  have hne : (Link.of m) ≠ s.getHead := by
    rw [hown]
    exact (hlinked.ownHead m).symm
  exact (Function.update_of_ne hne _ _).trans hready.2.2

/-! ### One FIFO queue -/

/-- The queue that a caller thinks of. NULL is returned only when it is empty. -/
def fifoNext (q : List ι) : MsgEvent ι → Option (List ι)
  | .put m => some (q ++ [m])
  | .got m => if q.head? = some m then some q.tail else none
  | .null => if q = [] then some q else none

/-- The messages that events put into the queue, in order. -/
def putsOf (events : List (MsgEvent ι)) : List ι :=
  events.filterMap fun e => match e with
    | .put m => some m
    | _ => none

/-- The messages that events take out of the queue, in order. -/
def gotsOf (events : List (MsgEvent ι)) : List ι :=
  events.filterMap fun e => match e with
    | .got m => some m
    | _ => none

/-- What a FIFO queue does: the messages come out as they went in, and the others are still there. -/
theorem putsOf_eq {events : List (MsgEvent ι)} {q₀ q : List ι}
    (h : replay fifoNext q₀ events = some q) : q₀ ++ putsOf events = gotsOf events ++ q := by
  induction events generalizing q₀ with
  | nil =>
      obtain rfl := Option.some.inj h
      simp [putsOf, gotsOf]
  | cons e events ih =>
      obtain ⟨q₁, hnext, hrest⟩ := Option.bind_eq_some_iff.mp h
      have hih := ih hrest
      cases e with
      | put m =>
          obtain rfl := Option.some.inj hnext
          rw [List.append_assoc] at hih
          exact hih
      | got m =>
          simp only [fifoNext] at hnext
          split at hnext
          · rename_i hhead
            obtain rfl := Option.some.inj hnext
            obtain ⟨rest, rfl⟩ := List.head?_eq_some_iff.mp hhead
            exact congrArg (m :: ·) hih
          · cases hnext
      | null =>
          simp only [fifoNext] at hnext
          split at hnext
          · obtain rfl := Option.some.inj hnext
            exact hih
          · cases hnext

/-- The messages behind a head. -/
def Behind (s : MsgQueue θ ι) (head : Link ι) (msgs : List ι) : Prop :=
  ∃ e, Leads s.cell head msgs e

/-- The messages in the queue: those behind `get_head` and then those behind `put_head`. While a
consumer is in `__msgqueue_swap` both are the same head, and the other one is empty. -/
def Contents (s : MsgQueue θ ι) (q : List ι) : Prop :=
  if s.getHead = s.putHead then Behind s s.putHead q
  else ∃ gl pl, Behind s s.getHead gl ∧ Behind s s.putHead pl ∧ q = gl ++ pl

/-- The lists of a state and the FIFO queue. -/
def Represents (s : MsgQueue θ ι) (q : List ι) : Prop :=
  ∃ own gl pl, QueueLinks s own gl pl ∧ QueueThreads s own gl pl ∧ q = gl ++ pl

omit [DecidableEq θ] in
theorem Represents.contents {q : List ι} (h : Represents s q) : Contents s q := by
  obtain ⟨own, gl, pl, hlinked, hplaced, rfl⟩ := h
  unfold Contents
  by_cases hswap : ∃ t p, Swapping (s.pc t) p
  · obtain ⟨t, p, hswap⟩ := hswap
    have hfits : PcFits s own gl pl t (.swap p) := by
      have hfits := hplaced.fits t
      rcases hswap with hswap | hswap
      · rwa [hswap] at hfits
      · rwa [hswap] at hfits
    obtain ⟨-, -, hsame, rfl⟩ := hfits
    rw [if_pos hsame]
    exact ⟨_, hlinked.putChain⟩
  · push Not at hswap
    have hown := hplaced.quiet hswap
    rw [if_neg (hown ▸ hlinked.heads)]
    exact ⟨gl, pl, hown ▸ hlinked.getChain, ⟨_, hlinked.putChain⟩, rfl⟩

omit [DecidableEq θ] [DecidableEq ι] in
theorem represents_create (maxlen : UInt64) : Represents (MsgQueue.create θ ι maxlen) [] :=
  ⟨.head1, [], [], queueLinks_create maxlen, queueThreads_create maxlen, rfl⟩

/-! ### One step -/

omit [DecidableEq θ] [DecidableEq ι] in
/-- Only the fields of the links and of the threads count. -/
theorem Represents.nonblock {q : List ι} (h : Represents s q) (b : Bool) :
    Represents { s with nonblock := b } q := by
  obtain ⟨own, gl, pl, hlinked, hplaced, rfl⟩ := h
  exact ⟨own, gl, pl, hlinked.congr rfl rfl rfl rfl rfl,
    ⟨hplaced.fits, hplaced.apart, hplaced.quiet⟩, rfl⟩

omit [DecidableEq ι] in
theorem Represents.goto {q : List ι} {pc : Pc ι} (h : Represents s q)
    (hself : ∀ own gl pl, QueueLinks s own gl pl → QueueThreads s own gl pl → PcFits s own gl pl t pc)
    (hputs : ∀ m, Putting pc m → Putting (s.pc t) m)
    (hswap : ∀ p, Swapping (s.pc t) p → Swapping pc p) : Represents (s.goto t pc) q := by
  obtain ⟨own, gl, pl, hlinked, hplaced, rfl⟩ := h
  exact ⟨own, gl, pl, hlinked.goto pc,
    hplaced.goto (hself own gl pl hlinked hplaced) hputs hswap, rfl⟩

theorem Represents.putLock {q : List ι} (h : Represents s q) (hput : s.pc t = .put msg) :
    Represents ((s.append msg).goto t .idle) (q ++ [msg]) := by
  obtain ⟨own, gl, pl, hlinked, hplaced, rfl⟩ := h
  have hready := hplaced.fits_at hput
  exact ⟨own, gl, pl ++ [msg], (hlinked.append hready.1 hready.2.1 hready.2.2).goto .idle,
    hplaced.append hlinked hput, List.append_assoc gl pl [msg]⟩

omit [DecidableEq ι] in
theorem Represents.getTest {q : List ι} (h : Represents s q) (hget : s.pc t = .get) :
    ((s.cell s.getHead).isSome → Represents (s.goto t .take) q) ∧
      (¬ (s.cell s.getHead).isSome → Represents (s.enterSwap t) q) := by
  obtain ⟨own, gl, pl, hlinked, hplaced, rfl⟩ := h
  have hmutex : s.getMutex = some t := hplaced.fits_at hget
  have hown : s.getHead = own := hplaced.getHead_eq hmutex (by simp [hget, Swapping])
  obtain ⟨e, hchain⟩ := hlinked.getChain
  rw [hown, hchain.isSome_iff]
  constructor
  · intro hne
    exact ⟨own, gl, pl, hlinked.goto .take,
      hplaced.goto ⟨hmutex, hne⟩ (by simp [Putting]) (by simp [hget, Swapping]), rfl⟩
  · intro hnil
    rw [not_not] at hnil
    subst hnil
    exact ⟨own, [], pl, hlinked.congr rfl rfl rfl rfl rfl, hplaced.enterSwap hget, rfl⟩

omit [DecidableEq ι] in
theorem Represents.swapLock {q : List ι} {p : Link ι} (h : Represents s q)
    (hswap : s.pc t = .swap p) :
    (0 < s.msgCnt → Represents ((s.finishSwap p).goto t .take) q) ∧
      (¬ 0 < s.msgCnt → q = [] ∧ Represents ((s.finishSwap p).leaveGet t) q) := by
  obtain ⟨own, gl, pl, hlinked, hplaced, rfl⟩ := h
  have hfits := hplaced.fits_at hswap
  obtain ⟨hmutex, rfl, hsame, rfl⟩ := hfits
  have hafter := hlinked.finishSwap
  rw [hlinked.cnt, List.length_pos_iff]
  constructor
  · intro hne
    refine ⟨s.putHead, pl, [], hafter.goto .take, ?_, by simp⟩
    exact hplaced.finishSwap hswap rfl rfl rfl rfl ⟨hmutex, hne⟩ (by simp [Putting])
  · intro hnil
    rw [not_not] at hnil
    subst hnil
    refine ⟨rfl, s.putHead, [], [], ?_, ?_, rfl⟩
    · exact hafter.congr rfl rfl rfl rfl rfl
    · exact hplaced.finishSwap hswap rfl rfl rfl rfl trivial (by simp [Putting])

theorem Represents.take {q : List ι} (h : Represents s q) (htake : s.pc t = .take) :
    ∃ m rest, q = m :: rest ∧ s.cell s.getHead = some (.of m) ∧
      Represents ((s.pop m).leaveGet t) rest := by
  obtain ⟨own, gl, pl, hlinked, hplaced, rfl⟩ := h
  have hfits := hplaced.fits_at htake
  obtain ⟨hmutex, hne⟩ := hfits
  have hown : s.getHead = own := hplaced.getHead_eq hmutex (by simp [htake, Swapping])
  obtain ⟨m, gl, rfl⟩ := List.exists_cons_of_ne_nil hne
  obtain ⟨e, hchain⟩ := hlinked.getChain
  exact ⟨m, gl ++ pl, rfl, hown ▸ hchain.1, own, gl, pl,
    (hlinked.pop hown).congr rfl rfl rfl rfl rfl, hplaced.pop hlinked htake, rfl⟩

/-- Every step is one of the FIFO queue, or none of it. -/
theorem Represents.exec {q : List ι} {op : MsgOp θ ι} {s' : MsgQueue θ ι}
    {e : Option (MsgEvent ι)} (h : Represents s q) (hexec : s.exec op = some (s', e)) :
    ∃ q', replay fifoNext q e.toList = some q' ∧ Represents s' q' := by
  cases op with
  | callPut t msg =>
      simp only [MsgQueue.exec] at hexec
      split at hexec
      · rename_i hguard
        cases hexec
        obtain ⟨own, gl, pl, hlinked, hplaced, rfl⟩ := h
        exact ⟨gl ++ pl, rfl, own, gl, pl, hlinked.enterPut hguard.2,
          hplaced.enterPut hlinked hguard.1 hguard.2, rfl⟩
      · cases hexec
  | putLock t =>
      simp only [MsgQueue.exec] at hexec
      split at hexec
      · rename_i msg hput
        split at hexec
        · cases hexec
          refine ⟨q, rfl, h.goto (fun own gl pl _ hplaced =>
            show PcFits s own gl pl t (.put msg) from hplaced.fits_at hput) ?_ (by simp [hput, Swapping])⟩
          rw [hput]
          rintro m (hm | hm)
          · cases hm
          · cases hm
            exact .inl rfl
        · cases hexec
          exact ⟨q ++ [msg], rfl, h.putLock hput⟩
      · cases hexec
  | putWake t =>
      simp only [MsgQueue.exec] at hexec
      split at hexec
      · rename_i msg hput
        cases hexec
        refine ⟨q, rfl, h.goto (fun own gl pl _ hplaced =>
          show PcFits s own gl pl t (.putWait msg) from hplaced.fits_at hput) ?_ (by simp [hput, Swapping])⟩
        rw [hput]
        rintro m (hm | hm)
        · cases hm
          exact .inr rfl
        · cases hm
      · cases hexec
  | callGet t =>
      simp only [MsgQueue.exec] at hexec
      split at hexec
      · rename_i hguard
        cases hexec
        obtain ⟨own, gl, pl, hlinked, hplaced, rfl⟩ := h
        exact ⟨gl ++ pl, rfl, own, gl, pl, hlinked.congr rfl rfl rfl rfl rfl,
          hplaced.callGet hguard.1 hguard.2, rfl⟩
      · cases hexec
  | getTest t =>
      simp only [MsgQueue.exec] at hexec
      split at hexec
      · rename_i hget
        split at hexec
        · rename_i hsome
          cases hexec
          exact ⟨q, rfl, (h.getTest hget).1 hsome⟩
        · rename_i hnone
          cases hexec
          exact ⟨q, rfl, (h.getTest hget).2 hnone⟩
      · cases hexec
  | swapLock t =>
      simp only [MsgQueue.exec] at hexec
      split at hexec
      · rename_i p hswap
        split at hexec
        · cases hexec
          refine ⟨q, rfl, h.goto (fun own gl pl _ hplaced =>
            show PcFits s own gl pl t (.swap p) from hplaced.fits_at hswap) (by simp [Putting]) ?_⟩
          rw [hswap]
          rintro p' (hp | hp)
          · cases hp
            exact .inr rfl
          · cases hp
        · split at hexec
          · rename_i hpos
            cases hexec
            exact ⟨q, rfl, (h.swapLock hswap).1 hpos⟩
          · rename_i hzero
            cases hexec
            obtain ⟨rfl, hafter⟩ := (h.swapLock hswap).2 hzero
            exact ⟨[], rfl, hafter⟩
      · cases hexec
  | swapWake t =>
      simp only [MsgQueue.exec] at hexec
      split at hexec
      · rename_i p hswap
        cases hexec
        refine ⟨q, rfl, h.goto (fun own gl pl _ hplaced =>
          show PcFits s own gl pl t (.swapWait p) from hplaced.fits_at hswap) (by simp [Putting]) ?_⟩
        rw [hswap]
        rintro p' (hp | hp)
        · cases hp
        · cases hp
          exact .inl rfl
      · cases hexec
  | take t =>
      simp only [MsgQueue.exec] at hexec
      split at hexec
      · rename_i msg htake hcell
        cases hexec
        obtain ⟨m, rest, rfl, hhead, hafter⟩ := h.take htake
        obtain rfl : m = msg := by simpa using hhead.symm.trans hcell
        refine ⟨rest, ?_, hafter⟩
        simp [replay, fifoNext]
      · cases hexec
  | setNonblock =>
      cases hexec
      exact ⟨q, rfl, h.nonblock true⟩
  | setBlock =>
      cases hexec
      exact ⟨q, rfl, h.nonblock false⟩

/-- NULL is returned by a step that finds `nonblock` set and nothing queued. -/
theorem Represents.null {q : List ι} {op : MsgOp θ ι} {s' : MsgQueue θ ι} (h : Represents s q)
    (hexec : s.exec op = some (s', some .null)) : s.nonblock = true ∧ q = [] := by
  have hempty : q = [] := by
    obtain ⟨q', hreplay, -⟩ := h.exec hexec
    by_contra hne
    simp [replay, fifoNext, hne] at hreplay
  refine ⟨?_, hempty⟩
  cases op with
  | swapLock t =>
      simp only [MsgQueue.exec] at hexec
      split at hexec
      · split at hexec
        · cases hexec
        · rename_i hstay
          split at hexec
          · cases hexec
          · rename_i hzero
            cases hblock : s.nonblock with
            | true => rfl
            | false => exact absurd ⟨by omega, hblock⟩ hstay
      · cases hexec
  | callPut t msg | putLock t | putWake t | callGet t | getTest t | swapWake t | take t =>
      simp only [MsgQueue.exec] at hexec
      repeat' split at hexec
      all_goals cases hexec
  | setNonblock | setBlock => cases hexec

/-- A message that is put while the queue blocks finds room. -/
theorem Represents.room {q : List ι} {op : MsgOp θ ι} {s' : MsgQueue θ ι} (h : Represents s q)
    (hexec : s.exec op = some (s', some (.put msg))) (hblock : s.nonblock = false)
    (hmax : s.msgMax ≠ 0) : ∃ pl, Behind s' s'.putHead pl ∧ pl.length ≤ s.msgMax.toNat := by
  obtain ⟨q', -, own, gl, pl, hlinked, -, -⟩ := h.exec hexec
  refine ⟨pl, ⟨_, hlinked.putChain⟩, ?_⟩
  rw [← hlinked.cnt]
  cases op with
  | putLock t =>
      simp only [MsgQueue.exec] at hexec
      split at hexec
      · split at hexec
        · cases hexec
        · rename_i hgo
          cases hexec
          have hroom : s.full = false := by
            cases hfull : s.full with
            | true => exact absurd ⟨hfull, hblock⟩ hgo
            | false => rfl
          have hpos : 0 < s.msgMax.toNat :=
            Nat.pos_of_ne_zero fun hzero => hmax (UInt64.toNat_inj.mp hzero)
          have hone : (s.msgMax - 1).toNat = s.msgMax.toNat - 1 := by
            have hle : (1 : UInt64) ≤ s.msgMax := UInt64.le_iff_toNat_le.mpr hpos
            rw [UInt64.toNat_sub_of_le _ _ hle]
            rfl
          simp only [MsgQueue.full, hone, decide_eq_false_iff_not] at hroom
          show s.msgCnt + 1 ≤ s.msgMax.toNat
          omega
      · cases hexec
  | callPut t msg | swapLock t | putWake t | callGet t | getTest t | swapWake t | take t =>
      simp only [MsgQueue.exec] at hexec
      repeat' split at hexec
      all_goals cases hexec
  | setNonblock | setBlock => cases hexec

theorem exec_msgMax {op : MsgOp θ ι} {s' : MsgQueue θ ι} {e : Option (MsgEvent ι)}
    (hexec : s.exec op = some (s', e)) : s'.msgMax = s.msgMax := by
  cases op with
  | setNonblock | setBlock =>
      cases hexec
      rfl
  | putLock t | callPut t msg | swapLock t | putWake t | callGet t | getTest t | swapWake t
  | take t =>
      simp only [MsgQueue.exec] at hexec
      repeat' split at hexec
      all_goals cases hexec
      all_goals rfl

/-- The message queue in every run: its events are those of one FIFO queue, which holds the messages
that the links lead to. So every message comes out at most once, in the order of the puts, and those
that did not come out are still queued. -/
theorem msgqueue_fifo (maxlen : UInt64) {events : List (MsgEvent ι)} {s : MsgQueue θ ι}
    (h : Traced MsgQueue.exec (MsgQueue.create θ ι maxlen) events s) :
    ∃ q, replay fifoNext [] events = some q ∧ Contents s q ∧
      putsOf events = gotsOf events ++ q ∧
      (∀ t, s.pc t = .take → ∃ m, q.head? = some m ∧ s.cell s.getHead = some (.of m)) ∧
      ∀ op s' e, s.exec op = some (s', e) →
        (e = some .null → s.nonblock = true ∧ q = []) ∧
        (∀ m, e = some (.put m) → s.nonblock = false → maxlen ≠ 0 →
          ∃ pl, Behind s' s'.putHead pl ∧ pl.length ≤ maxlen.toNat) := by
  obtain ⟨q, hreplay, hrep⟩ := h.refines (represents_create maxlen)
    fun _ _ _ _ _ hrep hexec => hrep.exec hexec
  have hmax : s.msgMax = maxlen :=
    h.invariant (P := fun s => s.msgMax = maxlen) rfl
      fun _ _ _ _ hmax hexec => (exec_msgMax hexec).trans hmax
  refine ⟨q, hreplay, hrep.contents, putsOf_eq hreplay, ?_, ?_⟩
  · intro t htake
    obtain ⟨m, rest, rfl, hcell, -⟩ := hrep.take htake
    exact ⟨m, rfl, hcell⟩
  · intro op s' e hexec
    constructor
    · rintro rfl
      exact hrep.null hexec
    · rintro m rfl hblock hne
      rw [← hmax] at hne ⊢
      exact hrep.room hexec hblock hne

/-- Two messages are put, a get swaps the lists and returns the first one. -/
theorem msgqueue_fifo_swap : ∃ s : MsgQueue Nat Nat,
    Traced MsgQueue.exec (MsgQueue.create Nat Nat 2) [.put 7, .put 8, .got 7] s ∧
      Contents s [8] := by
  have hrun : (runTrace MsgQueue.exec (MsgQueue.create Nat Nat 2)
      [.callPut 0 7, .putLock 0, .callPut 1 8, .putLock 1, .callGet 2, .getTest 2, .swapLock 2,
        .take 2]).map Prod.snd = some [.put 7, .put 8, .got 7] := by decide
  obtain ⟨⟨s, events⟩, hrun, rfl⟩ := Option.map_eq_some_iff.mp hrun
  have htraced := runTrace_traced .start hrun
  obtain ⟨q, hreplay, hcontents, -⟩ := msgqueue_fifo 2 htraced
  obtain rfl : [8] = q := Option.some.inj (hreplay.symm.trans (by rfl)) |>.symm
  exact ⟨s, htraced, hcontents⟩

end Workflow.Kernel
