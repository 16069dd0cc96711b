import HydroxKernel.Lib.Runs
import HydroxKernel.Sched.Consistency

/-!
# The Threads of a Process

A process has a list of its threads, in the order of their creation, and numbers them.
`create_internal` appends a thread to the list and `remove_thread` takes it off, wherever it
stands; the two ends of the list are kept by the process, and the last thread is only known by
a pointer that does not own it. Between these calls, threads are put on the ready queue and
taken off it, which uses other links of the same threads.

## Main results

* `threads_of_runs`: in every run, `threads()` yields the threads that were created and not
  removed, in the order of their creation and of their ids, and no assertion fails.
-/

namespace HydroxKernel.Sched

open Arch Links

/-- The scheduler and the ids of its threads: `thread_id` of each thread and `next_thread_id` of
each process. -/
structure Numbered where
  sched : State
  threadId : ℕ → ℕ
  nextThreadId : ℕ → ℕ

/-- The panics of `create_internal` and `remove_thread`. -/
inductive ListPanic
  /-- A panic of the scheduler. -/
  | sched (why : Panic)
  /-- `next_thread_id` overflows. -/
  | overflow
  deriving DecidableEq

/-- `Thread::create_internal`, with the ids. -/
def Numbered.createInternal (s : Numbered) (p : ℕ) (regs : SavedRegisters) (join : ℕ) :
    Except ListPanic (ℕ × Numbered) := do
  let threadId := s.nextThreadId p
  ensure (threadId + 1 < 2 ^ 64) .overflow
  let (t, sched) ← (Sched.createInternal s.sched p regs join).mapError .sched
  return (t, ⟨sched, Function.update s.threadId t threadId,
    Function.update s.nextThreadId p (threadId + 1)⟩)

/-- `ProcessThreadIterator`: the threads from one on. -/
def threadIterator (s : State) : ℕ → Option ℕ → Except Panic (List ℕ)
  | 0, _ => .error .diverged
  | _ + 1, none => .ok []
  | n + 1, some t => do
      let rest ← threadIterator s n (s.threads t).next
      return t :: rest

/-- `ProcessLock::threads`. -/
def State.threadsOf (s : State) (p : ℕ) : Except Panic (List ℕ) :=
  threadIterator s (s.created + 1) (s.processes p).threadsHead

/-- A thread is on a ready queue: it is reached from the head of one. -/
def OnReady (s : State) (t : ℕ) : Prop :=
  ∃ p l, Chain (fun t => (s.threads t).nextReady) (s.processes p).readyHead l none ∧ t ∈ l

/-- What is done to the threads of a process. -/
inductive ListOp
  /-- `Thread::create_internal`. -/
  | create (p : ℕ) (regs : SavedRegisters) (join : ℕ)
  /-- `ProcessLock::remove_thread`. -/
  | remove (p t : ℕ)
  /-- A thread becomes ready and is enqueued. -/
  | enqueueReady (t : ℕ)
  /-- `ProcessLock::dequeue_ready_thread`. -/
  | dequeueReady (p : ℕ)

/-- The effect of an operation. -/
def ListOp.exec (s : Numbered) : ListOp → Except ListPanic Numbered
  | .create p regs join => return (← s.createInternal p regs join).2
  | .remove p t => return { s with sched := ← (removeThread s.sched p t).mapError .sched }
  | .enqueueReady t => return { s with
      sched := ← (enqueueReadyThread (s.sched.setState t .ready) (s.sched.threads t).process
        t).mapError .sched }
  | .dequeueReady p => .ok { s with sched := (dequeueReadyThread s.sched p).2 }

/-- The threads of each process that were created and not removed, in the order of their
creation. -/
def ListOp.live (s : Numbered) (live : ℕ → List ℕ) : ListOp → ℕ → List ℕ
  | .create p _ _ => Function.update live p (live p ++ [s.sched.created])
  | .remove p t => Function.update live p ((live p).erase t)
  | .enqueueReady _ | .dequeueReady _ => live

/-- When an operation can be performed. A thread is removed from the process that it is in, and
not while it is on a ready queue. -/
def ListOp.Enabled (s : Numbered) (live : ℕ → List ℕ) : ListOp → Prop
  | .create _ _ _ | .dequeueReady _ => True
  | .remove p t => t ∈ live p ∧ ¬ OnReady s.sched t
  | .enqueueReady t => t < s.sched.created ∧ ¬ OnReady s.sched t

/-- An operation is performed. -/
def ListStep (s : Numbered × (ℕ → List ℕ)) (op : ListOp) (s' : Numbered × (ℕ → List ℕ)) : Prop :=
  op.Enabled s.1 s.2 ∧ op.exec s.1 = .ok s'.1 ∧ s'.2 = op.live s.1 s.2

/-- Processes without threads. -/
def Numbered.new (frame : InterruptFrame) (ext : List UInt8) (msr : BitVec 64) : Numbered :=
  ⟨.empty frame ext msr, fun _ => 0, fun _ => 0⟩

/-- The list of the threads of a process. -/
structure ThreadList (s : Numbered) (p : ℕ) (l : List ℕ) : Prop where
  threads : s.sched.threadsOf p = .ok l
  ids : l.Pairwise fun t u => s.threadId t < s.threadId u
  head : (s.sched.processes p).threadsHead = l.head?
  tail : (s.sched.processes p).threadsTail = l.getLast?
  inverse : ∀ t ∈ l, ∀ u, (s.sched.threads t).next = some u ↔
    u ∈ l ∧ (s.sched.threads u).prev = some t

/-- The invariant: the lists hold the threads that were created and not removed, and other
threads have no links for one. -/
structure Numbered.Inv (s : Numbered) (live : ℕ → List ℕ) : Prop where
  linked : ∃ ready waiting, Linked s.sched ready live waiting ∧
    ∀ t, s.sched.created ≤ t → ∀ j, t ∉ ready j ∧ t ∉ waiting j
  lt_created : ∀ {p t}, t ∈ live p → t < s.sched.created
  process : ∀ {p t}, t ∈ live p → (s.sched.threads t).process = p
  unlinked : ∀ {t}, (∀ p, t ∉ live p) →
    (s.sched.threads t).prev = none ∧ (s.sched.threads t).next = none
  ids : ∀ p, (live p).Pairwise fun t u => s.threadId t < s.threadId u
  id_lt : ∀ {p t}, t ∈ live p → s.threadId t < s.nextThreadId p

variable {s : State} {p t : ℕ} {ready threads waiting live : ℕ → List ℕ}

/-! ### The links of other threads -/

/-- A thread that is on a ready queue is reached from the head of one. -/
theorem Linked.onReady_iff (h : Linked s ready threads waiting) :
    OnReady s t ↔ ∃ p, t ∈ ready p := by
  have hchain : ∀ p, Chain (fun t => (s.threads t).nextReady) (s.processes p).readyHead
      (ready p) none := fun p => by
    have hc := (h.readyQueues.dseg p).chain
    rwa [Option.or_none, ← h.readyQueues.head_eq p] at hc
  constructor
  · rintro ⟨p, l, hl, ht⟩
    exact ⟨p, hl.unique (hchain p) ▸ ht⟩
  · rintro ⟨p, ht⟩
    exact ⟨p, ready p, hchain p, ht⟩

/-- Creating a thread leaves the links of threads alone that are not in its process. -/
theorem Linked.create_links (h : Linked s ready threads waiting) (hth : ∀ j, s.created ∉ threads j)
    {regs : SavedRegisters} {join : ℕ} {s' : State}
    (hs' : createInternal s p regs join = .ok (s.created, s')) {x : ℕ} (hx : x ≠ s.created)
    (hxp : x ∉ threads p) :
    (s'.threads x).prev = (s.threads x).prev ∧ (s'.threads x).next = (s.threads x).next := by
  have hends : (s.processes p).threadsHead = none ↔ (s.processes p).threadsTail = none := by
    rw [h.threadLists.head_eq p, h.threadLists.tail_eq p, List.head?_eq_none_iff,
      List.getLast?_eq_none_iff]
  have htail : (s.processes p).threadsTail ≠ some x :=
    fun htail => hxp (h.threadLists.mem_of_tail htail)
  rw [createInternal_eq hends fun htail => hth p (h.threadLists.mem_of_tail htail)] at hs'
  obtain rfl := (Prod.mk.inj (Except.ok.inj hs')).2
  simp [hx, htail]

/-- Removing a thread takes its links away, and leaves those of threads alone that are not in
its process. -/
theorem Linked.remove_links (h : Linked s ready threads waiting) (ht : t ∈ threads p)
    (hp : p = (s.threads t).process) (hr : ∀ j, t ∉ ready j) {s' : State}
    (hs' : removeThread s p t = .ok s') {x : ℕ} (hx : x = t ∨ x ∉ threads p) :
    (s'.threads x).prev = (if x = t then none else (s.threads x).prev) ∧
      (s'.threads x).next = if x = t then none else (s.threads x).next := by
  obtain ⟨xs, ys, hq⟩ := List.append_of_mem ht
  obtain ⟨-, hprev, hnext, -⟩ := h.threadLists.focus hq
  rw [h.removeThread_eq ht hp hr] at hs'
  obtain rfl := Except.ok.inj hs'
  rcases hx with rfl | hx
  · simp
  · rw [hq] at hx
    have hnx : (s.threads t).next ≠ some x := fun heq =>
      hx (by simp [List.mem_of_mem_head? (hnext.symm.trans heq)])
    have hpx : (s.threads t).prev ≠ some x := fun heq =>
      hx (by simp [List.mem_of_getLast? (hprev.symm.trans heq)])
    simp [hnx, hpx]

/-- The ready queues use other links. -/
theorem pushReady_links (h : (s.processes p).readyTail ≠ some t) (x : ℕ) :
    ((pushReady s p t).threads x).prev = (s.threads x).prev ∧
      ((pushReady s p t).threads x).next = (s.threads x).next := by
  rw [pushReady_eq h]
  exact ⟨rfl, rfl⟩

/-- Threads that a chain of links visits are yielded. -/
theorem threadIterator_eq {h : Option ℕ} {l : List ℕ} {n : ℕ}
    (hl : Chain (fun t => (s.threads t).next) h l none) (hn : l.length < n) :
    threadIterator s n h = .ok l := by
  induction l generalizing h n with
  | nil =>
      obtain rfl : h = none := hl
      obtain ⟨n, rfl⟩ : ∃ k, n = k + 1 := ⟨n - 1, by omega⟩
      rfl
  | cons x l ih =>
      obtain ⟨rfl, hl⟩ := hl
      obtain ⟨n, rfl⟩ : ∃ k, n = k + 1 := ⟨n - 1, by omega⟩
      rw [List.length_cons] at hn
      rw [threadIterator, ih hl (by omega)]
      rfl

/-- Taking a thread off a ready queue leaves the links of the lists alone. -/
theorem Linked.dequeueReady_links (h : Linked s ready threads waiting) (x : ℕ) :
    (((dequeueReadyThread s p).2.threads x).prev = (s.threads x).prev ∧
      ((dequeueReadyThread s p).2.threads x).next = (s.threads x).next) := by
  cases hq : ready p with
  | nil =>
      rw [h.dequeueReady_nil hq]
      exact ⟨rfl, rfl⟩
  | cons t rest =>
      obtain ⟨hhead, hne⟩ := h.readyFront hq
      rw [dequeueReadyThread_eq hhead hne]
      exact ⟨rfl, rfl⟩

/-! ### The invariant -/

variable {n : Numbered}

/-- A process without threads. -/
theorem Numbered.new_inv (frame : InterruptFrame) (ext : List UInt8) (msr : BitVec 64) :
    (Numbered.new frame ext msr).Inv fun _ => [] := by
  exact ⟨⟨_, _, linked_empty frame ext msr, by simp⟩, by simp, by simp, fun _ => ⟨rfl, rfl⟩,
    by simp, by simp⟩

/-- Only the lists, the processes of the threads and their ids matter. -/
theorem Numbered.Inv.congr (h : n.Inv live) {s' : State}
    (hl : ∃ ready waiting, Linked s' ready live waiting ∧
      ∀ t, s'.created ≤ t → ∀ j, t ∉ ready j ∧ t ∉ waiting j)
    (hc : s'.created = n.sched.created)
    (hp : ∀ x, (s'.threads x).process = (n.sched.threads x).process)
    (hlinks : ∀ x, (s'.threads x).prev = (n.sched.threads x).prev ∧
      (s'.threads x).next = (n.sched.threads x).next) :
      Numbered.Inv { n with sched := s' } live := by
  refine ⟨hl, fun ht => ?_, fun ht => ?_, fun ht => ?_, h.ids, h.id_lt⟩
  · rw [hc]
    exact h.lt_created ht
  · rw [hp]
    exact h.process ht
  · rw [(hlinks _).1, (hlinks _).2]
    exact h.unlinked ht

/-- **Creating a thread** keeps the invariant, unless there are no more ids. -/
theorem Numbered.Inv.create (h : n.Inv live) (p : ℕ) (regs : SavedRegisters) (join : ℕ)
    (hid : n.nextThreadId p + 1 < 2 ^ 64) :
    ∃ n', n.createInternal p regs join = .ok (n.sched.created, n') ∧
      n'.Inv (Function.update live p (live p ++ [n.sched.created])) := by
  obtain ⟨ready, waiting, hl, hfresh⟩ := h.linked
  have hnew : ∀ j, n.sched.created ∉ live j := fun j hj => Nat.lt_irrefl _ (h.lt_created hj)
  obtain ⟨s', hs', hl', hcr⟩ := hl.create p regs join (fun j => (hfresh _ le_rfl j).1) hnew
    fun j => (hfresh _ le_rfl j).2
  refine ⟨⟨s', Function.update n.threadId n.sched.created (n.nextThreadId p),
    Function.update n.nextThreadId p (n.nextThreadId p + 1)⟩, ?_, ?_⟩
  · rw [Numbered.createInternal, ensure_pos hid, hs']
    rfl
  have hmem : ∀ {j x}, x ∈ Function.update live p (live p ++ [n.sched.created]) j ↔
      x ∈ live j ∨ (x = n.sched.created ∧ j = p) := mem_update_append
  have hne : ∀ {j x}, x ∈ live j → x ≠ n.sched.created := fun hx heq => hnew _ (heq ▸ hx)
  constructor
  · refine ⟨ready, waiting, hl', fun t ht j => hfresh t ?_ j⟩
    rw [hcr.created] at ht
    omega
  · intro j x hx
    rw [hcr.created]
    rcases hmem.mp hx with hx | ⟨rfl, -⟩
    · exact Nat.lt_succ_of_lt (h.lt_created hx)
    · exact Nat.lt_succ_self _
  · intro j x hx
    rw [hcr.process]
    rcases hmem.mp hx with hx | ⟨rfl, rfl⟩
    · rw [if_neg (hne hx), h.process hx]
    · rw [if_pos rfl]
  · intro x hx
    have hxc : x ≠ n.sched.created := fun heq => hx p (hmem.mpr (Or.inr ⟨heq, rfl⟩))
    have hxl : ∀ j, x ∉ live j := fun j hj => hx j (hmem.mpr (Or.inl hj))
    obtain ⟨hprev, hnext⟩ := hl.create_links hnew hs' hxc (hxl p)
    rw [hprev, hnext]
    exact h.unlinked hxl
  · intro j
    have hold : (live j).Pairwise fun t u =>
        Function.update n.threadId n.sched.created (n.nextThreadId p) t <
          Function.update n.threadId n.sched.created (n.nextThreadId p) u :=
      (h.ids j).imp_of_mem fun ht hu hlt => by
        rwa [Function.update_of_ne (hne ht), Function.update_of_ne (hne hu)]
    by_cases hj : j = p
    · subst hj
      rw [Function.update_self, List.pairwise_append]
      refine ⟨hold, List.pairwise_singleton _ _, fun t ht u hu => ?_⟩
      obtain rfl := List.mem_singleton.mp hu
      dsimp only
      rw [Function.update_of_ne (hne ht), Function.update_self]
      exact h.id_lt ht
    · rw [Function.update_of_ne hj]
      exact hold
  · intro j x hx
    dsimp only
    rcases hmem.mp hx with hold | ⟨rfl, rfl⟩
    · rw [Function.update_of_ne (hne hold), Function.update_apply]
      split
      next hj =>
        subst hj
        exact Nat.lt_succ_of_lt (h.id_lt hold)
      next => exact h.id_lt hold
    · rw [Function.update_self, Function.update_self]
      exact Nat.lt_succ_self _

/-- **Removing a thread** keeps the invariant. -/
theorem Numbered.Inv.remove (h : n.Inv live) (ht : t ∈ live p) (hr : ¬ OnReady n.sched t) :
    ∃ s', removeThread n.sched p t = .ok s' ∧
      Numbered.Inv { n with sched := s' } (Function.update live p ((live p).erase t)) := by
  obtain ⟨ready, waiting, hl, hfresh⟩ := h.linked
  have hr' : ∀ j, t ∉ ready j := fun j hj => hr (hl.onReady_iff.mpr ⟨j, hj⟩)
  obtain ⟨s', hs', hl', hcore⟩ := hl.remove ht (h.process ht).symm hr'
  have hnd := hl.threadLists.nodup p
  have hsub : ∀ {j x}, x ∈ Function.update live p ((live p).erase t) j → x ∈ live j := by
    intro j x hx
    by_cases hj : j = p
    · subst hj
      rw [Function.update_self] at hx
      exact List.mem_of_mem_erase hx
    · rwa [Function.update_of_ne hj] at hx
  refine ⟨s', hs', ⟨ready, waiting, hl', fun x hx => hfresh x (hcore.created ▸ hx)⟩,
    fun hx => ?_, fun hx => ?_, fun {x} hx => ?_, fun j => ?_, fun hx => h.id_lt (hsub hx)⟩
  · rw [hcore.created]
    exact h.lt_created (hsub hx)
  · rw [hcore.process]
    exact h.process (hsub hx)
  · have hxp : x = t ∨ x ∉ live p := by
      by_contra hno
      rw [not_or, not_not] at hno
      exact hx p (by rw [Function.update_self]; exact (List.mem_erase_of_ne hno.1).mpr hno.2)
    obtain ⟨hprev, hnext⟩ := hl.remove_links ht (h.process ht).symm hr' hs' hxp
    rw [hprev, hnext]
    by_cases hxt : x = t
    · rw [if_pos hxt, if_pos hxt]
      exact ⟨rfl, rfl⟩
    · rw [if_neg hxt, if_neg hxt]
      refine h.unlinked fun j hj => hx j ?_
      by_cases hjp : j = p
      · subst hjp
        exact absurd hj (hxp.resolve_left hxt)
      · rwa [Function.update_of_ne hjp]
  · by_cases hj : j = p
    · subst hj
      rw [Function.update_self]
      exact (h.ids j).sublist List.erase_sublist
    · rw [Function.update_of_ne hj]
      exact h.ids j

/-- Putting a thread on a ready queue keeps the invariant. -/
theorem Numbered.Inv.enqueueReady (h : n.Inv live) (ht : t < n.sched.created)
    (hr : ¬ OnReady n.sched t) :
    ∃ s', enqueueReadyThread (n.sched.setState t .ready) (n.sched.threads t).process t = .ok s' ∧
      Numbered.Inv { n with sched := s' } live := by
  obtain ⟨ready, waiting, hl, hfresh⟩ := h.linked
  have hr' : ∀ j, t ∉ ready j := fun j hj => hr (hl.onReady_iff.mpr ⟨j, hj⟩)
  have hl₁ := hl.setState t .ready
  have henq := enqueueReadyThread_spec hl₁ (by simp [setState_state]) hr'
  rw [setState_process] at henq
  obtain ⟨hl', hcore⟩ := hl₁.pushReady (p := (n.sched.threads t).process) hr'
  refine ⟨_, henq, h.congr ⟨_, waiting, hl', fun x hx j => ⟨?_, ?_⟩⟩ hcore.created (fun x => ?_)
    fun x => ?_⟩
  · rw [hcore.created] at hx
    have hx' : n.sched.created ≤ x := hx
    rw [mem_update_append]
    rintro (hmem | ⟨rfl, -⟩)
    · exact (hfresh x hx' j).1 hmem
    · omega
  · rw [hcore.created] at hx
    exact (hfresh x hx j).2
  · rw [hcore.process, setState_process]
  · have htail : ((n.sched.setState t .ready).processes (n.sched.threads t).process).readyTail ≠
        some t := fun htail => hr' _ (hl₁.readyQueues.mem_of_tail htail)
    rw [(pushReady_links htail x).1, (pushReady_links htail x).2]
    by_cases hx : x = t <;> simp [State.setState, State.modifyThread, hx]

/-- Taking a thread off a ready queue keeps the invariant. -/
theorem Numbered.Inv.dequeueReady (h : n.Inv live) (p : ℕ) :
    Numbered.Inv { n with sched := (dequeueReadyThread n.sched p).2 } live := by
  obtain ⟨ready, waiting, hl, hfresh⟩ := h.linked
  cases hq : ready p with
  | nil =>
      rw [hl.dequeueReady_nil hq]
      exact h
  | cons t rest =>
      obtain ⟨s', hs', hl', hcore⟩ := hl.dequeueReady hq
      have hlinks := fun x => hl.dequeueReady_links (p := p) x
      rw [hs'] at hlinks ⊢
      refine h.congr ⟨_, waiting, hl', fun x hx j => ?_⟩ hcore.created hcore.process hlinks
      rw [hcore.created] at hx
      refine ⟨fun hmem => ?_, (hfresh x hx j).2⟩
      by_cases hj : j = p
      · subst hj
        rw [Function.update_self] at hmem
        exact (hfresh x hx j).1 (hq ▸ List.mem_cons_of_mem t hmem)
      · rw [Function.update_of_ne hj] at hmem
        exact (hfresh x hx j).1 hmem

/-- The invariant describes the lists. -/
theorem Numbered.Inv.threadList (h : n.Inv live) (p : ℕ) : ThreadList n p (live p) := by
  obtain ⟨ready, waiting, hl, -⟩ := h.linked
  have hseg := hl.threadLists.dseg p
  refine ⟨?_, h.ids p, hl.threadLists.head_eq p, hl.threadLists.tail_eq p, fun t ht u => ?_⟩
  · have hchain := hseg.chain
    rw [Option.or_none, ← hl.threadLists.head_eq p] at hchain
    refine threadIterator_eq hchain (Nat.lt_succ_of_le ?_)
    have hsub : live p ⊆ List.range n.sched.created := fun x hx =>
      List.mem_range.mpr (h.lt_created hx)
    simpa using (hseg.nodup.subperm hsub).length_le
  · constructor
    · intro hnext
      obtain ⟨xs, ys, hq⟩ := List.append_of_mem ht
      obtain ⟨-, -, hhead, -⟩ := hl.threadLists.focus hq
      have hu : u ∈ ys := List.mem_of_mem_head? (hhead.symm.trans hnext)
      exact ⟨by simp [hq, hu], hseg.prev_of_next ht (by simp) hnext⟩
    · rintro ⟨hu, hprev⟩
      exact hseg.next_of_prev ht hu (by simp) hprev

/-- **An operation** returns and keeps the invariant, unless a process has no more ids. -/
theorem Numbered.Inv.exec (h : n.Inv live) {op : ListOp} (hop : op.Enabled n live) :
    (∃ n', op.exec n = .ok n' ∧ n'.Inv (op.live n live)) ∨
      (op.exec n = .error .overflow ∧
        ∃ p regs join, op = .create p regs join ∧ 2 ^ 64 ≤ n.nextThreadId p + 1) := by
  cases op with
  | create p regs join =>
      by_cases hid : n.nextThreadId p + 1 < 2 ^ 64
      · obtain ⟨n', hn', hinv⟩ := h.create p regs join hid
        exact .inl ⟨n', by rw [ListOp.exec, hn']; rfl, hinv⟩
      · refine .inr ⟨?_, p, regs, join, rfl, not_lt.mp hid⟩
        rw [ListOp.exec, Numbered.createInternal, ensure_neg hid]
        rfl
  | remove p t =>
      obtain ⟨s', hs', hinv⟩ := h.remove hop.1 hop.2
      exact .inl ⟨_, by rw [ListOp.exec, hs']; rfl, hinv⟩
  | enqueueReady t =>
      obtain ⟨s', hs', hinv⟩ := h.enqueueReady hop.1 hop.2
      exact .inl ⟨_, by rw [ListOp.exec, hs']; rfl, hinv⟩
  | dequeueReady p => exact .inl ⟨_, rfl, h.dequeueReady p⟩

/-- **The threads of a process.** In every run of creating and removing threads, in any order and
while threads are put on the ready queue and taken off it, `threads()` yields the threads that
were created and not removed, in the order of their creation and with increasing ids; the links
of the list and its ends are right; other threads have no links; and every operation returns,
unless a process has no more ids. -/
theorem threads_of_runs {frame : InterruptFrame} {ext : List UInt8} {msr : BitVec 64}
    {ops : List ListOp} {s : Numbered × (ℕ → List ℕ)}
    (h : Runs ListStep (.new frame ext msr, fun _ => []) ops s) :
    (∀ p, ThreadList s.1 p (s.2 p)) ∧
    (∀ t, (∀ p, t ∉ s.2 p) →
      (s.1.sched.threads t).prev = none ∧ (s.1.sched.threads t).next = none) ∧
    ∀ op : ListOp, op.Enabled s.1 s.2 → (∃ n', op.exec s.1 = .ok n') ∨
      (op.exec s.1 = .error .overflow ∧
        ∃ p regs join, op = .create p regs join ∧ 2 ^ 64 ≤ s.1.nextThreadId p + 1) := by
  have hinv : s.1.Inv s.2 := by
    refine h.invariant (P := fun s => s.1.Inv s.2) (Numbered.new_inv frame ext msr)
      fun s op s' hs hstep => ?_
    obtain ⟨hop, hexec, hlive⟩ := hstep
    rcases hs.exec hop with ⟨n', hn', hinv⟩ | ⟨herr, -⟩
    · obtain rfl := Except.ok.inj (hexec.symm.trans hn')
      rw [hlive]
      exact hinv
    · cases hexec.symm.trans herr
  refine ⟨hinv.threadList, fun t ht => hinv.unlinked ht, fun op hop => ?_⟩
  exact (hinv.exec hop).imp_left fun ⟨n', hn', _⟩ => ⟨n', hn'⟩

/-- Three threads are created, and the one in the middle is removed. -/
def middleOps : List ListOp :=
  [.create 0 ⟨.new, []⟩ 0, .create 0 ⟨.new, []⟩ 1, .create 0 ⟨.new, []⟩ 2, .remove 0 1]

/-- The state behind an operation. -/
def ListOp.after (s : Numbered × (ℕ → List ℕ)) (op : ListOp) : Numbered × (ℕ → List ℕ) :=
  ((op.exec s.1).toOption.getD s.1, op.live s.1 s.2)

/-- The state behind `middleOps`. -/
def middleRemoved : Numbered × (ℕ → List ℕ) :=
  middleOps.foldl ListOp.after (.new int30Frame [] 0, fun _ => [])

/-- The operations of the example are a run. -/
theorem runs_middleOps :
    Runs ListStep (.new int30Frame [] 0, fun _ => []) middleOps middleRemoved := by
  refine .cons ⟨trivial, rfl, rfl⟩ (.cons ⟨trivial, rfl, rfl⟩ (.cons ⟨trivial, rfl, rfl⟩
    (.cons ⟨⟨?_, ?_⟩, rfl, rfl⟩ .refl)))
  · exact List.mem_cons_of_mem 0 List.mem_cons_self
  · rintro ⟨p, l, hl, ht⟩
    cases l with
    | nil => cases ht
    | cons t l =>
        cases p with
        | zero => cases hl.1
        | succ p => cases hl.1

/-- The theorem for this run. -/
theorem threads_of_runs_middle : ThreadList middleRemoved.1 0 [0, 2] :=
  (threads_of_runs runs_middleOps).1 0

end HydroxKernel.Sched
