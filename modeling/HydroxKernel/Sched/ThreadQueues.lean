import HydroxKernel.Lib.Queues
import HydroxKernel.Sched.Task

/-!
# The Queues of the Scheduler

Three families of queues run through the threads: the ready queue of every process, the
list of threads of every process, and the wait lists. `Linked` relates the links and the
ends that the scheduler keeps to the lists of threads on these queues. For each operation on
a queue there is its closed form and what it does to the lists.

## Main results

* `Linked.pushReady`, `Linked.dequeueReady`: the ready queues.
* `Linked.enqueue`, `Linked.dequeue`: the wait lists.
* `Linked.create`, `Linked.remove`: the lists of threads.
-/

namespace HydroxKernel.Sched

open Arch Links

variable {s : State} {p t l : ℕ}

/-! ### Closed forms -/

/-- What `pushReady` does. -/
theorem pushReady_eq (h : (s.processes p).readyTail ≠ some t) :
    pushReady s p t =
      { s with
        threads := fun x =>
          { s.threads x with
            prevReady := if x = t then (s.processes p).readyTail else (s.threads x).prevReady
            nextReady :=
              if x = t then none
              else if (s.processes p).readyTail = some x then some t
              else (s.threads x).nextReady }
        processes := fun j =>
          { s.processes j with
            readyHead :=
              if j = p ∧ (s.processes p).readyTail = none then some t
              else (s.processes j).readyHead
            readyTail := if j = p then some t else (s.processes j).readyTail } } := by
  cases htail : (s.processes p).readyTail with
  | none =>
      simp only [pushReady, State.modifyThread, State.modifyProcess, htail]
      congr 1
      · funext x
        by_cases hx : x = t <;> simp [hx]
      · funext j
        by_cases hj : j = p <;> simp [hj]
  | some tail =>
      have hne : tail ≠ t := fun heq => h (by rw [htail, heq])
      simp only [pushReady, State.modifyThread, State.modifyProcess, htail]
      congr 1
      · funext x
        by_cases hx : x = t <;> by_cases hx' : x = tail
        · exact absurd (hx'.symm.trans hx) hne
        · simp [hx, hne.symm, Function.update_apply]
        · simp [hx', hne]
        · simp [hx, hx', Ne.symm hx', Function.update_apply]
      · funext j
        by_cases hj : j = p <;> simp [hj]

/-- What `dequeueReadyThread` does to a queue that is not empty. -/
theorem dequeueReadyThread_eq (h : (s.processes p).readyHead = some t)
    (hne : (s.threads t).nextReady ≠ some t) :
    dequeueReadyThread s p =
      (some t, { s with
        threads := fun x =>
          { s.threads x with
            prevReady :=
              if x = t then none
              else if (s.threads t).nextReady = some x then none
              else (s.threads x).prevReady
            nextReady := if x = t then none else (s.threads x).nextReady }
        processes := fun j =>
          { s.processes j with
            readyHead := if j = p then (s.threads t).nextReady else (s.processes j).readyHead
            readyTail :=
              if j = p ∧ (s.threads t).nextReady = none then none
              else (s.processes j).readyTail } }) := by
  cases hnext : (s.threads t).nextReady with
  | none =>
      simp only [dequeueReadyThread, State.modifyThread, State.modifyProcess, h, hnext]
      congr 2
      · funext x
        by_cases hx : x = t <;> simp [hx]
      · funext j
        by_cases hj : j = p <;> simp [hj]
  | some next =>
      have hnt : next ≠ t := fun heq => hne (by rw [hnext, heq])
      simp only [dequeueReadyThread, State.modifyThread, State.modifyProcess, h, hnext]
      congr 2
      · funext x
        by_cases hx : x = t <;> by_cases hx' : x = next
        · exact absurd (hx'.symm.trans hx) hnt
        · simp [hx, hnt.symm]
        · simp [hx', hnt]
        · simp [hx, hx', Ne.symm hx']
      · funext j
        by_cases hj : j = p <;> simp [hj]

/-- What `enqueue` does to a thread that is on no wait list. -/
theorem enqueue_eq (hvalid : (s.threads t).waitState.valid = false)
    (h : (s.waitLists l).tail ≠ some t) :
    enqueue s l t =
      .ok { s with
        threads := fun x =>
          { s.threads x with
            waitState :=
              { prev := if x = t then (s.waitLists l).tail else (s.threads x).waitState.prev
                next :=
                  if x = t then none
                  else if (s.waitLists l).tail = some x then some t
                  else (s.threads x).waitState.next
                valid := if x = t then true else (s.threads x).waitState.valid } }
        waitLists := fun j =>
          { head :=
              if j = l ∧ (s.waitLists l).tail = none then some t else (s.waitLists j).head
            tail := if j = l then some t else (s.waitLists j).tail } } := by
  cases htail : (s.waitLists l).tail with
  | none =>
      simp only [enqueue, State.modifyThread, State.modifyWaitList, htail, ensure_pos hvalid]
      refine congrArg Except.ok ?_
      congr 1
      · funext x
        by_cases hx : x = t <;> simp [hx]
      · funext j
        by_cases hj : j = l <;> simp [hj]
  | some tail =>
      have hne : tail ≠ t := fun heq => h (by rw [htail, heq])
      simp only [enqueue, State.modifyThread, State.modifyWaitList, htail, ensure_pos hvalid]
      refine congrArg Except.ok ?_
      congr 1
      · funext x
        by_cases hx : x = t <;> by_cases hx' : x = tail
        · exact absurd (hx'.symm.trans hx) hne
        · simp [hx, hne.symm, Function.update_apply]
        · simp [hx', hne]
        · simp [hx, hx', Ne.symm hx', Function.update_apply]
      · funext j
        by_cases hj : j = l <;> simp [hj]

/-- What `dequeue` does to a wait list that is not empty. -/
theorem dequeue_eq (h : (s.waitLists l).head = some t)
    (hvalid : (s.threads t).waitState.valid = true)
    (hne : (s.threads t).waitState.next ≠ some t) :
    dequeue s l =
      .ok (some t, { s with
        threads := fun x =>
          { s.threads x with
            waitState :=
              { prev :=
                  if (s.threads t).waitState.next = some x then none
                  else (s.threads x).waitState.prev
                next := (s.threads x).waitState.next
                valid := if x = t then false else (s.threads x).waitState.valid } }
        waitLists := fun j =>
          { head := if j = l then (s.threads t).waitState.next else (s.waitLists j).head
            tail :=
              if j = l ∧ (s.threads t).waitState.next = none then none
              else (s.waitLists j).tail } }) := by
  cases hnext : (s.threads t).waitState.next with
  | none =>
      simp only [dequeue, State.modifyThread, State.modifyWaitList, h, ensure_pos hvalid,
        Function.update_self, hnext]
      refine congrArg Except.ok ?_
      congr 2
      · funext x
        by_cases hx : x = t <;> simp [hx, hnext]
      · funext j
        by_cases hj : j = l <;> simp [hj]
  | some next =>
      have hnt : next ≠ t := fun heq => hne (by rw [hnext, heq])
      simp only [dequeue, State.modifyThread, State.modifyWaitList, h, ensure_pos hvalid,
        Function.update_self, hnext]
      refine congrArg Except.ok ?_
      congr 2
      · funext x
        by_cases hx : x = t <;> by_cases hx' : x = next
        · exact absurd (hx'.symm.trans hx) hnt
        · simp [hx, hnext, hnt, hnt.symm]
        · simp [hx', hnt]
        · simp [hx, hx', Ne.symm hx', Function.update_apply]
      · funext j
        by_cases hj : j = l <;> simp [hj]

/-- What `createInternal` does, if the ends of the list of threads are consistent. -/
theorem createInternal_eq {regs : SavedRegisters} {join : ℕ}
    (hends : (s.processes p).threadsHead = none ↔ (s.processes p).threadsTail = none)
    (h : (s.processes p).threadsTail ≠ some s.created) :
    createInternal s p regs join =
      .ok (s.created, { s with
        created := s.created + 1
        threads := fun x =>
          if x = s.created then
            ⟨p, .suspended, regs, some join, (s.processes p).threadsTail, none, none, none, .new⟩
          else
            { s.threads x with
              next :=
                if (s.processes p).threadsTail = some x then some s.created
                else (s.threads x).next }
        processes := fun j =>
          { s.processes j with
            threadsHead :=
              if j = p ∧ (s.processes p).threadsTail = none then some s.created
              else (s.processes j).threadsHead
            threadsTail := if j = p then some s.created else (s.processes j).threadsTail } }) := by
  cases htail : (s.processes p).threadsTail with
  | none =>
      have hhead := hends.mpr htail
      simp only [createInternal, State.modifyThread, State.modifyProcess, htail, hhead]
      refine congrArg Except.ok ?_
      congr 2
      · funext x
        by_cases hx : x = s.created <;> simp [hx]
      · funext j
        by_cases hj : j = p <;> simp [hj]
  | some tail =>
      obtain ⟨head, hhead⟩ := Option.ne_none_iff_exists'.mp fun hn => by
        rw [hends.mp hn] at htail
        exact absurd htail (by simp)
      have hne : tail ≠ s.created := fun heq => h (by rw [htail, heq])
      simp only [createInternal, State.modifyThread, State.modifyProcess, htail, hhead]
      refine congrArg Except.ok ?_
      congr 2
      · funext x
        by_cases hx : x = s.created <;> by_cases hx' : x = tail
        · exact absurd (hx'.symm.trans hx) hne
        · simp [hx, hne.symm]
        · simp [hx', hne]
        · simp [hx, hx', Ne.symm hx']
      · funext j
        by_cases hj : j = p <;> simp [hj]

/-- What `unlinkNext` does to a thread to which the next one points back. -/
theorem unlinkNext_eq
    (hnext : ∀ x, (s.threads t).next = some x → (s.threads x).prev = some t)
    (htail : (s.threads t).next = none → (s.processes p).threadsTail = some t) :
    unlinkNext s p t =
      .ok { s with
        threads := fun x =>
          { s.threads x with
            prev :=
              if (s.threads t).next = some x then (s.threads t).prev else (s.threads x).prev }
        processes := fun j =>
          { s.processes j with
            threadsTail :=
              if j = p ∧ (s.threads t).next = none then (s.threads t).prev
              else (s.processes j).threadsTail } } := by
  cases hn : (s.threads t).next with
  | none =>
      simp only [unlinkNext, State.modifyProcess, hn, ensure_pos (htail hn), ok_bind]
      refine congrArg Except.ok ?_
      congr 1
      funext j
      by_cases hj : j = p <;> simp [hj]
  | some next =>
      simp only [unlinkNext, State.modifyThread, hn, ensure_pos (hnext _ hn), ok_bind]
      refine congrArg Except.ok ?_
      congr 1
      · funext x
        by_cases hx : x = next
        · simp [hx]
        · simp [hx, Ne.symm hx]
      · simp

/-- What `unlinkPrev` does to a thread to which the previous one points. -/
theorem unlinkPrev_eq
    (hprev : ∀ x, (s.threads t).prev = some x → (s.threads x).next = some t)
    (hhead : (s.threads t).prev = none → (s.processes p).threadsHead = some t) :
    unlinkPrev s p t =
      .ok { s with
        threads := fun x =>
          { s.threads x with
            next :=
              if (s.threads t).prev = some x then (s.threads t).next else (s.threads x).next }
        processes := fun j =>
          { s.processes j with
            threadsHead :=
              if j = p ∧ (s.threads t).prev = none then (s.threads t).next
              else (s.processes j).threadsHead } } := by
  cases hp : (s.threads t).prev with
  | none =>
      simp only [unlinkPrev, State.modifyProcess, hp, ensure_pos (hhead hp), ok_bind]
      refine congrArg Except.ok ?_
      congr 1
      funext j
      by_cases hj : j = p <;> simp [hj]
  | some prev =>
      simp only [unlinkPrev, State.modifyThread, hp, ensure_pos (hprev _ hp), ok_bind]
      refine congrArg Except.ok ?_
      congr 1
      · funext x
        by_cases hx : x = prev
        · simp [hx]
        · simp [hx, Ne.symm hx]
      · simp

/-- What `removeThread` does to a thread whose neighbours point to it. -/
theorem removeThread_eq (hprocess : p = (s.threads t).process)
    (hready : (s.threads t).prevReady = none ∧ (s.threads t).nextReady = none)
    (hnext : ∀ x, (s.threads t).next = some x → (s.threads x).prev = some t)
    (hprev : ∀ x, (s.threads t).prev = some x → (s.threads x).next = some t)
    (htail : (s.threads t).next = none → (s.processes p).threadsTail = some t)
    (hhead : (s.threads t).prev = none → (s.processes p).threadsHead = some t)
    (hne : (s.threads t).next ≠ some t) :
    removeThread s p t =
      .ok { s with
        threads := fun x =>
          { s.threads x with
            prev :=
              if x = t then none
              else if (s.threads t).next = some x then (s.threads t).prev
              else (s.threads x).prev
            next :=
              if x = t then none
              else if (s.threads t).prev = some x then (s.threads t).next
              else (s.threads x).next }
        processes := fun j =>
          { s.processes j with
            threadsHead :=
              if j = p ∧ (s.threads t).prev = none then (s.threads t).next
              else (s.processes j).threadsHead
            threadsTail :=
              if j = p ∧ (s.threads t).next = none then (s.threads t).prev
              else (s.processes j).threadsTail } } := by
  simp only [removeThread, ensure_pos hprocess, ensure_pos hready.1, ensure_pos hready.2, ok_bind,
    unlinkNext_eq hnext htail]
  rw [unlinkPrev_eq (by simpa [hne] using hprev) (by simpa [hne] using hhead)]
  simp only [ok_bind, State.modifyThread, if_neg hne]
  refine congrArg Except.ok ?_
  congr 1
  funext x
  by_cases hx : x = t <;> simp [hx]

/-! ### The lists of threads on the queues -/

/-- The links of a thread. -/
def Thread.links (th : Thread) :
    Option ℕ × Option ℕ × Option ℕ × Option ℕ × ThreadWaitState :=
  (th.prev, th.next, th.prevReady, th.nextReady, th.waitState)

/-- The queues of the scheduler hold these threads. A thread that is on no ready queue has no
links for one, and the wait state of a thread is valid if and only if the thread is on a wait
list. -/
structure Linked (s : State) (ready threads waiting : ℕ → List ℕ) : Prop where
  readyQueues : Queues (fun p => (s.processes p).readyHead) (fun p => (s.processes p).readyTail)
    (fun t => (s.threads t).prevReady) (fun t => (s.threads t).nextReady) ready
  threadLists : Queues (fun p => (s.processes p).threadsHead) (fun p => (s.processes p).threadsTail)
    (fun t => (s.threads t).prev) (fun t => (s.threads t).next) threads
  waitLists : Queues (fun l => (s.waitLists l).head) (fun l => (s.waitLists l).tail)
    (fun t => (s.threads t).waitState.prev) (fun t => (s.threads t).waitState.next) waiting
  unready : ∀ t, (∀ p, t ∉ ready p) →
    (s.threads t).prevReady = none ∧ (s.threads t).nextReady = none
  valid : ∀ t, (s.threads t).waitState.valid = true ↔ ∃ l, t ∈ waiting l

/-- Everything but the links is the same in two states. -/
structure SameCore (s s' : State) : Prop where
  state : ∀ x, (s'.threads x).state = (s.threads x).state
  process : ∀ x, (s'.threads x).process = (s.threads x).process
  regs : ∀ x, (s'.threads x).regs = (s.threads x).regs
  joinWriter : ∀ x, (s'.threads x).joinWriter = (s.threads x).joinWriter
  created : s'.created = s.created
  current : s'.current = s.current
  inInterrupt : s'.inInterrupt = s.inInterrupt
  frame : s'.frame = s.frame
  ext : s'.ext = s.ext
  msr : s'.msr = s.msr

variable {ready threads waiting : ℕ → List ℕ} {s' : State}

/-- Without threads, all queues are empty. -/
theorem linked_empty (frame : InterruptFrame) (ext : List UInt8) (msr : BitVec 64) :
    Linked (.empty frame ext msr) (fun _ => []) (fun _ => []) fun _ => [] :=
  ⟨queues_empty, queues_empty, queues_empty, fun _ _ => ⟨rfl, rfl⟩, by
    simp [State.empty, Thread.none, ThreadWaitState.new]⟩

/-- Only the links matter. -/
theorem Linked.congr (h : Linked s ready threads waiting) (hp : s'.processes = s.processes)
    (hw : s'.waitLists = s.waitLists) (hl : ∀ x, (s'.threads x).links = (s.threads x).links) :
    Linked s' ready threads waiting := by
  simp only [Thread.links, Prod.mk.injEq] at hl
  constructor
  · simpa only [hp, (hl _).2.2.1, (hl _).2.2.2.1] using h.readyQueues
  · simpa only [hp, (hl _).1, (hl _).2.1] using h.threadLists
  · simpa only [hw, (hl _).2.2.2.2] using h.waitLists
  · simpa only [(hl _).2.2.1, (hl _).2.2.2.1] using h.unready
  · simpa only [(hl _).2.2.2.2] using h.valid

/-- Writing other fields of a thread. -/
theorem Linked.modifyThread (h : Linked s ready threads waiting) {f : Thread → Thread}
    (hf : ∀ th, (f th).links = th.links) :
    Linked (s.modifyThread t f) ready threads waiting := by
  refine h.congr rfl rfl fun x => ?_
  by_cases hx : x = t
  · subst hx
    simp [State.modifyThread, hf]
  · simp [State.modifyThread, hx]

/-- Putting a thread on a ready queue. -/
theorem Linked.pushReady (h : Linked s ready threads waiting) (ht : ∀ j, t ∉ ready j) :
    Linked (pushReady s p t) (Function.update ready p (ready p ++ [t])) threads waiting ∧
      SameCore s (pushReady s p t) := by
  rw [pushReady_eq fun htail => ht p (h.readyQueues.mem_of_tail htail)]
  refine ⟨⟨?_, h.threadLists, h.waitLists, fun x hx => ?_, h.valid⟩, ?_⟩
  · exact h.readyQueues.pushBack ht (fun _ => rfl) (fun _ => rfl) (fun _ => rfl) fun _ => rfl
  · have hxt : x ≠ t := fun heq => hx p (by simp [heq])
    have hxr : ∀ j, x ∉ ready j := fun j hj => hx j (by
      by_cases hjp : j = p
      · subst hjp
        simp [hj]
      · simpa [hjp] using hj)
    have htail : (s.processes p).readyTail ≠ some x := fun htail =>
      hxr p (h.readyQueues.mem_of_tail htail)
    simpa [hxt, htail] using h.unready x hxr
  · constructor <;> simp

/-- The first thread of a ready queue is its head and is not linked to itself. -/
theorem Linked.readyFront (h : Linked s ready threads waiting) {rest : List ℕ}
    (hq : ready p = t :: rest) :
    (s.processes p).readyHead = some t ∧ (s.threads t).nextReady ≠ some t := by
  have hsplit : ready p = [] ++ t :: rest := hq
  obtain ⟨-, -, hnext, -⟩ := h.readyQueues.focus hsplit
  have hhead : (s.processes p).readyHead = some t := by
    rw [h.readyQueues.head_eq p, hq, List.head?_cons]
  have hnd := h.readyQueues.nodup p
  rw [hq, List.nodup_cons] at hnd
  exact ⟨hhead, fun heq => hnd.1 (List.mem_of_mem_head? (hnext.symm.trans heq))⟩

/-- Taking the first thread off a ready queue. -/
theorem Linked.dequeueReady (h : Linked s ready threads waiting) {rest : List ℕ}
    (hq : ready p = t :: rest) :
    ∃ s', dequeueReadyThread s p = (some t, s') ∧
      Linked s' (Function.update ready p rest) threads waiting ∧ SameCore s s' := by
  obtain ⟨hhead, hne⟩ := h.readyFront hq
  rw [dequeueReadyThread_eq hhead hne]
  refine ⟨_, rfl, ⟨?_, h.threadLists, h.waitLists, fun x hx => ?_, h.valid⟩, ?_⟩
  · exact h.readyQueues.popFront hq (fun _ => rfl) (fun _ => rfl)
      (fun y hy => by simp only [if_neg hy]) fun y hy => by simp only [if_neg hy]
  · by_cases hxt : x = t
    · simp [hxt]
    · have hxr : ∀ j, x ∉ ready j := fun j hj => hx j (by
        by_cases hjp : j = p
        · subst hjp
          rw [hq] at hj
          simpa [hxt] using hj
        · simpa [hjp] using hj)
      obtain ⟨hp, hn⟩ := h.unready x hxr
      simp [hxt, hp, hn]
  · constructor <;> simp

/-- Taking a thread off an empty ready queue. -/
theorem Linked.dequeueReady_nil (h : Linked s ready threads waiting) (hq : ready p = []) :
    dequeueReadyThread s p = (none, s) := by
  have hhead := h.readyQueues.head_eq p
  rw [hq, List.head?_nil] at hhead
  simp only [dequeueReadyThread, hhead]

/-- A list that is changed for others has a thread where it had it. -/
theorem exists_mem_update {lists : ℕ → List ℕ} {q : List ℕ} {x : ℕ} (h : x ∈ q ↔ x ∈ lists l) :
    (∃ j, x ∈ Function.update lists l q j) ↔ ∃ j, x ∈ lists j := by
  refine exists_congr fun j => ?_
  by_cases hj : j = l
  · subst hj
    rw [Function.update_self, h]
  · rw [Function.update_of_ne hj]

/-- Putting a thread on a wait list. -/
theorem Linked.enqueue (h : Linked s ready threads waiting) (ht : ∀ j, t ∉ waiting j) :
    ∃ s', enqueue s l t = .ok s' ∧
      Linked s' ready threads (Function.update waiting l (waiting l ++ [t])) ∧
      SameCore s s' := by
  have hvalid : (s.threads t).waitState.valid = false := by
    rw [← Bool.not_eq_true, h.valid]
    rintro ⟨j, hj⟩
    exact ht j hj
  rw [enqueue_eq hvalid fun htail => ht l (h.waitLists.mem_of_tail htail)]
  refine ⟨_, rfl, ⟨h.readyQueues, h.threadLists, ?_, h.unready, fun x => ?_⟩, ?_⟩
  · exact h.waitLists.pushBack ht (fun _ => rfl) (fun _ => rfl) (fun _ => rfl) fun _ => rfl
  · by_cases hxt : x = t
    · simpa [hxt] using ⟨l, by simp⟩
    · simp only [hxt, if_false]
      rw [h.valid]
      exact (exists_mem_update (by simp [hxt])).symm
  · constructor <;> simp

/-- Taking the first thread off a wait list. -/
theorem Linked.dequeue (h : Linked s ready threads waiting) {rest : List ℕ}
    (hq : waiting l = t :: rest) :
    ∃ s', dequeue s l = .ok (some t, s') ∧
      Linked s' ready threads (Function.update waiting l rest) ∧ SameCore s s' := by
  have hsplit : waiting l = [] ++ t :: rest := hq
  obtain ⟨-, -, hnext, -⟩ := h.waitLists.focus hsplit
  have hhead : (s.waitLists l).head = some t := by
    rw [h.waitLists.head_eq l, hq, List.head?_cons]
  have hnd := h.waitLists.nodup l
  rw [hq, List.nodup_cons] at hnd
  have hne : (s.threads t).waitState.next ≠ some t := fun heq =>
    hnd.1 (List.mem_of_mem_head? (hnext.symm.trans heq))
  have hvalid : (s.threads t).waitState.valid = true := (h.valid t).mpr ⟨l, by simp [hq]⟩
  rw [dequeue_eq hhead hvalid hne]
  refine ⟨_, rfl, ⟨h.readyQueues, h.threadLists, ?_, h.unready, fun x => ?_⟩, ?_⟩
  · exact h.waitLists.popFront hq (fun _ => rfl) (fun _ => rfl) (fun _ _ => rfl) fun _ _ => rfl
  · by_cases hxt : x = t
    · simp only [hxt, if_true, Bool.false_eq_true, false_iff, not_exists]
      intro j hj
      by_cases hjl : j = l
      · subst hjl
        exact hnd.1 (by simpa using hj)
      · rw [Function.update_of_ne hjl] at hj
        exact hjl (h.waitLists.disjoint hj (by simp [hq]))
    · simp only [hxt, if_false]
      rw [h.valid]
      exact (exists_mem_update (by simp [hq, hxt])).symm
  · constructor <;> simp

/-- Taking a thread off an empty wait list. -/
theorem Linked.dequeue_nil (h : Linked s ready threads waiting) (hq : waiting l = []) :
    Sched.dequeue s l = .ok (none, s) := by
  have hhead := h.waitLists.head_eq l
  rw [hq, List.head?_nil] at hhead
  simp only [Sched.dequeue, hhead]

/-- What `removeThread` does to a thread on the list of threads of its process. -/
theorem Linked.removeThread_eq (h : Linked s ready threads waiting) (ht : t ∈ threads p)
    (hp : p = (s.threads t).process) (hr : ∀ j, t ∉ ready j) :
    removeThread s p t =
      .ok { s with
        threads := fun x =>
          { s.threads x with
            prev :=
              if x = t then none
              else if (s.threads t).next = some x then (s.threads t).prev
              else (s.threads x).prev
            next :=
              if x = t then none
              else if (s.threads t).prev = some x then (s.threads t).next
              else (s.threads x).next }
        processes := fun j =>
          { s.processes j with
            threadsHead :=
              if j = p ∧ (s.threads t).prev = none then (s.threads t).next
              else (s.processes j).threadsHead
            threadsTail :=
              if j = p ∧ (s.threads t).next = none then (s.threads t).prev
              else (s.processes j).threadsTail } } := by
  obtain ⟨xs, ys, hq⟩ := List.append_of_mem ht
  obtain ⟨-, hprev, hnext, -⟩ := h.threadLists.focus hq
  have hnd := h.threadLists.nodup p
  rw [hq] at hnd
  have hys : t ∉ ys := (List.nodup_cons.mp (List.nodup_append.mp hnd).2.1).1
  refine Sched.removeThread_eq hp (h.unready t hr) ?_ ?_ ?_ ?_ ?_
  · intro x hx
    exact (h.threadLists.dseg p).prev_of_next ht (by simp) hx
  · intro x hx
    have hxs : x ∈ xs := List.mem_of_getLast? (hprev.symm.trans hx)
    exact (h.threadLists.dseg p).next_of_prev (by simp [hq, hxs]) ht (by simp) hx
  · intro hx
    have hnil := hnext.symm.trans hx
    rw [List.head?_eq_none_iff] at hnil
    rw [h.threadLists.tail_eq p, hq, hnil]
    simp
  · intro hx
    have hnil := hprev.symm.trans hx
    rw [List.getLast?_eq_none_iff] at hnil
    rw [h.threadLists.head_eq p, hq, hnil]
    simp
  · intro hx
    exact hys (List.mem_of_mem_head? (hnext.symm.trans hx))

/-- Taking a thread off the list of threads of its process. -/
theorem Linked.remove (h : Linked s ready threads waiting) (ht : t ∈ threads p)
    (hp : p = (s.threads t).process) (hr : ∀ j, t ∉ ready j) :
    ∃ s', removeThread s p t = .ok s' ∧
      Linked s' ready (Function.update threads p ((threads p).erase t)) waiting ∧
      SameCore s s' := by
  rw [h.removeThread_eq ht hp hr]
  refine ⟨_, rfl, ⟨h.readyQueues, ?_, h.waitLists, h.unready, h.valid⟩, ?_⟩
  · exact h.threadLists.unlink ht (fun _ => rfl) (fun _ => rfl)
      (fun y hy => by simp only [if_neg hy]) fun y hy => by simp only [if_neg hy]
  · constructor <;> simp

/-- The new thread is suspended, and everything else but the links is the same. -/
structure Created (s : State) (p : ℕ) (regs : SavedRegisters) (join : ℕ) (s' : State) :
    Prop where
  created : s'.created = s.created + 1
  state : ∀ x, (s'.threads x).state = if x = s.created then .suspended else (s.threads x).state
  process : ∀ x, (s'.threads x).process = if x = s.created then p else (s.threads x).process
  regs : ∀ x, (s'.threads x).regs = if x = s.created then regs else (s.threads x).regs
  joinWriter : ∀ x, (s'.threads x).joinWriter =
    if x = s.created then some join else (s.threads x).joinWriter
  current : s'.current = s.current
  inInterrupt : s'.inInterrupt = s.inInterrupt
  frame : s'.frame = s.frame
  ext : s'.ext = s.ext
  msr : s'.msr = s.msr

/-- Creating a thread. -/
theorem Linked.create (h : Linked s ready threads waiting) (p : ℕ) (regs : SavedRegisters)
    (join : ℕ) (hr : ∀ j, s.created ∉ ready j) (hth : ∀ j, s.created ∉ threads j)
    (hw : ∀ j, s.created ∉ waiting j) :
    ∃ s', createInternal s p regs join = .ok (s.created, s') ∧
      Linked s' ready (Function.update threads p (threads p ++ [s.created])) waiting ∧
      Created s p regs join s' := by
  have hends : (s.processes p).threadsHead = none ↔ (s.processes p).threadsTail = none := by
    rw [h.threadLists.head_eq p, h.threadLists.tail_eq p, List.head?_eq_none_iff,
      List.getLast?_eq_none_iff]
  rw [createInternal_eq hends fun htail => hth p (h.threadLists.mem_of_tail htail)]
  refine ⟨_, rfl, ⟨?_, ?_, ?_, fun x hx => ?_, fun x => ?_⟩, ?_⟩
  · refine h.readyQueues.congr (fun _ => rfl) (fun _ => rfl) (fun j y hy => ?_) fun j y hy => ?_ <;>
      simp only [if_neg fun heq : y = s.created => hr j (heq ▸ hy)]
  · refine h.threadLists.pushBack hth (fun _ => rfl) (fun _ => rfl) (fun y => ?_) fun y => ?_ <;>
      by_cases hy : y = s.created <;> simp [hy]
  · refine h.waitLists.congr (fun _ => rfl) (fun _ => rfl) (fun j y hy => ?_) fun j y hy => ?_ <;>
      simp only [if_neg fun heq : y = s.created => hw j (heq ▸ hy)]
  · by_cases hxc : x = s.created
    · simp [hxc]
    · simpa [hxc] using h.unready x hx
  · by_cases hxc : x = s.created
    · simp [hxc, ThreadWaitState.new, hw]
    · simpa [hxc] using h.valid x
  · refine ⟨rfl, fun x => ?_, fun x => ?_, fun x => ?_, fun x => ?_, rfl, rfl, rfl, rfl, rfl⟩ <;>
      by_cases hxc : x = s.created <;> simp [hxc]

end HydroxKernel.Sched
