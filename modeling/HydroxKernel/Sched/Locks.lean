import HydroxKernel.Lib.Deadlock
import HydroxKernel.Lib.Runs
import HydroxKernel.Sched.Task
import HydroxKernel.Sync.Future

/-!
# The Locks of the Scheduler

The operations of the scheduler on many cores, cut at the points where they acquire or
release a spinlock. A core is described by the place in the code where it is, a `Pc`; a step
of a core acquires the lock that it waits for, or releases a lock, together with what the
code does from there to its next lock, or it panics. Cores, threads, processes and wait lists
are given by numbers, and the linked lists by lists: `Sched.ThreadQueues` shows that they
represent such.

Guards of temporaries matter here. In `wake_one` and `wake_all` the guard of the wait list
lives as long as the body of the `if let` or `while let`, and in `ThreadLock::wake` the
thread is locked while the lock of its process is acquired.

`CURRENT_THREAD` is read only when an operation begins, and written by the core itself, so
that its update is made part of a step. What the callbacks on a join future do is not
modelled: `kill_current` does not get to them, since the spinlocks are tracked, and the core
panics when it is about to acquire a lock that it holds.

Between the operations, the code of a core may hold `InterruptDisabler`s and may be about to
run callbacks that must not block. What consumers of a join future do, who make, attach and
drop futures, is one critical section of the lock of that future, and so one step.
-/

namespace HydroxKernel.Locks

open Sched (ThreadState)
open Future (FutureWait)

/-- The spinlocks: the list of processes, the processes, the threads, the wait lists, and
the state of the join future of a thread. -/
inductive Lock
  | processList
  | process (p : ℕ)
  | thread (t : ℕ)
  | waitList (l : ℕ)
  | future (t : ℕ)
  deriving DecidableEq

/-- What the locks protect. A join future has its wait list `joinList`; `resolutions` counts
how often it was resolved. `errOnBlock` says of a thread that it must not block. `current` is
the `CURRENT_THREAD` of a core. -/
structure Data where
  process : ℕ → ℕ
  state : ℕ → ThreadState
  joinWriter : ℕ → Bool
  errOnBlock : ℕ → Bool
  join : ℕ → FutureWait Unit
  joinList : ℕ → ℕ
  resolutions : ℕ → ℕ
  pids : ℕ → Bool
  threads : ℕ → List ℕ
  ready : ℕ → List ℕ
  waiting : ℕ → List ℕ
  current : ℕ → Option ℕ

/-- What called `wake_one` or `wake_all`: the code of the core, or `finish` for the join
future of the dying thread `t`. -/
inductive Caller
  | wakeOne
  | wakeAll
  | finish (t : ℕ)

/-- What called `enqueue_ready_thread`: `ThreadLock::wake`, called by the code of the core
or by `try_wake`, or `perform_context_switch_interrupt`. -/
inductive Enqueuer
  | wake
  | tryWake (k : Caller) (l : ℕ)
  | contextSwitch

/-- The places in the code, each named after the function it is in. -/
inductive Pc
  | idle
  | panicked (held : List Lock)
  | wakeThread (t : ℕ)
  | wakeProcess (k : Enqueuer) (t : ℕ)
  | enqueueDrop (k : Enqueuer) (t : ℕ)
  | enqueuePush (k : Enqueuer) (t : ℕ)
  | dequeue (k : Caller) (l : ℕ)
  | tryWake (k : Caller) (l t : ℕ)
  | tryWakeDead (k : Caller) (l t : ℕ)
  | unlockList (k : Caller) (l : ℕ) (again : Bool)
  | killProcess (t : ℕ)
  | killThread (t : ℕ)
  | killDrop (t : ℕ)
  | finish (t : ℕ)
  | runNonBlocking (t : ℕ)
  | runNonBlockingDrop (t : ℕ)
  | decWaitRef (t : ℕ)
  | switchDead (t : ℕ)
  | yieldThread (t : ℕ)
  | switchReady (t : ℕ)
  | switchProcess (t : ℕ)
  | switchThread (t : ℕ)
  | nextProcess
  | nextDequeue
  | nextThread (t : ℕ)
  | nextDrop (t : ℕ)
  | listProcesses (p : ℕ)
  | listProcess (p : ℕ)
  | listThreads (p : ℕ) (ts : List ℕ)
  | listThread (p t : ℕ) (ts : List ℕ)
  | listEnd

/-! ### What a core holds -/

/-- The locks that are held by the caller of `wake_one` or `wake_all`. -/
def Caller.held : Caller → List Lock
  | .wakeOne | .wakeAll => []
  | .finish t => [.thread t, .future t]

/-- The locks, apart from that of the thread, that are held by the caller of
`enqueue_ready_thread`. -/
def Enqueuer.held : Enqueuer → List Lock
  | .wake | .contextSwitch => []
  | .tryWake k l => .waitList l :: k.held

/-- The locks that a core holds, where `process` gives the processes of the threads. -/
def Pc.held (process : ℕ → ℕ) : Pc → List Lock
  | .panicked held => held
  | .wakeProcess k t => .thread t :: k.held
  | .enqueueDrop k t => .process (process t) :: .thread t :: k.held
  | .enqueuePush k t => .process (process t) :: k.held
  | .dequeue k _ => k.held
  | .tryWake k l _ => .waitList l :: k.held
  | .tryWakeDead k l t => .thread t :: .waitList l :: k.held
  | .unlockList k l _ => .waitList l :: k.held
  | .killThread t => [.process (process t)]
  | .killDrop t => [.process (process t), .thread t]
  | .finish t => [.thread t]
  | .runNonBlocking t => [.thread t, .future t]
  | .runNonBlockingDrop t => [.thread t, .thread t, .future t]
  | .decWaitRef t => [.thread t, .future t]
  | .switchDead t => [.thread t]
  | .switchReady t => [.thread t]
  | .switchThread t => [.process (process t)]
  | .nextDequeue => [.process 0]
  | .nextDrop t => [.thread t]
  | .listProcess _ => [.processList]
  | .listThreads p _ => [.processList, .process p]
  | .listThread p t _ => [.processList, .process p, .thread t]
  | .listEnd => [.processList]
  | _ => []

/-! ### The code -/

/-- Writes the state of a thread. -/
def Data.setState (d : Data) (t : ℕ) (state : ThreadState) : Data :=
  { d with state := Function.update d.state t state }

/-- Writes the queue of ready threads of a process. -/
def Data.setReady (d : Data) (p : ℕ) (ts : List ℕ) : Data :=
  { d with ready := Function.update d.ready p ts }

/-- Writes a wait list. -/
def Data.setWaiting (d : Data) (l : ℕ) (ts : List ℕ) : Data :=
  { d with waiting := Function.update d.waiting l ts }

/-- Writes the current thread of a core. -/
def Data.setCurrent (d : Data) (c : ℕ) (t : Option ℕ) : Data :=
  { d with current := Function.update d.current c t }

/-- Writes the state of the join future of a thread. -/
def Data.setJoin (d : Data) (t : ℕ) (w : FutureWait Unit) : Data :=
  { d with join := Function.update d.join t w }

/-- Writes whether a thread must not block. -/
def Data.setErrOnBlock (d : Data) (t : ℕ) (err : Bool) : Data :=
  { d with errOnBlock := Function.update d.errOnBlock t err }

/-- `ThreadLock::wake`, up to the lock of the process. -/
def wake (d : Data) (k : Enqueuer) (t : ℕ) : Data × Pc :=
  if d.state t = .suspended then (d.setState t .ready, .wakeProcess k t)
  else (d, .panicked (.thread t :: k.held))

/-- `enqueue_ready_thread`, up to where it drops the lock of the thread: its assertions. -/
def enqueueReadyThread (d : Data) (k : Enqueuer) (t : ℕ) : Data × Pc :=
  if d.state t = .ready ∧ t ∉ d.ready (d.process t) then (d, .enqueueDrop k t)
  else (d, .panicked (.process (d.process t) :: .thread t :: k.held))

/-- What happens after `enqueue_ready_thread`. -/
def Enqueuer.next : Enqueuer → Pc
  | .wake => .idle
  | .tryWake .wakeOne l => .unlockList .wakeOne l false
  | .tryWake k l => .unlockList k l true
  | .contextSwitch => .nextProcess

/-- `try_wake`, with the thread locked. -/
def tryWake (d : Data) (k : Caller) (l t : ℕ) : Data × Pc :=
  match d.state t with
  | .dead => (d, .tryWakeDead k l t)
  | .waiting list =>
      if list = l then wake (d.setState t .suspended) (.tryWake k l) t
      else (d, .panicked (.thread t :: .waitList l :: k.held))
  | _ => (d, .panicked (.thread t :: .waitList l :: k.held))

/-- `dequeue`, with the wait list locked. -/
def dequeue (d : Data) (k : Caller) (l : ℕ) : Data × Pc :=
  match d.waiting l with
  | [] => (d, .unlockList k l false)
  | t :: ts => (d.setWaiting l ts, .tryWake k l t)

/-- What happens after `wake_one` or `wake_all`. -/
def Caller.next : Caller → Pc
  | .wakeOne | .wakeAll => .idle
  | .finish t => .decWaitRef t

/-- `kill_current` with the process and the thread locked, and `remove_thread` with its
assertions. -/
def killThread (d : Data) (t : ℕ) : Data × Pc :=
  let p := d.process t
  if d.state t = .running ∧ t ∈ d.threads p ∧ t ∉ d.ready p then
    ({ d.setState t .dead with threads := Function.update d.threads p ((d.threads p).erase t) },
      .killDrop t)
  else (d, .panicked [.process p, .thread t])

/-- `kill_current` after the lock of the process is dropped: the join writer is taken. -/
def takeJoinWriter (d : Data) (t : ℕ) : Data × Pc :=
  if d.joinWriter t then
    ({ d with joinWriter := Function.update d.joinWriter t false }, .finish t)
  else (d, .panicked [.thread t])

/-- `finish` and `finish_internal` with the future locked, up to the actions. -/
def finish (d : Data) (t : ℕ) : Data × Pc :=
  let w := d.join t
  let w := if w.valRefs ≠ 0 then { w with val := some (.orig ()) } else w
  let d := { d.setJoin t { w with resolved := true, actions := [] } with
    resolutions := Function.update d.resolutions t (d.resolutions t + 1) }
  match w.actions with
  | [] => (d, .dequeue (.finish t) (d.joinList t))
  | _ :: _ => (d, .runNonBlocking t)

/-- `yield_current` with the thread locked. -/
def yieldThread (d : Data) (t : ℕ) : Data × Pc :=
  if d.state t = .running then (d.setState t .ready, .switchReady t)
  else (d, .panicked [.thread t])

/-- `perform_context_switch_interrupt` with the kernel process locked: the next thread is
taken from its queue. -/
def nextDequeue (d : Data) (c : ℕ) : Data × Pc :=
  match d.ready 0 with
  | [] => (d.setCurrent c none, .idle)
  | t :: ts => (d.setReady 0 ts, .nextThread t)

/-- `perform_context_switch_interrupt` with the next thread locked. -/
def nextThread (d : Data) (t : ℕ) : Data × Pc :=
  if d.state t = .ready then (d.setState t .running, .nextDrop t)
  else (d, .panicked [.thread t])

/-- The next lock operation of a core, with what its code does up to the one after. In
`suspend_current` the lock is that of the thread `t`, and the interrupt handler releases it. -/
inductive Action
  | acquire (l : Lock) (next : Data × Pc)
  | release (l : Lock) (next : Data × Pc)
  | suspend (t : ℕ) (next : Data × Pc)
  | stop

/-- What the core `c` does next. Whether a write to the terminal succeeds is given by
`written`. -/
def action (d : Data) (c : ℕ) (written : Bool) : Pc → Action
  | .idle => .stop
  | .panicked _ => .stop
  | .wakeThread t => .acquire (.thread t) (wake d .wake t)
  | .wakeProcess k t => .acquire (.process (d.process t)) (enqueueReadyThread d k t)
  | .enqueueDrop k t => .release (.thread t) (d, .enqueuePush k t)
  | .enqueuePush k t =>
      .release (.process (d.process t))
        (d.setReady (d.process t) (d.ready (d.process t) ++ [t]), k.next)
  | .dequeue k l => .acquire (.waitList l) (dequeue d k l)
  | .tryWake k l t => .acquire (.thread t) (tryWake d k l t)
  | .tryWakeDead k l t => .release (.thread t) (d, .unlockList k l true)
  | .unlockList k l again => .release (.waitList l) (d, if again then .dequeue k l else k.next)
  | .killProcess t => .acquire (.process (d.process t)) (d, .killThread t)
  | .killThread t => .acquire (.thread t) (killThread d t)
  | .killDrop t => .release (.process (d.process t)) (takeJoinWriter d t)
  | .finish t => .acquire (.future t) (finish d t)
  | .runNonBlocking t => .acquire (.thread t) (d.setErrOnBlock t true, .runNonBlockingDrop t)
  | .runNonBlockingDrop t => .release (.thread t) (d, .dequeue (.finish t) (d.joinList t))
  | .decWaitRef t =>
      .release (.future t)
        (d.setJoin t { d.join t with waitRefs := (d.join t).waitRefs - 1 }, .switchDead t)
  | .switchDead t => .suspend t (d, .nextProcess)
  | .yieldThread t => .acquire (.thread t) (yieldThread d t)
  | .switchReady t => .suspend t (d, .switchProcess t)
  | .switchProcess t => .acquire (.process (d.process t)) (d, .switchThread t)
  | .switchThread t => .acquire (.thread t) (enqueueReadyThread d .contextSwitch t)
  | .nextProcess => .acquire (.process 0) (d, .nextDequeue)
  | .nextDequeue => .release (.process 0) (nextDequeue d c)
  | .nextThread t => .acquire (.thread t) (nextThread d t)
  | .nextDrop t => .release (.thread t) (d.setCurrent c (some t), .idle)
  | .listProcesses p => .acquire .processList (d, if d.pids p then .listProcess p else .listEnd)
  | .listProcess p => .acquire (.process p) (d, .listThreads p (d.threads p))
  | .listThreads p [] => .release (.process p) (d, .listEnd)
  | .listThreads p (t :: ts) => .acquire (.thread t) (d, .listThread p t ts)
  | .listThread p t ts => .release (.thread t) (d, .listThreads p (if written then ts else []))
  | .listEnd => .release .processList (d, .idle)

/-! ### Runs -/

/-- What the locks protect, the core that owns each lock, the place of each core, and the
number of its `InterruptDisabler`s. -/
structure State where
  data : Data
  owner : Lock → Option ℕ
  pc : ℕ → Pc
  numHeld : ℕ → ℕ

/-- The operations that a core can begin. -/
inductive Op
  | wake (t : ℕ)
  | wakeOne (l : ℕ)
  | wakeAll (l : ℕ)
  | killCurrent
  | yieldCurrent
  | listThreads (p : ℕ)

/-- Where an operation begins, if it can. Only a thread can die or yield. -/
def Op.entry (current : Option ℕ) : Op → Option Pc
  | .wake t => some (.wakeThread t)
  | .wakeOne l => some (.dequeue .wakeOne l)
  | .wakeAll l => some (.dequeue .wakeAll l)
  | .killCurrent => current.map .killProcess
  | .yieldCurrent => current.map .yieldThread
  | .listThreads p => some (.listProcesses p)

/-- Puts a core at a place, with new data and a new owner of a lock. The guard of a lock
comes with an `InterruptDisabler`. -/
def State.put (s : State) (c : ℕ) (l : Lock) (owner : Option ℕ) (next : Data × Pc) : State where
  data := next.1
  owner := Function.update s.owner l owner
  pc := Function.update s.pc c next.2
  numHeld := Function.update s.numHeld c
    (if owner = none then s.numHeld c - 1 else s.numHeld c + 1)

/-- A core panics. It keeps the locks that it holds. -/
def State.panic (s : State) (c : ℕ) : State :=
  { s with pc := Function.update s.pc c (.panicked ((s.pc c).held s.data.process)) }

/-- A core that is between operations begins one. -/
def begin (s : State) (c : ℕ) (op : Op) : Option State :=
  match s.pc c, op.entry (s.data.current c) with
  | .idle, some pc => some { s with pc := Function.update s.pc c pc }
  | _, _ => none

/-- One step of a core. A lock is acquired only while no core owns it, and a core that owns it
panics. `suspend_current` panics if another `InterruptDisabler` than that of the lock of the
thread is held, or if the thread must not block. -/
def step (s : State) (c : ℕ) (written : Bool) : Option State :=
  match action s.data c written (s.pc c) with
  | .acquire l next =>
      if s.owner l = none then some (s.put c l (some c) next)
      else if s.owner l = some c then some (s.panic c)
      else none
  | .release l next => some (s.put c l none next)
  | .suspend t next =>
      if s.numHeld c = 1 ∧ s.data.errOnBlock t = false then some (s.put c (.thread t) none next)
      else some (s.panic c)
  | .stop => none

/-- The consumers of the join future of a thread leave it in the state `w`. They need its lock,
and do not resolve it. -/
def consume (s : State) (t : ℕ) (w : FutureWait Unit) : Option State :=
  if s.owner (.future t) = none ∧ w.resolved = (s.data.join t).resolved then
    some { s with data := s.data.setJoin t w }
  else none

/-- The code of a core between operations holds `n` `InterruptDisabler`s from now on, and its
thread may block or not. -/
def prepare (s : State) (c n : ℕ) (err : Bool) : Option State :=
  match s.pc c, s.data.current c with
  | .idle, some t =>
      some { s with
        data := s.data.setErrOnBlock t err
        numHeld := Function.update s.numHeld c n }
  | .idle, none => some { s with numHeld := Function.update s.numHeld c n }
  | _, _ => none

/-- What happens in one step of the system: a core begins an operation, or goes on, or the code
between the operations does something. -/
inductive Label
  | start (c : ℕ) (op : Op)
  | go (c : ℕ) (written : Bool)
  | consume (t : ℕ) (w : FutureWait Unit)
  | prepare (c n : ℕ) (err : Bool)

/-- One step of the system. -/
def Step (s : State) (a : Label) (s' : State) : Prop :=
  match a with
  | .start c op => begin s c op = some s'
  | .go c written => step s c written = some s'
  | .consume t w => consume s t w = some s'
  | .prepare c n err => prepare s c n err = some s'

/-- A core waits for a lock. -/
def State.Waits (s : State) (c : ℕ) (l : Lock) : Prop :=
  ∃ next, action s.data c true (s.pc c) = .acquire l next

/-- A core owns a lock. -/
def State.Holds (s : State) (c : ℕ) (l : Lock) : Prop := s.owner l = some c

/-- The data while no lock is held: the threads are in the queues that belong to their
states, a running thread is current on one core, the live threads are listed, and they have
their join writers. -/
structure Data.Consistent (d : Data) : Prop where
  current_running : ∀ c t, d.current c = some t → d.state t = .running
  current_unique : ∀ c c' t, d.current c = some t → d.current c' = some t → c = c'
  ready_state : ∀ p, ∀ t ∈ d.ready p, d.state t = .ready ∧ d.process t = p
  ready_nodup : ∀ p, (d.ready p).Nodup
  waiting_state : ∀ l, ∀ t ∈ d.waiting l, d.state t = .waiting l
  waiting_nodup : ∀ l, (d.waiting l).Nodup
  threads_live : ∀ p t, t ∈ d.threads p ↔ d.process t = p ∧ d.state t ≠ .dead
  threads_nodup : ∀ p, (d.threads p).Nodup
  join_writer : ∀ t, d.state t ≠ .dead → d.joinWriter t = true

/-- The states in which every core is between operations. -/
structure Init (s : State) : Prop where
  consistent : s.data.Consistent
  idle : ∀ c, s.pc c = .idle
  free : ∀ l, s.owner l = none
  numHeld : ∀ c, s.numHeld c = 0

end HydroxKernel.Locks
