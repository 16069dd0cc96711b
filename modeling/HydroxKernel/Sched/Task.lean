import Mathlib.Logic.Function.Basic
import HydroxKernel.Arch.Interrupt
import HydroxKernel.Lib.Assert

/-!
# Threads, Wait Lists and Context Switches

The scheduler of one core. Threads are named in the order of their creation, processes by
their pid and wait lists by their address; a null pointer is `none`. The kernel process has
pid `0`, and it is the only one whose threads are ever switched to.

Every operation of this module runs with interrupts disabled, so operations happen one
after another. What the code of a thread or of an interrupt handler does in between is not
modelled; the frame that the processor pushes when it enters an interrupt is an input. A
thread that waits, yields or dies raises the interrupt `0x30`, whose handler performs the
context switch; soft interrupts run after the handler and before `end_interrupt`, which is
therefore a step of its own.

The future that a thread resolves when it dies is represented by its wait list. A join
future with actions on it is left out: `finish` runs them in `run_non_blocking`, which locks
the dying thread once more and never gets past its lock.
-/

namespace HydroxKernel.Sched

open Arch

/-- `ThreadState`. -/
inductive ThreadState
  | suspended
  | waiting (list : ℕ)
  | ready
  | running
  | dead
  deriving DecidableEq

/-- `ThreadWaitState`. -/
structure ThreadWaitState where
  prev : Option ℕ
  next : Option ℕ
  valid : Bool

/-- `ThreadWaitState::new`. -/
def ThreadWaitState.new : ThreadWaitState := ⟨none, none, false⟩

/-- `Thread`, with its `ThreadInternal` and its `ThreadProcessInternal`. The join writer is
given by the address of its wait list. -/
structure Thread where
  process : ℕ
  state : ThreadState
  regs : SavedRegisters
  joinWriter : Option ℕ
  prev : Option ℕ
  next : Option ℕ
  prevReady : Option ℕ
  nextReady : Option ℕ
  waitState : ThreadWaitState

/-- `ProcessInternal`. -/
structure ProcessInternal where
  threadsHead : Option ℕ
  threadsTail : Option ℕ
  readyHead : Option ℕ
  readyTail : Option ℕ

/-- `ThreadWaitListInternal`. -/
structure ThreadWaitListInternal where
  head : Option ℕ
  tail : Option ℕ

/-- The scheduler and the core it runs on: the number of threads created so far, the
threads, processes and wait lists, `CURRENT_THREAD`, `IN_INTERRUPT`, the frame of the
interrupt that is being handled or was handled last, the extended registers of the core, and
its model specific register `0xc0000100`. -/
structure State where
  created : ℕ
  threads : ℕ → Thread
  processes : ℕ → ProcessInternal
  waitLists : ℕ → ThreadWaitListInternal
  current : Option ℕ
  inInterrupt : Bool
  frame : InterruptFrame
  ext : List UInt8
  msr : BitVec 64

/-- The address of the idle loop, and `KERNEL_FS_BASE`. -/
structure Config where
  idle : BitVec 64
  kernelFsBase : BitVec 64

/-- The ways in which an operation can fail to return. -/
inductive Panic
  /-- A `debug_assert!` of the scheduler fails. -/
  | debugAssert
  /-- The `assert!` of `wake`. -/
  | notSuspended
  /-- The `assert!` of `wait` or of `yield_current`. -/
  | notRunning
  /-- The `assert!` of `Thread::current`: an interrupt is being handled. -/
  | handlingInterrupt
  /-- The `unwrap` of `Thread::current`: the core is idle. -/
  | noCurrent
  /-- The `assert!` of `suspend_current`. -/
  | notCurrent
  /-- "Attempt to call Thread::suspend_thread with live InterruptDisabler". -/
  | liveInterruptDisabler
  /-- "Attempt to call Thread::suspend_thread in a non-blocking context". -/
  | nonBlockingContext
  /-- The `assert!` of `ThreadWaitListInternal::enqueue`. -/
  | alreadyWaiting
  /-- The `assert!` of `ThreadWaitListInternal::dequeue`. -/
  | notWaiting
  /-- "Thread ... is in unexpected state ... after dequeueing from wait list". -/
  | unexpectedState
  /-- The `assert!` of `perform_context_switch_interrupt`. -/
  | notInInterrupt
  /-- The `unwrap` of the join writer. -/
  | noJoinWriter
  /-- The `assert!` of `create_kernel_thread_unchecked` or of `create_user_thread`. -/
  | wrongProcess
  /-- "Unhandled exception ...". -/
  | unhandledException
  /-- A null pointer is dereferenced. -/
  | nullDeref
  /-- A loop does not end. -/
  | diverged
  deriving DecidableEq

/-! ### Writing the state -/

/-- Writes the fields of a thread. -/
def State.modifyThread (s : State) (t : ℕ) (f : Thread → Thread) : State :=
  { s with threads := Function.update s.threads t (f (s.threads t)) }

/-- Writes the fields of a process. -/
def State.modifyProcess (s : State) (p : ℕ) (f : ProcessInternal → ProcessInternal) : State :=
  { s with processes := Function.update s.processes p (f (s.processes p)) }

/-- Writes the fields of a wait list. -/
def State.modifyWaitList (s : State) (l : ℕ)
    (f : ThreadWaitListInternal → ThreadWaitListInternal) : State :=
  { s with waitLists := Function.update s.waitLists l (f (s.waitLists l)) }

/-- Writes the state of a thread. -/
def State.setState (s : State) (t : ℕ) (state : ThreadState) : State :=
  s.modifyThread t fun th => { th with state := state }

/-! ### Processes -/

/-- `Thread::create_internal`, in the process `p` and with the wait list `join` for its join
writer. -/
def createInternal (s : State) (p : ℕ) (regs : SavedRegisters) (join : ℕ) :
    Except Panic (ℕ × State) := do
  let t := s.created
  let thread : Thread :=
    ⟨p, .suspended, regs, some join, (s.processes p).threadsTail, none, none, none, .new⟩
  let s := { s with created := t + 1 }.modifyThread t fun _ => thread
  let s ← match (s.processes p).threadsHead with
    | none => .ok (s.modifyProcess p fun p => { p with threadsHead := some t })
    | some _ =>
        match (s.processes p).threadsTail with
        | some tail => .ok (s.modifyThread tail fun th => { th with next := some t })
        | none => .error .nullDeref
  .ok (t, s.modifyProcess p fun p => { p with threadsTail := some t })

/-- `ProcessLock::create_kernel_thread_unchecked`. The extended registers of a new thread are
given by their bytes. -/
def createKernelThread (s : State) (p : ℕ) (f arg stack : BitVec 64) (ext : List UInt8)
    (join : ℕ) : Except Panic (ℕ × State) := do
  ensure (p = 0) .wrongProcess
  createInternal s p ⟨.newKernelThread f arg stack, ext⟩ join

/-- `ProcessLock::create_user_thread`. -/
def createUserThread (s : State) (p : ℕ) (f arg : BitVec 64) (ext : List UInt8) (join : ℕ) :
    Except Panic (ℕ × State) := do
  ensure (p ≠ 0) .wrongProcess
  createInternal s p ⟨.newUserThread f arg 0, ext⟩ join

/-- The part of `ProcessLock::remove_thread` that deals with the next thread. -/
def unlinkNext (s : State) (p t : ℕ) : Except Panic State :=
  match (s.threads t).next with
  | some next => do
      ensure ((s.threads next).prev = some t) .debugAssert
      .ok (s.modifyThread next fun nx => { nx with prev := (s.threads t).prev })
  | none => do
      ensure ((s.processes p).threadsTail = some t) .debugAssert
      .ok (s.modifyProcess p fun p => { p with threadsTail := (s.threads t).prev })

/-- The part of `ProcessLock::remove_thread` that deals with the previous thread. -/
def unlinkPrev (s : State) (p t : ℕ) : Except Panic State :=
  match (s.threads t).prev with
  | some prev => do
      ensure ((s.threads prev).next = some t) .debugAssert
      .ok (s.modifyThread prev fun pv => { pv with next := (s.threads t).next })
  | none => do
      ensure ((s.processes p).threadsHead = some t) .debugAssert
      .ok (s.modifyProcess p fun p => { p with threadsHead := (s.threads t).next })

/-- `ProcessLock::remove_thread`. -/
def removeThread (s : State) (p t : ℕ) : Except Panic State := do
  ensure (p = (s.threads t).process) .debugAssert
  ensure ((s.threads t).prevReady = none) .debugAssert
  ensure ((s.threads t).nextReady = none) .debugAssert
  let s ← unlinkNext s p t
  let s ← unlinkPrev s p t
  .ok (s.modifyThread t fun th => { th with next := none, prev := none })

/-- `ProcessLock::dequeue_ready_thread`. -/
def dequeueReadyThread (s : State) (p : ℕ) : Option ℕ × State :=
  match (s.processes p).readyHead with
  | none => (none, s)
  | some t =>
      let s := match (s.threads t).nextReady with
        | some next =>
            (s.modifyThread next fun nx => { nx with prevReady := none }).modifyProcess p
              fun p => { p with readyHead := some next }
        | none => s.modifyProcess p fun p => { p with readyTail := none, readyHead := none }
      (some t, s.modifyThread t fun th => { th with prevReady := none, nextReady := none })

/-- The links that `ProcessLock::enqueue_ready_thread` sets. -/
def pushReady (s : State) (p t : ℕ) : State :=
  let s := s.modifyThread t fun th => { th with nextReady := none }
  let s := match (s.processes p).readyTail with
    | some tail =>
        (s.modifyThread t fun th => { th with prevReady := some tail }).modifyThread tail
          fun tl => { tl with nextReady := some t }
    | none =>
        (s.modifyThread t fun th => { th with prevReady := none }).modifyProcess p
          fun p => { p with readyHead := some t }
  s.modifyProcess p fun p => { p with readyTail := some t }

/-- `ProcessLock::enqueue_ready_thread`. -/
def enqueueReadyThread (s : State) (p t : ℕ) : Except Panic State := do
  ensure (p = (s.threads t).process) .debugAssert
  ensure ((s.threads t).state = .ready) .debugAssert
  ensure ((s.threads t).nextReady = none) .debugAssert
  ensure ((s.processes p).readyTail ≠ some t) .debugAssert
  .ok (pushReady s p t)

/-- `ThreadLock::wake`. -/
def wake (s : State) (t : ℕ) : Except Panic State := do
  ensure ((s.threads t).state = .suspended) .notSuspended
  enqueueReadyThread (s.setState t .ready) (s.threads t).process t

/-! ### Wait lists -/

/-- `ThreadWaitListInternal::dequeue`. -/
def dequeue (s : State) (l : ℕ) : Except Panic (Option ℕ × State) :=
  match (s.waitLists l).head with
  | none => .ok (none, s)
  | some t => do
      ensure ((s.threads t).waitState.valid = true) .notWaiting
      let s := s.modifyThread t fun th =>
        { th with waitState := { th.waitState with valid := false } }
      let s := s.modifyWaitList l fun wl => { wl with head := (s.threads t).waitState.next }
      .ok (some t, match (s.waitLists l).head with
        | none => s.modifyWaitList l fun wl => { wl with tail := none }
        | some head => s.modifyThread head fun hd =>
            { hd with waitState := { hd.waitState with prev := none } })

/-- `ThreadWaitListInternal::enqueue`. -/
def enqueue (s : State) (l t : ℕ) : Except Panic State := do
  ensure ((s.threads t).waitState.valid = false) .alreadyWaiting
  let tail := (s.waitLists l).tail
  let s := s.modifyThread t fun th => { th with waitState := ⟨tail, none, true⟩ }
  let s := match tail with
    | none => s.modifyWaitList l fun wl => { wl with head := some t }
    | some tail => s.modifyThread tail fun tl =>
        { tl with waitState := { tl.waitState with next := some t } }
  .ok (s.modifyWaitList l fun wl => { wl with tail := some t })

/-- `ThreadWaitList::try_wake`. -/
def tryWake (s : State) (l t : ℕ) : Except Panic (Bool × State) :=
  match (s.threads t).state with
  | .dead => .ok (false, s)
  | .waiting list =>
      if list = l then do
        let s ← wake (s.setState t .suspended) t
        .ok (true, s)
      else .error .unexpectedState
  | _ => .error .unexpectedState

/-- The loop of `ThreadWaitList::wake_one`. -/
def wakeOneLoop (l : ℕ) : ℕ → State → Except Panic (Option ℕ × State)
  | 0, _ => .error .diverged
  | n + 1, s => do
      match ← dequeue s l with
      | (none, s) => .ok (none, s)
      | (some t, s) =>
          let (woken, s) ← tryWake s l t
          if woken then .ok (some t, s) else wakeOneLoop l n s

/-- `ThreadWaitList::wake_one`. Every round takes a thread off the list. -/
def wakeOne (s : State) (l : ℕ) : Except Panic (Option ℕ × State) :=
  wakeOneLoop l (s.created + 1) s

/-- The loop of `ThreadWaitList::wake_all`. -/
def wakeAllLoop (l : ℕ) : ℕ → State → ℕ → Except Panic (ℕ × State)
  | 0, _, _ => .error .diverged
  | n + 1, s, numWoken => do
      match ← dequeue s l with
      | (none, s) => .ok (numWoken, s)
      | (some t, s) =>
          let (woken, s) ← tryWake s l t
          wakeAllLoop l n s (if woken then numWoken + 1 else numWoken)

/-- `ThreadWaitList::wake_all`. -/
def wakeAll (s : State) (l : ℕ) : Except Panic (ℕ × State) :=
  wakeAllLoop l (s.created + 1) s 0

/-! ### Context switches -/

/-- `ThreadLock::save_cpu_state`. -/
def saveCpuState (s : State) (t : ℕ) : State :=
  s.modifyThread t fun th =>
    { th with regs := ⟨s.frame.save th.regs.basic, s.ext⟩ }

/-- `ThreadLock::restore_cpu_state`. -/
def restoreCpuState (s : State) (t : ℕ) : State :=
  let regs := (s.threads t).regs
  let frame := s.frame.restore regs.basic
  { s with
    frame :=
      if (s.threads t).process = 0 then frame.setupKernelModeThreadLocals s.msr else frame
    ext := regs.ext }

/-- The part of `perform_context_switch_interrupt` that deals with the old thread. -/
def retire (s : State) (t : ℕ) : Except Panic State := do
  ensure ((s.threads t).state ≠ .running) .debugAssert
  let s := saveCpuState s t
  match (s.threads t).state with
  | .ready => enqueueReadyThread s (s.threads t).process t
  | _ => .ok s

/-- The part of `perform_context_switch_interrupt` that deals with the new thread. -/
def dispatch (c : Config) (s : State) : Except Panic State :=
  match dequeueReadyThread s 0 with
  | (some t, s) => do
      ensure ((s.threads t).state = .ready) .debugAssert
      .ok { restoreCpuState (s.setState t .running) t with current := some t }
  | (none, s) => .ok { s with frame := s.frame.setToIdle c.idle, current := none }

/-- `perform_context_switch_interrupt`. -/
def performContextSwitchInterrupt (c : Config) (s : State) (oldThread : Option ℕ) :
    Except Panic State := do
  ensure (s.inInterrupt = true) .notInInterrupt
  let s ← match oldThread with
    | some t => retire s t
    | none => .ok s
  dispatch c s

/-- The entry of `handle_interrupt`: the registers of what was running have been pushed as
`frame`, the kernel's thread locals are set up, and the scheduler is notified. -/
def beginInterrupt (c : Config) (s : State) (frame : InterruptFrame) (ext : List UInt8) :
    State :=
  { s with frame := frame, ext := ext, msr := c.kernelFsBase, inInterrupt := true }

/-- What a thread brings along when it is suspended: the frame and the extended registers at
the `int 0x30`, the number of `InterruptDisabler`s it holds, whether interrupts were enabled
before the first of them, and `err_on_block`. -/
structure Suspension where
  frame : InterruptFrame
  ext : List UInt8
  numHeld : ℕ
  wasEnabled : Bool
  errOnBlock : Bool

/-- The frame as `handle_interrupt` changes it before the context switch. -/
def Suspension.entryFrame (i : Suspension) : InterruptFrame :=
  if i.wasEnabled then { i.frame with rflags := i.frame.rflags ||| 1#64 <<< 9 } else i.frame

/-- `Thread::suspend_current`, and `handle_interrupt` for the interrupt `0x30` up to
`end_interrupt`. -/
def suspendCurrent (c : Config) (s : State) (t : ℕ) (i : Suspension) : Except Panic State := do
  ensure (s.current = some t) .notCurrent
  ensure ((s.threads t).state ≠ .running) .debugAssert
  ensure (i.numHeld = 1) .liveInterruptDisabler
  ensure (i.errOnBlock = false) .nonBlockingContext
  performContextSwitchInterrupt c (beginInterrupt c s i.entryFrame i.ext) (some t)

/-- `Thread::current`. -/
def State.currentThread (s : State) : Except Panic ℕ := do
  ensure (s.inInterrupt = false) .handlingInterrupt
  match s.current with
  | some t => .ok t
  | none => .error .noCurrent

/-- `ThreadWaitList::wait` followed by `ThreadWait::suspend`. -/
def wait (c : Config) (s : State) (l : ℕ) (i : Suspension) : Except Panic State := do
  let t ← s.currentThread
  ensure ((s.threads t).state = .running) .notRunning
  let s ← enqueue (s.setState t (.waiting l)) l t
  suspendCurrent c s t i

/-- `Thread::yield_current`. -/
def yieldCurrent (c : Config) (s : State) (i : Suspension) : Except Panic State := do
  let t ← s.currentThread
  ensure ((s.threads t).state = .running) .notRunning
  suspendCurrent c (s.setState t .ready) t i

/-- `Thread::kill_current`. -/
def killCurrent (c : Config) (s : State) (i : Suspension) : Except Panic State := do
  let t ← s.currentThread
  let p := (s.threads t).process
  ensure ((s.threads t).state = .running) .debugAssert
  let s ← removeThread (s.setState t .dead) p t
  match (s.threads t).joinWriter with
  | none => .error .noJoinWriter
  | some join =>
      let (_, s) ← wakeAll (s.modifyThread t fun th => { th with joinWriter := none }) join
      suspendCurrent c s t i

/-- `handle_interrupt` for an interrupt other than `0x30`, up to its handler. -/
def handleInterrupt (c : Config) (s : State) (frame : InterruptFrame) (ext : List UInt8) :
    Except Panic State :=
  if frame.interruptNum.toNat % 256 < 0x20 then .error .unhandledException
  else .ok (beginInterrupt c s frame ext)

/-- `end_interrupt` after the soft interrupts, and the exit code, which loads the frame. -/
def endInterrupt (c : Config) (s : State) : Except Panic State := do
  let s ← match s.current with
    | none => performContextSwitchInterrupt c s none
    | some _ => .ok s
  .ok { s with msr := s.frame.fsbase, inInterrupt := false }

/-! ### The scheduler as a whole -/

/-- The operations on the scheduler. A thread that suspends itself is named, and so is the
thread that an interrupt interrupts, if the core is not idle. -/
inductive Op
  | createKernelThread (f arg stack : BitVec 64) (ext : List UInt8) (join : ℕ)
  | createUserThread (p : ℕ) (f arg : BitVec 64) (ext : List UInt8) (join : ℕ)
  | wake (t : ℕ)
  | wakeOne (l : ℕ)
  | wakeAll (l : ℕ)
  | wait (t l : ℕ) (i : Suspension)
  | yieldCurrent (t : ℕ) (i : Suspension)
  | killCurrent (t : ℕ) (i : Suspension)
  | interrupt (interrupted : Option ℕ) (frame : InterruptFrame) (ext : List UInt8)
  | endInterrupt

/-- The effect of an operation. -/
def exec (c : Config) (s : State) : Op → Except Panic State
  | .createKernelThread f arg stack ext join =>
      return (← createKernelThread s 0 f arg stack ext join).2
  | .createUserThread p f arg ext join => return (← createUserThread s p f arg ext join).2
  | .wake t => wake s t
  | .wakeOne l => return (← wakeOne s l).2
  | .wakeAll l => return (← wakeAll s l).2
  | .wait _ l i => wait c s l i
  | .yieldCurrent _ i => yieldCurrent c s i
  | .killCurrent _ i => killCurrent c s i
  | .interrupt _ frame ext => handleInterrupt c s frame ext
  | .endInterrupt => endInterrupt c s

/-- A thread can suspend itself: it is running, outside of an interrupt, and raises the
interrupt `0x30`. -/
structure CanSuspend (s : State) (t : ℕ) (i : Suspension) : Prop where
  current : s.current = some t
  outside : s.inInterrupt = false
  number : i.frame.interruptNum = 0x30
  fits : i.frame.SelectorsFit

/-- Some code is running that can call the scheduler: that of a thread, or that of an
interrupt handler. -/
def State.Active (s : State) : Prop := s.current ≠ none ∨ s.inInterrupt = true

/-- When an operation can be performed. Only suspended threads are woken directly, and new
wait lists are empty. -/
def Op.Enabled (s : State) : Op → Prop
  | .createKernelThread _ _ _ _ join => s.Active ∧ (s.waitLists join).head = none
  | .createUserThread p _ _ _ join => s.Active ∧ p ≠ 0 ∧ (s.waitLists join).head = none
  | .wake t => s.Active ∧ (s.threads t).state = .suspended
  | .wakeOne _ => s.Active
  | .wakeAll _ => s.Active
  | .wait t _ i => CanSuspend s t i
  | .yieldCurrent t i => CanSuspend s t i
  | .killCurrent t i => CanSuspend s t i
  | .interrupt interrupted frame _ =>
      interrupted = s.current ∧ s.inInterrupt = false ∧ 0x20 ≤ frame.interruptNum.toNat % 256 ∧
        frame.interruptNum.toNat % 256 ≠ 0x30
  | .endInterrupt => s.inInterrupt = true

/-- One step of the scheduler. -/
def Step (c : Config) (s : State) (op : Op) (s' : State) : Prop :=
  op.Enabled s ∧ exec c s op = .ok s'

/-- The thread that an operation suspends, and what it brings along. -/
def Op.suspends : Op → Option (ℕ × Suspension)
  | .wait t _ i => some (t, i)
  | .yieldCurrent t i => some (t, i)
  | .killCurrent t i => some (t, i)
  | _ => none

/-- Whether an operation is a call that returns to its caller without an interrupt. -/
def Op.isCall : Op → Bool
  | .wait _ _ _ | .yieldCurrent _ _ | .killCurrent _ _ => false
  | .interrupt _ _ _ | .endInterrupt => false
  | _ => true

/-- A thread that has not been created. -/
def Thread.none : Thread :=
  ⟨0, .dead, ⟨.new, []⟩, .none, .none, .none, .none, .none, .new⟩

/-- The state before `Process::init_kernel_process`. -/
def State.empty (frame : InterruptFrame) (ext : List UInt8) (msr : BitVec 64) : State where
  created := 0
  threads := fun _ => .none
  processes := fun _ => ⟨.none, .none, .none, .none⟩
  waitLists := fun _ => ⟨.none, .none⟩
  current := .none
  inInterrupt := false
  frame := frame
  ext := ext
  msr := msr

/-- `Process::init_kernel_process`. -/
def initKernelProcess (s : State) (ext : List UInt8) (join : ℕ) : Except Panic State := do
  let (t, s) ← createInternal s 0 ⟨.new, ext⟩ join
  .ok { s.setState t .running with current := some t }

/-- The states in which the scheduler starts. -/
def Init (s : State) : Prop :=
  ∃ frame ext msr ext' join, initKernelProcess (.empty frame ext msr) ext' join = .ok s

end HydroxKernel.Sched
