import HydroxKernel.Lib.Assert
import Mathlib.Data.List.Basic

/-!
# The Interrupt Disabler and Soft Interrupts

An `InterruptDisabler` is a guard: interrupts are off on its core while it exists. The core
counts its guards and remembers whether interrupts were on when the first of them was
created. A soft interrupt is a closure that is put off while interrupts are off; dropping the
last guard runs the queue of them before interrupts go on again.

A closure can itself create guards, drop them and enqueue soft interrupts, so the code is a
machine with a stack of the calls that are going on: calls of `enqueue_soft_interrupt` and
`run_soft_interrupts` that are calling a closure, and calls of `drop` that are waiting for
`run_soft_interrupts`. What a closure does is left open: while it runs, it may perform any
operation, or return. A spinlock guard is an interrupt disabler next to the lock, created
before the lock is taken and dropped after it is released, so taking and releasing a lock is
`new` and `drop`.
-/

namespace HydroxKernel.Uninterruptible

variable {F : Type}

/-- The panics of the interrupt disabler. -/
inductive Panic
  /-- `assert!(!interrupt::are_enabled())`, on dropping a guard. -/
  | enabledOnDrop
  /-- `assert!(INTERRUPT_DISABLER_STATE.get().0 == 0)`, after `run_soft_interrupts`. -/
  | guardsAfterRun
  deriving DecidableEq

/-! ### The state of a core -/

/-- `INTERRUPT_DISABLER_STATE`, the interrupt flag of the processor, `IN_INTERRUPT` and
`SOFT_INTERRUPTS`. -/
structure Core (F : Type) where
  numHeld : ℕ
  wasEnabled : Bool
  enabled : Bool
  inInterrupt : Bool
  softInterrupts : List F

/-- `InterruptDisabler::new`. -/
def Core.new (c : Core F) : Core F :=
  { c with
    numHeld := c.numHeld + 1
    wasEnabled := if c.numHeld = 0 then c.enabled else c.wasEnabled
    enabled := if c.numHeld = 0 then false else c.enabled }

/-- `InterruptDisabler::force_remain_disabled`. -/
def Core.forceRemainDisabled (c : Core F) : Core F := { c with wasEnabled := false }

/-- `InterruptDisabler::drop_without_enable`, with what it returns. -/
def Core.dropWithoutEnable (c : Core F) : Except Panic (Core F × Bool) := do
  ensure (c.enabled = false) .enabledOnDrop
  return ({ c with numHeld := c.numHeld - 1 }, decide (c.numHeld = 1) && c.wasEnabled)

/-! ### Guards and calls -/

/-- A guard. Guards are told apart by the order of their creation; `depth` is the number of
calls that were going on where it was created. -/
structure Guard where
  id : ℕ
  depth : ℕ
  deriving DecidableEq

/-- A call that is going on. -/
inductive Frame (F : Type)
  /-- `enqueue_soft_interrupt`, calling the closure under its guard. -/
  | enqueued (g : Guard) (f : F)
  /-- `run_soft_interrupts`, before the `pop_front`. -/
  | softLoop (g : Guard)
  /-- `run_soft_interrupts`, calling the closure. -/
  | softCall (g : Guard) (f : F)
  /-- `drop`, after `run_soft_interrupts`. -/
  | afterRun

/-- The guard that is a variable of a call. -/
def Frame.guard? : Frame F → Option Guard
  | .enqueued g _ => some g
  | .softLoop g => some g
  | .softCall g _ => some g
  | .afterRun => none

/-- The core, the calls that are going on, the innermost one first, and the guards that
exist. The other fields are ledgers: how many guards were created, whether interrupts were on
when the first of the guards was created, whether `force_remain_disabled` was called since,
and the soft interrupts that were ever put into the queue and that were ever taken from it,
in order. -/
structure State (F : Type) where
  core : Core F
  stack : List (Frame F)
  guards : List Guard
  created : ℕ
  firstEnabled : Bool
  forced : Bool
  queued : List F
  started : List F

/-- The guard that `create` creates. -/
def State.nextGuard (s : State F) : Guard := ⟨s.created, s.stack.length⟩

/-- Creates a guard. -/
def State.create (s : State F) : State F :=
  { s with
    core := s.core.new
    guards := s.nextGuard :: s.guards
    created := s.created + 1
    firstEnabled := if s.guards = [] then s.core.enabled else s.firstEnabled
    forced := if s.guards = [] then false else s.forced }

/-- A call begins. -/
def State.push (s : State F) (fr : Frame F) : State F := { s with stack := fr :: s.stack }

/-- `InterruptDisabler::drop_without_enable`. -/
def State.dropWithoutEnable (s : State F) (g : Guard) : Except Panic (State F × Bool) := do
  let (core, run) ← s.core.dropWithoutEnable
  return ({ s with core := core, guards := s.guards.erase g }, run)

/-- `run_soft_interrupts`, up to its loop. -/
def State.runSoftInterrupts (s : State F) : State F :=
  s.create.push (.softLoop s.nextGuard)

/-- `InterruptDisabler::drop`, up to the call of `run_soft_interrupts`. -/
def State.drop (s : State F) (g : Guard) : Except Panic (State F) := do
  let (s, run) ← s.dropWithoutEnable g
  return if run then (s.push .afterRun).runSoftInterrupts else s

/-- `enqueue_soft_interrupt`, up to the call of the closure. -/
def State.enqueueSoftInterrupt (s : State F) (f : F) : State F :=
  if s.core.inInterrupt = false ∧ s.core.enabled = true then
    s.create.push (.enqueued s.nextGuard f)
  else
    { s with
      core := { s.core with softInterrupts := s.core.softInterrupts ++ [f] }
      queued := s.queued ++ [f] }

/-! ### The machine -/

/-- What can happen next. -/
inductive Op (F : Type)
  /-- The running code creates a guard. -/
  | new
  /-- The running code drops a guard. -/
  | drop (g : Guard)
  /-- The running code drops a guard by `drop_without_enable`. -/
  | dropWithoutEnable (g : Guard)
  /-- The running code calls `force_remain_disabled`. -/
  | forceRemainDisabled
  /-- The running code calls `enqueue_soft_interrupt`. -/
  | enqueue (f : F)
  /-- Code outside of all calls switches interrupts on or off itself. -/
  | setEnabled (b : Bool)
  /-- The running closure returns. -/
  | ret
  /-- `run_soft_interrupts` takes the next closure or returns, or `drop` goes on after it. -/
  | tick
  deriving DecidableEq

/-- Code outside of all calls, or a closure, is running. -/
def CodeRuns : List (Frame F) → Prop
  | [] => True
  | .enqueued _ _ :: _ => True
  | .softCall _ _ :: _ => True
  | _ => False

/-- A guard that the running code can have: it exists, and it is no variable of a call. -/
def State.Owned (s : State F) (g : Guard) : Prop :=
  g ∈ s.guards ∧ ∀ fr ∈ s.stack, fr.guard? ≠ some g

/-- What the running code can do. -/
def Allowed (s : State F) : Op F → Prop
  | .new => CodeRuns s.stack
  | .drop g => CodeRuns s.stack ∧ s.Owned g
  | .dropWithoutEnable g => CodeRuns s.stack ∧ s.Owned g
  | .forceRemainDisabled => CodeRuns s.stack
  | .enqueue _ => CodeRuns s.stack
  | .setEnabled _ => s.stack = [] ∧ s.guards = []
  | .ret => CodeRuns s.stack ∧ s.stack ≠ []
  | .tick => ¬ CodeRuns s.stack

/-- The running closure returns: `enqueue_soft_interrupt` drops its guard, and
`run_soft_interrupts` goes on with its loop. -/
def State.ret (s : State F) : Except Panic (State F) :=
  match s.stack with
  | .enqueued g _ :: st => { s with stack := st }.drop g
  | .softCall g _ :: st => .ok { s with stack := .softLoop g :: st }
  | _ => .ok s

/-- `run_soft_interrupts` takes a closure from the queue, or drops its guard when the queue
is empty. After it, `drop` asserts that there is no guard and switches interrupts on. -/
def State.tick (s : State F) : Except Panic (State F) :=
  match s.stack with
  | .softLoop g :: st =>
      match s.core.softInterrupts with
      | f :: q =>
          .ok { s with
            core := { s.core with softInterrupts := q }
            stack := .softCall g f :: st
            started := s.started ++ [f] }
      | [] => { s with stack := st }.drop g
  | .afterRun :: st => do
      ensure (s.core.numHeld = 0) .guardsAfterRun
      return { s with core := { s.core with enabled := true }, stack := st }
  | _ => .ok s

/-- Performs an operation. -/
def perform (s : State F) : Op F → Except Panic (State F)
  | .new => .ok s.create
  | .drop g => s.drop g
  | .dropWithoutEnable g => do
      let (s, _) ← s.dropWithoutEnable g
      return s
  | .forceRemainDisabled => .ok { s with core := s.core.forceRemainDisabled, forced := true }
  | .enqueue f => .ok (s.enqueueSoftInterrupt f)
  | .setEnabled b => .ok { s with core := { s.core with enabled := b } }
  | .ret => s.ret
  | .tick => s.tick

/-- A step: an operation the running code can do, which does not panic. -/
def Step (s : State F) (op : Op F) (t : State F) : Prop :=
  Allowed s op ∧ perform s op = .ok t

/-- A core without guards, calls and soft interrupts. Interrupts are on or off, and the core
may be handling an interrupt. -/
structure Init (s : State F) : Prop where
  numHeld : s.core.numHeld = 0
  softInterrupts : s.core.softInterrupts = []
  stack : s.stack = []
  guards : s.guards = []
  queued : s.queued = []
  started : s.started = []

end HydroxKernel.Uninterruptible
