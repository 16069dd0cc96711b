import HydroxKernel.Sched.WaitLists
import HydroxKernel.Sync.FutureRefs

/-!
# Blocking on a Future

Any number of threads block on the futures of one block while its writer finishes. The state
of the block is under a lock, the state lock, and on the side of the scheduler every thread has
a lock of its own. A thread that finds its future unresolved puts itself on the wait list of
the block while it holds both locks, releases the state lock, and releases its own lock only
when it is suspended. The writer holds the state lock from the resolution to the end of
`finish`: while its callbacks run and while it wakes the threads on the wait list, each under
the lock of that thread.

A step is what happens under one lock without another one being taken or released, so the
steps of the threads, of the writer, and of whatever else the scheduler does are interleaved
also while somebody holds the state lock. A callback may do anything that does not need the
state lock, which are the steps of others while the writer is between two callbacks.

## Main results

* `finish_eq_steps`: what the steps of `finish` do to the block, one after another, is `finish`.
* `runs_of_wakeAll`: the rounds of the writer, one after another, are `wake_all`.
-/

namespace HydroxKernel.Blocking

open Sched (Waits WaitOp WaitPanic ThreadState)

variable {V : Type}

/-- Where a thread is in `block_until_ready`, on the future `h`. -/
inductive Phase
  /-- Not in `block_until_ready`. -/
  | outside
  /-- At the head of the loop, or suspended until it runs again and gets there. -/
  | looping (h : ℕ)
  /-- It found the future unresolved, and holds the state lock. -/
  | locked (h : ℕ)
  /-- It is on the wait list, and holds the state lock and its own lock. -/
  | enqueued (h : ℕ)
  /-- It has released the state lock, and holds its own lock until it is suspended. -/
  | unlocked (h : ℕ)
  deriving DecidableEq

/-- Where the writer is in `finish`. -/
inductive WriterPhase
  /-- `finish` has not been called. -/
  | before
  /-- It has these actions still to run, and then to wake the threads on the wait list. -/
  | running (actions : List (ℕ × Bool))
  /-- It has taken a thread off the wait list, which it has to wake. -/
  | waking (t : ℕ)
  /-- It found the wait list empty. -/
  | woken
  /-- `finish` has returned. -/
  | done
  deriving DecidableEq

/-- Who holds the state lock. -/
inductive Holder
  | thread (t : ℕ)
  | writer
  deriving DecidableEq

/-- The block with its futures, the scheduler with the wait lists, the holder of the state
lock, and where the threads and the writer are. -/
structure State (V : Type) where
  future : Future.State V
  waits : Waits
  lock : Option Holder
  phases : ℕ → Phase
  writer : WriterPhase

/-- What can go wrong. -/
inductive Panic
  /-- A fault of the block. -/
  | future (why : Future.Fault)
  /-- A panic of the scheduler or of its wait lists. -/
  | waits (why : WaitPanic)
  /-- The `assert!` of `FutureWaitGenericLock::wait`. -/
  | resolved
  /-- "Attempt to drop non-empty ThreadWaitList". -/
  | nonEmpty
  deriving DecidableEq

/-- The future that a thread blocks on. -/
def Phase.handle : Phase → Option ℕ
  | .outside => none
  | .looping h | .locked h | .enqueued h | .unlocked h => some h

/-- The thread holds the state lock. -/
def Phase.holdsState : Phase → Bool
  | .locked _ | .enqueued _ => true
  | _ => false

/-- The thread holds its own lock. -/
def Phase.holdsThread : Phase → Bool
  | .enqueued _ | .unlocked _ => true
  | _ => false

/-- The writer holds the state lock. -/
def WriterPhase.holdsState : WriterPhase → Bool
  | .before | .done => false
  | _ => true

/-- The thread that the writer has taken off the wait list. -/
def WriterPhase.taken : WriterPhase → Option ℕ
  | .waking t => some t
  | _ => none

/-- Moves a thread to another place. -/
def State.setPhase (s : State V) (t : ℕ) (p : Phase) : State V :=
  { s with phases := Function.update s.phases t p }

/-- Writes the block. If it is destroyed, its wait list `l` is dropped. -/
def State.setFuture (s : State V) (l : ℕ) (future : Future.State V) :
    Except Panic (State V) := do
  ensure (future.destroyed = s.future.destroyed ∨ (s.waits.sched.waitLists l).head = none)
    .nonEmpty
  return { s with future := future }

/-! ### The steps of a thread -/

/-- Calls `block_until_ready`. On a future that is done the call returns at once. -/
def block (s : State V) (t h : ℕ) : State V :=
  match Future.takeHandle s.future.handles h with
  | some (f, _) => if f.isReady then s else s.setPhase t (.looping h)
  | none => s

/-- `do_action` in the loop of `block_until_ready`, up to the call of the closure. What it does
to the futures is what it does in `update_readiness`. If the future is not resolved, the state
lock is kept. -/
def doAction (cloneable : Bool) (l : ℕ) (s : State V) (t h : ℕ) : Except Panic (State V) := do
  let (future, o) ← (Future.exec cloneable s.future (.updateReadiness h)).mapError .future
  let s ← s.setFuture l future
  match o with
  | .ready false => return { s.setPhase t (.locked h) with lock := some (.thread t) }
  | _ => return s.setPhase t .outside

/-- `FutureWaitGenericLock::wait`, up to the return of `ThreadWaitList::wait`. -/
def wait (l : ℕ) (s : State V) (t h : ℕ) : Except Panic (State V) := do
  let w ← s.future.deref.mapError .future
  ensure (w.resolved = false) .resolved
  let waits ← (s.waits.wait t l).mapError .waits
  return { s.setPhase t (.enqueued h) with waits := waits }

/-- `drop(state)` in `FutureWaitGenericLock::wait`. -/
def dropState (s : State V) (t h : ℕ) : State V :=
  { s.setPhase t (.unlocked h) with lock := none }

/-- `ThreadWait::suspend`, up to the context switch. -/
def suspend (s : State V) (t h : ℕ) : State V := s.setPhase t (.looping h)

/-! ### The steps of the writer -/

/-- The future is resolved, and its actions are taken. -/
def takeActions (s : Future.State V) (w : Future.FutureWait V) :
    List (ℕ × Bool) × Future.State V :=
  (w.actions, s.put { w with resolved := true, actions := [] })

/-- `finish`, and `finish_internal` up to the loop over the actions. -/
def beginFinish (s : Future.State V) (v : V) :
    Except Future.Fault (List (ℕ × Bool) × Future.State V) := do
  let w ← s.deref
  if w.valRefs ≠ 0 then
    .ok (takeActions { s with writer := false } { w with val := some (.orig v) })
  else .ok (takeActions { s with writer := false, moved := s.moved + 1 } w)

/-- One round of the loop over the actions. -/
def runAction (cloneable : Bool) (s : Future.State V) (a : ℕ × Bool) :
    Except Future.Fault (Future.State V) := do
  let w ← s.deref
  let (x, s, w) ← Future.takeArg cloneable s w a.2
  .ok ((s.put w).call a.1 x)

/-- `dec_wait_ref` at the end of `finish_internal`. -/
def endFinish (s : Future.State V) : Except Future.Fault (Future.State V) := do
  let w ← s.deref
  Future.decWaitRef s w

/-- The writer takes the state lock and resolves the future. -/
def finish (s : State V) (v : V) : Except Panic (State V) := do
  let (actions, future) ← (beginFinish s.future v).mapError .future
  return { s with future := future, lock := some .writer, writer := .running actions }

/-- The writer runs the next action. -/
def runNextAction (cloneable : Bool) (s : State V) : Except Panic (State V) :=
  match s.writer with
  | .running (a :: actions) => do
      let future ← (runAction cloneable s.future a).mapError .future
      return { s with future := future, writer := .running actions }
  | _ => .ok s

/-- The writer takes the next thread off the wait list, in the loop of `wake_all`. -/
def dequeue (l : ℕ) (s : State V) : Except Panic (State V) := do
  let (t, waits) ← (s.waits.dequeue l).mapError .waits
  match t with
  | none => return { s with waits := waits, writer := .woken }
  | some t => return { s with waits := waits, writer := .waking t }

/-- `try_wake` of the thread that the writer has taken off the wait list. -/
def tryWake (l : ℕ) (s : State V) : Except Panic (State V) :=
  match s.writer with
  | .waking t => do
      let (_, sched) ← (Sched.tryWake s.waits.sched l t).mapError fun e => .waits (.sched e)
      return { s with waits := { s.waits with sched := sched }, writer := .running [] }
  | _ => .ok s

/-- The writer gives up its reference and releases the state lock. -/
def release (l : ℕ) (s : State V) : Except Panic (State V) := do
  let future ← (endFinish s.future).mapError .future
  let s ← s.setFuture l future
  return { s with lock := none, writer := .done }

/-! ### All steps -/

/-- The steps. -/
inductive Op (V : Type)
  | block (t h : ℕ)
  | doAction (t h : ℕ)
  | wait (t h : ℕ)
  | dropState (t h : ℕ)
  | suspend (t h : ℕ)
  | finish (v : V)
  | runAction
  | dequeue
  | tryWake
  | release
  /-- Another operation on the block. -/
  | future (op : Future.Op V)
  /-- Another operation of the scheduler. -/
  | sched (op : WaitOp)

/-- The effect of a step, if the wait list of the block is `l`. -/
def exec (cloneable : Bool) (l : ℕ) (s : State V) : Op V → Except Panic (State V)
  | .block t h => .ok (block s t h)
  | .doAction t h => doAction cloneable l s t h
  | .wait t h => wait l s t h
  | .dropState t h => .ok (dropState s t h)
  | .suspend t h => .ok (suspend s t h)
  | .finish v => finish s v
  | .runAction => runNextAction cloneable s
  | .dequeue => dequeue l s
  | .tryWake => tryWake l s
  | .release => release l s
  | .future op => do
      let (future, _) ← (Future.exec cloneable s.future op).mapError .future
      s.setFuture l future
  | .sched op => do
      let (_, waits) ← (op.exec s.waits).mapError .waits
      return { s with waits := waits }

/-- The state of a thread. -/
def State.state (s : State V) (t : ℕ) : ThreadState := (s.waits.sched.threads t).state

/-- No thread blocks on the future. -/
def State.Idle (s : State V) (h : ℕ) : Prop := ∀ t, (s.phases t).handle ≠ some h

/-- What the scheduler does apart from this: the wait list of the block is used by nobody else,
and a thread in `block_until_ready` does nothing else, so it does not die. -/
def Foreign (l : ℕ) (phases : ℕ → Phase) : WaitOp → Prop
  | .create _ _ _ | .wake _ | .run _ => True
  | .die t => phases t = .outside
  | .wait t j => phases t = .outside ∧ j ≠ l
  | .wakeOne j | .wakeAll j => j ≠ l

/-- When a step can be taken. A thread runs when it starts a round of its loop, and takes the
state lock if it is free, as the writer does. The writer wakes a thread if its lock is free. Other
operations need the state lock and are on futures that no thread blocks on. -/
def Op.Enabled (cloneable : Bool) (l : ℕ) (s : State V) : Op V → Prop
  | .block t h =>
      s.phases t = .outside ∧ s.state t = .running ∧ h ∈ s.future.names ∧ s.Idle h
  | .doAction t h => s.phases t = .looping h ∧ s.state t = .running ∧ s.lock = none
  | .wait t h => s.phases t = .locked h
  | .dropState t h => s.phases t = .enqueued h
  | .suspend t h => s.phases t = .unlocked h
  | .finish _ => s.writer = .before ∧ s.lock = none
  | .runAction => ∃ a actions, s.writer = .running (a :: actions)
  | .dequeue => s.writer = .running []
  | .tryWake => ∃ t, s.writer = .waking t ∧ (s.phases t).holdsThread = false
  | .release => s.writer = .woken
  | .future op =>
      s.lock = none ∧ Future.Permitted cloneable s.future op ∧ (∀ v, op ≠ .finish v) ∧
        (∀ h, op ≠ .unwrapBlocking h) ∧ ∀ h, op.target = some h → s.Idle h
  | .sched op => op.Enabled s.waits ∧ Foreign l s.phases op

/-- A step. -/
def Step (cloneable : Bool) (l : ℕ) (s : State V) (op : Op V) (s' : State V) : Prop :=
  op.Enabled cloneable l s ∧ exec cloneable l s op = .ok s'

/-- A new block, and a scheduler without threads. -/
structure Initial (s : State V) : Prop where
  future : (∃ h, s.future = .newFuture h) ∨ s.future = .newWriter
  waits : ∃ frame ext msr, s.waits = .new frame ext msr
  lock : s.lock = none
  phases : ∀ t, s.phases t = .outside
  writer : s.writer = .before

/-! ### The steps of `finish` together -/

section Steps

variable {cl : Bool} {s : Future.State V} {w : Future.FutureWait V}

/-- Taking the value does not depend on what the block was before. -/
theorem takeArg_put (w₀ : Future.FutureWait V) (b : Bool) :
    Future.takeArg cl (s.put w₀) w b =
      (Future.takeArg cl s w b).map fun r => (r.1, r.2.1.put w₀, r.2.2) := by
  cases b with
  | false => rfl
  | true =>
      simp only [Future.takeArg, Future.takeVal, if_true]
      split
      · rfl
      · split
        · rfl
        · rw [Future.readVal, Future.readVal]
          cases w.val <;> rfl
        · cases hv : w.val with
          | none => rfl
          | some x => cases cl <;> rfl

/-- The loop over the actions, if the block is written back in every round. -/
theorem foldlM_runAction (as : List (ℕ × Bool)) :
    as.foldlM (runAction cl) (s.put w) =
      (Future.runActions cl s w as).map fun r => r.1.put r.2 := by
  induction as generalizing s w with
  | nil => rfl
  | cons a as ih =>
      have hround : runAction cl (s.put w) a =
          (Future.takeArg cl s w a.2).map fun r => (r.2.1.call a.1 r.1).put r.2.2 := by
        rw [runAction, Future.State.deref]
        simp only [Future.State.put, ok_bind]
        rw [← Future.State.put, takeArg_put]
        cases Future.takeArg cl s w a.2 <;> rfl
      rw [List.foldlM_cons, hround, Future.runActions]
      cases htake : Future.takeArg cl s w a.2 with
      | error e => rfl
      | ok r => exact ih

/-- **The steps of `finish` are `finish`** for the block, if nothing happens in between. -/
theorem finish_eq_steps (v : V) :
    Future.finish cl s v = (do
      let (actions, s) ← beginFinish s v
      let s ← actions.foldlM (runAction cl) s
      endFinish s) := by
  have hrest : ∀ (s : Future.State V) w, Future.finishInternal cl s w = (do
      let s ← (takeActions s w).1.foldlM (runAction cl) (takeActions s w).2
      endFinish s) := by
    intro s w
    rw [takeActions, foldlM_runAction, Future.finishInternal]
    cases Future.runActions cl s { w with resolved := true, actions := [] } w.actions with
    | error e => rfl
    | ok r =>
        obtain ⟨s', w'⟩ := r
        simp only [Except.map, ok_bind, endFinish, Future.State.deref, Future.State.put]
        rw [Future.decWaitRef, Future.decWaitRef]
        split <;> rfl
  rw [Future.finish, beginFinish]
  cases s.deref with
  | error e => rfl
  | ok w =>
      simp only [ok_bind]
      split
      · exact hrest _ _
      · exact hrest _ _

/-- **The rounds of the writer are `wake_all`**, if no thread is being suspended. -/
theorem runs_of_wakeAll {l n k m : ℕ} {s : State V} {waits : Waits} (hw : s.writer = .running [])
    (hfree : ∀ t, (s.phases t).holdsThread = false)
    (h : Waits.wakeAllLoop l n s.waits k = .ok (m, waits)) :
    ∃ ops, Runs (Step cl l) s ops { s with waits := waits, writer := .woken } := by
  induction n generalizing s k with
  | zero => cases h
  | succ n ih =>
      rw [Waits.wakeAllLoop, bind_eq_ok] at h
      obtain ⟨⟨t, w⟩, hdeq, h⟩ := h
      cases t with
      | none =>
          obtain rfl : w = waits := (Prod.mk.inj (Except.ok.inj h)).2
          have hdequeue : Step cl l s .dequeue { s with waits := w, writer := .woken } := by
            refine ⟨hw, ?_⟩
            rw [exec, dequeue, hdeq]
            rfl
          exact ⟨_, Runs.refl.snoc hdequeue⟩
      | some t =>
          obtain ⟨⟨woken, sched⟩, hwake, h⟩ := bind_eq_ok.mp h
          rw [mapError_eq_ok] at hwake
          have hdequeue : Step cl l s .dequeue { s with waits := w, writer := .waking t } := by
            refine ⟨hw, ?_⟩
            rw [exec, dequeue, hdeq]
            rfl
          have htryWake : Step cl l { s with waits := w, writer := .waking t } .tryWake
              { s with waits := { w with sched := sched }, writer := .running [] } := by
            refine ⟨⟨t, rfl, hfree t⟩, ?_⟩
            simp only [exec, tryWake, hwake, Except.mapError, ok_bind]
            rfl
          obtain ⟨ops, hruns⟩ :=
            @ih _ { s with waits := { w with sched := sched }, writer := .running [] } rfl hfree h
          exact ⟨_, Runs.cons hdequeue (Runs.cons htryWake hruns)⟩

end Steps

end HydroxKernel.Blocking
