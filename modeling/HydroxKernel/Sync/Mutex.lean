import Mathlib.Data.Nat.Bitwise
import Mathlib.Logic.Function.Basic

/-!
# The Mutex Lock

`MutexLock` keeps its owner and two flags in one atomic word, and the threads that wait for
it on a wait list. Threads run its code in any interleaving; every access to the word and
every operation on the wait list is one step.

A thread is its address. The wait list is a queue: `wait` appends the current thread, whose
lock stays held until the thread is suspended, and `wake_one` takes the first thread off the
queue and resumes it, for which it needs the lock of that thread. A thread that panics
stops.
-/

namespace HydroxKernel.Mutex

/-- A thread, by the address of its `Thread`, which is not null and is aligned. -/
structure Thread where
  addr : ℕ
  ne_zero : addr ≠ 0
  aligned : addr % 4 = 0
  deriving DecidableEq

/-- The threads, when they lie next to each other in memory. -/
def Thread.nth (k : ℕ) : Thread := ⟨8 * (k + 1), by omega, by omega⟩

/-! ### The state word -/

/-- `MutexLockState`. The pointers are plain addresses: decoding can give one that belongs
to no thread. -/
inductive MutexLockState
  | unlocked
  | lockedNoWaiters (owner : ℕ)
  | lockedWithWaiters (owner : ℕ)
  | lockedWaitersLocked (owner : ℕ)
  deriving DecidableEq

/-- `MutexLockState::from_usize`. `val & 3` is `val % 4`, and `val & !1` is
`val / 2 * 2`. -/
def fromUsize (val : ℕ) : MutexLockState :=
  if val = 0 then .unlocked
  else if val % 4 = 0 then .lockedNoWaiters val
  else if val % 4 = 1 then .lockedWithWaiters (val / 2 * 2)
  else .lockedWaitersLocked (val / 2 * 2)

/-- `MutexLockState::into_usize`. -/
def MutexLockState.intoUsize : MutexLockState → ℕ
  | .unlocked => 0
  | .lockedNoWaiters t => t
  | .lockedWithWaiters t => t ||| 1
  | .lockedWaitersLocked t => t ||| 3

/-- `MutexLockState::owner`. -/
def MutexLockState.owner : MutexLockState → Option ℕ
  | .unlocked => none
  | .lockedNoWaiters t => some t
  | .lockedWithWaiters t => some t
  | .lockedWaitersLocked t => some t

/-- `compare_exchange`: the new value of the word, or the value found in it. -/
def compareExchange (word old new : ℕ) : Except ℕ ℕ :=
  if word = old then .ok new else .error word

/-! ### The code of a thread -/

/-- The panics of the lock. -/
inductive MutexPanic
  /-- "Mutex state modified ... while ... was using wait list". -/
  | waitListModified
  /-- The `assert_eq!` on the owner at the end of `acquire_slow`. -/
  | ownerMismatch
  /-- "Saw unexpected mutex state ... while unlocking mutex". -/
  | unexpectedState
  deriving DecidableEq

/-- What a thread does next. -/
inductive Pc
  /-- The thread is outside the code of the lock. -/
  | idle
  /-- `acquire`: the `compare_exchange` of `try_acquire_fast`. -/
  | acquire
  /-- `try_acquire`: the `compare_exchange` of `try_acquire_fast`. -/
  | tryAcquire
  /-- `acquire_slow`: the body of the loop. -/
  | acquireSlow (state : MutexLockState)
  /-- `acquire_slow`: the `wait` on the wait list. -/
  | enqueue (owner : ℕ)
  /-- `acquire_slow`: the `compare_exchange` after the `wait`. -/
  | unlockWaiters (owner : ℕ)
  /-- `acquire_slow`: the `suspend`. -/
  | suspend (owner : ℕ)
  /-- The thread is suspended and on the wait list. -/
  | suspended (owner : ℕ)
  /-- `acquire_slow`: the `while` after the `suspend`. -/
  | woken (owner : ℕ)
  /-- `acquire_slow`: the `assert_eq!` on the owner. -/
  | checkOwner
  /-- `release`: the `compare_exchange`. -/
  | release
  /-- `release_slow`: the body of the loop. -/
  | releaseSlow (state : MutexLockState)
  /-- `release_slow`: the `wake_one`. -/
  | wakeOne
  /-- `release_slow`: the `store`. -/
  | store (state : MutexLockState)
  /-- The thread has panicked. -/
  | panicked (why : MutexPanic)
  deriving DecidableEq

/-- The word, the wait list, where every thread is, and which threads have returned from
`acquire` or from a successful `try_acquire` and not started their `release`. -/
structure State where
  word : ℕ
  queue : List Thread
  pc : Thread → Pc
  holds : Thread → Bool

/-- `MutexLock::new`, with no thread in its code. -/
def State.new : State := ⟨0, [], fun _ => .idle, fun _ => false⟩

/-- Sends a thread to a place in the code. -/
def State.goto (s : State) (t : Thread) (pc : Pc) : State :=
  { s with pc := Function.update s.pc t pc }

/-- Writes the word. -/
def State.setWord (s : State) (word : ℕ) : State := { s with word := word }

/-- A thread returns with the lock. -/
def State.acquired (s : State) (t : Thread) : State :=
  { s.goto t .idle with holds := Function.update s.holds t true }

/-- `try_acquire_fast`. -/
def tryAcquireFast (word : ℕ) (t : Thread) : Except ℕ ℕ :=
  compareExchange word MutexLockState.unlocked.intoUsize
    (MutexLockState.lockedNoWaiters t.addr).intoUsize

/-- The body of the loop of `acquire_slow`. -/
def acquireSlow (s : State) (t : Thread) (state : MutexLockState) : State :=
  match state with
  | .unlocked =>
      match tryAcquireFast s.word t with
      | .ok word => (s.setWord word).acquired t
      | .error val => s.goto t (.acquireSlow (fromUsize val))
  | .lockedNoWaiters owner => lockWaiters owner
  | .lockedWithWaiters owner => lockWaiters owner
  | .lockedWaitersLocked _ => s.goto t (.acquireSlow (fromUsize s.word))
where
  /-- The branch of `acquire_slow` for a lock that is held. -/
  lockWaiters (owner : ℕ) : State :=
    match compareExchange s.word state.intoUsize
        (MutexLockState.lockedWaitersLocked owner).intoUsize with
    | .ok word => (s.setWord word).goto t (.enqueue owner)
    | .error val => s.goto t (.acquireSlow (fromUsize val))

/-- The body of the loop of `release_slow`. -/
def releaseSlow (s : State) (t : Thread) (state : MutexLockState) : State :=
  match state with
  | .lockedWithWaiters lockThread =>
      if lockThread = t.addr then
        match compareExchange s.word (MutexLockState.lockedWithWaiters lockThread).intoUsize
            (MutexLockState.lockedWaitersLocked lockThread).intoUsize with
        | .ok word => (s.setWord word).goto t .wakeOne
        | .error val => s.goto t (.releaseSlow (fromUsize val))
      else s.goto t (.panicked .unexpectedState)
  | .lockedWaitersLocked lockThread =>
      if lockThread = t.addr then s.goto t (.releaseSlow (fromUsize s.word))
      else s.goto t (.panicked .unexpectedState)
  | _ => s.goto t (.panicked .unexpectedState)

/-- The `wake_one` of `release_slow`. It waits for the lock of the first thread of the
queue until that thread is suspended. -/
def wakeOne (s : State) (t : Thread) : Option State :=
  match s.queue with
  | [] => some (s.goto t (.store .unlocked))
  | next :: queue =>
      match s.pc next with
      | .suspended owner =>
          some (({ s with queue := queue }.goto next (.woken owner)).goto t
            (.store (.lockedWithWaiters next.addr)))
      | _ => none

/-- The next step of a thread in the code of the lock, if it can make one. -/
def run (s : State) (t : Thread) : Option State :=
  match s.pc t with
  | .idle => none
  | .acquire =>
      some (match tryAcquireFast s.word t with
        | .ok word => (s.setWord word).acquired t
        | .error val => s.goto t (.acquireSlow (fromUsize val)))
  | .tryAcquire =>
      some (match tryAcquireFast s.word t with
        | .ok word => (s.setWord word).acquired t
        | .error _ => s.goto t .idle)
  | .acquireSlow state => some (acquireSlow s t state)
  | .enqueue owner => some ({ s with queue := s.queue ++ [t] }.goto t (.unlockWaiters owner))
  | .unlockWaiters owner =>
      some (match compareExchange s.word (MutexLockState.lockedWaitersLocked owner).intoUsize
          (MutexLockState.lockedWithWaiters owner).intoUsize with
        | .ok word => (s.setWord word).goto t (.suspend owner)
        | .error _ => s.goto t (.panicked .waitListModified))
  | .suspend owner => some (s.goto t (.suspended owner))
  | .suspended _ => none
  | .woken owner =>
      some (if (fromUsize s.word).owner = some owner then s else s.goto t .checkOwner)
  | .checkOwner =>
      some (if some t.addr = (fromUsize s.word).owner then s.acquired t
        else s.goto t (.panicked .ownerMismatch))
  | .release =>
      some (match compareExchange s.word (MutexLockState.lockedNoWaiters t.addr).intoUsize
          MutexLockState.unlocked.intoUsize with
        | .ok word => (s.setWord word).goto t .idle
        | .error val => s.goto t (.releaseSlow (fromUsize val)))
  | .releaseSlow state => some (releaseSlow s t state)
  | .wakeOne => wakeOne s t
  | .store state => some ((s.setWord state.intoUsize).goto t .idle)
  | .panicked _ => none

/-- A thread calls an operation of the lock, or makes its next step in the code of one. -/
inductive Action
  | acquire (t : Thread)
  | tryAcquire (t : Thread)
  | release (t : Thread)
  | run (t : Thread)

/-- Performs an action. A thread calls an operation only from outside the lock's code. -/
def exec (s : State) : Action → Option State
  | .acquire t => if s.pc t = .idle then some (s.goto t .acquire) else none
  | .tryAcquire t => if s.pc t = .idle then some (s.goto t .tryAcquire) else none
  | .release t =>
      if s.pc t = .idle then
        some { s.goto t .release with holds := Function.update s.holds t false }
      else none
  | .run t => run s t

end HydroxKernel.Mutex
