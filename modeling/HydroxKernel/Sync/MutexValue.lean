import HydroxKernel.Lib.Guarded
import HydroxKernel.Sync.MutexSafety

/-!
# The Value of a Mutex

`Mutex<T>` is the lock with a value, which a thread reaches through the guard that `lock` or
`try_lock` gave it. Dropping the guard releases the lock, and nothing else does. Threads run in any
order, and between the steps of one thread in the code of the lock, and between its reading the
value and its writing it, others run.

## Main results

* `mutex_value`: no update of the value is lost, and the mutex is locked while there is a guard.
-/

namespace HydroxKernel.Mutex

variable {α : Type}

/-- `Mutex::new`. -/
def newMutex (val : α) : Guarded State Thread α := .new State.new val

/-- `Mutex::lock`. -/
def lock (t : Thread) : GuardedOp Action Thread α := .lock (.acquire t)

/-- `Mutex::try_lock`. -/
def tryLock (t : Thread) : GuardedOp Action Thread α := .lock (.tryAcquire t)

/-- `MutexGuard::drop`. -/
def dropGuard (t : Thread) : GuardedOp Action Thread α := .lock (.release t)

/-- `Mutex::is_locked`. -/
def isLocked (s : Guarded State Thread α) : Bool :=
  match fromUsize s.lock.word with
  | .unlocked => false
  | _ => true

/-- A step of the lock. Only a thread that has a guard releases it. -/
def LockStep (s : State) (a : Action) (s' : State) : Prop :=
  (∀ t, a = .release t → s.holds t = true) ∧ exec s a = some s'

/-- A step of the mutex and of the threads that have a guard. -/
def MutexStep (s : Guarded State Thread α) (op : GuardedOp Action Thread α)
    (s' : Guarded State Thread α) : Prop :=
  GuardedStep LockStep State.holds s op s'

/-- A run of the lock keeps its invariant. -/
theorem inv_of_lock_runs {acts : List Action} {s : State} (h : Runs LockStep State.new acts s) :
    Inv s :=
  h.invariant inv_new fun _ _ _ hinv hstep => hinv.exec hstep.2

/-- At most one thread holds the lock. -/
theorem Inv.holds_unique {s : State} (h : Inv s) (t u : Thread) (ht : s.holds t = true)
    (hu : s.holds u = true) : t = u :=
  (h.holder t ht).unique (h.holder u hu)

/-- The word of a lock decodes to `Unlocked` only if it is free. -/
theorem isLocked_iff (s : Guarded State Thread α) : isLocked s = true ↔ s.lock.word ≠ 0 := by
  rw [isLocked]
  by_cases hw : s.lock.word = 0
  · rw [hw, fromUsize_zero]
    exact iff_of_false Bool.false_ne_true fun h => h rfl
  · refine iff_of_true ?_ hw
    unfold fromUsize
    rw [if_neg hw]
    split
    · rename_i h
      split at h
      · cases h
      · split at h
        · cases h
        · cases h
    · rfl

/-- What holds of a mutex in a state. -/
structure MutexSound (val : α) (s : Guarded State Thread α) : Prop where
  /-- The value is that of all updates, one after another. -/
  data_eq : s.data = s.updates.foldl (fun v u => u.2 v) val
  /-- What a thread has read through its guard is the value. -/
  seen : ∀ t v, s.seen t = some v → s.lock.holds t = true ∧ v = s.data
  /-- At most one thread has a guard. -/
  unique : ∀ t u, s.lock.holds t = true → s.lock.holds u = true → t = u
  /-- While a thread has a guard, no other one writes. -/
  alone : ∀ t, s.lock.holds t = true → ∀ op s', MutexStep s op s' →
    s'.updates = s.updates ∨ ∃ f, s'.updates = s.updates ++ [(t, f)]
  /-- The mutex is locked while there is a guard. -/
  locked : (∃ t, s.lock.holds t = true) → isLocked s = true
  /-- If it is locked, a thread has a guard or takes part in a hand-off. -/
  owned : isLocked s = true → ∃ t, s.lock.holds t = true ∨ (s.lock.pc t).handOff = true

/-- **A mutex loses no update**: in every interleaving of any number of threads, the value is the
result of all updates, one after another, each made from the value that the one before it left,
and while a thread has a guard the others neither write the value nor get a guard. -/
theorem mutex_value {val : α} {ops : List (GuardedOp Action Thread α)}
    {s : Guarded State Thread α} (h : Runs MutexStep (newMutex val) ops s) : MutexSound val s := by
  obtain ⟨acts, hlock⟩ := lock_runs (s := newMutex val) h
  have hinv := inv_of_lock_runs hlock
  have hserial : Serial State.holds val s :=
    serial_of_runs (fun acts l hl => (inv_of_lock_runs hl).holds_unique) h
  refine ⟨hserial.data_eq, hserial.seen, hinv.holds_unique, fun t ht op s' hstep => ?_, ?_, ?_⟩
  · exact updates_of_holds hinv.holds_unique ht hstep
  · rintro ⟨t, ht⟩
    exact (isLocked_iff s).mpr (hinv.holder t ht).ne_zero
  · intro hlocked
    obtain ⟨t, -, ht⟩ := hinv.owner.resolve_left ((isLocked_iff s).mp hlocked)
    exact ⟨t, ht⟩

/-- Two threads count, one after the other. -/
theorem mutex_value_count :
    ∃ s : Guarded State Thread ℕ, Runs MutexStep (newMutex 0)
        [lock (.nth 0), .lock (.run (.nth 0)), .read (.nth 0), tryLock (.nth 1),
          .lock (.run (.nth 1)), .write (.nth 0) (· + 1), dropGuard (.nth 0),
          .lock (.run (.nth 0)), tryLock (.nth 1), .lock (.run (.nth 1)), .read (.nth 1),
          .write (.nth 1) (· + 1)] s ∧
      s.data = 2 ∧ MutexSound 0 s := by
  have hlock : ∀ t, ∀ a, (∀ u, a ≠ .release u) → ∀ u, a = Action.release u →
      State.holds t u = true :=
    fun t a ha u hu => absurd hu (ha u)
  have hrun : Runs MutexStep (newMutex 0) [lock (.nth 0), .lock (.run (.nth 0)), .read (.nth 0),
      tryLock (.nth 1), .lock (.run (.nth 1)), .write (.nth 0) (· + 1), dropGuard (.nth 0),
      .lock (.run (.nth 0)), tryLock (.nth 1), .lock (.run (.nth 1)), .read (.nth 1),
      .write (.nth 1) (· + 1)] _ :=
    .cons (.lock ⟨hlock _ _ (fun u h => by cases h), rfl⟩)
      (.cons (.lock ⟨hlock _ _ (fun u h => by cases h), rfl⟩) (.cons (.read rfl)
        (.cons (.lock ⟨hlock _ _ (fun u h => by cases h), rfl⟩)
          (.cons (.lock ⟨hlock _ _ (fun u h => by cases h), rfl⟩) (.cons (.write rfl rfl _)
            (.cons (.lock ⟨fun u hu => by cases hu; rfl, rfl⟩)
              (.cons (.lock ⟨hlock _ _ (fun u h => by cases h), rfl⟩)
                (.cons (.lock ⟨hlock _ _ (fun u h => by cases h), rfl⟩)
                  (.cons (.lock ⟨hlock _ _ (fun u h => by cases h), rfl⟩) (.cons (.read rfl)
                    (.cons (.write rfl rfl _) .refl)))))))))))
  exact ⟨_, hrun, rfl, mutex_value hrun⟩

end HydroxKernel.Mutex
