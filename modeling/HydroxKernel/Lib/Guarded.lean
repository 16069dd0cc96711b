import HydroxKernel.Lib.Runs
import Mathlib.Logic.Function.Basic

/-!
# Values Guarded by a Lock

A lock is a transition system, and in each of its states some threads hold it. The threads that
hold it read a value and write it. An update takes two steps: a thread reads the value, and later
writes what a function makes of the value that it has read. With the lock it gives up what it has
read.

`updates` is a ledger of the functions, each with its thread, in the order in which the threads
wrote.

## Main results

* `Serial.step`: what one step preserves, if at most one thread holds the lock.
* `serial_of_runs`: in every reached state, the value is that of all updates, one after another.
-/

namespace HydroxKernel

variable {σ κ ι α : Type}

/-- A lock, its value, what the threads have read, and the ledger. -/
structure Guarded (σ ι α : Type) where
  lock : σ
  data : α
  seen : ι → Option α
  updates : List (ι × (α → α))

/-- What happens to a value with a lock. -/
inductive GuardedOp (κ ι α : Type)
  | lock (op : κ)
  | read (t : ι)
  | write (t : ι) (f : α → α)

/-- A lock and a value that nobody has read. -/
def Guarded.new (lock : σ) (data : α) : Guarded σ ι α := ⟨lock, data, fun _ => none, []⟩

/-- No update is lost: the value is that of all updates, and what a thread has read is the value
until it gives the lock up. -/
structure Serial (holds : σ → ι → Bool) (data : α) (s : Guarded σ ι α) : Prop where
  data_eq : s.data = s.updates.foldl (fun v u => u.2 v) data
  seen : ∀ t v, s.seen t = some v → holds s.lock t = true ∧ v = s.data

variable {holds : σ → ι → Bool} {data : α} {s s' : Guarded σ ι α}

/-- A new value has no updates. -/
theorem serial_new (lock : σ) (data : α) : Serial holds data (.new lock data : Guarded σ ι α) :=
  ⟨rfl, fun _ _ h => by cases h⟩

variable [DecidableEq ι]

/-- A step: one of the lock, or one of a thread that holds it. -/
inductive GuardedStep (lockStep : σ → κ → σ → Prop) (holds : σ → ι → Bool) :
    Guarded σ ι α → GuardedOp κ ι α → Guarded σ ι α → Prop
  | lock {s : Guarded σ ι α} {op : κ} {l : σ} (h : lockStep s.lock op l) :
      GuardedStep lockStep holds s (.lock op)
        { s with lock := l, seen := fun t => if holds l t then s.seen t else none }
  | read {s : Guarded σ ι α} {t : ι} (h : holds s.lock t = true) :
      GuardedStep lockStep holds s (.read t)
        { s with seen := Function.update s.seen t (some s.data) }
  | write {s : Guarded σ ι α} {t : ι} {v : α} (h : holds s.lock t = true)
      (hv : s.seen t = some v) (f : α → α) :
      GuardedStep lockStep holds s (.write t f) { s with
        data := f v
        seen := Function.update s.seen t (some (f v))
        updates := s.updates ++ [(t, f)] }

variable {lockStep : σ → κ → σ → Prop}

/-- **A step** loses no update, if only one thread holds the lock. -/
theorem Serial.step (hs : Serial holds data s)
    (hone : ∀ t u, holds s.lock t = true → holds s.lock u = true → t = u)
    {op : GuardedOp κ ι α} (h : GuardedStep lockStep holds s op s') : Serial holds data s' := by
  cases h with
  | lock h =>
      refine ⟨hs.data_eq, fun t v hseen => ?_⟩
      obtain ⟨hholds, hseen⟩ := Option.ite_none_right_eq_some.mp hseen
      exact ⟨hholds, (hs.seen t v hseen).2⟩
  | @read t h =>
      refine ⟨hs.data_eq, fun u v hseen => ?_⟩
      dsimp only at hseen
      rw [Function.update_apply] at hseen
      split at hseen
      case isTrue hu =>
        subst hu
        exact ⟨h, (Option.some.inj hseen).symm⟩
      case isFalse hu => exact hs.seen u v hseen
  | @write t v h hv f =>
      obtain rfl := (hs.seen t v hv).2
      refine ⟨?_, fun u v hseen => ?_⟩
      · dsimp only
        rw [List.foldl_concat, ← hs.data_eq]
      · dsimp only at hseen
        rw [Function.update_apply] at hseen
        split at hseen
        case isTrue hu =>
          subst hu
          exact ⟨h, (Option.some.inj hseen).symm⟩
        case isFalse hu => exact absurd (hone u t (hs.seen u v hseen).1 h) hu

/-- The steps of the lock in a run are a run of the lock. -/
theorem lock_runs {ops : List (GuardedOp κ ι α)} (h : Runs (GuardedStep lockStep holds) s ops s') :
    ∃ ops', Runs lockStep s.lock ops' s'.lock := by
  induction h with
  | refl => exact ⟨[], .refl⟩
  | snoc _ hlast ih =>
      obtain ⟨ops', hruns⟩ := ih
      cases hlast with
      | lock h => exact ⟨_, hruns.snoc h⟩
      | read h => exact ⟨ops', hruns⟩
      | write h hv f => exact ⟨ops', hruns⟩

/-- **No update is lost** in a run, if at most one thread ever holds the lock. -/
theorem serial_of_runs {lock : σ} {ops : List (GuardedOp κ ι α)}
    (hone : ∀ ops l, Runs lockStep lock ops l → ∀ t u, holds l t = true → holds l u = true → t = u)
    (h : Runs (GuardedStep lockStep holds) (.new lock data) ops s) : Serial holds data s := by
  induction h with
  | refl => exact serial_new lock data
  | snoc hruns hlast ih =>
      obtain ⟨ops', hlock⟩ := lock_runs hruns
      exact ih.step (hone ops' _ hlock) hlast

/-- While a thread holds the lock, no other one writes. -/
theorem updates_of_holds (hone : ∀ t u, holds s.lock t = true → holds s.lock u = true → t = u)
    {t : ι} (ht : holds s.lock t = true) {op : GuardedOp κ ι α}
    (h : GuardedStep lockStep holds s op s') :
    s'.updates = s.updates ∨ ∃ f, s'.updates = s.updates ++ [(t, f)] := by
  cases h with
  | lock h => exact .inl rfl
  | read h => exact .inl rfl
  | write h hv f =>
      obtain rfl := hone _ _ ht h
      exact .inr ⟨f, rfl⟩

end HydroxKernel
