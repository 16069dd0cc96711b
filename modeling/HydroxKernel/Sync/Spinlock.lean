import HydroxKernel.Lib.Assert
import HydroxKernel.Lib.Runs
import Mathlib.Data.List.Nodup
import Mathlib.Logic.Function.Basic

/-!
# Raw Spinlocks

`RawSpinlock` on one core. Spinlocks are given by their addresses. With the feature
`spinlock_tracking` a core keeps the list of the spinlocks that it holds; without it, nothing
is kept and nothing is checked. What other cores do to the locks is one of the operations:
they lock free ones, and release those that this core does not hold.

## Main results

* `held_of_runs`: the spinlocks in the list are locked and distinct, and every guard can be
  dropped.
* `unlocks_iff`: `force_unlock_held` returns exactly if no spinlock is held.
-/

namespace HydroxKernel.Spinlock

/-- The panics of the spinlock. -/
inductive Panic
  /-- "Attempt to acquire spinlock ... already held by current core". -/
  | alreadyHeld
  /-- "Acquired too many spinlocks!". -/
  | tooMany
  /-- "Attempt to release spinlock ... not held by current core". -/
  | notHeld
  deriving DecidableEq

/-- `SpinlockTrackingDisabledError`. -/
inductive TrackingDisabled
  | error
  deriving DecidableEq

/-- Which spinlocks are locked, `HELD_LOCKS` of the core up to `HELD_LOCKS_LEN`, and the
spinlocks for which the code on the core has a guard. -/
structure State where
  locked : ℕ → Bool
  held : List ℕ
  guards : List ℕ

/-- No spinlock is locked. -/
def State.new : State := ⟨fun _ => false, [], []⟩

/-- `MAX_HELD_LOCKS`. -/
def maxHeldLocks : ℕ := 64

/-! ### Tracking -/

/-- `held_spinlocks`. -/
def heldSpinlocks (tracking : Bool) (s : State) : Except TrackingDisabled (List ℕ) :=
  if tracking then .ok s.held else .error .error

/-- `check_spinlock_for_deadlock`. -/
def checkSpinlockForDeadlock (tracking : Bool) (s : State) (l : ℕ) : Except Panic Unit :=
  ensure (¬ (tracking = true ∧ l ∈ s.held)) .alreadyHeld

/-- `push_spinlock`. -/
def pushSpinlock (tracking : Bool) (s : State) (l : ℕ) : Except Panic State :=
  if tracking then do
    ensure (s.held.length ≠ maxHeldLocks) .tooMany
    return { s with held := s.held ++ [l] }
  else .ok s

/-- `pop_spinlock`: the spinlocks behind `l` move up. -/
def popSpinlock (tracking : Bool) (s : State) (l : ℕ) : Except Panic State :=
  if tracking then do
    ensure (l ∈ s.held) .notHeld
    return { s with held := s.held.erase l }
  else .ok s

/-! ### The spinlock -/

/-- Writes the lock. -/
def State.setLocked (s : State) (l : ℕ) (b : Bool) : State :=
  { s with locked := Function.update s.locked l b }

/-- A spinlock that is free is locked and tracked, and there is a guard for it. -/
def acquire (tracking : Bool) (s : State) (l : ℕ) : Except Panic State := do
  let s ← pushSpinlock tracking (s.setLocked l true) l
  return { s with guards := l :: s.guards }

/-- `RawSpinlock::lock`, up to the wait for a spinlock that another core holds. -/
def lock (tracking : Bool) (s : State) (l : ℕ) : Except Panic (Option State) :=
  if s.locked l = false then do
    return some (← acquire tracking s l)
  else do
    checkSpinlockForDeadlock tracking s l
    return none

/-- `RawSpinlock::try_lock`. -/
def tryLock (tracking : Bool) (s : State) (l : ℕ) : Except Panic State :=
  if s.locked l = false then acquire tracking s l else .ok s

/-- `RawSpinlock::force_unlock`. -/
def forceUnlock (s : State) (l : ℕ) : State := s.setLocked l false

/-- `RawSpinlockGuard::drop`. -/
def drop (tracking : Bool) (s : State) (l : ℕ) : Except Panic State := do
  let s ← popSpinlock tracking { s with guards := s.guards.erase l } l
  return forceUnlock s l

/-- `RawSpinlockGuard::leak`. -/
def leak (tracking : Bool) (s : State) (l : ℕ) : Except Panic State :=
  popSpinlock tracking { s with guards := s.guards.erase l } l

/-- `RawSpinlock::force_unlock_held`: what it returns, if it does so within `fuel` rounds of its
loop. -/
def forceUnlockHeld (tracking : Bool) :
    ℕ → State → Option (Except TrackingDisabled Unit × State)
  | 0, _ => none
  | fuel + 1, s =>
      match heldSpinlocks tracking s with
      | .error e => some (.error e, s)
      | .ok held =>
          match held.getLast? with
          | some l => forceUnlockHeld tracking fuel (forceUnlock s l)
          | none => some (.ok (), s)

/-! ### Runs -/

/-- What can happen on the core and to the locks that it does not hold. A guard that is
forgotten stays in the list. -/
inductive Op
  | lock (l : ℕ)
  | tryLock (l : ℕ)
  | drop (l : ℕ)
  | leak (l : ℕ)
  | forget (l : ℕ)
  | other (l : ℕ)

/-- Performs an operation. A core that waits for a spinlock does nothing. -/
def exec (tracking : Bool) (s : State) : Op → Except Panic State
  | .lock l => do return (← lock tracking s l).getD s
  | .tryLock l => tryLock tracking s l
  | .drop l => drop tracking s l
  | .leak l => leak tracking s l
  | .forget l => .ok { s with guards := s.guards.erase l }
  | .other l => .ok (s.setLocked l !s.locked l)

/-- When an operation can be performed: guards that are dropped exist, and the other cores leave
the locks of this one alone. -/
def Op.Allowed (s : State) : Op → Prop
  | .lock _ | .tryLock _ => True
  | .drop l | .leak l | .forget l => l ∈ s.guards
  | .other l => l ∉ s.held

/-- A step of a core with tracking. -/
def Step (s : State) (op : Op) (t : State) : Prop := op.Allowed s ∧ exec true s op = .ok t

/-- The list of held spinlocks is right: they are locked and distinct, there is room for
them, and those with a guard are among them. -/
structure Sound (s : State) : Prop where
  locked : ∀ l ∈ s.held, s.locked l = true
  nodup : s.held.Nodup
  room : s.held.length ≤ maxHeldLocks
  guards : ∀ l ∈ s.guards, l ∈ s.held
  guardsNodup : s.guards.Nodup

variable {s t : State} {l : ℕ}

/-- A lock that is free is taken. -/
theorem Sound.acquire (h : Sound s) (hl : s.locked l = false) (ht : acquire true s l = .ok t) :
    Sound t := by
  have hnot : l ∉ s.held := fun hm => by simp [h.locked l hm] at hl
  simp only [Spinlock.acquire, pushSpinlock, if_true, bind_assoc, ensure_bind_eq_ok,
    pure, Except.pure, ok_bind, Except.ok.injEq] at ht
  obtain ⟨hroom, rfl⟩ := ht
  have hroom' : s.held.length ≠ maxHeldLocks := hroom
  refine ⟨fun k hk => ?_, ?_, ?_, fun k hk => ?_, ?_⟩
  · by_cases hkl : k = l
    · simp [State.setLocked, hkl]
    · have hk' : k ∈ s.held := by simpa [State.setLocked, hkl] using hk
      simpa [State.setLocked, hkl] using h.locked k hk'
  · have hne : ∀ k ∈ s.held, k ≠ l := fun k hk heq => hnot (heq ▸ hk)
    simpa [State.setLocked, List.nodup_append, h.nodup] using hne
  · have := h.room
    simp only [State.setLocked, List.length_append, List.length_singleton]
    omega
  · simp only [State.setLocked, List.mem_cons, List.mem_append, List.not_mem_nil, or_false] at hk ⊢
    exact hk.symm.imp_left (h.guards k)
  · exact List.nodup_cons.mpr ⟨fun hm => hnot (h.guards l hm), h.guardsNodup⟩

/-- A guard goes, and its spinlock is taken off the list. -/
theorem Sound.pop (h : Sound s) (hl : l ∈ s.guards) :
    ∃ t, popSpinlock true { s with guards := s.guards.erase l } l = .ok t ∧ Sound t ∧
      l ∉ t.held := by
  have hheld := h.guards l hl
  refine ⟨{ s with guards := s.guards.erase l, held := s.held.erase l }, ?_, ?_, ?_⟩
  · simp [popSpinlock, ensure_pos, hheld]
  · refine ⟨fun k hk => h.locked k (List.mem_of_mem_erase hk), h.nodup.erase l, ?_,
      fun k hk => ?_, h.guardsNodup.erase l⟩
    · exact Nat.le_trans List.length_erase_le h.room
    · obtain ⟨hne, hk⟩ := h.guardsNodup.mem_erase_iff.mp hk
      exact h.nodup.mem_erase_iff.mpr ⟨hne, h.guards k hk⟩
  · simp [h.nodup.mem_erase_iff]

/-- A spinlock that is not held changes. -/
theorem Sound.setLocked (h : Sound s) (hl : l ∉ s.held) (b : Bool) : Sound (s.setLocked l b) := by
  refine ⟨fun k hk => ?_, h.nodup, h.room, h.guards, h.guardsNodup⟩
  have hkl : k ≠ l := fun heq => hl (heq ▸ hk)
  simpa [State.setLocked, hkl] using h.locked k hk

/-- Every step keeps the list of held spinlocks right. -/
theorem Sound.step {op : Op} (h : Sound s) (hstep : Step s op t) : Sound t := by
  obtain ⟨hallowed, hexec⟩ := hstep
  cases op with
  | lock l =>
      obtain ⟨o, hlock, ho⟩ := bind_eq_ok.mp hexec
      obtain rfl : o.getD s = t := Except.ok.inj ho
      rw [lock] at hlock
      split at hlock
      next hl =>
        obtain ⟨t, hacq, ht⟩ := bind_eq_ok.mp hlock
        obtain rfl : some t = o := Except.ok.inj ht
        exact h.acquire hl hacq
      next =>
        obtain ⟨-, -, ht⟩ := bind_eq_ok.mp hlock
        obtain rfl : none = o := Except.ok.inj ht
        exact h
  | tryLock l =>
      simp only [exec, tryLock] at hexec
      split at hexec
      next hl => exact h.acquire hl hexec
      next =>
        obtain rfl : s = t := Except.ok.inj hexec
        exact h
  | drop l =>
      obtain ⟨u, hpop, hu, hl⟩ := h.pop hallowed
      simp only [exec, drop, hpop, ok_bind] at hexec
      obtain rfl : forceUnlock u l = t := Except.ok.inj hexec
      exact hu.setLocked hl false
  | leak l =>
      obtain ⟨u, hpop, hu, -⟩ := h.pop hallowed
      obtain rfl : u = t := Except.ok.inj (hpop.symm.trans hexec)
      exact hu
  | forget l =>
      obtain rfl : _ = t := Except.ok.inj hexec
      exact ⟨h.locked, h.nodup, h.room, fun k hk => h.guards k (List.mem_of_mem_erase hk),
        h.guardsNodup.erase l⟩
  | other l =>
      obtain rfl : _ = t := Except.ok.inj hexec
      exact h.setLocked hallowed _

/-- **The tracking is right** in every state that a core reaches: the spinlocks in its list are
locked and distinct, and every guard can be dropped or leaked. -/
theorem held_of_runs {ops : List Op} (h : Runs Step .new ops s) :
    Sound s ∧ ∀ l ∈ s.guards, (∃ t, drop true s l = .ok t) ∧ ∃ t, leak true s l = .ok t := by
  have hs : Sound s := h.invariant ⟨by simp [State.new], List.nodup_nil, by decide,
    by simp [State.new], List.nodup_nil⟩ fun _ _ _ hi hstep => hi.step hstep
  refine ⟨hs, fun l hl => ?_⟩
  obtain ⟨t, hpop, -⟩ := hs.pop hl
  exact ⟨⟨forceUnlock t l, by rw [drop, hpop, ok_bind]; rfl⟩, t, hpop⟩

/-! ### `force_unlock_held` -/

/-- Unlocking a spinlock does not take it off the list. -/
@[simp] theorem forceUnlock_held (s : State) (l : ℕ) : (forceUnlock s l).held = s.held := rfl

/-- Without tracking, `force_unlock_held` says so and does nothing. -/
theorem forceUnlockHeld_untracked (fuel : ℕ) (s : State) :
    forceUnlockHeld false (fuel + 1) s = some (.error .error, s) := rfl

/-- While a spinlock is held, `force_unlock_held` does not get out of its loop. -/
theorem forceUnlockHeld_diverges (h : s.held ≠ []) (fuel : ℕ) :
    forceUnlockHeld true fuel s = none := by
  induction fuel generalizing s with
  | zero => rfl
  | succ fuel ih =>
      have hl : s.held.getLast? = some (s.held.getLast h) := List.getLast?_eq_some_getLast h
      simp only [forceUnlockHeld, heldSpinlocks, if_true, hl]
      exact ih h

/-- `force_unlock_held` returns `Ok`; then the spinlocks that were held are unlocked, and none
is held. -/
def Unlocks (s : State) : Prop :=
  ∃ fuel t, forceUnlockHeld true fuel s = some (.ok (), t) ∧
    (∀ l ∈ s.held, t.locked l = false) ∧ t.held = []

/-- **When `force_unlock_held` works**: exactly if there is nothing to do. -/
theorem unlocks_iff (s : State) : Unlocks s ↔ s.held = [] := by
  constructor
  · rintro ⟨fuel, t, hret, -⟩
    by_contra hne
    rw [forceUnlockHeld_diverges hne] at hret
    cases hret
  · intro hnil
    refine ⟨1, s, ?_, fun l hl => ?_, hnil⟩
    · simp [forceUnlockHeld, heldSpinlocks, hnil]
    · simp [hnil] at hl

/-- **`force_unlock_held` can hang**: on a core that has locked one spinlock. -/
theorem forceUnlockHeld_hangs :
    ∃ s, Runs Step .new [.lock 8] s ∧ s.held = [8] ∧ (∀ fuel, forceUnlockHeld true fuel s = none) ∧
      ¬ Unlocks s := by
  refine ⟨⟨Function.update (fun _ => false) 8 true, [8], [8]⟩, Runs.refl.snoc ⟨trivial, rfl⟩, rfl,
    forceUnlockHeld_diverges (by simp), fun h => ?_⟩
  simpa using (unlocks_iff _).mp h

end HydroxKernel.Spinlock
