import Mathlib.Tactic.Tauto
import HydroxKernel.Lib.Runs
import HydroxKernel.Sync.Mutex

/-!
# Safety of the Mutex Lock

The invariant of the lock, over every interleaving of any number of threads that call
`acquire`, `try_acquire` and `release` in any way.

## Main results

* `roundTrips_iff`: decoding the state word undoes its encoding exactly if the wait list is not
  locked.
* `mutual_exclusion`: at most one thread holds the lock, the word names it, and no thread
  is left on the wait list of a lock without waiters.
* `correct_use_never_panics`: with correct use no thread panics, as long as no releasing
  thread and no owner check reads the word while the wait list is locked.
-/

namespace HydroxKernel.Mutex

/-! ### Words and owners -/

/-- The word is locked by `t`: it is the address of `t`, with or without flags. -/
def OwnedBy (word : ℕ) (t : Thread) : Prop :=
  word = t.addr ∨ word = t.addr + 1 ∨ word = t.addr + 3

/-- A word that the lock can hold. -/
def Valid (word : ℕ) : Prop := word = 0 ∨ ∃ t, OwnedBy word t

/-- Threads are determined by their addresses. -/
theorem Thread.ext_addr {t u : Thread} (h : t.addr = u.addr) : t = u := by
  cases t
  cases u
  simpa using h

/-- A word has one owner. -/
theorem OwnedBy.unique {word : ℕ} {t u : Thread} (ht : OwnedBy word t) (hu : OwnedBy word u) :
    t = u := by
  have := t.aligned
  have := u.aligned
  refine Thread.ext_addr ?_
  rcases ht with ht | ht | ht <;> rcases hu with hu | hu | hu <;> omega

/-- A word with an owner is not zero. -/
theorem OwnedBy.ne_zero {word : ℕ} {t : Thread} (h : OwnedBy word t) : word ≠ 0 := by
  have := t.ne_zero
  rcases h with h | h | h <;> omega

section Words

variable (t : Thread)

/-- Setting flags of an aligned address adds them. -/
theorem addr_or {k : ℕ} (hk : k < 4) : t.addr ||| k = t.addr + k := by
  obtain ⟨q, hq⟩ : ∃ q, t.addr = 4 * q := ⟨t.addr / 4, by have := t.aligned; omega⟩
  rw [hq]
  exact (Nat.two_pow_add_eq_or_of_lt (i := 2) hk q).symm

/-- The word of an unlocked mutex. -/
@[simp] theorem intoUsize_unlocked : MutexLockState.unlocked.intoUsize = 0 := rfl

/-- The word of a locked mutex without waiters. -/
@[simp] theorem intoUsize_lockedNoWaiters :
    (MutexLockState.lockedNoWaiters t.addr).intoUsize = t.addr := rfl

/-- The word of a locked mutex with waiters. -/
@[simp] theorem intoUsize_lockedWithWaiters :
    (MutexLockState.lockedWithWaiters t.addr).intoUsize = t.addr + 1 := addr_or t (by omega)

/-- The word of a locked mutex with a locked list of waiters. -/
@[simp] theorem intoUsize_lockedWaitersLocked :
    (MutexLockState.lockedWaitersLocked t.addr).intoUsize = t.addr + 3 := addr_or t (by omega)

/-- The state of the word of an unlocked mutex. -/
@[simp] theorem fromUsize_zero : fromUsize 0 = .unlocked := rfl

/-- The state of the word of a locked mutex without waiters. -/
@[simp] theorem fromUsize_addr : fromUsize t.addr = .lockedNoWaiters t.addr := by
  simp [fromUsize, t.ne_zero, t.aligned]

/-- The state of the word of a locked mutex with waiters. -/
@[simp] theorem fromUsize_addr_one : fromUsize (t.addr + 1) = .lockedWithWaiters t.addr := by
  have h1 : (t.addr + 1) % 4 = 1 := by have := t.aligned; omega
  have h2 : (t.addr + 1) / 2 * 2 = t.addr := by have := t.aligned; omega
  simp [fromUsize, h1, h2]

/-- The word of a lock whose wait list is locked does not decode to its owner: the second
flag stays in the address. -/
@[simp] theorem fromUsize_addr_three :
    fromUsize (t.addr + 3) = .lockedWaitersLocked (t.addr + 2) := by
  have h1 : (t.addr + 3) % 4 = 3 := by have := t.aligned; omega
  have h2 : (t.addr + 3) / 2 * 2 = t.addr + 2 := by have := t.aligned; omega
  simp [fromUsize, h1, h2]

end Words

/-! ### Encoding and decoding -/

/-- The pointer of the state, if it has one, can be that of a thread. -/
def MutexLockState.WellFormed (s : MutexLockState) : Prop :=
  ∀ p ∈ s.owner, p ≠ 0 ∧ p % 4 = 0

/-- Decoding undoes the encoding: it gives the state and its owner back, and the state that it
gives has the same word. -/
def MutexLockState.RoundTrips (s : MutexLockState) : Prop :=
  fromUsize s.intoUsize = s ∧ (fromUsize s.intoUsize).intoUsize = s.intoUsize ∧
    (fromUsize s.intoUsize).owner = s.owner

/-- The word of a state decodes to a state with that word, even if it is another one. -/
theorem intoUsize_fromUsize {s : MutexLockState} (h : s.WellFormed) :
    (fromUsize s.intoUsize).intoUsize = s.intoUsize := by
  cases s with
  | unlocked => rfl
  | lockedNoWaiters p =>
      obtain ⟨hne, hal⟩ := h p rfl
      exact congrArg _ (fromUsize_addr ⟨p, hne, hal⟩)
  | lockedWithWaiters p =>
      obtain ⟨hne, hal⟩ := h p rfl
      rw [intoUsize_lockedWithWaiters ⟨p, hne, hal⟩, fromUsize_addr_one ⟨p, hne, hal⟩,
        intoUsize_lockedWithWaiters ⟨p, hne, hal⟩]
  | lockedWaitersLocked p =>
      obtain ⟨hne, hal⟩ := h p rfl
      obtain ⟨q, rfl⟩ : ∃ q, p = 4 * q := ⟨p / 4, by omega⟩
      rw [intoUsize_lockedWaitersLocked ⟨4 * q, hne, hal⟩,
        fromUsize_addr_three ⟨4 * q, hne, hal⟩]
      -- the flag that stayed in the address is set once more
      have h2 : 4 * q + 2 = 4 * q ||| 2 := Nat.two_pow_add_eq_or_of_lt (i := 2) (by decide) q
      have h3 : 4 * q + 3 = 4 * q ||| 3 := Nat.two_pow_add_eq_or_of_lt (i := 2) (by decide) q
      rw [MutexLockState.intoUsize, h2, h3, Nat.or_assoc]
      rfl

/-- **When the state word round-trips**: for the states that a lock can be in, exactly if the
wait list is not locked. -/
theorem roundTrips_iff {s : MutexLockState} (h : s.WellFormed) :
    s.RoundTrips ↔ ∀ p, s ≠ .lockedWaitersLocked p := by
  constructor
  · rintro ⟨hs, -⟩ p rfl
    obtain ⟨hne, hal⟩ := h p rfl
    rw [intoUsize_lockedWaitersLocked ⟨p, hne, hal⟩, fromUsize_addr_three ⟨p, hne, hal⟩] at hs
    simp at hs
  · intro hno
    have hs : fromUsize s.intoUsize = s := by
      cases s with
      | unlocked => rfl
      | lockedNoWaiters p =>
          obtain ⟨hne, hal⟩ := h p rfl
          exact fromUsize_addr ⟨p, hne, hal⟩
      | lockedWithWaiters p =>
          obtain ⟨hne, hal⟩ := h p rfl
          rw [intoUsize_lockedWithWaiters ⟨p, hne, hal⟩, fromUsize_addr_one ⟨p, hne, hal⟩]
      | lockedWaitersLocked p => exact absurd rfl (hno p)
    exact ⟨hs, intoUsize_fromUsize h, by rw [hs]⟩

/-- A lock with waiters is decoded from its word. -/
theorem roundTrips_lockedWithWaiters : (MutexLockState.lockedWithWaiters 8).RoundTrips :=
  (roundTrips_iff fun p hp => by obtain rfl := Option.mem_some.mp hp; decide).mpr (by simp)

/-- **The word of a lock whose wait list is locked decodes to another owner**: a flag stays in
the pointer. -/
theorem lockedWaitersLocked_not_roundTrips :
    (MutexLockState.lockedWaitersLocked 8).WellFormed ∧
      fromUsize (MutexLockState.lockedWaitersLocked 8).intoUsize = .lockedWaitersLocked 10 ∧
      ¬ (MutexLockState.lockedWaitersLocked 8).RoundTrips := by
  refine ⟨fun p hp => ?_, by decide, fun h => absurd h.1 (by decide)⟩
  obtain rfl := Option.mem_some.mp hp
  decide

/-! ### The invariant -/

/-- The thread has locked the wait list. -/
def Pc.crit : Pc → Bool
  | .enqueue _ | .unlockWaiters _ | .wakeOne | .store _ => true
  | _ => false

/-- The thread gives the lock up or is about to get it, or has panicked. -/
def Pc.handOff : Pc → Bool
  | .release | .releaseSlow _ | .wakeOne | .store _ | .woken _ | .checkOwner | .panicked _ => true
  | _ => false

/-- The thread was taken off the wait list and has not returned. -/
def Pc.handed : Pc → Bool
  | .woken _ | .checkOwner | .panicked _ => true
  | _ => false

/-- The thread is on the wait list. -/
def Pc.queued : Pc → Bool
  | .unlockWaiters _ | .suspend _ | .suspended _ => true
  | _ => false

/-- What holds when thread `t` is at a place of the code. -/
def PcOk (s : State) (t : Thread) : Pc → Prop
  | .acquireSlow state => ∃ val, Valid val ∧ state = fromUsize val
  | .enqueue owner | .unlockWaiters owner => ∃ u : Thread, owner = u.addr ∧ s.word = u.addr + 3
  | .release | .releaseSlow _ => s.holds t = false
  | .wakeOne => s.holds t = false ∧ s.word = t.addr + 3
  | .store state => s.holds t = false ∧ s.word = t.addr + 3 ∧
      (state = .unlocked ∧ s.queue = [] ∨
        ∃ n : Thread, state = .lockedWithWaiters n.addr ∧ (s.pc n).handed = true)
  | _ => True

/-- The invariant of the lock. -/
structure Inv (s : State) : Prop where
  /-- A locked word names a thread that holds the lock or takes part in a hand-off. -/
  owner : s.word = 0 ∨ ∃ t, OwnedBy s.word t ∧ (s.holds t = true ∨ (s.pc t).handOff = true)
  /-- The word names every thread that holds the lock. -/
  holder : ∀ t, s.holds t = true → OwnedBy s.word t
  /-- Every thread is where it may be. -/
  pcOk : ∀ t, PcOk s t (s.pc t)
  /-- At most one thread has locked the wait list. -/
  crit : ∀ t u, (s.pc t).crit = true → (s.pc u).crit = true → t = u
  /-- The threads on the wait list wait. -/
  queued : ∀ t ∈ s.queue, (s.pc t).queued = true
  /-- No thread is twice on the wait list. -/
  nodup : s.queue.Nodup
  /-- Only a word with a flag has waiters. -/
  flagged : s.queue ≠ [] → s.word % 2 = 1

/-- The invariant holds of a new mutex. -/
theorem inv_new : Inv State.new where
  owner := Or.inl rfl
  holder := by simp [State.new]
  pcOk := by simp [State.new, PcOk]
  crit := by simp [State.new, Pc.crit]
  queued := by simp [State.new]
  nodup := by simp [State.new]
  flagged := by simp [State.new]

section Steps

variable {s s' : State} {t : Thread}

/-- The word is one of a state. -/
theorem Inv.valid (h : Inv s) : Valid s.word := by
  rcases h.owner with h0 | ⟨u, hu, -⟩
  · exact Or.inl h0
  · exact Or.inr ⟨u, hu⟩

/-- While a thread has locked the wait list, the word says so. -/
theorem Inv.word_of_crit (h : Inv s) (hc : (s.pc t).crit = true) :
    ∃ u : Thread, s.word = u.addr + 3 := by
  have hok := h.pcOk t
  cases hpc : s.pc t <;> simp only [hpc, Pc.crit, PcOk, Bool.false_eq_true] at hc hok
  · obtain ⟨u, -, hu⟩ := hok
    exact ⟨u, hu⟩
  · obtain ⟨u, -, hu⟩ := hok
    exact ⟨u, hu⟩
  · exact ⟨t, hok.2⟩
  · exact ⟨t, hok.2.1⟩

/-- What holds of a thread depends on the word and the queue only while it has locked the
wait list. -/
theorem PcOk.frame {u : Thread} {p : Pc} (h : PcOk s u p) (hholds : s'.holds u = s.holds u)
    (hcrit : p.crit = true → s'.word = s.word ∧ s'.queue = s.queue ∧
      ∀ n, (s.pc n).handed = true → (s'.pc n).handed = true) : PcOk s' u p := by
  cases p with
  | acquireSlow state => exact h
  | enqueue o =>
      obtain ⟨hw, -⟩ := hcrit rfl
      simpa only [PcOk, hw] using h
  | unlockWaiters o =>
      obtain ⟨hw, -⟩ := hcrit rfl
      simpa only [PcOk, hw] using h
  | release => exact hholds.trans h
  | releaseSlow state => exact hholds.trans h
  | wakeOne =>
      obtain ⟨hw, -⟩ := hcrit rfl
      exact ⟨hholds.trans h.1, hw.trans h.2⟩
  | store state =>
      obtain ⟨hw, hq, hn⟩ := hcrit rfl
      obtain ⟨h1, h2, h3⟩ := h
      refine ⟨hholds.trans h1, hw.trans h2, ?_⟩
      rcases h3 with ⟨rfl, h3⟩ | ⟨n, rfl, h3⟩
      · exact Or.inl ⟨rfl, hq.trans h3⟩
      · exact Or.inr ⟨n, rfl, hn n h3⟩
  | _ => trivial

/-- **The step rule**: what has to be shown of a step of `t` that leaves the other threads
where they are. -/
theorem Inv.step (h : Inv s) (hpc : ∀ u, u ≠ t → s'.pc u = s.pc u)
    (hholds : ∀ u, u ≠ t → s'.holds u = s.holds u)
    (hfree : (∀ u, u ≠ t → (s.pc u).crit = false) ∨ s'.word = s.word ∧ s'.queue = s.queue ∧
      ((s.pc t).handed = true → (s'.pc t).handed = true))
    (howner : s'.word = 0 ∨ ∃ u, OwnedBy s'.word u ∧ (s'.holds u = true ∨ (s'.pc u).handOff = true))
    (hholder : ∀ u, s'.holds u = true → OwnedBy s'.word u) (hok : PcOk s' t (s'.pc t))
    (hcrit : (s'.pc t).crit = true → ∀ u, u ≠ t → (s.pc u).crit = false)
    (hqueued : ∀ u ∈ s'.queue, (s'.pc u).queued = true) (hnodup : s'.queue.Nodup)
    (hflagged : s'.queue ≠ [] → s'.word % 2 = 1) : Inv s' where
  owner := howner
  holder := hholder
  pcOk u := by
    by_cases hu : u = t
    · rw [hu]
      exact hok
    · rw [hpc u hu]
      refine (h.pcOk u).frame (hholds u hu) fun hc => ?_
      rcases hfree with hfree | ⟨hw, hq, ht⟩
      · rw [hfree u hu] at hc
        exact absurd hc (by simp)
      · refine ⟨hw, hq, fun n hn => ?_⟩
        by_cases hnt : n = t
        · rw [hnt] at hn ⊢
          exact ht hn
        · rwa [hpc n hnt]
  crit u v hu hv := by
    by_cases hut : u = t <;> by_cases hvt : v = t
    · rw [hut, hvt]
    · rw [hpc v hvt, hcrit (hut ▸ hu) v hvt] at hv
      exact absurd hv (by simp)
    · rw [hpc u hut, hcrit (hvt ▸ hv) u hut] at hu
      exact absurd hu (by simp)
    · rw [hpc u hut] at hu
      rw [hpc v hvt] at hv
      exact h.crit u v hu hv
  queued := hqueued
  nodup := hnodup
  flagged := hflagged

/-- Nobody has locked the wait list if the word does not say so. -/
theorem Inv.no_crit (h : Inv s) (hw : s.word % 4 ≠ 3) (u : Thread) : (s.pc u).crit = false := by
  by_contra hc
  obtain ⟨v, hv⟩ := h.word_of_crit (by simpa using hc)
  have := v.aligned
  omega

/-- Nobody else has locked the wait list. -/
theorem Inv.other_crit (h : Inv s) (hc : (s.pc t).crit = true) (u : Thread) (hu : u ≠ t) :
    (s.pc u).crit = false := by
  by_contra hcu
  exact hu (h.crit u t (by simpa using hcu) hc)

/-- A thread that does not wait is not on the wait list. -/
theorem Inv.not_mem_queue (h : Inv s) (hp : (s.pc t).queued = false) : t ∉ s.queue := by
  intro ht
  have := h.queued t ht
  simp [hp] at this

/-- A thread that moves on writes no word. -/
@[simp] theorem goto_word (p : Pc) : (s.goto t p).word = s.word := rfl

/-- A thread that moves on is not queued. -/
@[simp] theorem goto_queue (p : Pc) : (s.goto t p).queue = s.queue := rfl

/-- A thread that moves on gets no guard. -/
@[simp] theorem goto_holds (p : Pc) : (s.goto t p).holds = s.holds := rfl

/-- The thread moves on. -/
@[simp] theorem goto_pc_self (p : Pc) : (s.goto t p).pc t = p := by simp [State.goto]

/-- No other thread moves on. -/
theorem goto_pc_of_ne {u : Thread} (p : Pc) (hu : u ≠ t) : (s.goto t p).pc u = s.pc u := by
  simp [State.goto, hu]

/-- The word that was written. -/
@[simp] theorem setWord_word (w : ℕ) : (s.setWord w).word = w := rfl

/-- Writing the word queues no thread. -/
@[simp] theorem setWord_queue (w : ℕ) : (s.setWord w).queue = s.queue := rfl

/-- Writing the word gives no guard. -/
@[simp] theorem setWord_holds (w : ℕ) : (s.setWord w).holds = s.holds := rfl

/-- Writing the word moves no thread. -/
@[simp] theorem setWord_pc (w : ℕ) : (s.setWord w).pc = s.pc := rfl

/-- A thread that acquires the mutex queues no thread. -/
@[simp] theorem acquired_queue : (s.acquired t).queue = s.queue := rfl

/-- The thread is done. -/
@[simp] theorem acquired_pc_self : (s.acquired t).pc t = .idle := by simp [State.acquired]

/-- No other thread moves on. -/
theorem acquired_pc_of_ne {u : Thread} (hu : u ≠ t) : (s.acquired t).pc u = s.pc u :=
  goto_pc_of_ne _ hu

/-- The thread has a guard. -/
@[simp] theorem acquired_holds_self : (s.acquired t).holds t = true := by simp [State.acquired]

/-- No other thread gets a guard. -/
theorem acquired_holds_of_ne {u : Thread} (hu : u ≠ t) : (s.acquired t).holds u = s.holds u := by
  simp [State.acquired, hu]

/-- The threads on the wait list still wait after a step of a thread that is not on it, or
that stays on it. -/
theorem Inv.queued_goto (h : Inv s) {p : Pc} (hp : (s.pc t).queued = true → p.queued = true) :
    ∀ u ∈ s.queue, ((s.goto t p).pc u).queued = true := by
  intro u hu
  by_cases hut : u = t
  · subst hut
    rw [goto_pc_self]
    exact hp (h.queued u hu)
  · rw [goto_pc_of_ne p hut]
    exact h.queued u hu

/-- A step that moves a thread and changes nothing else. -/
theorem Inv.goto (h : Inv s) {p : Pc} (hoff : (s.pc t).handOff = true → p.handOff = true ∨
      s.holds t = true ∨ ¬ OwnedBy s.word t)
    (hok : PcOk (s.goto t p) t p) (hcrit : p.crit = true → (s.pc t).crit = true)
    (hhanded : (s.pc t).handed = true → p.handed = true)
    (hqueued : (s.pc t).queued = true → p.queued = true) : Inv (s.goto t p) := by
  refine h.step (t := t) (fun u hu => goto_pc_of_ne p hu) (fun u hu => rfl)
    (Or.inr ⟨rfl, rfl, by simpa using hhanded⟩) ?_ h.holder (by simpa using hok) ?_
    (h.queued_goto hqueued) h.nodup h.flagged
  · rcases h.owner with h0 | ⟨u, hu, hc⟩
    · exact Or.inl h0
    · refine Or.inr ⟨u, hu, ?_⟩
      by_cases hut : u = t
      · subst hut
        rcases hc with hc | hc
        · exact Or.inl hc
        · rcases hoff hc with hp | hp | hp
          · exact Or.inr (by simpa using hp)
          · exact Or.inl hp
          · exact absurd hu hp
      · rw [goto_pc_of_ne p hut]
        exact hc
  · intro hp
    rw [goto_pc_self] at hp
    exact h.other_crit (hcrit hp)

/-- Without the flag no thread waits. -/
theorem Inv.queue_eq_nil (h : Inv s) (hw : s.word % 2 = 0) : s.queue = [] := by
  by_contra hne
  have := h.flagged hne
  omega

/-- A thread takes a free lock. -/
theorem Inv.acquired_free (h : Inv s) (hw : s.word = 0) :
    Inv ((s.setWord t.addr).acquired t) := by
  have hno : ∀ u, s.holds u = false := by
    intro u
    by_contra hu
    exact (h.holder u (by simpa using hu)).ne_zero hw
  have hfree := h.no_crit (by omega)
  have hempty : s.queue = [] := h.queue_eq_nil (by omega)
  refine h.step (t := t) (fun u hu => acquired_pc_of_ne hu) (fun u hu => acquired_holds_of_ne hu)
    (Or.inl fun u _ => hfree u) ?_ ?_ (by simp [PcOk]) (by simp [Pc.crit]) ?_ ?_ ?_
  · exact Or.inr ⟨t, Or.inl rfl, Or.inl acquired_holds_self⟩
  · intro u hu
    by_cases hut : u = t
    · exact hut ▸ Or.inl rfl
    · rw [acquired_holds_of_ne hut] at hu
      simp [hno u] at hu
  · simp [hempty]
  · simp [hempty]
  · simp [hempty]

/-- A thread that was handed the lock returns with it. -/
theorem Inv.acquired_handed (h : Inv s) (hpc : s.pc t = .checkOwner) (hw : OwnedBy s.word t)
    (hfree : s.word % 4 ≠ 3) : Inv (s.acquired t) := by
  refine h.step (t := t) (fun u hu => acquired_pc_of_ne hu) (fun u hu => acquired_holds_of_ne hu)
    (Or.inl fun u _ => h.no_crit hfree u) ?_ ?_ (by simp [PcOk]) (by simp [Pc.crit]) ?_ h.nodup
    h.flagged
  · exact Or.inr ⟨t, hw, Or.inl acquired_holds_self⟩
  · intro u hu
    by_cases hut : u = t
    · exact hut ▸ hw
    · rw [acquired_holds_of_ne hut] at hu
      exact h.holder u hu
  · exact h.queued_goto (by simp [hpc, Pc.queued])

/-- A thread locks the wait list of a lock that is held by `o`. -/
theorem Inv.grab (h : Inv s) {o : Thread} {p : Pc} (hw : s.word = o.addr ∨ s.word = o.addr + 1)
    (hq : (s.pc t).queued = false)
    (hp : p = .enqueue o.addr ∨ p = .wakeOne ∧ o = t ∧ s.holds t = false)
    (hoff : (s.pc t).handOff = true → p = .wakeOne) :
    Inv ((s.setWord (o.addr + 3)).goto t p) := by
  have hfree : ∀ u, (s.pc u).crit = false := by
    have := o.aligned
    exact h.no_crit (by omega)
  have hown : OwnedBy s.word o := by
    rcases hw with hw | hw
    · exact Or.inl hw
    · exact Or.inr (Or.inl hw)
  refine h.step (t := t) (fun u hu => goto_pc_of_ne p hu) (fun u hu => rfl)
    (Or.inl fun u _ => hfree u) ?_ ?_ ?_ (fun _ u _ => hfree u) ?_ h.nodup ?_
  · rcases h.owner with h0 | ⟨u, hu, hc⟩
    · exact absurd h0 hown.ne_zero
    · obtain rfl := hu.unique hown
      refine Or.inr ⟨u, Or.inr (Or.inr rfl), ?_⟩
      by_cases hut : u = t
      · subst hut
        rcases hc with hc | hc
        · exact Or.inl hc
        · right
          rw [goto_pc_self, hoff hc]
          rfl
      · rw [goto_pc_of_ne p hut]
        exact hc
  · intro u hu
    obtain rfl := (h.holder u hu).unique hown
    exact Or.inr (Or.inr rfl)
  · rw [goto_pc_self]
    rcases hp with rfl | ⟨rfl, rfl, hno⟩
    · exact ⟨o, rfl, rfl⟩
    · exact ⟨hno, rfl⟩
  · exact Inv.queued_goto (s := s) h (by simp [hq])
  · intro _
    have := o.aligned
    simp only [goto_word, setWord_word]
    omega

/-- A thread that has locked the wait list joins it. -/
theorem Inv.enqueue (h : Inv s) {o : ℕ} (hpc : s.pc t = .enqueue o) :
    Inv ({ s with queue := s.queue ++ [t] }.goto t (.unlockWaiters o)) := by
  have hother := h.other_crit (t := t) (by simp [hpc, Pc.crit])
  obtain ⟨u, rfl, hw⟩ : ∃ u : Thread, o = u.addr ∧ s.word = u.addr + 3 := by
    have := h.pcOk t
    rwa [hpc] at this
  have hnot := h.not_mem_queue (t := t) (by simp [hpc, Pc.queued])
  refine h.step (t := t) (fun u hu => goto_pc_of_ne _ hu) (fun u hu => rfl) (Or.inl hother) ?_
    h.holder ?_ (fun _ => hother) ?_ ?_ ?_
  · rcases h.owner with h0 | ⟨v, hv, hc⟩
    · exact Or.inl h0
    · refine Or.inr ⟨v, hv, ?_⟩
      by_cases hvt : v = t
      · subst hvt
        simp only [hpc, Pc.handOff, Bool.false_eq_true, or_false] at hc
        exact Or.inl hc
      · rw [goto_pc_of_ne _ hvt]
        exact hc
  · rw [goto_pc_self]
    exact ⟨u, rfl, hw⟩
  · intro v hv
    rcases List.mem_append.mp hv with hv | hv
    · have hvt : v ≠ t := fun heq => hnot (heq ▸ hv)
      rw [goto_pc_of_ne _ hvt]
      exact h.queued v hv
    · rw [List.mem_singleton.mp hv, goto_pc_self]
      rfl
  · refine List.nodup_append.mpr ⟨h.nodup, by simp, ?_⟩
    intro v hv w hw heq
    rw [List.mem_singleton.mp hw] at heq
    exact hnot (heq ▸ hv)
  · intro _
    have := u.aligned
    simp only [goto_word]
    omega

/-- A thread unlocks the wait list that it has joined. -/
theorem Inv.ungrab (h : Inv s) {o : Thread} (hpc : s.pc t = .unlockWaiters o.addr)
    (hw : s.word = o.addr + 3) : Inv ((s.setWord (o.addr + 1)).goto t (.suspend o.addr)) := by
  have hother := h.other_crit (t := t) (by simp [hpc, Pc.crit])
  have hown : OwnedBy s.word o := Or.inr (Or.inr hw)
  refine h.step (t := t) (fun u hu => goto_pc_of_ne _ hu) (fun u hu => rfl) (Or.inl hother) ?_ ?_
    (by simp [PcOk]) (by simp [Pc.crit]) ?_ h.nodup ?_
  · rcases h.owner with h0 | ⟨u, hu, hc⟩
    · exact absurd h0 hown.ne_zero
    · obtain rfl := hu.unique hown
      refine Or.inr ⟨u, Or.inr (Or.inl rfl), ?_⟩
      by_cases hut : u = t
      · subst hut
        simp only [hpc, Pc.handOff, Bool.false_eq_true, or_false] at hc
        exact Or.inl hc
      · rw [goto_pc_of_ne _ hut]
        exact hc
  · intro u hu
    obtain rfl := (h.holder u hu).unique hown
    exact Or.inr (Or.inl rfl)
  · exact Inv.queued_goto (s := s) h fun _ => rfl
  · intro _
    have := o.aligned
    simp only [goto_word, setWord_word]
    omega

/-- A thread gives up a lock without waiters. -/
theorem Inv.unlock (h : Inv s) (hpc : s.pc t = .release) (hw : s.word = t.addr) :
    Inv ((s.setWord 0).goto t .idle) := by
  have haligned := t.aligned
  have hfree := h.no_crit (by omega)
  have hempty : s.queue = [] := h.queue_eq_nil (by omega)
  have hno : ∀ u, s.holds u = false := by
    intro u
    by_contra hu
    obtain rfl := (h.holder u (by simpa using hu)).unique (Or.inl hw)
    have := h.pcOk u
    rw [hpc] at this
    exact hu this
  refine h.step (t := t) (fun u hu => goto_pc_of_ne _ hu) (fun u hu => rfl)
    (Or.inl fun u _ => hfree u) (Or.inl rfl) ?_ (by simp [PcOk]) (by simp [Pc.crit]) ?_ h.nodup ?_
  · intro u hu
    simp [hno u] at hu
  · simp [hempty]
  · simp [hempty]

/-- A releasing thread finishes with the lock handed to the next owner, or unlocked. -/
theorem Inv.store (h : Inv s) {state : MutexLockState} (hpc : s.pc t = .store state) :
    Inv ((s.setWord state.intoUsize).goto t .idle) := by
  have hother := h.other_crit (t := t) (by simp [hpc, Pc.crit])
  obtain ⟨hno, hw, hstate⟩ : PcOk s t (.store state) := hpc ▸ h.pcOk t
  have hnone : ∀ u, s.holds u = false := by
    intro u
    by_contra hu
    obtain rfl := (h.holder u (by simpa using hu)).unique (Or.inr (Or.inr hw))
    exact hu hno
  refine h.step (t := t) (fun u hu => goto_pc_of_ne _ hu) (fun u hu => rfl) (Or.inl hother) ?_ ?_
    (by simp [PcOk]) (by simp [Pc.crit]) ?_ h.nodup ?_
  · rcases hstate with ⟨rfl, -⟩ | ⟨n, rfl, hn⟩
    · exact Or.inl rfl
    · refine Or.inr ⟨n, Or.inr (Or.inl (by simp)), Or.inr ?_⟩
      have hnt : n ≠ t := by
        rintro rfl
        simp [hpc, Pc.handed] at hn
      rw [goto_pc_of_ne _ hnt, setWord_pc]
      cases hp : s.pc n <;> simp_all [Pc.handed, Pc.handOff]
  · intro u hu
    simp [hnone u] at hu
  · exact Inv.queued_goto (s := s) h (by simp [hpc, Pc.queued])
  · rcases hstate with ⟨rfl, hq⟩ | ⟨n, rfl, -⟩
    · simp [hq]
    · intro _
      have := n.aligned
      simp only [goto_word, setWord_word, intoUsize_lockedWithWaiters]
      omega

/-- A releasing thread wakes the first thread of the wait list. -/
theorem Inv.wake (h : Inv s) {n : Thread} {queue : List Thread} {o : ℕ} (hpc : s.pc t = .wakeOne)
    (hq : s.queue = n :: queue) (hn : s.pc n = .suspended o) :
    Inv (({ s with queue := queue }.goto n (.woken o)).goto t
      (.store (.lockedWithWaiters n.addr))) := by
  have hother := h.other_crit (t := t) (by simp [hpc, Pc.crit])
  obtain ⟨hno, hw⟩ : PcOk s t .wakeOne := hpc ▸ h.pcOk t
  have hnt : n ≠ t := by
    rintro rfl
    simp [hpc] at hn
  have hnd := h.nodup
  rw [hq, List.nodup_cons] at hnd
  have htq := h.not_mem_queue (t := t) (by simp [hpc, Pc.queued])
  rw [hq, List.mem_cons, not_or] at htq
  have hpcs : ∀ u, u ≠ t → u ≠ n → (({ s with queue := queue }.goto n (.woken o)).goto t
      (.store (.lockedWithWaiters n.addr))).pc u = s.pc u := by
    intro u hut hun
    rw [goto_pc_of_ne _ hut, goto_pc_of_ne _ hun]
  have hpcn : (({ s with queue := queue }.goto n (.woken o)).goto t
      (.store (.lockedWithWaiters n.addr))).pc n = .woken o := by
    rw [goto_pc_of_ne _ hnt, goto_pc_self]
  refine ⟨?_, h.holder, ?_, ?_, ?_, hnd.2, fun _ => h.flagged (by simp [hq])⟩
  · refine Or.inr ⟨t, Or.inr (Or.inr hw), Or.inr ?_⟩
    rw [goto_pc_self]
    rfl
  · intro u
    by_cases hut : u = t
    · subst hut
      rw [goto_pc_self]
      exact ⟨hno, hw, Or.inr ⟨n, rfl, by rw [hpcn]; rfl⟩⟩
    by_cases hun : u = n
    · subst hun
      rw [hpcn]
      trivial
    · rw [hpcs u hut hun]
      refine (h.pcOk u).frame rfl fun hc => ?_
      rw [hother u hut] at hc
      exact absurd hc (by simp)
  · intro u v hu hv
    have hcrit : ∀ u, ((({ s with queue := queue }.goto n (.woken o)).goto t
        (.store (.lockedWithWaiters n.addr))).pc u).crit = true → u = t := by
      intro u hu
      by_contra hut
      by_cases hun : u = n
      · rw [hun, hpcn] at hu
        simp [Pc.crit] at hu
      · rw [hpcs u hut hun, hother u hut] at hu
        simp at hu
    rw [hcrit u hu, hcrit v hv]
  · intro u hu
    have hut : u ≠ t := fun heq => htq.2 (heq ▸ hu)
    have hun : u ≠ n := fun heq => hnd.1 (heq ▸ hu)
    rw [hpcs u hut hun]
    exact h.queued u (hq ▸ List.mem_cons_of_mem n hu)

/-- The outcome of `try_acquire_fast`. -/
theorem tryAcquireFast_eq (w : ℕ) (t : Thread) :
    (w = 0 ∧ tryAcquireFast w t = .ok t.addr) ∨ (w ≠ 0 ∧ tryAcquireFast w t = .error w) := by
  by_cases hw : w = 0
  · exact Or.inl ⟨hw, by simp [tryAcquireFast, compareExchange, hw]⟩
  · exact Or.inr ⟨hw, by simp [tryAcquireFast, compareExchange, hw]⟩

/-- A thread decodes the word and goes on in `acquire_slow`. -/
theorem Inv.goto_acquireSlow (h : Inv s) (hoff : (s.pc t).handOff = false)
    (hq : (s.pc t).queued = false) : Inv (s.goto t (.acquireSlow (fromUsize s.word))) := by
  refine h.goto (by simp [hoff]) ⟨s.word, h.valid, rfl⟩ (by simp [Pc.crit]) ?_ (by simp [hq])
  intro hh
  cases hp : s.pc t <;> simp_all [Pc.handed, Pc.handOff]

/-- The loop of `acquire_slow`. -/
theorem Inv.acquireSlow (h : Inv s) {state : MutexLockState} (hpc : s.pc t = .acquireSlow state) :
    Inv (acquireSlow s t state) := by
  have hoff : (s.pc t).handOff = false := by simp [hpc, Pc.handOff]
  have hq : (s.pc t).queued = false := by simp [hpc, Pc.queued]
  have hretry := h.goto_acquireSlow hoff hq
  obtain ⟨val, hval, rfl⟩ : PcOk s t (.acquireSlow state) := hpc ▸ h.pcOk t
  have hgrab : ∀ o : Thread, s.word = o.addr ∨ s.word = o.addr + 1 →
      Inv ((s.setWord (o.addr + 3)).goto t (.enqueue o.addr)) := fun o hw =>
    h.grab hw hq (Or.inl rfl) (by simp [hoff])
  rcases hval with rfl | ⟨o, rfl | rfl | rfl⟩
  · rcases tryAcquireFast_eq s.word t with ⟨hw, hf⟩ | ⟨hw, hf⟩
    · simpa [Mutex.acquireSlow, hf] using h.acquired_free hw
    · simpa [Mutex.acquireSlow, hf] using hretry
  · by_cases hw : s.word = o.addr
    · simpa [Mutex.acquireSlow, acquireSlow.lockWaiters, compareExchange, hw] using
        hgrab o (Or.inl hw)
    · simpa [Mutex.acquireSlow, acquireSlow.lockWaiters, compareExchange, hw] using hretry
  · by_cases hw : s.word = o.addr + 1
    · simpa [Mutex.acquireSlow, acquireSlow.lockWaiters, compareExchange, hw] using
        hgrab o (Or.inr hw)
    · simpa [Mutex.acquireSlow, acquireSlow.lockWaiters, compareExchange, hw] using hretry
  · simpa [Mutex.acquireSlow] using hretry

/-- The loop of `release_slow`. -/
theorem Inv.releaseSlow (h : Inv s) {state : MutexLockState} (hpc : s.pc t = .releaseSlow state) :
    Inv (releaseSlow s t state) := by
  have hno : PcOk s t (.releaseSlow state) := hpc ▸ h.pcOk t
  have hretry : ∀ st, Inv (s.goto t (.releaseSlow st)) := fun st =>
    h.goto (by simp [Pc.handOff]) hno (by simp [Pc.crit]) (by simp [hpc, Pc.handed])
      (by simp [hpc, Pc.queued])
  have hpanic : Inv (s.goto t (.panicked .unexpectedState)) :=
    h.goto (by simp [Pc.handOff]) trivial (by simp [Pc.crit]) (by simp [Pc.handed])
      (by simp [hpc, Pc.queued])
  cases state with
  | unlocked => exact hpanic
  | lockedNoWaiters o => exact hpanic
  | lockedWithWaiters o =>
      by_cases ho : o = t.addr
      · subst ho
        by_cases hw : s.word = t.addr + 1
        · have := h.grab (p := .wakeOne) (Or.inr hw) (by simp [hpc, Pc.queued])
            (Or.inr ⟨rfl, rfl, hno⟩) fun _ => rfl
          simpa [Mutex.releaseSlow, compareExchange, hw] using this
        · simpa [Mutex.releaseSlow, compareExchange, hw] using hretry _
      · simpa [Mutex.releaseSlow, ho] using hpanic
  | lockedWaitersLocked o =>
      by_cases ho : o = t.addr
      · simpa [Mutex.releaseSlow, ho] using hretry _
      · simpa [Mutex.releaseSlow, ho] using hpanic

/-- **A step of a thread** keeps the invariant. -/
theorem Inv.run (h : Inv s) (hrun : run s t = some s') : Inv s' := by
  have hok := h.pcOk t
  rw [Mutex.run] at hrun
  cases hpc : s.pc t with
  | idle => simp [hpc] at hrun
  | acquire =>
      simp only [hpc, Option.some.injEq] at hrun
      subst hrun
      rcases tryAcquireFast_eq s.word t with ⟨hw, hf⟩ | ⟨hw, hf⟩
      · rw [hf]
        exact h.acquired_free hw
      · rw [hf]
        exact h.goto_acquireSlow (by simp [hpc, Pc.handOff]) (by simp [hpc, Pc.queued])
  | tryAcquire =>
      simp only [hpc, Option.some.injEq] at hrun
      subst hrun
      rcases tryAcquireFast_eq s.word t with ⟨hw, hf⟩ | ⟨hw, hf⟩
      · rw [hf]
        exact h.acquired_free hw
      · rw [hf]
        exact h.goto (by simp [hpc, Pc.handOff]) trivial (by simp [Pc.crit])
          (by simp [hpc, Pc.handed]) (by simp [hpc, Pc.queued])
  | acquireSlow state =>
      simp only [hpc, Option.some.injEq] at hrun
      exact hrun ▸ h.acquireSlow hpc
  | enqueue o =>
      simp only [hpc, Option.some.injEq] at hrun
      exact hrun ▸ h.enqueue hpc
  | unlockWaiters o =>
      simp only [hpc, Option.some.injEq] at hrun
      subst hrun
      rw [hpc] at hok
      obtain ⟨u, rfl, hw⟩ := hok
      simpa [compareExchange, hw] using h.ungrab hpc hw
  | suspend o =>
      simp only [hpc, Option.some.injEq] at hrun
      subst hrun
      exact h.goto (by simp [hpc, Pc.handOff]) trivial (by simp [Pc.crit])
        (by simp [hpc, Pc.handed]) (by simp [Pc.queued])
  | suspended o => simp [hpc] at hrun
  | woken o =>
      simp only [hpc, Option.some.injEq] at hrun
      subst hrun
      split
      · exact h
      · exact h.goto (by simp [Pc.handOff]) trivial (by simp [Pc.crit]) (by simp [Pc.handed])
          (by simp [hpc, Pc.queued])
  | checkOwner =>
      simp only [hpc, Option.some.injEq] at hrun
      subst hrun
      split
      next howner =>
        rcases h.valid with h0 | ⟨u, hu⟩
        · simp [h0, MutexLockState.owner] at howner
        · have hu4 := u.aligned
          have ht4 := t.aligned
          rcases hu with hu | hu | hu
          · obtain rfl : t = u :=
              Thread.ext_addr (by simpa [hu, MutexLockState.owner] using howner)
            exact h.acquired_handed hpc (Or.inl hu) (by omega)
          · obtain rfl : t = u :=
              Thread.ext_addr (by simpa [hu, MutexLockState.owner] using howner)
            exact h.acquired_handed hpc (Or.inr (Or.inl hu)) (by omega)
          · have : t.addr = u.addr + 2 := by simpa [hu, MutexLockState.owner] using howner
            omega
      next =>
        exact h.goto (by simp [Pc.handOff]) trivial (by simp [Pc.crit]) (by simp [Pc.handed])
          (by simp [hpc, Pc.queued])
  | release =>
      simp only [hpc, Option.some.injEq] at hrun
      subst hrun
      by_cases hw : s.word = t.addr
      · simpa [compareExchange, hw] using h.unlock hpc hw
      · rw [hpc] at hok
        have := h.goto (p := .releaseSlow (fromUsize s.word)) (by simp [Pc.handOff]) hok
          (by simp [Pc.crit]) (by simp [hpc, Pc.handed]) (by simp [hpc, Pc.queued])
        simpa [compareExchange, hw] using this
  | releaseSlow state =>
      simp only [hpc, Option.some.injEq] at hrun
      exact hrun ▸ h.releaseSlow hpc
  | wakeOne =>
      simp only [hpc, wakeOne] at hrun
      split at hrun
      next hq =>
        rw [hpc] at hok
        obtain rfl := Option.some.inj hrun
        exact h.goto (by simp [Pc.handOff]) ⟨hok.1, hok.2, Or.inl ⟨rfl, hq⟩⟩
          (by simp [hpc, Pc.crit]) (by simp [hpc, Pc.handed]) (by simp [hpc, Pc.queued])
      next n queue hq =>
        split at hrun
        next o hn =>
          obtain rfl := Option.some.inj hrun
          exact h.wake hpc hq hn
        next => simp at hrun
  | store state =>
      simp only [hpc, Option.some.injEq] at hrun
      exact hrun ▸ h.store hpc
  | panicked why => simp [hpc] at hrun

/-- A thread starts to release the lock. -/
theorem Inv.call_release (h : Inv s) (hpc : s.pc t = .idle) :
    Inv { s.goto t .release with holds := Function.update s.holds t false } := by
  have hholds : ∀ u, Function.update s.holds t false u = true → u ≠ t ∧ s.holds u = true := by
    intro u hu
    by_cases hut : u = t
    · simp [hut] at hu
    · exact ⟨hut, by simpa [hut] using hu⟩
  refine h.step (t := t) (fun u hu => goto_pc_of_ne _ hu) (fun u hu => by simp [hu])
    (Or.inr ⟨rfl, rfl, by simp [hpc, Pc.handed]⟩) ?_ (fun u hu => h.holder u (hholds u hu).2) ?_
    ?_ ?_ h.nodup h.flagged
  · rcases h.owner with h0 | ⟨u, hu, hc⟩
    · exact Or.inl h0
    · refine Or.inr ⟨u, hu, ?_⟩
      by_cases hut : u = t
      · subst hut
        exact Or.inr (by simp [State.goto, Pc.handOff])
      · rcases hc with hc | hc
        · exact Or.inl (by simpa [hut] using hc)
        · exact Or.inr (by simpa [State.goto, hut] using hc)
  · simp [State.goto, PcOk]
  · simp [State.goto, Pc.crit]
  · exact h.queued_goto (by simp [hpc, Pc.queued])

/-- **An action** keeps the invariant. -/
theorem Inv.exec (h : Inv s) {a : Action} (hexec : exec s a = some s') : Inv s' := by
  cases a with
  | acquire t =>
      simp only [Mutex.exec, Option.ite_none_right_eq_some, Option.some.injEq] at hexec
      obtain ⟨hpc, rfl⟩ := hexec
      exact h.goto (by simp [hpc, Pc.handOff]) trivial (by simp [Pc.crit])
        (by simp [hpc, Pc.handed]) (by simp [hpc, Pc.queued])
  | tryAcquire t =>
      simp only [Mutex.exec, Option.ite_none_right_eq_some, Option.some.injEq] at hexec
      obtain ⟨hpc, rfl⟩ := hexec
      exact h.goto (by simp [hpc, Pc.handOff]) trivial (by simp [Pc.crit])
        (by simp [hpc, Pc.handed]) (by simp [hpc, Pc.queued])
  | release t =>
      simp only [Mutex.exec, Option.ite_none_right_eq_some, Option.some.injEq] at hexec
      obtain ⟨hpc, rfl⟩ := hexec
      exact h.call_release hpc
  | run t => exact h.run hexec

end Steps

/-! ### Mutual exclusion -/

/-- The word is the encoding of a state that is locked by `t`. -/
def Names (word : ℕ) (t : Thread) : Prop :=
  word = (MutexLockState.lockedNoWaiters t.addr).intoUsize ∨
    word = (MutexLockState.lockedWithWaiters t.addr).intoUsize ∨
    word = (MutexLockState.lockedWaitersLocked t.addr).intoUsize

/-- The word encodes a state that is locked by its owner. -/
theorem names_iff {word : ℕ} {t : Thread} : Names word t ↔ OwnedBy word t := by
  simp [Names, OwnedBy]

/-- The invariant holds in every state that a run reaches. -/
theorem inv_of_runs {acts : List Action} {s : State}
    (hrun : Runs (fun s a s' => exec s a = some s') State.new acts s) : Inv s :=
  hrun.invariant inv_new fun _ _ _ h hexec => h.exec hexec

/-- **Mutual exclusion, and no stranded waiter**: at most one thread holds the lock, the
word names the thread that holds it or, during a hand-off, one that takes part in it, and
while a thread is on the wait list the word says so. -/
theorem mutual_exclusion {acts : List Action} {s : State}
    (hrun : Runs (fun s a s' => exec s a = some s') State.new acts s) :
    (∀ t u, s.holds t = true → s.holds u = true → t = u) ∧
    (∀ t, s.holds t = true → Names s.word t) ∧
    (s.word ≠ MutexLockState.unlocked.intoUsize → ∃ t, Names s.word t) ∧
    (∀ t, Names s.word t → s.holds t = true ∨ (s.pc t).handOff = true) ∧
    (s.queue ≠ [] → ∃ t : Thread,
      s.word = (MutexLockState.lockedWithWaiters t.addr).intoUsize ∨
        s.word = (MutexLockState.lockedWaitersLocked t.addr).intoUsize) := by
  have h := inv_of_runs hrun
  refine ⟨fun t u ht hu => (h.holder t ht).unique (h.holder u hu),
    fun t ht => names_iff.mpr (h.holder t ht), fun hw => ?_, fun t ht => ?_, fun hq => ?_⟩
  · obtain ⟨t, ht⟩ := h.valid.resolve_left hw
    exact ⟨t, names_iff.mpr ht⟩
  · rw [names_iff] at ht
    obtain ⟨u, hu, hc⟩ := h.owner.resolve_left ht.ne_zero
    rwa [ht.unique hu]
  · have hodd := h.flagged hq
    obtain ⟨t, ht⟩ := h.valid.resolve_left (by omega)
    have haligned := t.aligned
    rcases ht with ht | ht
    · omega
    · exact ⟨t, by simpa using ht⟩

/-- The first thread takes the lock, the second one waits for it, and the first one hands it
over. -/
def handOver : List Action :=
  [.acquire (.nth 0), .run (.nth 0),
    .acquire (.nth 1), .run (.nth 1), .run (.nth 1), .run (.nth 1), .run (.nth 1), .run (.nth 1),
    .release (.nth 0), .run (.nth 0), .run (.nth 0), .run (.nth 0), .run (.nth 0),
    .run (.nth 1), .run (.nth 1)]

/-- A thread that waited for the lock holds it, after it was handed over. -/
theorem mutual_exclusion_handOver :
    ∃ s, Runs (fun s a s' => exec s a = some s') State.new handOver s ∧
      s.holds (.nth 1) = true ∧ s.holds (.nth 0) = false ∧
      ∀ u, s.holds u = true → Thread.nth 1 = u := by
  have hrun : Runs (fun s a s' => exec s a = some s') State.new handOver _ :=
    .cons rfl <| .cons rfl <| .cons rfl <| .cons rfl <| .cons rfl <| .cons rfl <| .cons rfl <|
      .cons rfl <| .cons rfl <| .cons rfl <| .cons rfl <| .cons rfl <| .cons rfl <| .cons rfl <|
      .cons rfl .refl
  exact ⟨_, hrun, rfl, rfl, fun u hu => (mutual_exclusion hrun).1 _ u rfl hu⟩

/-! ### Panics -/

/-- Correct use: no thread acquires a lock it holds, and only the thread that holds the lock
releases it. -/
def Correct (s : State) : Action → Prop
  | .acquire t => s.holds t = false
  | .tryAcquire t => s.holds t = false
  | .release t => s.holds t = true
  | .run _ => True

/-- The word decodes to `LockedWaitersLocked`. -/
def waitersLocked (word : ℕ) : Bool :=
  match fromUsize word with
  | .lockedWaitersLocked _ => true
  | _ => false

/-- The step is a `compare_exchange` of a releasing thread or the owner check at the end of
`acquire_slow`, and it finds the wait list locked. -/
def ReadsLocked (s : State) : Action → Bool
  | .run t =>
      match s.pc t with
      | .release | .releaseSlow _ | .checkOwner => waitersLocked s.word
      | _ => false
  | _ => false

/-- The list of waiters of a mutex without waiters is not locked. -/
@[simp] theorem waitersLocked_addr (t : Thread) : waitersLocked t.addr = false := by
  simp [waitersLocked]

/-- The list of waiters of a mutex with waiters is not locked. -/
@[simp] theorem waitersLocked_addr_one (t : Thread) : waitersLocked (t.addr + 1) = false := by
  simp [waitersLocked]

/-- The list of waiters is locked. -/
@[simp] theorem waitersLocked_addr_three (t : Thread) : waitersLocked (t.addr + 3) = true := by
  simp [waitersLocked]

/-- What holds, with correct use, when thread `t` is at a place of the code. -/
def CalmAt (s : State) (t : Thread) : Pc → Prop
  | .release => OwnedBy s.word t
  | .releaseSlow state => state = .lockedWithWaiters t.addr ∧
      (s.word = t.addr + 1 ∨ s.word = t.addr + 3)
  | .woken _ | .checkOwner =>
      (∃ r, s.pc r = .store (.lockedWithWaiters t.addr)) ∨ OwnedBy s.word t
  | .panicked _ => False
  | _ => True

/-- No thread panics, and every thread in a hand-off owns the lock or is about to. -/
def Calm (s : State) : Prop := ∀ t, CalmAt s t (s.pc t)

section Calm

variable {s s' : State} {t : Thread}

/-- A thread stays calm while it keeps the word, or what hands the word to it. -/
theorem CalmAt.frame {u : Thread} {p : Pc} (h : CalmAt s u p)
    (hown : OwnedBy s.word u → OwnedBy s'.word u)
    (hflag : s.word = u.addr + 1 ∨ s.word = u.addr + 3 →
      s'.word = u.addr + 1 ∨ s'.word = u.addr + 3)
    (hstore : ∀ r, s.pc r = .store (.lockedWithWaiters u.addr) →
      s'.pc r = .store (.lockedWithWaiters u.addr) ∨ OwnedBy s'.word u) : CalmAt s' u p := by
  have hhanded : (∃ r, s.pc r = .store (.lockedWithWaiters u.addr)) ∨ OwnedBy s.word u →
      (∃ r, s'.pc r = .store (.lockedWithWaiters u.addr)) ∨ OwnedBy s'.word u := by
    rintro (⟨r, hr⟩ | hu)
    · rcases hstore r hr with hr' | hu
      · exact Or.inl ⟨r, hr'⟩
      · exact Or.inr hu
    · exact Or.inr (hown hu)
  cases p with
  | release => exact hown h
  | releaseSlow state => exact ⟨h.1, hflag h.2⟩
  | woken o => exact hhanded h
  | checkOwner => exact hhanded h
  | panicked why => exact h
  | _ => trivial

/-- **The step rule for panics.** -/
theorem Calm.step (h : Calm s) (hpc : ∀ u, u ≠ t → s'.pc u = s.pc u)
    (hown : ∀ u, u ≠ t → OwnedBy s.word u → OwnedBy s'.word u)
    (hflag : ∀ u, u ≠ t → s.word = u.addr + 1 ∨ s.word = u.addr + 3 →
      s'.word = u.addr + 1 ∨ s'.word = u.addr + 3)
    (hstore : ∀ n : Thread, s.pc t = .store (.lockedWithWaiters n.addr) → OwnedBy s'.word n)
    (hself : CalmAt s' t (s'.pc t)) : Calm s' := by
  intro u
  by_cases hu : u = t
  · rw [hu]
    exact hself
  · rw [hpc u hu]
    refine (h u).frame (hown u hu) (hflag u hu) fun r hr => ?_
    by_cases hrt : r = t
    · exact Or.inr (hstore u (hrt ▸ hr))
    · exact Or.inl (by rw [hpc r hrt, hr])

/-- A step that moves a thread and changes nothing else. -/
theorem Calm.goto (h : Calm s) {p : Pc}
    (hstore : ∀ n : Thread, s.pc t ≠ .store (.lockedWithWaiters n.addr))
    (hself : CalmAt (s.goto t p) t p) : Calm (s.goto t p) :=
  h.step (t := t) (fun _ hu => goto_pc_of_ne p hu) (fun _ _ hu => hu) (fun _ _ hu => hu)
    (fun n hn => absurd hn (hstore n)) (by simpa using hself)

/-- A step that writes a word with the same owner, and flags only if there were flags. -/
theorem Calm.goto_setWord (h : Calm s) {o : Thread} {p : Pc} {w : ℕ} (hw : OwnedBy s.word o)
    (hw' : w = o.addr + 1 ∨ w = o.addr + 3)
    (hstore : ∀ n : Thread, s.pc t ≠ .store (.lockedWithWaiters n.addr))
    (hself : CalmAt ((s.setWord w).goto t p) t p) : Calm ((s.setWord w).goto t p) := by
  refine h.step (t := t) (fun _ hu => goto_pc_of_ne p hu) (fun u _ hu => ?_) (fun u _ hu => ?_)
    (fun n hn => absurd hn (hstore n)) (by simpa using hself)
  · obtain rfl := hu.unique hw
    exact Or.inr hw'
  · obtain rfl := OwnedBy.unique (Or.inr hu) hw
    exact hw'

/-- A thread that takes a free lock disturbs nobody. -/
theorem Calm.acquired_free (h : Calm s) (hw : s.word = 0)
    (hstore : ∀ n : Thread, s.pc t ≠ .store (.lockedWithWaiters n.addr)) :
    Calm ((s.setWord t.addr).acquired t) := by
  refine h.step (t := t) (fun _ hu => acquired_pc_of_ne hu) (fun u _ hu => ?_) (fun u _ hu => ?_)
    (fun n hn => absurd hn (hstore n)) (by simp [CalmAt])
  · exact absurd hw hu.ne_zero
  · exact absurd hw (OwnedBy.ne_zero (t := u) (Or.inr hu))

/-- Nobody else owns the word. -/
theorem not_ownedBy_of_ne {w : ℕ} {u : Thread} (hw : OwnedBy w t) (hu : u ≠ t) : ¬ OwnedBy w u :=
  fun h => hu (h.unique hw)

/-- A thread gives up a lock without waiters. -/
theorem Calm.unlock (h : Calm s) (hpc : s.pc t = .release) (hw : s.word = t.addr) :
    Calm ((s.setWord 0).goto t .idle) := by
  have hown : OwnedBy s.word t := Or.inl hw
  refine h.step (t := t) (fun _ hu => goto_pc_of_ne _ hu) (fun u hu hu' => ?_) (fun u hu hu' => ?_)
    (by simp [hpc]) (by simp [CalmAt])
  · exact absurd hu' (not_ownedBy_of_ne hown hu)
  · exact absurd (Or.inr hu') (not_ownedBy_of_ne hown hu)

/-- A releasing thread finishes. -/
theorem Calm.store (h : Calm s) {state : MutexLockState} (hpc : s.pc t = .store state)
    (hw : s.word = t.addr + 3) : Calm ((s.setWord state.intoUsize).goto t .idle) := by
  have hown : OwnedBy s.word t := Or.inr (Or.inr hw)
  refine h.step (t := t) (fun _ hu => goto_pc_of_ne _ hu) (fun u hu hu' => ?_) (fun u hu hu' => ?_)
    (fun n hn => ?_) (by simp [CalmAt])
  · exact absurd hu' (not_ownedBy_of_ne hown hu)
  · exact absurd (Or.inr hu') (not_ownedBy_of_ne hown hu)
  · obtain rfl : state = .lockedWithWaiters n.addr := by simpa [hpc] using hn
    exact Or.inr (Or.inl (by simp))

/-- A releasing thread wakes the first thread of the wait list. -/
theorem Calm.wake (h : Calm s) {n : Thread} {queue : List Thread} {o : ℕ} (hpc : s.pc t = .wakeOne)
    (hn : s.pc n = .suspended o) :
    Calm (({ s with queue := queue }.goto n (.woken o)).goto t
      (.store (.lockedWithWaiters n.addr))) := by
  have hnt : n ≠ t := by
    rintro rfl
    simp [hpc] at hn
  intro u
  by_cases hut : u = t
  · subst hut
    rw [goto_pc_self]
    trivial
  by_cases hun : u = n
  · subst hun
    rw [goto_pc_of_ne _ hut, goto_pc_self]
    exact Or.inl ⟨t, goto_pc_self _⟩
  · rw [goto_pc_of_ne _ hut, goto_pc_of_ne _ hun]
    refine (h u).frame id id fun r hr => Or.inl ?_
    have hrt : r ≠ t := by
      rintro rfl
      simp [hpc] at hr
    have hrn : r ≠ n := by
      rintro rfl
      simp [hn] at hr
    rw [goto_pc_of_ne _ hrt, goto_pc_of_ne _ hrn, hr]

/-- A thread that reads the word of a lock handed to it, while the wait list is not locked,
finds itself. -/
theorem Calm.owned_of_handed (hi : Inv s) (hw : waitersLocked s.word = false)
    (h : (∃ r, s.pc r = .store (.lockedWithWaiters t.addr)) ∨ OwnedBy s.word t) :
    s.word = t.addr ∨ s.word = t.addr + 1 := by
  rcases h with ⟨r, hr⟩ | hown
  · obtain ⟨u, hu⟩ := hi.word_of_crit (t := r) (by simp [hr, Pc.crit])
    simp [hu] at hw
  · rcases hown with hown | hown | hown
    · exact Or.inl hown
    · exact Or.inr hown
    · simp [hown] at hw

/-- The loop of `acquire_slow`. -/
theorem Calm.acquireSlow (hi : Inv s) (h : Calm s) {state : MutexLockState}
    (hpc : s.pc t = .acquireSlow state) : Calm (acquireSlow s t state) := by
  have hstore : ∀ n : Thread, s.pc t ≠ .store (.lockedWithWaiters n.addr) := by simp [hpc]
  have hretry : ∀ st, Calm (s.goto t (.acquireSlow st)) := fun st => h.goto hstore trivial
  obtain ⟨val, hval, rfl⟩ : PcOk s t (.acquireSlow state) := hpc ▸ hi.pcOk t
  have hgrab : ∀ o : Thread, OwnedBy s.word o →
      Calm ((s.setWord (o.addr + 3)).goto t (.enqueue o.addr)) := fun o hw =>
    h.goto_setWord hw (Or.inr rfl) hstore trivial
  rcases hval with rfl | ⟨o, rfl | rfl | rfl⟩
  · rcases tryAcquireFast_eq s.word t with ⟨hw, hf⟩ | ⟨hw, hf⟩
    · simpa [Mutex.acquireSlow, hf] using h.acquired_free hw hstore
    · simpa [Mutex.acquireSlow, hf] using hretry _
  · by_cases hw : s.word = o.addr
    · simpa [Mutex.acquireSlow, acquireSlow.lockWaiters, compareExchange, hw] using
        hgrab o (Or.inl hw)
    · simpa [Mutex.acquireSlow, acquireSlow.lockWaiters, compareExchange, hw] using hretry _
  · by_cases hw : s.word = o.addr + 1
    · simpa [Mutex.acquireSlow, acquireSlow.lockWaiters, compareExchange, hw] using
        hgrab o (Or.inr (Or.inl hw))
    · simpa [Mutex.acquireSlow, acquireSlow.lockWaiters, compareExchange, hw] using hretry _
  · simpa [Mutex.acquireSlow] using hretry _

/-- **A step of a thread** that does not find the wait list locked where it must not. -/
theorem Calm.run (hi : Inv s) (h : Calm s) (hread : ReadsLocked s (.run t) = false)
    (hrun : run s t = some s') : Calm s' := by
  have hcalm := h t
  have hok := hi.pcOk t
  rw [Mutex.run] at hrun
  cases hpc : s.pc t with
  | idle => simp [hpc] at hrun
  | acquire =>
      simp only [hpc, Option.some.injEq] at hrun
      subst hrun
      rcases tryAcquireFast_eq s.word t with ⟨hw, hf⟩ | ⟨hw, hf⟩
      · rw [hf]
        exact h.acquired_free hw (by simp [hpc])
      · rw [hf]
        exact h.goto (by simp [hpc]) trivial
  | tryAcquire =>
      simp only [hpc, Option.some.injEq] at hrun
      subst hrun
      rcases tryAcquireFast_eq s.word t with ⟨hw, hf⟩ | ⟨hw, hf⟩
      · rw [hf]
        exact h.acquired_free hw (by simp [hpc])
      · rw [hf]
        exact h.goto (by simp [hpc]) trivial
  | acquireSlow state =>
      simp only [hpc, Option.some.injEq] at hrun
      exact hrun ▸ h.acquireSlow hi hpc
  | enqueue o =>
      simp only [hpc, Option.some.injEq] at hrun
      subst hrun
      exact h.step (t := t) (fun _ hu => goto_pc_of_ne _ hu) (fun _ _ hu => hu)
        (fun _ _ hu => hu) (by simp [hpc]) (by simp [CalmAt])
  | unlockWaiters o =>
      simp only [hpc, Option.some.injEq] at hrun
      subst hrun
      rw [hpc] at hok
      obtain ⟨u, rfl, hw⟩ := hok
      have := h.goto_setWord (t := t) (p := .suspend u.addr) (Or.inr (Or.inr hw)) (Or.inl rfl)
        (by simp [hpc]) trivial
      simpa [compareExchange, hw] using this
  | suspend o =>
      simp only [hpc, Option.some.injEq] at hrun
      exact hrun ▸ h.goto (by simp [hpc]) trivial
  | suspended o => simp [hpc] at hrun
  | woken o =>
      simp only [hpc, Option.some.injEq] at hrun
      subst hrun
      split
      · exact h
      · rw [hpc] at hcalm
        refine h.goto (by simp [hpc]) (hcalm.imp_left ?_)
        rintro ⟨r, hr⟩
        have hrt : r ≠ t := by
          rintro rfl
          simp [hpc] at hr
        exact ⟨r, by rw [goto_pc_of_ne _ hrt, hr]⟩
  | checkOwner =>
      simp only [hpc, Option.some.injEq] at hrun
      simp only [ReadsLocked, hpc] at hread
      rw [hpc] at hcalm
      have howner : some t.addr = (fromUsize s.word).owner := by
        rcases Calm.owned_of_handed hi hread hcalm with hw | hw <;>
          simp [hw, MutexLockState.owner]
      rw [if_pos howner] at hrun
      subst hrun
      exact h.step (t := t) (fun _ hu => acquired_pc_of_ne hu) (fun _ _ hu => hu)
        (fun _ _ hu => hu) (by simp [hpc]) (by simp [CalmAt])
  | release =>
      simp only [hpc, Option.some.injEq] at hrun
      simp only [ReadsLocked, hpc] at hread
      subst hrun
      rw [hpc] at hcalm
      rcases hcalm with hw | hw | hw
      · simpa [compareExchange, hw] using h.unlock hpc hw
      · have := h.goto (t := t) (p := .releaseSlow (.lockedWithWaiters t.addr)) (by simp [hpc])
          ⟨rfl, Or.inl hw⟩
        simpa [compareExchange, hw] using this
      · simp [hw] at hread
  | releaseSlow state =>
      simp only [hpc, Option.some.injEq] at hrun
      simp only [ReadsLocked, hpc] at hread
      subst hrun
      rw [hpc] at hcalm
      obtain ⟨rfl, hw | hw⟩ := hcalm
      · have := h.goto_setWord (t := t) (p := .wakeOne) (Or.inr (Or.inl hw)) (Or.inr rfl)
          (by simp [hpc]) trivial
        simpa [Mutex.releaseSlow, compareExchange, hw] using this
      · simp [hw] at hread
  | wakeOne =>
      simp only [hpc, wakeOne] at hrun
      split at hrun
      next hq =>
        obtain rfl := Option.some.inj hrun
        exact h.goto (by simp [hpc]) trivial
      next n queue hq =>
        split at hrun
        next o hn =>
          obtain rfl := Option.some.inj hrun
          exact h.wake hpc hn
        next => simp at hrun
  | store state =>
      simp only [hpc, Option.some.injEq] at hrun
      rw [hpc] at hok
      exact hrun ▸ h.store hpc hok.2.1
  | panicked why => simp [hpc] at hrun

/-- **A correct action** keeps the threads calm. -/
theorem Calm.exec (hi : Inv s) (h : Calm s) {a : Action} (hc : Correct s a)
    (hread : ReadsLocked s a = false) (hexec : exec s a = some s') : Calm s' := by
  cases a with
  | acquire t =>
      simp only [Mutex.exec, Option.ite_none_right_eq_some, Option.some.injEq] at hexec
      obtain ⟨hpc, rfl⟩ := hexec
      exact h.goto (by simp [hpc]) trivial
  | tryAcquire t =>
      simp only [Mutex.exec, Option.ite_none_right_eq_some, Option.some.injEq] at hexec
      obtain ⟨hpc, rfl⟩ := hexec
      exact h.goto (by simp [hpc]) trivial
  | release t =>
      simp only [Mutex.exec, Option.ite_none_right_eq_some, Option.some.injEq] at hexec
      obtain ⟨hpc, rfl⟩ := hexec
      refine h.step (t := t) (fun _ hu => goto_pc_of_ne _ hu) (fun _ _ hu => hu)
        (fun _ _ hu => hu) (by simp [hpc]) ?_
      simpa [State.goto, CalmAt] using hi.holder t hc
  | run t => exact h.run hi hread hexec

end Calm

/-- A thread that finds the wait list locked while it releases the lock or checks the owner
panics with this step or its next one: the word does not decode to the thread. -/
theorem panics_of_readsLocked {s : State} {t : Thread} (hi : Inv s)
    (hread : ReadsLocked s (.run t) = true) :
    ∃ s₁, run s t = some s₁ ∧ ((∃ why, s₁.pc t = .panicked why) ∨
      ∃ s₂, run s₁ t = some s₂ ∧ ∃ why, s₂.pc t = .panicked why) := by
  have ht := t.aligned
  obtain ⟨u, hu⟩ : ∃ u : Thread, s.word = u.addr + 3 := by
    have hlocked : waitersLocked s.word = true := by
      cases hpc : s.pc t <;> simp_all [ReadsLocked]
    rcases hi.valid with h0 | ⟨u, hu | hu | hu⟩
    · simp [h0, waitersLocked] at hlocked
    · simp [hu] at hlocked
    · simp [hu] at hlocked
    · exact ⟨u, hu⟩
  have hu4 := u.aligned
  have hne : ¬ u.addr + 2 = t.addr := by omega
  -- a releasing thread that has decoded the word
  have hslow : ∃ s₂, run (s.goto t (.releaseSlow (.lockedWaitersLocked (u.addr + 2)))) t = some s₂ ∧
      ∃ why, s₂.pc t = .panicked why := by
    refine ⟨_, by simp only [run, goto_pc_self]; rfl, .unexpectedState, ?_⟩
    simp [releaseSlow, hne]
  cases hpc : s.pc t with
  | checkOwner =>
      refine ⟨_, by simp only [run, hpc]; rfl, Or.inl ⟨.ownerMismatch, ?_⟩⟩
      simp [hu, MutexLockState.owner, Ne.symm hne]
  | release =>
      have hcas : ¬ u.addr + 3 = t.addr := by omega
      refine ⟨_, by simp only [run, hpc]; rfl, Or.inr ?_⟩
      simpa [compareExchange, hu, hcas] using hslow
  | releaseSlow state =>
      refine ⟨_, by simp only [run, hpc]; rfl, ?_⟩
      cases state with
      | unlocked => exact Or.inl ⟨.unexpectedState, by simp [releaseSlow]⟩
      | lockedNoWaiters o => exact Or.inl ⟨.unexpectedState, by simp [releaseSlow]⟩
      | lockedWithWaiters o =>
          by_cases ho : o = t.addr
          · have hcas : ¬ u.addr + 3 = t.addr + 1 := by omega
            right
            simpa [releaseSlow, ho, compareExchange, hu, hcas] using hslow
          · exact Or.inl ⟨.unexpectedState, by simp [releaseSlow, ho]⟩
      | lockedWaitersLocked o =>
          by_cases ho : o = t.addr
          · right
            simpa [releaseSlow, ho, hu] using hslow
          · exact Or.inl ⟨.unexpectedState, by simp [releaseSlow, ho]⟩
  | _ => simp [ReadsLocked, hpc] at hread

/-- **Correct use never panics**, in every run in which no releasing thread and no owner
check of a woken thread finds the wait list locked. -/
theorem correct_use_never_panics {acts : List Action} {s : State}
    (hrun : Runs (fun s a s' => exec s a = some s' ∧ Correct s a ∧ ReadsLocked s a = false)
      State.new acts s) : ∀ t why, s.pc t ≠ .panicked why := by
  have hcalm : Inv s ∧ Calm s := by
    refine hrun.invariant (P := fun s => Inv s ∧ Calm s) ⟨inv_new, fun t => trivial⟩ ?_
    rintro s a s' ⟨hi, h⟩ ⟨hexec, hc, hread⟩
    exact ⟨hi.exec hexec, h.exec hi hc hread hexec⟩
  intro t why hpc
  have := hcalm.2 t
  rw [hpc] at this
  exact this

/-- A lock that is handed over, and released by the thread that waited for it. -/
theorem correct_use_never_panics_handOver :
    ∃ s, Runs (fun s a s' => exec s a = some s' ∧ Correct s a ∧ ReadsLocked s a = false) State.new
        (handOver ++ [.release (.nth 1), .run (.nth 1), .run (.nth 1), .run (.nth 1),
          .run (.nth 1)]) s ∧
      s.word = 0 ∧ ∀ t why, s.pc t ≠ .panicked why := by
  have hrun : Runs (fun s a s' => exec s a = some s' ∧ Correct s a ∧ ReadsLocked s a = false)
      State.new (handOver ++ [.release (.nth 1), .run (.nth 1), .run (.nth 1), .run (.nth 1),
        .run (.nth 1)]) _ :=
    .cons ⟨rfl, rfl, rfl⟩ <| .cons ⟨rfl, trivial, rfl⟩ <|
      .cons ⟨rfl, rfl, rfl⟩ <| .cons ⟨rfl, trivial, rfl⟩ <| .cons ⟨rfl, trivial, rfl⟩ <|
      .cons ⟨rfl, trivial, rfl⟩ <| .cons ⟨rfl, trivial, rfl⟩ <| .cons ⟨rfl, trivial, rfl⟩ <|
      .cons ⟨rfl, rfl, rfl⟩ <| .cons ⟨rfl, trivial, rfl⟩ <| .cons ⟨rfl, trivial, rfl⟩ <|
      .cons ⟨rfl, trivial, rfl⟩ <| .cons ⟨rfl, trivial, rfl⟩ <|
      .cons ⟨rfl, trivial, rfl⟩ <| .cons ⟨rfl, trivial, rfl⟩ <|
      .cons ⟨rfl, rfl, rfl⟩ <| .cons ⟨rfl, trivial, rfl⟩ <| .cons ⟨rfl, trivial, rfl⟩ <|
      .cons ⟨rfl, trivial, rfl⟩ <| .cons ⟨rfl, trivial, rfl⟩ .refl
  exact ⟨_, hrun, rfl, correct_use_never_panics hrun⟩

/-- **A releasing thread that finds the wait list locked panics**: the second thread is about
to join the wait list when the first one releases the lock it holds. -/
theorem correct_use_panics :
    ∃ s, Runs (fun s a s' => exec s a = some s' ∧ Correct s a) State.new
        [.acquire (.nth 0), .run (.nth 0),
          .acquire (.nth 1), .run (.nth 1),
          .run (.nth 1), .release (.nth 0),
          .run (.nth 0), .run (.nth 0)] s ∧
      s.pc (.nth 0) = .panicked .unexpectedState := by
  refine ⟨_, Runs.cons ⟨rfl, rfl⟩ (Runs.cons ⟨rfl, trivial⟩ (Runs.cons ⟨rfl, rfl⟩
    (Runs.cons ⟨rfl, trivial⟩ (Runs.cons ⟨rfl, trivial⟩ (Runs.cons ⟨rfl, rfl⟩
    (Runs.cons ⟨rfl, trivial⟩ (Runs.cons ⟨rfl, trivial⟩ Runs.refl))))))), ?_⟩
  decide

end HydroxKernel.Mutex
