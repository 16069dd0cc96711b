import HydroxKernel.Sched.LockPlaces

/-!
# Deadlocks of the Scheduler

`ThreadLock::wake` acquires the lock of a process while a thread of that process is locked,
against the order that is documented at `Process::lock`, and the listing of the threads of a
process does it in the documented order. Nothing else can come of it than that one core
lists a process and has a thread ahead that another core is about to wake.

## Main results

* `no_deadlock_of_runs`: a run of clear steps reaches no deadlock.
* `listing_deadlocks_wake`: a listing of threads deadlocks a wake of one of them.
-/

namespace HydroxKernel.Locks

open Sched (ThreadState)

variable {s s' : State} {d d' : Data} {c : ℕ} {w : Bool} {l : Lock} {pc pc' : Pc}

/-! ### The listing of threads -/

/-- The process that a core lists and the threads that it has ahead. -/
def Pc.listing : Pc → Option (ℕ × List ℕ)
  | .listThreads p ts => some (p, ts)
  | .listThread p _ ts => some (p, ts)
  | _ => none

/-- The listed threads of a process belong to it and are alive, and what a core that lists a
process has ahead is listed. -/
structure Listed (s : State) : Prop where
  live : ∀ p, ∀ t ∈ s.data.threads p, s.data.process t = p ∧ s.data.state t ≠ .dead
  nodup : ∀ p, (s.data.threads p).Nodup
  ahead : ∀ c p ts, (s.pc c).listing = some (p, ts) → ∀ t ∈ ts, t ∈ s.data.threads p

/-- Writing another state than that of a dead thread makes no thread dead. -/
theorem dead_of_setState {t x : ℕ} {st : ThreadState} (hst : st ≠ .dead)
    (h : (d.setState t st).state x = .dead) : d.state x = .dead := by
  simp only [Data.setState, Function.update_apply] at h
  split at h
  · exact absurd h hst
  · exact h

/-- Only the step of `kill_current` with the thread locked removes a thread from a process,
and no other step makes a thread dead. -/
theorem threads_next (h : (action d c w pc).next = some (d', pc'))
    (hk : ∀ t, pc ≠ .killThread t) :
    d'.threads = d.threads ∧ ∀ t, d'.state t = .dead → d.state t = .dead := by
  cases next_of_action h with
  | wakeThread | yieldThread | nextThread =>
      exact ⟨rfl, fun _ => dead_of_setState (by decide)⟩
  | tryWake =>
      exact ⟨rfl, fun _ ht => dead_of_setState (by decide) (dead_of_setState (by decide) ht)⟩
  | killThread => exact absurd rfl (hk _)
  | _ => exact ⟨rfl, fun _ ht => ht⟩

/-- A core that lists a process has listed it before, with no less ahead, or has just locked
it. -/
theorem listing_next {p : ℕ} {ts : List ℕ} (h : (action d c w pc).next = some (d', pc'))
    (hl : pc'.listing = some (p, ts)) :
    (∃ ts', pc.listing = some (p, ts') ∧ ts ⊆ ts') ∨ (pc = .listProcess p ∧ ts = d.threads p) := by
  cases next_of_action h with
  | @enqueuePush k t =>
      cases k with
      | tryWake k l => cases k <;> cases hl
      | _ => cases hl
  | @woken k l => cases k <;> cases hl
  | listProcess =>
      cases hl
      exact .inr ⟨rfl, rfl⟩
  | listThreads =>
      cases hl
      exact .inl ⟨_, rfl, List.subset_cons_self _ _⟩
  | @listThread p t ts ts' hts =>
      cases hl
      refine .inl ⟨ts, rfl, ?_⟩
      rcases hts with rfl | rfl
      · exact List.Subset.refl _
      · exact List.nil_subset _
  | _ => cases hl

/-- The step of `kill_current` with the thread locked. -/
theorem Listed.killThread (h : Listed s) (hl : Locked s) {t : ℕ} {o : Option ℕ}
    (hpc : s.pc c = .killThread t) : Listed (s.put c l o (killThread s.data t)) := by
  have hne : ∀ x p ts, (s.pc x).listing = some (p, ts) → x ≠ c := by
    rintro x p ts hx rfl
    rw [hpc] at hx
    cases hx
  rw [Locks.killThread]
  split
  · rename_i hrun
    obtain ⟨-, hmem, -⟩ := hrun
    refine ⟨fun p x hx => ?_, fun p => ?_, fun x p ts hx y hy => ?_⟩
    · simp only [State.put, Data.setState, Function.update_apply] at hx ⊢
      have hx' : x ∈ s.data.threads p ∧ x ≠ t := by
        split at hx
        · rename_i hp
          rw [(h.nodup _).mem_erase_iff] at hx
          rw [hp]
          exact ⟨hx.2, hx.1⟩
        · rename_i hp
          refine ⟨hx, ?_⟩
          rintro rfl
          exact hp (h.live p x hx).1.symm
      rw [if_neg hx'.2]
      exact h.live p x hx'.1
    · simp only [State.put, Data.setState, Function.update_apply]
      split
      · exact (h.nodup _).erase t
      · exact h.nodup p
    · -- The lister holds the lock of its process, so that this is another process.
      simp only [State.put, Function.update_apply] at hx
      split at hx
      · cases hx
      · rename_i hxc
        have hheld : Lock.process p ∈ (s.pc x).held s.data.process := by
          cases hpx : s.pc x with
          | listThreads q us =>
              rw [hpx] at hx
              cases hx
              simp [Pc.held]
          | listThread q u us =>
              rw [hpx] at hx
              cases hx
              simp [Pc.held]
          | _ =>
              rw [hpx] at hx
              cases hx
        have hp : p ≠ s.data.process t := by
          rintro rfl
          refine hxc (hl.unique hheld ?_)
          rw [hpc]
          simp [Pc.held]
        simp only [State.put, Data.setState, Function.update_of_ne hp]
        exact h.ahead x p ts hx y hy
  · refine ⟨h.live, h.nodup, fun x p ts hx => ?_⟩
    simp only [State.put, Function.update_apply] at hx
    split at hx
    · cases hx
    · exact h.ahead x p ts hx

/-- A panic changes no list of threads. -/
theorem Listed.panic (h : Listed s) : Listed (s.panic c) := by
  refine ⟨h.live, h.nodup, fun x p ts hx => ?_⟩
  rcases eq_or_ne x c with rfl | hne
  · rw [panic_pc_self] at hx
    cases hx
  · rw [panic_pc_of_ne hne] at hx
    exact h.ahead x p ts hx

/-- The code between the operations changes no list of threads. -/
theorem Listed.quiet (h : Listed s) (hq : Quiet s s') : Listed s' := by
  refine ⟨fun p t ht => ?_, fun p => ?_, fun c p ts hc t ht => ?_⟩
  · rw [hq.data] at ht ⊢
    exact h.live p t ht
  · rw [hq.data]
    exact h.nodup p
  · rw [hq.pc] at hc
    rw [hq.data]
    exact h.ahead c p ts hc t ht

/-- Every step keeps the lists of threads right. -/
theorem Listed.step {a : Label} (h : Listed s) (hl : Locked s) (hstep : Step s a s') :
    Listed s' := by
  cases a with
  | start c op =>
      obtain ⟨pc, hidle, hentry, rfl⟩ := begin_cases hstep
      refine ⟨h.live, h.nodup, fun x p ts hx => ?_⟩
      simp only [Function.update_apply] at hx
      split at hx
      · cases op with
        | killCurrent | yieldCurrent =>
            obtain ⟨t, -, rfl⟩ := Option.map_eq_some_iff.mp hentry
            cases hx
        | _ =>
            cases hentry
            cases hx
      · exact h.ahead x p ts hx
  | go c w =>
      have hgo := step_next hstep
      obtain ⟨l, o, ⟨d, pc⟩, hnext, rfl⟩ | ⟨-, rfl⟩ := hgo
      swap
      · exact h.panic
      by_cases hk : ∃ t, s.pc c = .killThread t
      · obtain ⟨t, hpc⟩ := hk
        rw [hpc] at hnext
        have hkill : Locks.killThread s.data t = (d, pc) := Option.some.inj hnext
        rw [← hkill]
        exact h.killThread hl hpc
      · have hproc := process_next hnext
        obtain ⟨hthreads, hdead⟩ := threads_next hnext fun t ht => hk ⟨t, ht⟩
        refine ⟨fun p t ht => ?_, fun p => ?_, fun x p ts hx t ht => ?_⟩
        · simp only [State.put, hthreads, hproc] at ht ⊢
          exact ⟨(h.live p t ht).1, fun hd => (h.live p t ht).2 (hdead t hd)⟩
        · simp only [State.put, hthreads]
          exact h.nodup p
        · simp only [State.put, Function.update_apply, hthreads] at hx ⊢
          split at hx
          · obtain ⟨ts', hts, hsub⟩ | ⟨-, rfl⟩ := listing_next hnext hx
            · exact h.ahead c p ts' hts t (hsub ht)
            · exact ht
          · exact h.ahead x p ts hx t ht
  | consume t v => exact h.quiet (quiet_consume hstep)
  | prepare c n err => exact h.quiet (prepare_cases hstep).2.2.2.2

/-! ### The overlap of a listing and a wake -/

/-- The threads that a core which lists a process has ahead. -/
def Pc.ahead (pc : Pc) : List ℕ :=
  match pc.listing with
  | some (_, ts) => ts
  | none => []

/-- The steps after which no core is about to wake a thread that another core has ahead in a
listing: a thread is not locked to be woken while a core has it ahead, and a process is not
locked for a listing while one of its threads is being woken. -/
def State.Clear (s : State) : Label → Prop
  | .start _ _ | .consume _ _ | .prepare _ _ _ => True
  | .go c _ =>
      match s.pc c with
      | .wakeThread t => ∀ x, t ∉ (s.pc x).ahead
      | .tryWake _ _ t => ∀ x, t ∉ (s.pc x).ahead
      | .listProcess p => ∀ x k t, s.pc x = .wakeProcess k t → t ∉ s.data.threads p
      | _ => True

/-- One step of the system that is clear of such an overlap. -/
def ClearStep (s : State) (a : Label) (s' : State) : Prop := s.Clear a ∧ Step s a s'

/-- No core is about to wake a thread that another core has ahead in a listing. -/
def NoOverlap (s : State) : Prop :=
  ∀ x y k t, s.pc y = .wakeProcess k t → t ∉ (s.pc x).ahead

/-- A core gets to the lock of the process in `ThreadLock::wake` by locking the thread. -/
theorem wakeProcess_next {k : Enqueuer} {t : ℕ}
    (h : (action d c w pc).next = some (d', .wakeProcess k t)) :
    pc = .wakeThread t ∨ ∃ k l, pc = .tryWake k l t := by
  generalize hpc : Pc.wakeProcess k t = pc' at h
  cases next_of_action h with
  | wakeThread =>
      cases hpc
      exact .inl rfl
  | tryWake =>
      cases hpc
      exact .inr ⟨_, _, rfl⟩
  | @enqueuePush k t =>
      cases k with
      | tryWake k l => cases k <;> cases hpc
      | _ => cases hpc
  | @woken k l => cases k <;> cases hpc
  | _ => cases hpc

/-- The threads ahead in a listing, from what the core lists. -/
theorem ahead_eq {p : ℕ} {ts : List ℕ} (h : pc.listing = some (p, ts)) : pc.ahead = ts := by
  rw [Pc.ahead, h]

/-- A thread ahead belongs to what the core lists. -/
theorem listing_of_mem_ahead {t : ℕ} (h : t ∈ pc.ahead) :
    ∃ p ts, pc.listing = some (p, ts) ∧ t ∈ ts := by
  rw [Pc.ahead] at h
  split at h
  · rename_i p ts hl
    exact ⟨p, ts, hl, h⟩
  · cases h

/-- A clear step of a core keeps the listings and the wakes apart. -/
theorem NoOverlap.put (h : NoOverlap s) {o : Option ℕ} (hclear : s.Clear (.go c w))
    (hnext : (action s.data c w (s.pc c)).next = some (d, pc)) :
    NoOverlap (s.put c l o (d, pc)) := by
  intro x y k t hy ht
  simp only [State.put, Function.update_apply] at hy ht
  obtain ⟨p, ts, hts, hmem⟩ := listing_of_mem_ahead ht
  split at hy
  · -- The core gets to the lock of the process in `wake`.
    subst hy
    split at ht
    · cases ht
    · rw [State.Clear] at hclear
      obtain hpc | ⟨k', l', hpc⟩ := wakeProcess_next hnext
      · rw [hpc] at hclear
        exact hclear x ht
      · rw [hpc] at hclear
        exact hclear x ht
  · split at ht
    · -- The core goes on with its listing, or begins it.
      rename_i hx
      rw [if_pos hx] at hts
      obtain ⟨ts', hts', hsub⟩ | ⟨hpc, rfl⟩ := listing_next hnext hts
      · refine h c y k t hy ?_
        rw [ahead_eq hts']
        exact hsub hmem
      · rw [State.Clear, hpc] at hclear
        exact hclear y k t hy hmem
    · exact h x y k t hy ht

/-- A core that panics wakes and lists no thread. -/
theorem NoOverlap.panic (h : NoOverlap s) : NoOverlap (s.panic c) := by
  intro x y k t hy ht
  rcases eq_or_ne y c with rfl | hyc
  · rw [panic_pc_self] at hy
    cases hy
  · rw [panic_pc_of_ne hyc] at hy
    rcases eq_or_ne x c with rfl | hxc
    · rw [panic_pc_self] at ht
      cases ht
    · rw [panic_pc_of_ne hxc] at ht
      exact h x y k t hy ht

/-- The code between the operations wakes and lists no thread. -/
theorem NoOverlap.quiet (h : NoOverlap s) (hq : Quiet s s') : NoOverlap s' := by
  intro x y k t hy ht
  rw [hq.pc] at hy ht
  exact h x y k t hy ht

/-- Every clear step keeps the listings and the wakes apart. -/
theorem NoOverlap.step {a : Label} (h : NoOverlap s) (hstep : ClearStep s a s') :
    NoOverlap s' := by
  obtain ⟨hclear, hstep⟩ := hstep
  cases a with
  | start c op =>
      obtain ⟨pc, hidle, hentry, rfl⟩ := begin_cases hstep
      have hpc : pc.ahead = [] ∧ ∀ k t, pc ≠ .wakeProcess k t := by
        cases op with
        | killCurrent | yieldCurrent =>
            obtain ⟨t, -, rfl⟩ := Option.map_eq_some_iff.mp hentry
            exact ⟨rfl, fun _ _ => by simp⟩
        | _ =>
            cases hentry
            exact ⟨rfl, fun _ _ => by simp⟩
      intro x y k t hy ht
      simp only [Function.update_apply] at hy ht
      split at hy
      · exact hpc.2 k t hy
      · split at ht
        · rw [hpc.1] at ht
          cases ht
        · exact h x y k t hy ht
  | go c w =>
      obtain ⟨l, o, ⟨d, pc⟩, hnext, rfl⟩ | ⟨-, rfl⟩ := step_next hstep
      · exact h.put hclear hnext
      · exact h.panic
  | consume t v => exact h.quiet (quiet_consume hstep)
  | prepare c n err => exact h.quiet (prepare_cases hstep).2.2.2.2

/-! ### No deadlock -/

/-- What holds in every state that is reached by clear steps. -/
structure Inv (s : State) : Prop where
  locked : Locked s
  placed : Placed s
  listed : Listed s
  apart : NoOverlap s

/-- Every clear step keeps the invariant. -/
theorem Inv.step {a : Label} (h : Inv s) (hstep : ClearStep s a s') : Inv s' :=
  ⟨h.locked.step hstep.2, h.placed.step hstep.2, h.listed.step h.locked hstep.2,
    h.apart.step hstep⟩

/-- The invariant holds while no core is in an operation. -/
theorem Init.inv (h : Init s) : Inv s := by
  obtain ⟨hd, hidle, hfree, -⟩ := h
  refine ⟨⟨fun c l => ?_, fun c => ?_⟩, ⟨?_, ?_, hd.ready_nodup, hd.waiting_nodup⟩,
    ⟨fun p t ht => (hd.threads_live p t).mp ht, hd.threads_nodup, fun c p ts hc => ?_⟩,
    fun x y k t hy => ?_⟩
  · simp [hfree, hidle, Pc.held]
  · simp [hidle, Pc.held]
  · rintro (c | c | p | l) (c' | c' | p' | l') t ha hb <;>
      simp only [State.At, hidle, Pc.own, Pc.hand] at ha hb
    · rw [hd.current_unique c c' t ha hb]
    · cases hb
    · have h1 := hd.current_running c t ha
      have h2 := (hd.ready_state p' t hb).1
      rw [h1] at h2
      cases h2
    · have h1 := hd.current_running c t ha
      have h2 := hd.waiting_state l' t hb
      rw [h1] at h2
      cases h2
    · cases ha
    · cases ha
    · cases ha
    · cases ha
    · have h1 := hd.current_running c' t hb
      have h2 := (hd.ready_state p t ha).1
      rw [h1] at h2
      cases h2
    · cases hb
    · rw [← (hd.ready_state p t ha).2, (hd.ready_state p' t hb).2]
    · have h1 := (hd.ready_state p t ha).1
      have h2 := hd.waiting_state l' t hb
      rw [h1] at h2
      cases h2
    · have h1 := hd.current_running c' t hb
      have h2 := hd.waiting_state l t ha
      rw [h1] at h2
      cases h2
    · cases hb
    · have h1 := (hd.ready_state p' t hb).1
      have h2 := hd.waiting_state l t ha
      rw [h1] at h2
      cases h2
    · have h1 := hd.waiting_state l t ha
      have h2 := hd.waiting_state l' t hb
      rw [h1] at h2
      cases h2
      rfl
  · rintro (c | c | p | l) t ha <;> simp only [State.At, State.stateAt, hidle] at ha ⊢
    · exact hd.current_running c t ha
    · cases ha
    · exact (hd.ready_state p t ha).1
    · exact hd.waiting_state l t ha
  · rw [hidle] at hc
    cases hc
  · rw [hidle] at hy
    cases hy

/-- The rank of a place: a core waits only for cores at places of a higher rank. -/
def Pc.rank : Pc → ℕ
  | .dequeue _ _ => 1
  | .wakeProcess _ _ | .listProcess _ => 2
  | .killThread _ | .switchThread _ | .tryWake _ _ _ | .finish _ | .runNonBlocking _ => 3
  | .listThreads _ _ => 3
  | _ => 0

/-- A core that waits for a thread ranks lowest, unless it is at one of five places. -/
theorem rank_of_waits_thread {t : ℕ} {next : Data × Pc}
    (h : action d c w pc = .acquire (.thread t) next) :
    pc.rank = 0 ∨ (∃ k l, pc = .tryWake k l t) ∨ pc = .killThread t ∨ pc = .switchThread t ∨
      pc = .runNonBlocking t ∨ ∃ p ts, pc = .listThreads p (t :: ts) := by
  cases pc with
  | listThreads p ts =>
      cases ts with
      | nil => cases h
      | cons u us =>
          cases h
          exact .inr (.inr (.inr (.inr (.inr ⟨p, us, rfl⟩))))
  | _ =>
      cases h <;> simp [Pc.rank]

/-- A core that waits for a process ranks below those that wait for its threads. -/
theorem rank_of_waits_process {p : ℕ} {next : Data × Pc}
    (h : action d c w pc = .acquire (.process p) next) : pc.rank < 3 := by
  cases pc with
  | listThreads p ts => cases ts <;> cases h
  | _ => cases h <;> simp [Pc.rank]

/-- A core that waits for a wait list is about to take a thread off it. -/
theorem rank_of_waits_waitList {m : ℕ} {next : Data × Pc}
    (h : action d c w pc = .acquire (.waitList m) next) : pc.rank = 1 := by
  cases pc with
  | listThreads p ts => cases ts <;> cases h
  | _ => cases h <;> simp [Pc.rank]

/-- A core that waits for the list of processes ranks lowest. -/
theorem rank_of_waits_processList {next : Data × Pc}
    (h : action d c w pc = .acquire .processList next) : pc.rank = 0 := by
  cases pc with
  | listThreads p ts => cases ts <;> cases h
  | _ => cases h <;> simp [Pc.rank]

/-- A core that waits for a join future is about to resolve it. -/
theorem eq_of_waits_future {t : ℕ} {next : Data × Pc}
    (h : action d c w pc = .acquire (.future t) next) : pc = .finish t := by
  cases pc with
  | listThreads p ts => cases ts <;> cases h
  | _ => cases h <;> rfl

/-- A core that waits for a dead thread that another core still runs, or for a thread that
another core is about to wake, ranks lowest. -/
theorem Inv.rank_thread (h : Inv s) {c c' t : ℕ} {next : Data × Pc} (hne : c' ≠ c)
    (hheld : .thread t ∈ (s.pc c).held s.data.process)
    (hwait : action s.data c' true (s.pc c') = .acquire (.thread t) next)
    (ht : (s.At (.own c) t ∧ s.data.state t = .dead) ∨ ∃ k, s.pc c = .wakeProcess k t) :
    (s.pc c').rank = 0 := by
  have hhand : (∃ k, s.pc c = .wakeProcess k t) → s.At (.hand c) t := by
    rintro ⟨k, hk⟩
    rw [State.At, hk]
    rfl
  obtain hrank | ⟨k, m, hpc⟩ | hpc | hpc | hpc | ⟨p, ts, hpc⟩ := rank_of_waits_thread hwait
  · exact hrank
  · have hat : s.At (.hand c') t := by
      rw [State.At, hpc]
      rfl
    rcases ht with ⟨-, hdead⟩ | hk
    · have hst := h.placed.state hat
      rw [hdead, State.stateAt, hpc] at hst
      cases hst
    · cases h.placed.unique hat (hhand hk)
      exact absurd rfl hne
  · have hat : s.At (.own c') t := by
      rw [State.At, hpc]
      rfl
    rcases ht with ⟨hown, -⟩ | hk
    · cases h.placed.unique hat hown
      exact absurd rfl hne
    · cases h.placed.unique hat (hhand hk)
  · have hat : s.At (.own c') t := by
      rw [State.At, hpc]
      rfl
    rcases ht with ⟨hown, -⟩ | hk
    · cases h.placed.unique hat hown
      exact absurd rfl hne
    · cases h.placed.unique hat (hhand hk)
  · refine absurd (h.locked.unique ?_ hheld) hne
    rw [hpc]
    exact List.mem_cons_self
  · rcases ht with ⟨-, hdead⟩ | ⟨k, hk⟩
    · refine absurd hdead (h.listed.live p t ?_).2
      exact h.listed.ahead c' p (t :: ts) (by rw [hpc]; rfl) t List.mem_cons_self
    · refine absurd ?_ (h.apart c' c k t hk)
      rw [hpc]
      exact List.mem_cons_self

/-- A core that waits for a lock of a dying thread ranks lowest. -/
theorem Inv.rank_dying (h : Inv s) {c c' t : ℕ} {next : Data × Pc} (hne : c' ≠ c)
    (hheld : ∀ l ∈ [Lock.thread t, .future t], l ∈ (s.pc c).held s.data.process ∨ l = .future t)
    (hown : s.At (.own c) t) (hstate : (s.pc c).ownState = .dead)
    (hl : l ∈ [Lock.thread t, .future t])
    (hwait : action s.data c' true (s.pc c') = .acquire l next) : (s.pc c').rank = 0 := by
  have hdead : s.data.state t = .dead := by rw [h.placed.state hown, State.stateAt, hstate]
  simp only [List.mem_cons, List.not_mem_nil, or_false] at hl
  rcases hl with rfl | rfl
  · refine h.rank_thread hne ?_ hwait (.inl ⟨hown, hdead⟩)
    simpa using hheld (.thread t) (by simp)
  · have hpc := eq_of_waits_future hwait
    have hat : s.At (.own c') t := by
      rw [State.At, hpc]
      rfl
    cases h.placed.unique hat hown
    exact absurd rfl hne

/-- A core that waits for a lock of the caller of `wake_one` or `wake_all` ranks lowest. -/
theorem Inv.rank_caller (h : Inv s) {c c' : ℕ} {k : Caller} {next : Data × Pc} (hne : c' ≠ c)
    (hheld : k.held ⊆ (s.pc c).held s.data.process)
    (hown : (s.pc c).own (s.data.current c) = k.own (s.data.current c))
    (hstate : (s.pc c).ownState = k.ownState) (hl : l ∈ k.held)
    (hwait : action s.data c' true (s.pc c') = .acquire l next) : (s.pc c').rank = 0 := by
  cases k with
  | wakeOne | wakeAll => cases hl
  | finish t =>
      exact h.rank_dying hne (fun l hl => .inl (hheld hl)) hown hstate hl hwait

/-- **A core ranks below every core that it waits for.** -/
theorem Inv.rank_lt (h : Inv s) {c c' : ℕ} {l m : Lock} (hne : c' ≠ c) (hl : s.Holds c l)
    (hwait : s.Waits c' l) (hm : s.Waits c m) : (s.pc c').rank < (s.pc c).rank := by
  obtain ⟨next, hwait⟩ := hwait
  obtain ⟨next', hm⟩ := hm
  have hheld := (h.locked.owner_iff c l).mp hl
  cases hpc : s.pc c with
  | wakeProcess k t =>
      rw [hpc] at hheld
      simp only [Pc.held, List.mem_cons] at hheld
      rcases hheld with rfl | hheld
      · have h0 := h.rank_thread hne (by rw [hpc]; exact List.mem_cons_self) hwait (.inr ⟨k, hpc⟩)
        rw [h0]
        exact Nat.zero_lt_succ _
      · cases k with
        | wake | contextSwitch => cases hheld
        | tryWake k v =>
            simp only [Enqueuer.held, List.mem_cons] at hheld
            rcases hheld with rfl | hheld
            · rw [rank_of_waits_waitList hwait]
              exact Nat.succ_lt_succ (Nat.zero_lt_succ _)
            · have h0 := h.rank_caller (k := k) hne (by rw [hpc]; simp [Pc.held, Enqueuer.held])
                (by rw [hpc]; rfl) (by rw [hpc]; rfl) hheld hwait
              rw [h0]
              exact Nat.zero_lt_succ _
  | dequeue k v =>
      rw [hpc] at hheld
      have h0 := h.rank_caller (k := k) hne (by rw [hpc]; exact List.Subset.refl _)
        (by rw [hpc]; rfl) (by rw [hpc]; rfl) hheld hwait
      rw [h0]
      exact Nat.zero_lt_succ _
  | tryWake k v t =>
      rw [hpc] at hheld
      simp only [Pc.held, List.mem_cons] at hheld
      rcases hheld with rfl | hheld
      · rw [rank_of_waits_waitList hwait]
        exact Nat.succ_lt_succ (Nat.zero_lt_succ _)
      · have h0 := h.rank_caller (k := k) hne (by rw [hpc]; simp [Pc.held]) (by rw [hpc]; rfl)
          (by rw [hpc]; rfl) hheld hwait
        rw [h0]
        exact Nat.zero_lt_succ _
  | killThread t | switchThread t =>
      rw [hpc] at hheld
      obtain rfl := List.mem_singleton.mp hheld
      exact rank_of_waits_process hwait
  | finish t =>
      rw [hpc] at hheld
      obtain rfl := List.mem_singleton.mp hheld
      have h0 := h.rank_dying (t := t) hne (by rw [hpc]; simp [Pc.held])
        (by rw [State.At, hpc]; rfl) (by rw [hpc]; rfl) (by simp) hwait
      rw [h0]
      exact Nat.zero_lt_succ _
  | runNonBlocking t =>
      rw [hpc] at hheld
      have h0 := h.rank_dying (t := t) hne (by rw [hpc]; simp [Pc.held])
        (by rw [State.At, hpc]; rfl) (by rw [hpc]; rfl) hheld hwait
      rw [h0]
      exact Nat.zero_lt_succ _
  | listProcess p =>
      rw [hpc] at hheld
      obtain rfl := List.mem_singleton.mp hheld
      rw [rank_of_waits_processList hwait]
      exact Nat.zero_lt_succ _
  | listThreads p ts =>
      rw [hpc] at hheld
      simp only [Pc.held, List.mem_cons, List.not_mem_nil, or_false] at hheld
      rcases hheld with rfl | rfl
      · rw [rank_of_waits_processList hwait]
        exact Nat.zero_lt_succ _
      · exact rank_of_waits_process hwait
  | enqueueDrop | enqueuePush | tryWakeDead | unlockList | killDrop | runNonBlockingDrop
  | decWaitRef | switchDead | switchReady | nextDequeue | nextDrop | listThread | listEnd
  | panicked =>
      rw [hpc] at hm
      cases hm
  | _ =>
      rw [hpc] at hheld
      cases hheld

/-- **The scheduler does not deadlock** in a run in which no core is about to wake a thread
that another core has ahead in a listing of its process. -/
theorem no_deadlock_of_runs {s₀ s : State} {as : List Label} (h₀ : Init s₀)
    (h : Runs ClearStep s₀ as s) : ¬ Deadlock s.Holds s.Waits := by
  have hinv : Inv s := h.invariant h₀.inv fun _ _ _ hinv hstep => hinv.step hstep
  exact not_deadlock_of_rank (fun c => (s.pc c).rank) fun _ _ _ _ => hinv.rank_lt

/-! ### A listing against a wake -/

/-- Two threads of the kernel process: the thread `0` runs on the core `0`, and the thread
`1` has just been created. -/
def twoThreads : State where
  data :=
    { process := fun _ => 0
      state := fun t => if t = 0 then .running else if t = 1 then .suspended else .dead
      joinWriter := fun _ => true
      errOnBlock := fun _ => false
      join := fun _ => ⟨1, 0, false, [], none⟩
      joinList := fun t => t
      resolutions := fun _ => 0
      pids := fun p => p = 0
      threads := fun p => if p = 0 then [0, 1] else []
      ready := fun _ => []
      waiting := fun _ => []
      current := fun c => if c = 0 then some 0 else none }
  owner := fun _ => none
  pc := fun _ => .idle
  numHeld := fun _ => 0

/-- It is a state between operations. -/
theorem init_twoThreads : Init twoThreads := by
  refine ⟨⟨?_, ?_, ?_, ?_, ?_, ?_, ?_, ?_, fun _ _ => rfl⟩, fun _ => rfl, fun _ => rfl,
    fun _ => rfl⟩
  · intro c t h
    simp only [twoThreads] at h ⊢
    split at h
    · cases h
      rfl
    · cases h
  · intro c c' t h h'
    simp only [twoThreads] at h h'
    split at h
    · split at h'
      · omega
      · cases h'
    · cases h
  · intro p t h
    cases h
  · exact fun _ => List.nodup_nil
  · intro l t h
    cases h
  · exact fun _ => List.nodup_nil
  · intro p t
    simp only [twoThreads]
    rcases t with _ | _ | t
    · split <;> simp [eq_comm, *]
    · split <;> simp [eq_comm, *]
    · split <;> simp
  · intro p
    simp only [twoThreads]
    split <;> simp

/-- **A listing and a wake deadlock.** The core `0` wakes the thread `1`: it has the thread
locked and waits for the process. The core `1` lists the process: it has the process locked
and waits for the thread. -/
theorem listing_deadlocks_wake : ∃ s₀ as s, Init s₀ ∧ Runs Step s₀ as s ∧
    Deadlock s.Holds s.Waits ∧ s.Holds 0 (.thread 1) ∧ s.Waits 0 (.process 0) ∧
      s.Holds 1 (.process 0) ∧ s.Waits 1 (.thread 1) := by
  have hrun : ∃ s, Runs Step twoThreads [.start 0 (.wake 1), .go 0 true,
      .start 1 (.listThreads 0), .go 1 true, .go 1 true, .go 1 true, .go 1 true] s ∧
      s.Holds 0 (.thread 1) ∧ s.Waits 0 (.process 0) ∧ s.Holds 1 (.process 0) ∧
      s.Waits 1 (.thread 1) := by
    refine ⟨_, .cons rfl (.cons rfl (.cons rfl (.cons rfl (.cons rfl (.cons rfl (.cons rfl
      .refl)))))), rfl, ⟨_, rfl⟩, rfl, ⟨_, rfl⟩⟩
  obtain ⟨s, hrun, h0, w0, h1, w1⟩ := hrun
  exact ⟨twoThreads, _, s, init_twoThreads, hrun, deadlock_of_two zero_ne_one h0 w1 h1 w0, h0, w0,
    h1, w1⟩

/-- A wake that is over before the listing begins does not deadlock with it. -/
theorem no_deadlock_of_wake_then_listing : ∃ as s, as.length = 9 ∧
    Runs ClearStep twoThreads as s ∧ ¬ Deadlock s.Holds s.Waits := by
  have hrun : ∃ s, Runs ClearStep twoThreads [.start 0 (.wake 1), .go 0 true, .go 0 true,
      .go 0 true, .go 0 true, .start 1 (.listThreads 0), .go 1 true, .go 1 true, .go 1 true] s := by
    refine ⟨_, .cons ⟨trivial, rfl⟩ (.cons ⟨?_, rfl⟩ (.cons ⟨trivial, rfl⟩ (.cons ⟨trivial, rfl⟩
      (.cons ⟨trivial, rfl⟩ (.cons ⟨trivial, rfl⟩ (.cons ⟨trivial, rfl⟩ (.cons ⟨?_, rfl⟩
      (.cons ⟨trivial, rfl⟩ .refl))))))))⟩
    · intro x ht
      have hidle : (Function.update (fun _ => Pc.idle) 0 (.wakeThread 1) x).ahead = [] := by
        rw [Function.update_apply]
        split <;> rfl
      exact absurd (hidle ▸ ht) List.not_mem_nil
    · intro x k t hx
      rcases x with _ | _ | x <;> cases hx
  obtain ⟨s, hrun⟩ := hrun
  exact ⟨_, s, rfl, hrun, no_deadlock_of_runs init_twoThreads hrun⟩

end HydroxKernel.Locks
