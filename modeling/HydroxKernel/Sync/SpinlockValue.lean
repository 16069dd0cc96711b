import HydroxKernel.Lib.Guarded
import HydroxKernel.Sync.Uninterruptible

/-!
# The Value of an Uninterruptible Spinlock

`UninterruptibleSpinlock<T>` is a lock with a value that code shares with interrupt handlers and
with other cores. On every core, interrupts interrupt whatever runs there while they are enabled,
and dropping the last `InterruptDisabler` runs soft interrupts. Each of them is code that may use
the spinlock itself.

A guard has an `InterruptDisabler`, which is created before the lock is taken and dropped after it
is released. Code drops every guard that it takes, and does not lock the spinlock again while it
has one; the spinlock is not reentrant.

## Main results

* `CoreInv.perform`: what a step keeps on its core, in particular that code with a guard is not
  interrupted.
* `spinlock_value`: no update of the value is lost, and no code waits for code that it interrupted.
-/

namespace HydroxKernel.UninterruptibleSpinlock

open Uninterruptible (Core Panic)

/-- Where code is with the spinlock. -/
inductive Phase
  /-- It has no guard. -/
  | idle
  /-- It is in `lock` and has not got the lock. -/
  | spinning
  /-- It is in `try_lock` and has not tried. -/
  | trying
  /-- It has a guard. -/
  | holding
  /-- The `InterruptDisabler` is all that is left of a guard. -/
  | unlocked
  /-- It has dropped the last `InterruptDisabler` of its core and runs soft interrupts. -/
  | enabling
  deriving DecidableEq

/-- Code on a core: its place, and how many `InterruptDisabler`s it has besides that of a guard. -/
structure Code where
  phase : Phase
  disablers : ℕ

/-- A core: its `InterruptDisabler` state, the code that it runs, and the code below, which an
interrupt interrupted or which waits for a soft interrupt, the innermost first. -/
structure CoreState where
  core : Core Unit
  running : Code
  below : List Code

/-- A spinlock and the cores. -/
structure State (ι : Type) where
  locked : Bool
  cores : ι → CoreState

/-- Whether a guard, or the part of one, has an `InterruptDisabler`. -/
def Phase.disabler : Phase → ℕ
  | .idle => 0
  | .spinning => 1
  | .trying => 1
  | .holding => 1
  | .unlocked => 1
  | .enabling => 0

/-- How many `InterruptDisabler`s code has. -/
def Code.held (c : Code) : ℕ := c.disablers + c.phase.disabler

/-- What the code on a core does, or what happens to it. -/
inductive CoreOp
  /-- `InterruptDisabler::new`. -/
  | disable
  /-- Dropping an `InterruptDisabler`. -/
  | enable
  /-- `UninterruptibleSpinlock::lock` up to the lock. -/
  | lock
  /-- `UninterruptibleSpinlock::try_lock` up to the lock. -/
  | tryLock
  /-- `try_lock` of the lock. -/
  | acquire
  /-- Dropping the `RawSpinlockGuard` of a guard. -/
  | unlock
  /-- Dropping the `InterruptDisabler` of a guard. -/
  | leave
  /-- The end of a drop, after the soft interrupts. -/
  | finish
  /-- An interrupt. -/
  | interrupt
  /-- The return from an interrupt. -/
  | iret
  /-- The call of a soft interrupt, with the `InterruptDisabler` of `run_soft_interrupts`. -/
  | softCall
  /-- The return of a soft interrupt. -/
  | softRet
  deriving DecidableEq

/-- Code that has nothing to do with the spinlock and no `InterruptDisabler`. -/
def Code.quiet : Code := ⟨.idle, 0⟩

/-- When an operation can happen. -/
def CoreOp.Enabled (locked : Bool) (k : CoreState) : CoreOp → Prop
  | .disable => k.running.phase = .idle ∨ k.running.phase = .holding
  | .enable => 0 < k.running.disablers ∧ (k.running.phase = .idle ∨ k.running.phase = .holding)
  | .lock => k.running.phase = .idle
  | .tryLock => k.running.phase = .idle
  | .acquire => (k.running.phase = .spinning ∧ locked = false) ∨ k.running.phase = .trying
  | .unlock => k.running.phase = .holding
  | .leave => k.running.phase = .unlocked
  | .finish => k.running.phase = .enabling
  | .interrupt => k.core.enabled = true
  | .iret => k.running = .quiet ∧ ∃ c rest, k.below = c :: rest ∧ c.phase ≠ .enabling
  | .softCall => k.running.phase = .enabling
  | .softRet => k.running = .quiet ∧ ∃ c rest, k.below = c :: rest ∧ c.phase = .enabling

/-- `InterruptDisabler::new`, in code that then is `c`. -/
def CoreState.new (k : CoreState) (c : Code) : CoreState :=
  { k with core := k.core.new, running := c }

/-- The drop of an `InterruptDisabler`, in code that then is `c`: if it is the last one and
interrupts were enabled, soft interrupts run. -/
def CoreState.drop (k : CoreState) (c : Code) : Except Panic CoreState := do
  let (core, run) ← k.core.dropWithoutEnable
  return { k with core := core, running := if run then ⟨.enabling, c.disablers⟩ else c }

/-- Returns to the code below. -/
def CoreState.ret (k : CoreState) : CoreState :=
  { k with running := k.below.headD .quiet, below := k.below.tail }

/-- Code calls other code, or is interrupted. -/
def CoreState.call (k : CoreState) (c : Code) : CoreState :=
  { k with running := c, below := k.running :: k.below }

/-- Performs an operation: whether the spinlock is locked then, and the core. -/
def CoreState.perform (locked : Bool) (k : CoreState) : CoreOp → Except Panic (Bool × CoreState)
  | .disable => return (locked, k.new ⟨k.running.phase, k.running.disablers + 1⟩)
  | .enable =>
      return (locked, ← k.drop ⟨k.running.phase, k.running.disablers - 1⟩)
  | .lock => return (locked, k.new ⟨.spinning, k.running.disablers⟩)
  | .tryLock => return (locked, k.new ⟨.trying, k.running.disablers⟩)
  | .acquire =>
      -- `try_lock` of a spinlock that is locked returns nothing.
      return (true, { k with
        running := ⟨if locked then .unlocked else .holding, k.running.disablers⟩ })
  | .unlock => return (false, { k with running := ⟨.unlocked, k.running.disablers⟩ })
  | .leave => return (locked, ← k.drop ⟨.idle, k.running.disablers⟩)
  | .finish => do
      ensure (k.core.numHeld = 0) .guardsAfterRun
      return (locked, { k with
        core := { k.core with enabled := true }
        running := ⟨.idle, k.running.disablers⟩ })
  | .interrupt => return (locked, { k.call .quiet with core := { k.core with enabled := false } })
  | .iret => return (locked, { k.ret with core := { k.core with enabled := true } })
  | .softCall => return (locked, (k.call .quiet).new ⟨.idle, 1⟩)
  | .softRet => return (locked, k.ret)

variable {ι : Type} [DecidableEq ι]

/-- Performs an operation on a core. -/
def State.perform (s : State ι) (op : ι × CoreOp) : Except Panic (State ι) := do
  let (locked, k) ← (s.cores op.1).perform s.locked op.2
  return ⟨locked, Function.update s.cores op.1 k⟩

/-- A step of the spinlock and the cores. -/
def LockStep (s : State ι) (op : ι × CoreOp) (t : State ι) : Prop :=
  op.2.Enabled s.locked (s.cores op.1) ∧ s.perform op = .ok t

/-- The code at a depth of a core, the outermost at depth zero. -/
def CoreState.codeAt (k : CoreState) (d : ℕ) : Option Code := (k.running :: k.below).reverse[d]?

/-- Whether the code at a depth of a core has a guard. -/
def State.holds (s : State ι) (t : ι × ℕ) : Bool :=
  ((s.cores t.1).codeAt t.2).any fun c => decide (c.phase = .holding)

/-- `UninterruptibleSpinlock::new`, and cores that run threads. -/
def State.new : State ι := ⟨false, fun _ => ⟨⟨0, false, true, false, []⟩, .quiet, []⟩⟩

/-! ### A core -/

/-- What holds of a core: the running code has all `InterruptDisabler`s, and while there are some
interrupts are disabled. The code below has none and is nowhere in the spinlock, but that it may
wait for a soft interrupt. -/
structure CoreInv (k : CoreState) : Prop where
  numHeld : k.core.numHeld = k.running.held
  head : ∀ c ∈ k.below, c = .quiet ∨ c = ⟨.enabling, 0⟩
  tail : ∀ c ∈ k.below.tail, c = .quiet
  soft : ⟨.enabling, 0⟩ ∈ k.below → k.core.enabled = false ∧ k.core.wasEnabled = false
  enabled : k.core.enabled = true → k.running = .quiet
  enabling : k.running.phase = .enabling →
    k.running.disablers = 0 ∧ k.core.enabled = false ∧ ∀ c ∈ k.below, c = .quiet

variable {k k' : CoreState} {locked locked' : Bool} {c : Code}

/-- While there is an `InterruptDisabler`, interrupts are disabled. -/
theorem CoreInv.disabled (h : CoreInv k) (hne : k.running ≠ .quiet) : k.core.enabled = false :=
  Bool.eq_false_iff.mpr fun hon => hne (h.enabled hon)

/-- If no code below waits for a soft interrupt, all of it is quiet. -/
theorem CoreInv.quiet_below (h : CoreInv k) (hsoft : ⟨.enabling, 0⟩ ∉ k.below) :
    ∀ c ∈ k.below, c = .quiet := by
  intro c hc
  rcases h.head c hc with hquiet | rfl
  · exact hquiet
  · exact absurd hc hsoft

/-- A new `InterruptDisabler`. -/
theorem CoreInv.new (h : CoreInv k) (hheld : c.held = k.running.held + 1)
    (hphase : c.phase ≠ .enabling) : CoreInv (k.new c) := by
  have hoff : (k.new c).core.enabled = false := by
    by_cases hzero : k.core.numHeld = 0
    · exact if_pos hzero
    · have hne : k.running ≠ .quiet := fun heq => hzero (h.numHeld.trans (heq ▸ rfl))
      exact (if_neg hzero).trans (h.disabled hne)
  refine ⟨?_, h.head, h.tail, fun hmem => ⟨hoff, ?_⟩, fun hon => ?_, fun he => absurd he hphase⟩
  · change k.core.numHeld + 1 = c.held
    rw [h.numHeld, hheld]
  · change (if k.core.numHeld = 0 then k.core.enabled else k.core.wasEnabled) = false
    obtain ⟨hen, hwas⟩ := h.soft hmem
    rw [hen, hwas, ite_self]
  · rw [hoff] at hon
    cases hon

/-- A drop returns. If it was of the last `InterruptDisabler`, and interrupts were enabled, no code
below waits for a soft interrupt. -/
theorem CoreInv.drop (h : CoreInv k) (hheld : k.running.held = c.held + 1)
    (hphase : c.phase ≠ .enabling) (hlast : c.held = 0 → c = .quiet) :
    ∃ k', k.drop c = .ok k' ∧ CoreInv k' ∧
      (k'.running.phase = .holding ↔ c.phase = .holding) := by
  have hne : k.running ≠ .quiet := by
    intro heq
    rw [heq] at hheld
    cases hheld
  have hoff := h.disabled hne
  have hdrop : k.core.dropWithoutEnable = .ok ({ k.core with numHeld := k.core.numHeld - 1 },
      decide (k.core.numHeld = 1) && k.core.wasEnabled) := by
    rw [Core.dropWithoutEnable, ensure_pos hoff]
    rfl
  have hcount : k.core.numHeld - 1 = c.held := by
    rw [h.numHeld, hheld, Nat.add_sub_cancel]
  cases hrun : decide (k.core.numHeld = 1) && k.core.wasEnabled with
  | false =>
      rw [hrun] at hdrop
      refine ⟨{ k with core := { k.core with numHeld := k.core.numHeld - 1 }, running := c }, ?_,
        ⟨hcount, h.head, h.tail, h.soft, fun hon => ?_, fun he => absurd he hphase⟩, Iff.rfl⟩
      · rw [CoreState.drop, hdrop]
        rfl
      · rw [show k.core.enabled = true from hon] at hoff
        cases hoff
  | true =>
      rw [hrun] at hdrop
      obtain ⟨hone, hwas⟩ := Bool.and_eq_true_iff.mp hrun
      have hzero : c.held = 0 := by
        rw [← hcount, of_decide_eq_true hone]
      obtain rfl := hlast hzero
      have hsoft : ⟨.enabling, 0⟩ ∉ k.below := by
        intro hmem
        rw [(h.soft hmem).2] at hwas
        cases hwas
      refine ⟨{ k with
          core := { k.core with numHeld := k.core.numHeld - 1 }
          running := ⟨.enabling, 0⟩ }, ?_, ⟨hcount, h.head, h.tail, h.soft, fun hon => ?_,
        fun _ => ⟨rfl, hoff, h.quiet_below hsoft⟩⟩,
        iff_of_false (fun he => Phase.noConfusion he) (fun he => Phase.noConfusion he)⟩
      · rw [CoreState.drop, hdrop]
        rfl
      · rw [show k.core.enabled = true from hon] at hoff
        cases hoff

/-- The code moves on in the spinlock, and keeps the `InterruptDisabler` it has there. -/
theorem CoreInv.rephase (h : CoreInv k) {ph : Phase}
    (hdis : ph.disabler = k.running.phase.disabler) (hne : k.running ≠ .quiet)
    (hph : ph ≠ .enabling) : CoreInv { k with running := ⟨ph, k.running.disablers⟩ } := by
  refine ⟨?_, h.head, h.tail, h.soft, fun hon => absurd (h.enabled hon) hne,
    fun he => absurd he hph⟩
  rw [h.numHeld, Code.held, Code.held, hdis]

/-- How a step changes who has a guard: it does not, the code gets one for a free lock, or it gives
its guard up. -/
inductive Moves (locked : Bool) (k : CoreState) : Bool → CoreState → Prop
  | stays {k' : CoreState} (h : k'.running.phase = .holding ↔ k.running.phase = .holding) :
      Moves locked k locked k'
  | locks {k' : CoreState} (hfree : locked = false) (h : k'.running.phase = .holding) :
      Moves locked k true k'
  | unlocks {k' : CoreState} (h : k.running.phase = .holding)
      (h' : k'.running.phase ≠ .holding) : Moves locked k false k'

/-- What is below is quiet while interrupts are enabled. -/
theorem CoreInv.quiet_of_enabled (h : CoreInv k) (hon : k.core.enabled = true) :
    k.running = .quiet ∧ ∀ c ∈ k.below, c = .quiet := by
  refine ⟨h.enabled hon, h.quiet_below fun hmem => ?_⟩
  rw [(h.soft hmem).1] at hon
  cases hon

/-- An operation returns, keeps what holds of the core, and changes who has a guard only as it
may. -/
def Performs (locked : Bool) (k : CoreState) (op : CoreOp) : Prop :=
  ∃ locked' k', k.perform locked op = .ok (locked', k') ∧ CoreInv k' ∧ Moves locked k locked' k'

/-- A drop by code that then is `c`. -/
theorem CoreInv.performs_of_drop (h : CoreInv k) {op : CoreOp}
    (hop : k.perform locked op = k.drop c >>= fun k' => .ok (locked, k'))
    (hheld : k.running.held = c.held + 1) (hphase : c.phase ≠ .enabling)
    (hlast : c.held = 0 → c = .quiet)
    (hholding : c.phase = .holding ↔ k.running.phase = .holding) : Performs locked k op := by
  obtain ⟨k', hk', hinv, hmoves⟩ := h.drop hheld hphase hlast
  refine ⟨locked, k', ?_, hinv, .stays (hmoves.trans hholding)⟩
  rw [hop, hk', ok_bind]

/-- The code takes an `InterruptDisabler`. -/
theorem CoreInv.performs_disable (h : CoreInv k) (hop : CoreOp.disable.Enabled locked k) :
    Performs locked k .disable := by
  have hphase : k.running.phase ≠ .enabling := by
    rcases hop with hop | hop <;> rw [hop] <;> decide
  refine ⟨_, _, rfl, h.new ?_ hphase, .stays Iff.rfl⟩
  rw [Code.held, Code.held, Nat.add_right_comm]

/-- The code drops an `InterruptDisabler`. -/
theorem CoreInv.performs_enable (h : CoreInv k) (hop : CoreOp.enable.Enabled locked k) :
    Performs locked k .enable := by
  obtain ⟨hpos, hop⟩ := hop
  have hphase : k.running.phase ≠ .enabling := by
    rcases hop with hop | hop <;> rw [hop] <;> decide
  have hheld : k.running.held = Code.held ⟨k.running.phase, k.running.disablers - 1⟩ + 1 := by
    simp only [Code.held]
    omega
  refine h.performs_of_drop rfl hheld hphase (fun hzero => ?_) Iff.rfl
  obtain ⟨hd, hp⟩ := Nat.add_eq_zero_iff.mp hzero
  rcases hop with hop | hop
  · rw [hop]
    exact congrArg (Code.mk .idle) hd
  · rw [hop] at hp
    cases hp

/-- The code begins to take the spinlock, with an `InterruptDisabler`. -/
theorem CoreInv.performs_begin (h : CoreInv k) {op : CoreOp} {ph : Phase}
    (hop : k.perform locked op = .ok (locked, k.new ⟨ph, k.running.disablers⟩))
    (hidle : k.running.phase = .idle) (hdis : ph.disabler = 1) (hne : ph ≠ .enabling)
    (hnot : ph ≠ .holding) : Performs locked k op := by
  refine ⟨_, _, hop, h.new ?_ hne, .stays (iff_of_false hnot ?_)⟩
  · rw [Code.held, Code.held, hidle, hdis]
    rfl
  · rw [hidle]
    exact Phase.noConfusion

/-- The code takes the spinlock, or `try_lock` finds it locked. -/
theorem CoreInv.performs_acquire (h : CoreInv k) (hop : CoreOp.acquire.Enabled locked k) :
    Performs locked k .acquire := by
  have hdis : k.running.phase.disabler = 1 := by
    rcases hop with ⟨hop, -⟩ | hop <;> rw [hop] <;> rfl
  have hnot : k.running.phase ≠ .holding := by
    rcases hop with ⟨hop, -⟩ | hop <;> rw [hop] <;> decide
  have hne : k.running ≠ .quiet := by
    intro heq
    rw [heq] at hdis
    cases hdis
  cases locked with
  | false => exact ⟨_, _, rfl, h.rephase (by rw [hdis]; rfl) hne (by decide), .locks rfl rfl⟩
  | true =>
      exact ⟨_, _, rfl, h.rephase (by rw [hdis]; rfl) hne (by decide),
        .stays (iff_of_false Phase.noConfusion hnot)⟩

/-- The code gives its guard up. -/
theorem CoreInv.performs_unlock (h : CoreInv k) (hop : CoreOp.unlock.Enabled locked k) :
    Performs locked k .unlock := by
  have hholding : k.running.phase = .holding := hop
  have hne : k.running ≠ .quiet := by
    intro heq
    rw [heq] at hholding
    cases hholding
  refine ⟨_, _, rfl, h.rephase ?_ hne (by decide), .unlocks hholding Phase.noConfusion⟩
  rw [hholding]
  rfl

/-- The code drops the `InterruptDisabler` that it had in the spinlock. -/
theorem CoreInv.performs_leave (h : CoreInv k) (hop : CoreOp.leave.Enabled locked k) :
    Performs locked k .leave := by
  have hunlocked : k.running.phase = .unlocked := hop
  refine h.performs_of_drop rfl ?_ Phase.noConfusion
    (fun hzero => congrArg (Code.mk .idle) hzero) ?_
  · rw [Code.held, Code.held, hunlocked]
    rfl
  · rw [hunlocked]
    exact iff_of_false Phase.noConfusion Phase.noConfusion

/-- Code that enables interrupts has no `InterruptDisabler`, and all code below is quiet. -/
theorem CoreInv.of_enabling (h : CoreInv k) (henabling : k.running.phase = .enabling) :
    k.running = ⟨.enabling, 0⟩ ∧ k.core.numHeld = 0 ∧ k.core.enabled = false ∧
      ∀ c ∈ k.below, c = .quiet := by
  obtain ⟨hdis, hoff, hbelow⟩ := h.enabling henabling
  have hrun : k.running = ⟨.enabling, 0⟩ := by
    rw [← henabling, ← hdis]
  refine ⟨hrun, ?_, hoff, hbelow⟩
  rw [h.numHeld, hrun]
  rfl

/-- Interrupts are enabled after the soft interrupts. -/
theorem CoreInv.performs_finish (h : CoreInv k) (hop : CoreOp.finish.Enabled locked k) :
    Performs locked k .finish := by
  obtain ⟨hrun, hzero, -, hbelow⟩ := h.of_enabling hop
  refine ⟨locked, { k with core := { k.core with enabled := true }, running := .quiet }, ?_,
    ⟨hzero, h.head, h.tail, fun hmem => ?_, fun _ => rfl, Phase.noConfusion⟩, .stays ?_⟩
  · rw [CoreState.perform, ensure_pos hzero, hrun]
    rfl
  · cases hbelow _ hmem
  · rw [hrun]
    exact iff_of_false Phase.noConfusion Phase.noConfusion

/-- An interrupt comes. -/
theorem CoreInv.performs_interrupt (h : CoreInv k) (hop : CoreOp.interrupt.Enabled locked k) :
    Performs locked k .interrupt := by
  obtain ⟨hquiet, hbelow⟩ := h.quiet_of_enabled hop
  refine ⟨_, _, rfl, ⟨?_, ?_, hbelow, fun hmem => ?_, Bool.noConfusion, Phase.noConfusion⟩,
    .stays ?_⟩
  · exact h.numHeld.trans (congrArg Code.held hquiet)
  · intro c hc
    rcases List.mem_cons.mp hc with rfl | hc
    · exact .inl hquiet
    · exact .inl (hbelow c hc)
  · rcases List.mem_cons.mp hmem with heq | hmem
    · cases heq.trans hquiet
    · cases hbelow _ hmem
  · rw [hquiet]
    exact Iff.rfl

/-- All code below the code that is returned to is quiet. -/
theorem CoreInv.rest_quiet (h : CoreInv k) {rest : List Code} (hbelow : k.below = c :: rest) :
    ∀ d ∈ rest, d = .quiet := by
  intro d hd
  refine h.tail d ?_
  rw [hbelow]
  exact hd

/-- The handler of an interrupt returns. -/
theorem CoreInv.performs_iret (h : CoreInv k) (hop : CoreOp.iret.Enabled locked k) :
    Performs locked k .iret := by
  obtain ⟨hquiet, c, rest, hbelow, hc⟩ := hop
  have hcq : c = .quiet := by
    rcases h.head c (hbelow ▸ List.mem_cons_self) with hcq | rfl
    · exact hcq
    · exact absurd rfl hc
  have hrest := h.rest_quiet hbelow
  refine ⟨locked, { k with
    core := { k.core with enabled := true }, running := c, below := rest }, ?_,
    ⟨?_, fun d hd => .inl (hrest d hd), fun d hd => hrest d (List.mem_of_mem_tail hd),
      fun hmem => ?_, fun _ => hcq, fun he => absurd he hc⟩, .stays ?_⟩
  · rw [CoreState.perform, CoreState.ret, hbelow]
    rfl
  · rw [hcq]
    exact h.numHeld.trans (congrArg Code.held hquiet)
  · cases hrest _ hmem
  · rw [hquiet, hcq]

/-- A soft interrupt is called. -/
theorem CoreInv.performs_softCall (h : CoreInv k) (hop : CoreOp.softCall.Enabled locked k) :
    Performs locked k .softCall := by
  obtain ⟨hrun, hzero, hoff, hbelow⟩ := h.of_enabling hop
  refine ⟨_, _, rfl, ⟨congrArg (· + 1) hzero, ?_, hbelow, fun _ => ⟨if_pos hzero, ?_⟩, ?_,
    Phase.noConfusion⟩, .stays ?_⟩
  · intro c hc
    rcases List.mem_cons.mp hc with rfl | hc
    · exact .inr hrun
    · exact .inl (hbelow c hc)
  · exact (if_pos hzero).trans hoff
  · intro hon
    have hfalse : (if k.core.numHeld = 0 then false else k.core.enabled) = true := hon
    rw [if_pos hzero] at hfalse
    cases hfalse
  · rw [hrun]
    exact iff_of_false Phase.noConfusion Phase.noConfusion

/-- A soft interrupt returns. -/
theorem CoreInv.performs_softRet (h : CoreInv k) (hop : CoreOp.softRet.Enabled locked k) :
    Performs locked k .softRet := by
  obtain ⟨hquiet, c, rest, hbelow, hc⟩ := hop
  have hmem : c ∈ k.below := hbelow ▸ List.mem_cons_self
  have hce : c = ⟨.enabling, 0⟩ := by
    rcases h.head c hmem with rfl | hce
    · cases hc
    · exact hce
  have hoff : k.core.enabled = false := (h.soft (hce ▸ hmem)).1
  have hrest := h.rest_quiet hbelow
  refine ⟨locked, { k with running := c, below := rest }, ?_,
    ⟨?_, fun d hd => .inl (hrest d hd), fun d hd => hrest d (List.mem_of_mem_tail hd),
      fun hmem => ?_, fun hon => ?_, fun _ => ⟨?_, hoff, hrest⟩⟩, .stays ?_⟩
  · rw [CoreState.perform, CoreState.ret, hbelow]
    rfl
  · have hheld : Code.held .quiet = c.held := hce ▸ rfl
    exact (h.numHeld.trans (congrArg Code.held hquiet)).trans hheld
  · cases hrest _ hmem
  · rw [show k.core.enabled = true from hon] at hoff
    cases hoff
  · rw [hce]
  · rw [hquiet, hce]
    exact iff_of_false Phase.noConfusion Phase.noConfusion

/-- **A step** of a core returns, and keeps what holds of the core. -/
theorem CoreInv.perform (h : CoreInv k) {op : CoreOp} (hop : op.Enabled locked k) :
    Performs locked k op := by
  cases op with
  | disable => exact h.performs_disable hop
  | enable => exact h.performs_enable hop
  | lock => exact h.performs_begin rfl hop rfl (by decide) (by decide)
  | tryLock => exact h.performs_begin rfl hop rfl (by decide) (by decide)
  | acquire => exact h.performs_acquire hop
  | unlock => exact h.performs_unlock hop
  | leave => exact h.performs_leave hop
  | finish => exact h.performs_finish hop
  | interrupt => exact h.performs_interrupt hop
  | iret => exact h.performs_iret hop
  | softCall => exact h.performs_softCall hop
  | softRet => exact h.performs_softRet hop

/-! ### All cores -/

/-- What holds of the spinlock and the cores: it is locked exactly while the running code of some
core has a guard, and that of one core only. -/
structure Inv (s : State ι) : Prop where
  cores : ∀ c, CoreInv (s.cores c)
  locked : ∀ c, (s.cores c).running.phase = .holding → s.locked = true
  owner : s.locked = true → ∃ c, (s.cores c).running.phase = .holding
  unique : ∀ c d, (s.cores c).running.phase = .holding → (s.cores d).running.phase = .holding →
    c = d

variable {s t : State ι}

omit [DecidableEq ι] in

/-- The invariant holds of a new spinlock. -/
theorem inv_new : Inv (State.new : State ι) where
  cores _ := ⟨rfl, fun _ hc => absurd hc List.not_mem_nil, fun _ hc => absurd hc List.not_mem_nil,
    fun hmem => absurd hmem List.not_mem_nil, fun _ => rfl, fun he => Phase.noConfusion he⟩
  locked _ he := Phase.noConfusion he
  owner he := Bool.noConfusion he
  unique _ _ he := Phase.noConfusion he

/-- **A step** of any core returns, and keeps what holds of all of them. -/
theorem Inv.perform (h : Inv s) {op : ι × CoreOp}
    (hop : op.2.Enabled s.locked (s.cores op.1)) : ∃ t, s.perform op = .ok t ∧ Inv t := by
  obtain ⟨c, op⟩ := op
  obtain ⟨locked', k', hk', hinv, hmoves⟩ := (h.cores c).perform hop
  have hself : Function.update s.cores c k' c = k' := Function.update_self ..
  have hother : ∀ d, d ≠ c → Function.update s.cores c k' d = s.cores d := fun d hd =>
    Function.update_of_ne hd ..
  have hcores : ∀ d, CoreInv (Function.update s.cores c k' d) := by
    intro d
    by_cases hd : d = c
    · rw [hd, hself]
      exact hinv
    · rw [hother d hd]
      exact h.cores d
  refine ⟨⟨locked', Function.update s.cores c k'⟩, ?_, ?_⟩
  · rw [State.perform, hk']
    rfl
  · cases hmoves with
    | stays hsame =>
        have hat : ∀ d, (Function.update s.cores c k' d).running.phase = .holding ↔
            (s.cores d).running.phase = .holding := by
          intro d
          by_cases hd : d = c
          · rw [hd, hself, hsame]
          · rw [hother d hd]
        refine ⟨hcores, fun d hd => h.locked d ((hat d).mp hd), fun hl => ?_,
          fun d e hd he => h.unique d e ((hat d).mp hd) ((hat e).mp he)⟩
        obtain ⟨d, hd⟩ := h.owner hl
        exact ⟨d, (hat d).mpr hd⟩
    | locks hfree hholding =>
        have hat : ∀ d, (Function.update s.cores c k' d).running.phase = .holding → d = c := by
          intro d hd
          by_contra hne
          rw [hother d hne] at hd
          rw [h.locked d hd] at hfree
          cases hfree
        refine ⟨hcores, fun _ _ => rfl, fun _ => ⟨c, ?_⟩, fun d e hd he => ?_⟩
        · dsimp only
          rw [hself]
          exact hholding
        · rw [hat d hd, hat e he]
    | unlocks hholding hnot =>
        have hat : ∀ d, (Function.update s.cores c k' d).running.phase ≠ .holding := by
          intro d
          by_cases hd : d = c
          · rw [hd, hself]
            exact hnot
          · rw [hother d hd]
            exact fun hd' => hd (h.unique d c hd' hholding)
        exact ⟨hcores, fun d hd => absurd hd (hat d), fun hl => Bool.noConfusion hl,
          fun d _ hd => absurd hd (hat d)⟩

/-- A run keeps what holds of the spinlock and the cores. -/
theorem inv_of_lock_runs {ops : List (ι × CoreOp)} (h : Runs LockStep State.new ops s) : Inv s := by
  refine h.invariant inv_new ?_
  rintro t op u ht ⟨hop, hu⟩
  obtain ⟨u', hu', hinv⟩ := ht.perform hop
  exact Except.ok.inj (hu'.symm.trans hu) ▸ hinv

omit [DecidableEq ι] in
/-- Only running code has a guard. -/
theorem Inv.holds_iff (h : Inv s) (c : ι) (d : ℕ) : s.holds (c, d) = true ↔
    d = (s.cores c).below.length ∧ (s.cores c).running.phase = .holding := by
  rw [State.holds, CoreState.codeAt, List.reverse_cons, List.getElem?_append, List.length_reverse]
  dsimp only
  split_ifs with hd
  · refine iff_of_false (fun hholds => ?_) fun heq => Nat.ne_of_lt hd heq.1
    cases hx : (s.cores c).below.reverse[d]? with
    | none =>
        rw [hx] at hholds
        cases hholds
    | some x =>
        rw [hx] at hholds
        have hphase : x.phase = .holding := of_decide_eq_true hholds
        have hmem := List.mem_reverse.mp (List.mem_of_getElem? hx)
        rcases (h.cores c).head x hmem with rfl | rfl <;> cases hphase
  · rcases Nat.eq_or_lt_of_le (Nat.not_lt.mp hd) with heq | hlt
    · rw [← heq, Nat.sub_self]
      simp
    · rw [List.getElem?_eq_none (by rw [List.length_singleton]; omega)]
      exact iff_of_false Bool.false_ne_true fun heq => Nat.ne_of_gt hlt heq.1

omit [DecidableEq ι] in
/-- At most one piece of code has a guard. -/
theorem Inv.holds_unique (h : Inv s) (x y : ι × ℕ) (hx : s.holds x = true)
    (hy : s.holds y = true) : x = y := by
  obtain ⟨hxd, hxh⟩ := (h.holds_iff x.1 x.2).mp hx
  obtain ⟨hyd, hyh⟩ := (h.holds_iff y.1 y.2).mp hy
  have hcore := h.unique x.1 y.1 hxh hyh
  exact Prod.ext hcore (by rw [hxd, hyd, hcore])

/-! ### The value -/

variable {α : Type}

/-- A step of the spinlock and of the code that has a guard. -/
def SpinlockStep (s : Guarded (State ι) (ι × ℕ) α) (op : GuardedOp (ι × CoreOp) (ι × ℕ) α)
    (s' : Guarded (State ι) (ι × ℕ) α) : Prop :=
  GuardedStep LockStep State.holds s op s'

/-- What holds of a spinlock with a value in a state. -/
structure SpinlockSound (val : α) (s : Guarded (State ι) (ι × ℕ) α) : Prop where
  /-- The value is that of all updates, one after another. -/
  data_eq : s.data = s.updates.foldl (fun v u => u.2 v) val
  /-- What code has read through its guard is the value. -/
  seen : ∀ x v, s.seen x = some v → s.lock.holds x = true ∧ v = s.data
  /-- At most one piece of code has a guard. -/
  unique : ∀ x y, s.lock.holds x = true → s.lock.holds y = true → x = y
  /-- Code that has a guard is running, with interrupts disabled. -/
  running : ∀ c d, s.lock.holds (c, d) = true →
    d = (s.lock.cores c).below.length ∧ (s.lock.cores c).core.enabled = false
  /-- Code that waits for the spinlock waits for running code of another core, or gets it next. -/
  progress : ∀ c, (s.lock.cores c).running.phase = .spinning →
    CoreOp.acquire.Enabled s.lock.locked (s.lock.cores c) ∨
    ∃ d, d ≠ c ∧ CoreOp.unlock.Enabled s.lock.locked (s.lock.cores d)
  /-- No operation panics. -/
  returns : ∀ c op, CoreOp.Enabled s.lock.locked (s.lock.cores c) op →
    ∃ t, s.lock.perform (c, op) = .ok t

/-- **An uninterruptible spinlock loses no update**, and no code waits for code that it interrupted:
in every interleaving of any number of cores, with interrupts and soft interrupts wherever they can
happen, the value is the result of all updates one after another, code with a guard is not
interrupted, code that waits for the spinlock waits for code that runs on another core, and no
assertion of an `InterruptDisabler` fails. -/
theorem spinlock_value {val : α} {ops : List (GuardedOp (ι × CoreOp) (ι × ℕ) α)}
    {s : Guarded (State ι) (ι × ℕ) α} (h : Runs SpinlockStep (.new State.new val) ops s) :
    SpinlockSound val s := by
  obtain ⟨acts, hlock⟩ := lock_runs h
  have hinv := inv_of_lock_runs hlock
  have hserial : Serial State.holds val s :=
    serial_of_runs (fun acts l hl => (inv_of_lock_runs hl).holds_unique) h
  refine ⟨hserial.data_eq, hserial.seen, hinv.holds_unique, fun c d hd => ?_, fun c hc => ?_,
    fun c op hop => ?_⟩
  · obtain ⟨hd, hholding⟩ := (hinv.holds_iff c d).mp hd
    refine ⟨hd, (hinv.cores c).disabled fun hquiet => ?_⟩
    rw [hquiet] at hholding
    cases hholding
  · rcases Bool.eq_false_or_eq_true s.lock.locked with hl | hl
    · obtain ⟨d, hd⟩ := hinv.owner hl
      refine .inr ⟨d, fun heq => ?_, hd⟩
      rw [heq, hc] at hd
      cases hd
    · exact .inl (.inl ⟨hc, hl⟩)
  · have henabled : (c, op).2.Enabled s.lock.locked (s.lock.cores (c, op).1) := hop
    obtain ⟨t, ht, -⟩ := hinv.perform henabled
    exact ⟨t, ht⟩

/-- An interrupt handler on one core counts, while another core waits to count as well. -/
theorem spinlock_value_handler :
    ∃ s : Guarded (State Bool) (Bool × ℕ) ℕ, Runs SpinlockStep (.new State.new 0)
        [.lock (false, .interrupt), .lock (false, .lock), .lock (false, .acquire),
          .read (false, 1), .lock (true, .lock), .write (false, 1) (· + 1),
          .lock (false, .unlock), .lock (true, .acquire), .lock (false, .leave),
          .lock (false, .iret), .read (true, 0), .write (true, 0) (· + 1)] s ∧
      s.data = 2 ∧ SpinlockSound 0 s := by
  have hrun : Runs SpinlockStep (.new State.new 0 : Guarded (State Bool) (Bool × ℕ) ℕ)
      [.lock (false, .interrupt), .lock (false, .lock), .lock (false, .acquire),
        .read (false, 1), .lock (true, .lock), .write (false, 1) (· + 1),
        .lock (false, .unlock), .lock (true, .acquire), .lock (false, .leave),
        .lock (false, .iret), .read (true, 0), .write (true, 0) (· + 1)] _ :=
    .cons (.lock ⟨rfl, rfl⟩) (.cons (.lock ⟨rfl, rfl⟩) (.cons (.lock ⟨.inl ⟨rfl, rfl⟩, rfl⟩)
      (.cons (.read rfl) (.cons (.lock ⟨rfl, rfl⟩) (.cons (.write rfl rfl _)
        (.cons (.lock ⟨rfl, rfl⟩) (.cons (.lock ⟨.inl ⟨rfl, rfl⟩, rfl⟩)
          (.cons (.lock ⟨rfl, rfl⟩)
            (.cons (.lock ⟨⟨rfl, _, _, rfl, fun he => Phase.noConfusion he⟩, rfl⟩)
              (.cons (.read rfl) (.cons (.write rfl rfl _) .refl)))))))))))
  exact ⟨_, hrun, rfl, spinlock_value hrun⟩

end HydroxKernel.UninterruptibleSpinlock
