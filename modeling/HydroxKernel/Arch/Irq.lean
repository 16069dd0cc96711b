import HydroxKernel.Arch.Pic
import HydroxKernel.Lib.Runs

/-!
# Dispatching the Interrupts of Devices

The processor, the interrupt controllers and the table of handlers together. While interrupts are
on, the processor can take one at any time; its gate switches interrupts off, `handle_interrupt`
calls the handler of the IRQ, or logs a warning if there is none, and sends the commands that end
it. Lines of devices rise and fall between any two steps.

Handlers are registered, and IRQs are masked and unmasked, by the code that is interrupted. Only
one of its threads changes masks, so that `set_irq_masked` is two steps, with interrupts between
them, but never goes on twice at once.

`masks`, `taken`, `calls`, `latched` and `withdrawn` are ledgers: what `set_irq_masked` was last
called with for each IRQ; the interrupts that were taken, each with whether it took a request from
its controller; the calls, each with its IRQ and its handler; and how often the request of an IRQ
was latched and withdrawn.

## Main results

* `Inv.step`: what one step preserves.
* `irq_sound`: in every reached state, nothing is in service between interrupts, and every
  request leads to exactly one call.
-/

namespace HydroxKernel.Arch.Irq

variable {H : Type}

/-- `IRQS_START`. -/
def irqsStart : ℕ := 0x20

/-- `EXT_START`. -/
def extStart : ℕ := 0x30

/-- `NUM_IRQS`. -/
def numIrqs : ℕ := extStart - irqsStart

/-- Where the processor is: in the interrupted code, or in `handle_interrupt` for an interrupt
number. -/
inductive Phase
  | thread
  /-- Before the call of the handler. -/
  | handler (num : ℕ)
  /-- After the call of the handler. -/
  | eoi (num : ℕ)
  /-- In `send_eoi`, before the write to the master. -/
  | eoiMaster
  /-- After `send_eoi`, until the interrupted code goes on. -/
  | ending
  deriving DecidableEq

/-- The controllers, `IRQ_HANDLERS`, the interrupt flag, where the processor is, and the call of
`set_irq_masked` that is going on, with the mask that it read. -/
structure System (H : Type) where
  pics : Pics
  handlers : List (Option H)
  enabled : Bool
  phase : Phase
  masking : Option (ℕ × Bool × BitVec 8)
  masks : ℕ → Bool
  taken : List (ℕ × Bool)
  calls : List (ℕ × Option H)
  latched : ℕ → ℕ
  withdrawn : ℕ → ℕ

/-- The interrupt controllers are set up as `init_phase_1` does it. -/
def System.boot (pics : Pics) : System H where
  pics := maskAllIrqs (remapPic (BitVec.ofNat 8 irqsStart) (BitVec.ofNat 8 (irqsStart + 0x8)) pics)
  handlers := List.replicate numIrqs none
  enabled := false
  phase := .thread
  masking := none
  masks := fun irq => decide (irq ≠ 2)
  taken := []
  calls := []
  latched := fun _ => 0
  withdrawn := fun _ => 0

namespace System

/-- `register_irq`. -/
def registerIrq (s : System H) (n : ℕ) (handler : H) : Except IrqPanic (System H) := do
  ensure (n < s.handlers.length) .index
  ensure (s.handlers[n]?.join.isNone = true) .registered
  return { s with handlers := s.handlers.set n (some handler) }

/-- `unregister_irq`. -/
def unregisterIrq (s : System H) (n : ℕ) : Except IrqPanic (System H) := do
  ensure (n < s.handlers.length) .index
  ensure (s.handlers[n]?.join.isSome = true) .unregistered
  return { s with handlers := s.handlers.set n none }

/-- The line of a device rises. -/
def raise (s : System H) (irq : ℕ) : System H :=
  { s with
    pics := s.pics.raise irq
    latched := if s.pics.pending irq then s.latched
      else Function.update s.latched irq (s.latched irq + 1) }

/-- The line of a device falls before its request is acknowledged. -/
def lower (s : System H) (irq : ℕ) : System H :=
  { s with
    pics := s.pics.lower irq
    withdrawn := if s.pics.pending irq then
      Function.update s.withdrawn irq (s.withdrawn irq + 1) else s.withdrawn }

/-- The processor takes an interrupt. The entry code pushes its number. -/
def interrupt (s : System H) (withdrawn : Bool) : System H :=
  let (num, pics) := s.pics.acknowledge withdrawn
  let irq := num - irqsStart
  { s with
    pics := pics
    enabled := false
    phase := .handler num
    taken := s.taken ++ [(irq, s.pics.pending irq && !pics.pending irq)] }

/-- `handle_interrupt` up to `send_eoi`. -/
def callHandler (s : System H) (num : ℕ) : Except IrqPanic (System H) :=
  if irqsStart ≤ num ∧ num < extStart then do
    ensure (num - irqsStart < s.handlers.length) .index
    return { s with
      calls := s.calls ++ [(num - irqsStart, s.handlers[num - irqsStart]?.join)]
      phase := .eoi num }
  else .ok { s with phase := .eoi num }

/-- `handle_interrupt` after the call of the handler: it sends an EOI, or there is no handler for
an exception. -/
def endIrq (s : System H) (num : ℕ) : Except IrqPanic (System H) := do
  ensure (¬ num < irqsStart) .unhandledException
  if num < extStart then
    let pics ← sendEoiSlave (num - irqsStart) s.pics
    return { s with pics := pics, phase := .eoiMaster }
  else return { s with phase := .ending }

end System

/-! ### Steps -/

/-- What can happen next. -/
inductive Op (H : Type)
  /-- The line of a device rises. -/
  | raise (irq : ℕ)
  /-- The line of a device falls. -/
  | lower (irq : ℕ)
  /-- The processor takes an interrupt; the request of the slave may have been withdrawn. -/
  | interrupt (withdrawn : Bool)
  /-- `handle_interrupt` goes on. -/
  | handle
  /-- The interrupted code goes on, or that of another thread, which may have interrupts off. -/
  | leave (enabled : Bool)
  /-- The code switches interrupts on or off. -/
  | setEnabled (enabled : Bool)
  /-- `register_irq`. -/
  | register (n : ℕ) (handler : H)
  /-- `unregister_irq`. -/
  | unregister (n : ℕ)
  /-- `set_irq_masked` up to its read. -/
  | readMask (irq : ℕ) (masked : Bool)
  /-- `set_irq_masked` from its write. -/
  | writeMask

/-- `handle_interrupt` goes on. -/
def System.handle (s : System H) : Except IrqPanic (System H) :=
  match s.phase with
  | .handler num => s.callHandler num
  | .eoi num => s.endIrq num
  | .eoiMaster => .ok { s with pics := sendEoiMaster s.pics, phase := .ending }
  | _ => .ok s

/-- `set_irq_masked` from its write. -/
def System.writeMask (s : System H) : System H :=
  match s.masking with
  | none => s
  | some (irq, masked, imr) =>
      { s with
        pics := Arch.writeMask irq masked imr s.pics
        masking := none
        masks := Function.update s.masks irq masked }

/-- Performs an operation. -/
def perform (s : System H) : Op H → Except IrqPanic (System H)
  | .raise irq => .ok (s.raise irq)
  | .lower irq => .ok (s.lower irq)
  | .interrupt withdrawn => .ok (s.interrupt withdrawn)
  | .handle => s.handle
  | .leave enabled => .ok { s with enabled := enabled, phase := .thread }
  | .setEnabled enabled => .ok { s with enabled := enabled }
  | .register n handler => s.registerIrq n handler
  | .unregister n => s.unregisterIrq n
  | .readMask irq masked => do
      let imr ← Arch.readMask irq s.pics
      return { s with masking := some (irq, masked, imr) }
  | .writeMask => .ok s.writeMask

/-- What can happen in a state. No device is at the line of the slave. -/
def Enabled (s : System H) : Op H → Prop
  | .raise irq => irq < 16 ∧ irq ≠ 2
  | .lower irq => irq < 16 ∧ irq ≠ 2
  | .interrupt _ => s.phase = .thread ∧ s.enabled = true
  | .handle => s.phase ≠ .thread ∧ s.phase ≠ .ending
  | .leave _ => s.phase = .ending
  | .setEnabled _ => s.phase = .thread
  | .register _ _ => s.phase = .thread
  | .unregister _ => s.phase = .thread
  | .readMask _ _ => s.phase = .thread ∧ s.masking = none
  | .writeMask => s.phase = .thread ∧ s.masking ≠ none

/-- A step. -/
def Step (s : System H) (op : Op H) (t : System H) : Prop := Enabled s op ∧ perform s op = .ok t

/-! ### The invariant -/

/-- What is in service in a phase. The interrupt that is handled took a request or not. -/
inductive InPhase (s : Pics) : List (ℕ × Bool) → List ℕ → Phase → Prop
  /-- Between interrupts. -/
  | thread {taken} (h : s.Idle) : InPhase s taken [] .thread
  /-- After the commands. -/
  | ending {taken} (h : s.Idle) : InPhase s taken [] .ending
  /-- The handler was not called. -/
  | handler {taken irq requested} (hirq : irq < 16) (h : s.InService irq requested)
      (hlast : taken.getLast? = some (irq, requested)) :
      InPhase s taken [irq] (.handler (irqsStart + irq))
  /-- The handler was called. -/
  | eoi {taken irq requested} (hirq : irq < 16) (h : s.InService irq requested) :
      InPhase s taken [] (.eoi (irqsStart + irq))
  /-- The command to the slave was given, if it is needed. -/
  | eoiMaster {taken irq requested} (h : s.InService irq requested) (hslave : s.slave.isr = 0) :
      InPhase s taken [] .eoiMaster

/-- The number of requests of an IRQ that are latched. -/
def pendingCount (s : Pics) (n : ℕ) : ℕ := if s.pending n then 1 else 0

/-- The invariant. -/
structure Inv (s : System H) : Prop where
  setUp : s.pics.SetUp
  line : s.pics.pending 2 = false
  masks : ∀ n < 16, s.pics.masked n = s.masks n
  masking : ∀ irq masked imr, s.masking = some (irq, masked, imr) →
    irq < 16 ∧ imr = s.pics.imrOf irq
  phase : ∃ uncalled, InPhase s.pics s.taken uncalled s.phase ∧
    s.taken.map Prod.fst = s.calls.map Prod.fst ++ uncalled
  requests : ∀ n < 16,
    s.latched n = s.taken.count (n, true) + s.withdrawn n + pendingCount s.pics n
  handlers : s.handlers.length = numIrqs

variable {s t : System H}

/-- What is in service does not depend on what is requested. -/
theorem InPhase.congr {pics pics' : Pics} {taken : List (ℕ × Bool)} {uncalled : List ℕ}
    {phase : Phase} (h : InPhase pics taken uncalled phase)
    (hm : pics'.master.isr = pics.master.isr) (hs : pics'.slave.isr = pics.slave.isr) :
    InPhase pics' taken uncalled phase := by
  have hidle : pics.Idle → pics'.Idle := fun h => ⟨hm.trans h.master, hs.trans h.slave⟩
  have hservice : ∀ {irq requested}, pics.InService irq requested → pics'.InService irq requested :=
    fun h => ⟨hm.trans h.master, hs.trans h.slave⟩
  cases h with
  | thread h => exact .thread (hidle h)
  | ending h => exact .ending (hidle h)
  | handler hirq h hlast => exact .handler hirq (hservice h) hlast
  | eoi hirq h => exact .eoi hirq (hservice h)
  | eoiMaster h hslave => exact .eoiMaster (hservice h) (hs.trans hslave)

/-- The masks of the controllers are among what lines do not change. -/
theorem imrOf_congr {pics pics' : Pics} (h : pics.SameSettings pics') (irq : ℕ) :
    pics'.imrOf irq = pics.imrOf irq := by
  have hm : pics'.master.settings.imr = pics.master.settings.imr := congrArg Pic.imr h.master
  have hs : pics'.slave.settings.imr = pics.slave.settings.imr := congrArg Pic.imr h.slave
  exact if_congr Iff.rfl hm hs

/-- The invariant at other requests, and other numbers of them. -/
theorem Inv.setRequests (h : Inv s) {pics : Pics} {latched withdrawn : ℕ → ℕ}
    (hsame : s.pics.SameSettings pics) (hm : pics.master.isr = s.pics.master.isr)
    (hs : pics.slave.isr = s.pics.slave.isr) (hline : pics.pending 2 = false)
    (hrequests : ∀ n < 16,
      latched n = s.taken.count (n, true) + withdrawn n + pendingCount pics n) :
    Inv { s with pics := pics, latched := latched, withdrawn := withdrawn } where
  setUp := hsame.setUp h.setUp
  line := hline
  masks := fun n hn => (hsame.masked n).trans (h.masks n hn)
  masking := fun irq masked imr hmasking => by
    obtain ⟨hirq, himr⟩ := h.masking irq masked imr hmasking
    exact ⟨hirq, himr.trans (imrOf_congr hsame irq).symm⟩
  phase := by
    obtain ⟨uncalled, hphase, hcalls⟩ := h.phase
    exact ⟨uncalled, hphase.congr hm hs, hcalls⟩
  requests := hrequests
  handlers := h.handlers

/-- **A line rises**: its request is latched, if it was not. -/
theorem Inv.raise (h : Inv s) {irq : ℕ} (hirq : irq < 16) (h2 : irq ≠ 2) : Inv (s.raise irq) := by
  refine h.setRequests (Pics.sameSettings_raise _ _) (Pics.isr_raise _ _).1 (Pics.isr_raise _ _).2
    ?_ fun n hn => ?_
  · rw [Pics.pending_raise _ hirq (by omega), h.line, decide_eq_false h2, Bool.or_false]
  · rw [pendingCount, Pics.pending_raise _ hirq hn]
    have hcount := h.requests n hn
    rw [pendingCount] at hcount
    by_cases heq : irq = n
    · subst heq
      cases hpending : s.pics.pending irq with
      | true =>
          rw [hpending, if_pos rfl] at hcount
          simpa using hcount
      | false =>
          rw [hpending, if_neg Bool.false_ne_true] at hcount
          simp
          omega
    · rw [decide_eq_false heq, Bool.or_false]
      cases hpending : s.pics.pending irq with
      | true => exact hcount
      | false =>
          rw [if_neg Bool.false_ne_true, Function.update_of_ne (Ne.symm heq)]
          exact hcount

/-- **A line falls**: its request is withdrawn, if it was latched. -/
theorem Inv.lower (h : Inv s) {irq : ℕ} (hirq : irq < 16) : Inv (s.lower irq) := by
  refine h.setRequests (Pics.sameSettings_lower _ _) (Pics.isr_lower _ _).1 (Pics.isr_lower _ _).2
    ?_ fun n hn => ?_
  · rw [Pics.pending_lower _ hirq (by omega), h.line, Bool.false_and]
  · rw [pendingCount, Pics.pending_lower _ hirq hn]
    have hcount := h.requests n hn
    rw [pendingCount] at hcount
    by_cases heq : irq = n
    · subst heq
      cases hpending : s.pics.pending irq with
      | true =>
          rw [hpending, if_pos rfl] at hcount
          simp
          omega
      | false =>
          rw [hpending, if_neg Bool.false_ne_true] at hcount
          simpa using hcount
    · rw [decide_eq_false heq, Bool.not_false, Bool.and_true]
      cases hpending : s.pics.pending irq with
      | true =>
          rw [if_pos rfl, Function.update_of_ne (Ne.symm heq)]
          exact hcount
      | false => exact hcount

/-- **Taking an interrupt**: what the controllers answered. -/
structure Takes (s : System H) (withdrawn : Bool) (irq : ℕ) (requested : Bool) : Prop where
  range : irq < 16
  pics : (s.interrupt withdrawn).pics = s.pics.served irq requested
  phase : (s.interrupt withdrawn).phase = .handler (irqsStart + irq)
  taken : (s.interrupt withdrawn).taken = s.taken ++ [(irq, requested)]
  /-- It was asked for. -/
  asked : requested = true → irq ≠ 2 ∧ s.pics.Deliverable irq
  /-- It was not asked for, since nothing was or the request was withdrawn. -/
  spurious : requested = false →
    (irq = 7 ∧ ∀ n, ¬ s.pics.Deliverable n) ∨ irq = 15 ∧ withdrawn = true

/-- Between interrupts nothing is in service. -/
theorem Inv.idle (h : Inv s) (hphase : s.phase = .thread) : s.pics.Idle := by
  obtain ⟨uncalled, hin, -⟩ := h.phase
  rw [hphase] at hin
  cases hin with
  | thread h => exact h

/-- The processor takes what was asked for, or something spurious. -/
theorem Inv.takes (h : Inv s) (hphase : s.phase = .thread) (withdrawn : Bool) :
    ∃ irq requested, Takes s withdrawn irq requested := by
  obtain ⟨irq, requested, hirq, hack, hasked, hspurious⟩ :=
    acknowledge_spec h.setUp (h.idle hphase) h.line withdrawn
  refine ⟨irq, requested, hirq, ?_, ?_, ?_, hasked, hspurious⟩
  · rw [System.interrupt, hack]
  · rw [System.interrupt, hack]
    rfl
  · have hsub : 0x20 + irq - irqsStart = irq := Nat.add_sub_cancel_left ..
    rw [System.interrupt, hack]
    dsimp only
    rw [hsub, Pics.pending_served h.line hirq hirq, decide_eq_true rfl, Bool.and_true]
    cases requested with
    | true =>
        rw [(hasked rfl).2.1]
        rfl
    | false =>
        rw [Bool.not_false, Bool.and_true, Bool.and_not_self]

/-- **Taking an interrupt** puts it in service, and its handler is not called yet. -/
theorem Inv.interrupt (h : Inv s) (hphase : s.phase = .thread) (withdrawn : Bool) :
    Inv (s.interrupt withdrawn) := by
  obtain ⟨irq, requested, htakes⟩ := h.takes hphase withdrawn
  have hsame : s.pics.SameSettings (s.interrupt withdrawn).pics := by
    rw [htakes.pics]
    exact Pics.sameSettings_served _ _ _
  obtain ⟨uncalled, hin, hcalls⟩ := h.phase
  rw [hphase] at hin
  cases hin with
  | thread hidle =>
  refine ⟨hsame.setUp h.setUp, ?_, fun n hn => (hsame.masked n).trans (h.masks n hn), ?_, ?_, ?_,
    h.handlers⟩
  · rw [htakes.pics, Pics.pending_served h.line htakes.range (by omega), h.line, Bool.false_and]
  · intro irq' masked imr hmasking
    obtain ⟨hirq, himr⟩ := h.masking irq' masked imr hmasking
    exact ⟨hirq, himr.trans (imrOf_congr hsame irq').symm⟩
  · refine ⟨[irq], ?_, ?_⟩
    · rw [htakes.phase, htakes.taken, htakes.pics]
      exact .handler htakes.range (Pics.inService_served h.setUp hidle irq requested)
        List.getLast?_concat
    · rw [htakes.taken, List.map_append, hcalls, List.append_nil]
      rfl
  · intro n hn
    have hcount := h.requests n hn
    have hlatched : (s.interrupt withdrawn).latched = s.latched := rfl
    have hwithdrawn : (s.interrupt withdrawn).withdrawn = s.withdrawn := rfl
    rw [hlatched, hwithdrawn, htakes.taken, htakes.pics, List.count_append, List.count_singleton,
      pendingCount, Pics.pending_served h.line htakes.range hn, hcount, pendingCount]
    by_cases heq : irq = n
    · subst heq
      cases requested with
      | true =>
          rw [(htakes.asked rfl).2.1]
          simp
          omega
      | false => simp
    · have hne : ((irq, requested) == (n, true)) = false := by
        rw [beq_eq_false_iff_ne]
        rintro hpair
        exact heq (congrArg Prod.fst hpair)
      rw [hne, decide_eq_false heq]
      simp

/-- The invariant in another phase, with the same requests. -/
theorem Inv.setPhase (h : Inv s) {pics : Pics} {calls : List (ℕ × Option H)} {phase : Phase}
    {enabled : Bool} {uncalled : List ℕ} (hsame : s.pics.SameSettings pics)
    (hpending : ∀ n, pics.pending n = s.pics.pending n)
    (hphase : InPhase pics s.taken uncalled phase)
    (hcalls : s.taken.map Prod.fst = calls.map Prod.fst ++ uncalled) :
    Inv { s with pics := pics, calls := calls, phase := phase, enabled := enabled } where
  setUp := hsame.setUp h.setUp
  line := (hpending 2).trans h.line
  masks := fun n hn => (hsame.masked n).trans (h.masks n hn)
  masking := fun irq masked imr hmasking => by
    obtain ⟨hirq, himr⟩ := h.masking irq masked imr hmasking
    exact ⟨hirq, himr.trans (imrOf_congr hsame irq).symm⟩
  phase := ⟨uncalled, hphase, hcalls⟩
  requests := fun n hn => by
    have hcount := h.requests n hn
    rw [pendingCount, ← hpending n] at hcount
    exact hcount
  handlers := h.handlers

/-- **The handler is called**: that of the interrupt that was taken last, if it has one. -/
theorem Inv.callHandler (h : Inv s) {num : ℕ} (hphase : s.phase = .handler num) :
    ∃ irq requested, num = irqsStart + irq ∧ s.taken.getLast? = some (irq, requested) ∧
      s.handle = .ok { s with
        calls := s.calls ++ [(irq, s.handlers[irq]?.join)]
        phase := .eoi num } ∧
      Inv { s with calls := s.calls ++ [(irq, s.handlers[irq]?.join)], phase := .eoi num } := by
  obtain ⟨uncalled, hin, hcalls⟩ := h.phase
  rw [hphase] at hin
  cases hin with
  | @handler irq requested hirq hservice hlast =>
  have hrange : irqsStart ≤ irqsStart + irq ∧ irqsStart + irq < extStart :=
    ⟨Nat.le_add_right _ _, Nat.add_lt_add_left hirq irqsStart⟩
  refine ⟨irq, requested, rfl, hlast, ?_, ?_⟩
  · have hlt : irq < s.handlers.length := by
      rw [h.handlers]
      exact hirq
    rw [System.handle, hphase]
    dsimp only
    rw [System.callHandler, if_pos hrange, Nat.add_sub_cancel_left, ensure_pos hlt, ok_bind]
    rfl
  · refine h.setPhase ⟨rfl, rfl⟩ (fun _ => rfl) (.eoi hirq hservice) ?_
    rw [hcalls, List.map_append, List.append_nil]
    rfl

/-- **The interrupt is ended** at the slave, if it came from there. -/
theorem Inv.endIrq (h : Inv s) {num : ℕ} (hphase : s.phase = .eoi num) :
    ∃ pics, s.handle = .ok { s with pics := pics, phase := .eoiMaster } ∧
      Inv { s with pics := pics, phase := .eoiMaster } := by
  obtain ⟨uncalled, hin, hcalls⟩ := h.phase
  rw [hphase] at hin
  cases hin with
  | @eoi irq requested hirq hservice =>
  have hended : ∃ requested', Pics.InService
      { s.pics with slave := { s.pics.slave with isr := 0 } } irq requested' := by
    by_cases h8 : irq < 8
    · exact ⟨requested, hservice.master, (if_pos h8).symm⟩
    · have hmaster := hservice.master
      rw [if_neg h8] at hmaster
      exact ⟨false, hmaster.trans (if_neg h8).symm, (if_neg h8).symm⟩
  obtain ⟨requested', hended⟩ := hended
  have hinv : Inv { s with
      pics := { s.pics with slave := { s.pics.slave with isr := 0 } }
      phase := .eoiMaster } :=
    h.setPhase ⟨rfl, rfl⟩ (fun _ => rfl) (.eoiMaster hended rfl) hcalls
  refine ⟨_, ?_, hinv⟩
  have hlow : ¬ irqsStart + irq < irqsStart := Nat.not_lt.mpr (Nat.le_add_right _ _)
  have hhigh : irqsStart + irq < extStart := Nat.add_lt_add_left hirq irqsStart
  rw [System.handle, hphase]
  dsimp only
  rw [System.endIrq, ensure_pos hlow, ok_bind, if_pos hhigh, Nat.add_sub_cancel_left,
    hservice.sendEoiSlave hirq]
  rfl

/-- **The interrupt is ended** at the master: nothing is in service any more. -/
theorem Inv.endMaster (h : Inv s) (hphase : s.phase = .eoiMaster) :
    ∃ pics, s.handle = .ok { s with pics := pics, phase := .ending } ∧
      Inv { s with pics := pics, phase := .ending } := by
  obtain ⟨uncalled, hin, hcalls⟩ := h.phase
  rw [hphase] at hin
  cases hin with
  | @eoiMaster irq requested hservice hslave =>
  have hinv : Inv { s with
      pics := { s.pics with master := { s.pics.master with isr := 0 } }
      phase := .ending } :=
    h.setPhase ⟨rfl, rfl⟩ (fun _ => rfl) (.ending ⟨rfl, hslave⟩) hcalls
  refine ⟨_, ?_, hinv⟩
  rw [System.handle, hphase]
  dsimp only
  rw [Pics.InService.sendEoiMaster hservice.master]

/-- **A mask** is written as it was asked for. -/
theorem Inv.writeMask (h : Inv s) : Inv s.writeMask := by
  rw [System.writeMask]
  split
  · exact h
  · rename_i irq masked imr hmasking
    obtain ⟨hirq, rfl⟩ := h.masking irq masked imr hmasking
    obtain ⟨hmirr, hsirr, hmisr, hsisr⟩ :=
      Pics.requests_writeMask h.setUp irq masked (s.pics.imrOf irq)
    have hpending : ∀ n, (Arch.writeMask irq masked (s.pics.imrOf irq) s.pics).pending n =
        s.pics.pending n := fun n => by
      rw [Pics.pending, hmirr, hsirr, Pics.pending]
    obtain ⟨uncalled, hphase, hcalls⟩ := h.phase
    refine ⟨Pics.setUp_writeMask h.setUp _ _ _, (hpending 2).trans h.line, fun n hn => ?_,
      fun _ _ _ hnone => absurd hnone.symm (Option.some_ne_none _),
      ⟨uncalled, hphase.congr hmisr hsisr, hcalls⟩, fun n hn => ?_, h.handlers⟩
    · dsimp only
      rw [Pics.masked_writeMask h.setUp hirq masked hn, Function.update_apply, h.masks n hn]
    · have hcount := h.requests n hn
      rw [pendingCount, ← hpending n] at hcount
      exact hcount

/-- **A handler** is registered or removed. -/
theorem Inv.setHandler (h : Inv s) (n : ℕ) (handler : Option H) :
    Inv { s with handlers := s.handlers.set n handler } where
  setUp := h.setUp
  line := h.line
  masks := h.masks
  masking := h.masking
  phase := h.phase
  requests := h.requests
  handlers := List.length_set.trans h.handlers

/-! ### Every run -/

/-- The operations that panic, and their panics. -/
def Misuse (s : System H) : Op H → IrqPanic → Prop
  | .register n _, .index => numIrqs ≤ n
  | .register n _, .registered => ∃ handler, s.handlers[n]? = some (some handler)
  | .unregister n, .index => numIrqs ≤ n
  | .unregister n, .unregistered => s.handlers[n]? = some none
  | .readMask irq _, .irqRange => 16 ≤ irq
  | _, _ => False

/-- **What one step preserves**, and why it panics. -/
theorem Inv.perform (h : Inv s) {op : Op H} (hop : Enabled s op) :
    (∃ t, perform s op = .ok t ∧ Inv t) ∨ ∃ e, perform s op = .error e ∧ Misuse s op e := by
  cases op with
  | raise irq => exact .inl ⟨_, rfl, h.raise hop.1 hop.2⟩
  | lower irq => exact .inl ⟨_, rfl, h.lower hop.1⟩
  | interrupt withdrawn => exact .inl ⟨_, rfl, h.interrupt hop.1 withdrawn⟩
  | handle =>
      cases hphase : s.phase with
      | thread => exact absurd hphase hop.1
      | handler num =>
          obtain ⟨irq, requested, -, -, hhandle, hinv⟩ := h.callHandler hphase
          exact .inl ⟨_, hhandle, hinv⟩
      | eoi num =>
          obtain ⟨pics, hhandle, hinv⟩ := h.endIrq hphase
          exact .inl ⟨_, hhandle, hinv⟩
      | eoiMaster =>
          obtain ⟨pics, hhandle, hinv⟩ := h.endMaster hphase
          exact .inl ⟨_, hhandle, hinv⟩
      | ending => exact absurd hphase hop.2
  | leave enabled =>
      obtain ⟨uncalled, hin, hcalls⟩ := h.phase
      have hphase : s.phase = .ending := hop
      rw [hphase] at hin
      cases hin with
      | ending hidle =>
      exact .inl ⟨_, rfl, h.setPhase ⟨rfl, rfl⟩ (fun _ => rfl) (.thread hidle) hcalls⟩
  | setEnabled enabled =>
      obtain ⟨uncalled, hphase, hcalls⟩ := h.phase
      exact .inl ⟨_, rfl, h.setPhase ⟨rfl, rfl⟩ (fun _ => rfl) hphase hcalls⟩
  | register n handler =>
      have hperform : Irq.perform s (.register n handler) = s.registerIrq n handler := rfl
      rw [hperform, System.registerIrq]
      by_cases hn : n < s.handlers.length
      · rw [ensure_pos hn, ok_bind]
        by_cases hnone : s.handlers[n]?.join.isNone = true
        · rw [ensure_pos hnone, ok_bind]
          exact .inl ⟨_, rfl, h.setHandler n _⟩
        · rw [ensure_neg hnone, error_bind]
          refine .inr ⟨_, rfl, ?_⟩
          rw [Option.isNone_iff_eq_none] at hnone
          obtain ⟨handler', hjoin⟩ := Option.ne_none_iff_exists'.mp hnone
          exact ⟨handler', Option.join_eq_some_iff.mp hjoin⟩
      · rw [ensure_neg hn, error_bind]
        rw [h.handlers] at hn
        exact .inr ⟨_, rfl, Nat.not_lt.mp hn⟩
  | unregister n =>
      have hperform : Irq.perform s (.unregister n) = s.unregisterIrq n := rfl
      rw [hperform, System.unregisterIrq]
      by_cases hn : n < s.handlers.length
      · rw [ensure_pos hn, ok_bind]
        by_cases hsome : s.handlers[n]?.join.isSome = true
        · rw [ensure_pos hsome, ok_bind]
          exact .inl ⟨_, rfl, h.setHandler n _⟩
        · rw [ensure_neg hsome, error_bind]
          refine .inr ⟨_, rfl, ?_⟩
          rw [Bool.not_eq_true, Option.isSome_eq_false_iff, Option.isNone_iff_eq_none,
            List.getElem?_eq_getElem hn] at hsome
          exact (List.getElem?_eq_getElem hn).trans (congrArg some hsome)
      · rw [ensure_neg hn, error_bind]
        rw [h.handlers] at hn
        exact .inr ⟨_, rfl, Nat.not_lt.mp hn⟩
  | readMask irq masked =>
      have hperform : Irq.perform s (.readMask irq masked) =
        (Arch.readMask irq s.pics >>= fun imr =>
          .ok { s with masking := some (irq, masked, imr) }) := rfl
      rw [hperform]
      by_cases hirq : irq < 16
      · rw [Pics.readMask_eq _ hirq, ok_bind]
        refine .inl ⟨_, rfl, ⟨h.setUp, h.line, h.masks, fun irq' masked' imr heq => ?_, h.phase,
          h.requests, h.handlers⟩⟩
        obtain ⟨rfl, rest⟩ := Prod.mk.inj (Option.some.inj heq)
        obtain ⟨-, rfl⟩ := Prod.mk.inj rest
        exact ⟨hirq, rfl⟩
      · rw [Arch.readMask, ensure_neg hirq, error_bind, error_bind]
        exact .inr ⟨_, rfl, Nat.not_lt.mp hirq⟩
  | writeMask => exact .inl ⟨_, rfl, h.writeMask⟩

/-- **A step** keeps the invariant. -/
theorem Inv.step (h : Inv s) {op : Op H} (hstep : Step s op t) : Inv t := by
  rcases h.perform hstep.1 with ⟨t', ht', hinv⟩ | ⟨e, he, -⟩
  · obtain rfl := Except.ok.inj (ht'.symm.trans hstep.2)
    exact hinv
  · rw [hstep.2] at he
    cases he

/-- The controllers at boot: all lines but that of the slave are masked. -/
theorem boot_pics (pics : Pics) : (System.boot pics : System H).pics =
    ⟨⟨0, pics.master.isr, 0xfb, 0x20, 4, 1, .ready, false⟩,
      ⟨0, pics.slave.isr, 0xff, 0x28, 2, 1, .ready, false⟩⟩ := by
  rw [System.boot, remapPic_spec]
  rfl

/-- At boot nothing is requested. -/
theorem boot_pending (pics : Pics) (n : ℕ) (hn : n < 16) :
    (System.boot pics : System H).pics.pending n = false := by
  have hpending : ∀ n < 16, (if n < 8 then (0 : BitVec 8).getLsbD n
    else (0 : BitVec 8).getLsbD (n - 8)) = false := by decide
  rw [boot_pics]
  exact hpending n hn

/-- **At boot** the invariant holds, whatever mode the controllers were in, if nothing was in
service. -/
theorem inv_boot {pics : Pics} (hidle : pics.Idle) : Inv (System.boot pics : System H) where
  setUp := ⟨⟨rfl, rfl, rfl, rfl⟩, ⟨rfl, rfl, rfl, rfl⟩⟩
  line := boot_pending pics 2 (by decide)
  masks := fun n hn => by
    have hmasks : ∀ n < 16, (if n < 8 then (0xfb : BitVec 8).getLsbD n
      else (0xff : BitVec 8).getLsbD (n - 8)) = decide (n ≠ 2) := by decide
    rw [boot_pics]
    exact hmasks n hn
  masking := fun _ _ _ h => absurd h.symm (Option.some_ne_none _)
  phase := ⟨[], .thread ⟨hidle.master, hidle.slave⟩, rfl⟩
  requests := fun n hn => by
    rw [pendingCount, boot_pending pics n hn]
    rfl
  handlers := rfl

/-- What holds of the interrupts in a state. -/
structure IrqSound (s : System H) : Prop where
  /-- Between interrupts nothing is in service, and the handler of every interrupt that was taken
  was called once, in order. -/
  idle : s.phase = .thread → s.pics.Idle ∧ s.calls.map Prod.fst = s.taken.map Prod.fst
  /-- A request that was latched was taken, or withdrawn, or is still latched. -/
  requests : ∀ n < 16,
    s.latched n = s.taken.count (n, true) + s.withdrawn n + pendingCount s.pics n
  /-- The masks are as they were asked for. -/
  masks : ∀ n < 16, s.pics.masked n = s.masks n
  /-- What is taken was asked for and not masked, or is spurious; what is asked for is taken. -/
  takes : ∀ withdrawn, s.phase = .thread → ∃ irq requested, Takes s withdrawn irq requested
  /-- The handler that is called is that of the interrupt that was taken last. -/
  calls : ∀ num, s.phase = .handler num → ∃ irq requested t, num = irqsStart + irq ∧
    s.taken.getLast? = some (irq, requested) ∧ Step s .handle t ∧
    t.calls = s.calls ++ [(irq, s.handlers[irq]?.join)]
  /-- Nothing panics but a wrong use of the functions. -/
  panics : ∀ op e, Enabled s op → perform s op = .error e → Misuse s op e
  /-- An interrupt that was taken is left, by its own steps, with nothing in service. -/
  leaves : s.phase ≠ .thread → ∀ enabled, ∃ ops t, Runs Step s (ops ++ [.leave enabled]) t ∧
    (∀ op ∈ ops, op = .handle) ∧ t.phase = .thread ∧ t.pics.Idle

/-- A handler returns to the interrupted code. -/
theorem Inv.leaves (h : Inv s) (hphase : s.phase ≠ .thread) (enabled : Bool) :
    ∃ ops t, Runs Step s (ops ++ [.leave enabled]) t ∧ (∀ op ∈ ops, op = .handle) ∧
      t.phase = .thread ∧ t.pics.Idle := by
  have hending : ∀ {s : System H}, Inv s → s.phase = .ending → ∃ t,
      Runs Step s [.leave enabled] t ∧ t.phase = .thread ∧ t.pics.Idle := by
    intro s h hending
    have hstep : Step s (.leave enabled) { s with enabled := enabled, phase := .thread } :=
      ⟨hending, rfl⟩
    exact ⟨_, .cons hstep .refl, rfl, (h.step hstep).idle rfl⟩
  have hmaster : ∀ {s : System H}, Inv s → s.phase = .eoiMaster → ∃ t,
      Runs Step s [.handle, .leave enabled] t ∧ t.phase = .thread ∧ t.pics.Idle := by
    intro s h hmaster
    obtain ⟨pics, hhandle, hinv⟩ := h.endMaster hmaster
    obtain ⟨u, hruns, hu⟩ := hending hinv rfl
    refine ⟨u, .cons ⟨?_, hhandle⟩ hruns, hu⟩
    rw [Enabled, hmaster]
    exact ⟨Phase.noConfusion, Phase.noConfusion⟩
  have heoi : ∀ {s : System H} {num}, Inv s → s.phase = .eoi num → ∃ t,
      Runs Step s [.handle, .handle, .leave enabled] t ∧ t.phase = .thread ∧ t.pics.Idle := by
    intro s num h heoi
    obtain ⟨pics, hhandle, hinv⟩ := h.endIrq heoi
    obtain ⟨u, hruns, hu⟩ := hmaster hinv rfl
    refine ⟨u, .cons ⟨?_, hhandle⟩ hruns, hu⟩
    rw [Enabled, heoi]
    exact ⟨Phase.noConfusion, Phase.noConfusion⟩
  cases hs : s.phase with
  | thread => exact absurd hs hphase
  | handler num =>
      obtain ⟨irq, requested, -, -, hhandle, hinv⟩ := h.callHandler hs
      obtain ⟨u, hruns, hu⟩ := heoi hinv rfl
      refine ⟨[.handle, .handle, .handle], u, .cons ⟨?_, hhandle⟩ hruns, by simp, hu⟩
      rw [Enabled, hs]
      exact ⟨Phase.noConfusion, Phase.noConfusion⟩
  | eoi num =>
      obtain ⟨u, hruns, hu⟩ := heoi h hs
      exact ⟨[.handle, .handle], u, hruns, by simp, hu⟩
  | eoiMaster =>
      obtain ⟨u, hruns, hu⟩ := hmaster h hs
      exact ⟨[.handle], u, hruns, by simp, hu⟩
  | ending =>
      obtain ⟨u, hruns, hu⟩ := hending h hs
      exact ⟨[], u, hruns, by simp, hu⟩

/-- **The invariant** gives what holds of the interrupts. -/
theorem Inv.sound (h : Inv s) : IrqSound s where
  idle := fun hphase => by
    obtain ⟨uncalled, hin, hcalls⟩ := h.phase
    rw [hphase] at hin
    cases hin with
    | thread hidle => exact ⟨hidle, by rw [hcalls, List.append_nil]⟩
  requests := h.requests
  masks := h.masks
  takes := fun withdrawn hphase => h.takes hphase withdrawn
  calls := fun num hphase => by
    obtain ⟨irq, requested, hnum, hlast, hhandle, -⟩ := h.callHandler hphase
    refine ⟨irq, requested, _, hnum, hlast, ⟨?_, hhandle⟩, rfl⟩
    rw [Enabled, hphase]
    exact ⟨Phase.noConfusion, Phase.noConfusion⟩
  panics := fun op e hop he => by
    rcases h.perform hop with ⟨t, ht, -⟩ | ⟨e', he', hmisuse⟩
    · rw [ht] at he
      cases he
    · obtain rfl := Except.error.inj (he'.symm.trans he)
      exact hmisuse
  leaves := fun hphase enabled => h.leaves hphase enabled

/-- **The interrupts of devices**: in every state that is reached from boot, nothing is in service
between interrupts, every request that is taken leads to one call of the handler of its IRQ, in
order, none is lost, and nothing panics but a wrong use of the functions. -/
theorem irq_sound {pics : Pics} (hidle : pics.Idle) {ops : List (Op H)}
    (h : Runs Step (System.boot pics) ops s) : IrqSound s :=
  (h.invariant (inv_boot hidle) fun _ _ _ hinv hstep => hinv.step hstep).sound

/-! ### Handlers of the IRQs that are unmasked -/

/-- The IRQ has a handler. -/
def HasHandler (s : System H) (irq : ℕ) : Prop := s.handlers[irq]?.join.isSome = true

/-- What code does that has a handler for every IRQ while it is not masked: it unmasks an IRQ only
if there is one, and removes it only while the IRQ is masked. -/
def Careful (s : System H) : Op H → Prop
  | .writeMask => ∀ irq imr, s.masking = some (irq, false, imr) → HasHandler s irq
  | .unregister n => s.masks n = true
  | _ => True

/-- A step of such code. -/
def CarefulStep (s : System H) (op : Op H) (t : System H) : Prop := Careful s op ∧ Step s op t

/-- IRQs that are not masked have handlers, and so have those that are taken; the calls without a
handler are for what is spurious. -/
structure Handled (s : System H) : Prop where
  unmasked : ∀ irq < 16, irq ≠ 2 → s.masks irq = false → HasHandler s irq
  taken : ∀ num irq, s.phase = .handler num → s.taken.getLast? = some (irq, true) →
    HasHandler s irq
  spurious : ∀ irq, (irq, false) ∈ s.taken → irq = 7 ∨ irq = 15
  calls : ∀ i irq : ℕ, s.calls[i]? = some (irq, none) → s.taken[i]? = some (irq, false)

/-- The property of a state is one of its handlers, masks, and interrupts. -/
theorem Handled.congr (h : Handled s) (hhandlers : t.handlers = s.handlers)
    (hmasks : t.masks = s.masks) (hphase : t.phase = s.phase) (htaken : t.taken = s.taken)
    (hcalls : t.calls = s.calls) : Handled t := by
  refine ⟨?_, ?_, ?_, ?_⟩
  · unfold HasHandler
    rw [hhandlers, hmasks]
    exact h.unmasked
  · unfold HasHandler
    rw [hhandlers, hphase, htaken]
    exact h.taken
  · rw [htaken]
    exact h.spurious
  · rw [hcalls, htaken]
    exact h.calls

/-- Outside of handlers, the property is one of the masks and the interrupts. -/
theorem Handled.setPhase (h : Handled s) (hhandlers : t.handlers = s.handlers)
    (hmasks : t.masks = s.masks) (hphase : ∀ num, t.phase ≠ .handler num)
    (htaken : t.taken = s.taken) (hcalls : t.calls = s.calls) : Handled t := by
  refine ⟨?_, fun num _ hnum => absurd hnum (hphase num), ?_, ?_⟩
  · unfold HasHandler
    rw [hhandlers, hmasks]
    exact h.unmasked
  · rw [htaken]
    exact h.spurious
  · rw [hcalls, htaken]
    exact h.calls

/-- Registering and removing a handler leaves those of the other IRQs. -/
theorem HasHandler.set_ne {irq n : ℕ} (h : HasHandler s irq) (hne : n ≠ irq) (handler : Option H) :
    HasHandler { s with handlers := s.handlers.set n handler } irq := by
  rw [HasHandler]
  dsimp only
  rw [List.getElem?_set_ne hne]
  exact h

/-- The interrupted code is in no handler. -/
theorem ne_handler (h : s.phase = .thread) (num : ℕ) : s.phase ≠ .handler num := by
  rw [h]
  exact Phase.noConfusion

/-- **Taking an interrupt** of an IRQ that is not masked. -/
theorem Handled.interrupt (h : Handled s) (hinv : Inv s) (hphase : s.phase = .thread)
    (withdrawn : Bool) : Handled (s.interrupt withdrawn) := by
  obtain ⟨irq, requested, htakes⟩ := hinv.takes hphase withdrawn
  refine ⟨h.unmasked, fun num irq' _ hlast => ?_, fun irq' hmem => ?_, fun i irq' hcall => ?_⟩
  · rw [htakes.taken, List.getLast?_concat] at hlast
    obtain ⟨rfl, rfl⟩ := Prod.mk.inj (Option.some.inj hlast)
    obtain ⟨h2, hdeliverable⟩ := htakes.asked rfl
    exact h.unmasked irq htakes.range h2
      ((hinv.masks irq htakes.range).symm.trans hdeliverable.2.1)
  · rw [htakes.taken] at hmem
    rcases List.mem_append.mp hmem with hmem | hmem
    · exact h.spurious irq' hmem
    · obtain ⟨rfl, rfl⟩ := Prod.mk.inj (List.mem_singleton.mp hmem)
      exact (htakes.spurious rfl).imp And.left And.left
  · rw [htakes.taken]
    have hold := h.calls i irq' hcall
    rw [List.getElem?_append_left (List.getElem?_eq_some_iff.mp hold).1, hold]

/-- **Calling the handler** of what was taken. -/
theorem Handled.callHandler (h : Handled s) (hinv : Inv s) {num : ℕ}
    (hphase : s.phase = .handler num) (ht : s.handle = .ok t) : Handled t := by
  obtain ⟨irq, requested, rfl, hlast, hhandle, -⟩ := hinv.callHandler hphase
  obtain rfl := Except.ok.inj (hhandle.symm.trans ht)
  refine ⟨h.unmasked, fun num irq' hnum => absurd hnum Phase.noConfusion, h.spurious,
    fun i irq' hcall => ?_⟩
  rcases Nat.lt_or_ge i s.calls.length with hi | hi
  · rw [List.getElem?_append_left hi] at hcall
    exact h.calls i irq' hcall
  · obtain ⟨uncalled, hin, hcalls⟩ := hinv.phase
    have hlength : uncalled.length = 1 := by
      generalize s.phase = phase at hin hphase
      cases hin with
      | handler => rfl
      | _ => cases hphase
    have htaken : s.taken.length = s.calls.length + 1 := by
      have hmap := congrArg List.length hcalls
      rw [List.length_append, List.length_map, List.length_map, hlength] at hmap
      exact hmap
    rw [List.getElem?_append_right hi] at hcall
    have hzero : i - s.calls.length = 0 := by
      have hlt := (List.getElem?_eq_some_iff.mp hcall).1
      exact Nat.lt_one_iff.mp hlt
    rw [hzero, List.getElem?_cons_zero] at hcall
    obtain ⟨rfl, hnone⟩ := Prod.mk.inj (Option.some.inj hcall)
    have hi' : i = s.taken.length - 1 := by omega
    rw [hi', ← List.getLast?_eq_getElem?, hlast]
    cases requested with
    | false => rfl
    | true =>
        have hhandler := h.taken _ irq hphase hlast
        rw [HasHandler, hnone] at hhandler
        exact absurd hhandler Bool.false_ne_true

/-- **A step** of careful code keeps the property. -/
theorem Handled.step (h : Handled s) (hinv : Inv s) {op : Op H} (hstep : CarefulStep s op t) :
    Handled t := by
  obtain ⟨hcareful, hop, hperform⟩ := hstep
  cases op with
  | raise irq =>
      obtain rfl := Except.ok.inj hperform
      exact h.congr rfl rfl rfl rfl rfl
  | lower irq =>
      obtain rfl := Except.ok.inj hperform
      exact h.congr rfl rfl rfl rfl rfl
  | interrupt withdrawn =>
      obtain rfl := Except.ok.inj hperform
      exact h.interrupt hinv hop.1 withdrawn
  | handle =>
      cases hphase : s.phase with
      | thread => exact absurd hphase hop.1
      | handler num => exact h.callHandler hinv hphase hperform
      | eoi num =>
          obtain ⟨pics, hhandle, -⟩ := hinv.endIrq hphase
          obtain rfl := Except.ok.inj (hhandle.symm.trans hperform)
          exact h.setPhase rfl rfl (fun _ => Phase.noConfusion) rfl rfl
      | eoiMaster =>
          obtain ⟨pics, hhandle, -⟩ := hinv.endMaster hphase
          obtain rfl := Except.ok.inj (hhandle.symm.trans hperform)
          exact h.setPhase rfl rfl (fun _ => Phase.noConfusion) rfl rfl
      | ending => exact absurd hphase hop.2
  | leave enabled =>
      obtain rfl := Except.ok.inj hperform
      exact h.setPhase rfl rfl (fun _ => Phase.noConfusion) rfl rfl
  | setEnabled enabled =>
      obtain rfl := Except.ok.inj hperform
      exact h.congr rfl rfl rfl rfl rfl
  | register n handler =>
      obtain ⟨hn, hperform⟩ := ensure_bind_eq_ok.mp hperform
      obtain ⟨-, hperform⟩ := ensure_bind_eq_ok.mp hperform
      obtain rfl := Except.ok.inj hperform
      refine ⟨fun irq hirq h2 hmask => ?_, fun num irq hnum => absurd hnum (ne_handler hop num),
        h.spurious, h.calls⟩
      by_cases heq : n = irq
      · subst heq
        rw [HasHandler]
        dsimp only
        rw [List.getElem?_set_self hn]
        rfl
      · exact (h.unmasked irq hirq h2 hmask).set_ne heq _
  | unregister n =>
      obtain ⟨hn, hperform⟩ := ensure_bind_eq_ok.mp hperform
      obtain ⟨-, hperform⟩ := ensure_bind_eq_ok.mp hperform
      obtain rfl := Except.ok.inj hperform
      refine ⟨fun irq hirq h2 hmask => ?_, fun num irq hnum => absurd hnum (ne_handler hop num),
        h.spurious, h.calls⟩
      refine (h.unmasked irq hirq h2 hmask).set_ne ?_ _
      rintro rfl
      have hmasked : s.masks n = true := hcareful
      rw [hmasked] at hmask
      exact absurd hmask.symm Bool.false_ne_true
  | readMask irq masked =>
      obtain ⟨imr, -, hperform⟩ := bind_eq_ok.mp hperform
      obtain rfl := Except.ok.inj hperform
      exact h.congr rfl rfl rfl rfl rfl
  | writeMask =>
      obtain rfl := Except.ok.inj hperform
      rw [System.writeMask]
      split
      · exact h
      · rename_i irq masked imr hmasking
        refine ⟨fun irq' hirq h2 hmask => ?_, h.taken, h.spurious, h.calls⟩
        dsimp only at hmask
        by_cases heq : irq' = irq
        · subst heq
          rw [Function.update_self] at hmask
          subst hmask
          exact hcareful irq' imr hmasking
        · rw [Function.update_of_ne heq] at hmask
          exact h.unmasked irq' hirq h2 hmask

/-- **No request goes without a handler**: if IRQs are unmasked only while they have a handler, a
warning about an unhandled IRQ is a spurious request at the last line of a controller. -/
theorem irq_handled {pics : Pics} (hidle : pics.Idle) {ops : List (Op H)}
    (h : Runs CarefulStep (System.boot pics) ops s) {i irq : ℕ}
    (hcall : s.calls[i]? = some (irq, none)) :
    s.taken[i]? = some (irq, false) ∧ (irq = 7 ∨ irq = 15) := by
  have hboot : Handled (System.boot pics : System H) := by
    refine ⟨fun irq _ h2 hmask => absurd hmask ?_, fun num irq hnum => absurd hnum ?_,
      fun irq hmem => absurd hmem List.not_mem_nil, fun i irq hcall => ?_⟩
    · have hmasks : (System.boot pics : System H).masks irq = decide (irq ≠ 2) := rfl
      rw [hmasks, decide_eq_true h2]
      exact fun h => absurd h.symm Bool.false_ne_true
    · exact Phase.noConfusion
    · exact absurd hcall.symm (Option.some_ne_none _)
  have hboth : Inv s ∧ Handled s := by
    refine h.invariant (P := fun s => Inv s ∧ Handled s) ⟨inv_boot hidle, hboot⟩ ?_
    rintro s op t ⟨hinv, hhandled⟩ hstep
    exact ⟨hinv.step hstep.2, hhandled.step hinv hstep⟩
  have hhandled := hboth.2
  have htaken := hhandled.calls i irq hcall
  exact ⟨htaken, hhandled.spurious irq (List.mem_of_getElem? htaken)⟩

/-- The controllers after power on. -/
def powerOn : Pics := ⟨⟨0, 0, 0, 0, 0, 0, .ready, false⟩, ⟨0, 0, 0, 0, 0, 0, .ready, false⟩⟩

/-- The operations that set up the handler of the keyboard, and an interrupt. -/
def keyOps : List (Op ℕ) :=
  [.register 1 7, .readMask 1 false, .writeMask, .setEnabled true, .raise 1, .interrupt false,
    .handle, .handle, .handle, .leave true]

/-- The handler of the keyboard is called for its interrupt. -/
theorem irq_sound_key : ∃ s : System ℕ, Runs Step (System.boot powerOn) keyOps s ∧
    s.calls = [(1, some 7)] ∧ IrqSound s := by
  obtain ⟨s, hruns, hcalls⟩ : ∃ s : System ℕ, Runs Step (System.boot powerOn) keyOps s ∧
      s.calls = [(1, some 7)] :=
    ⟨_, .cons ⟨rfl, rfl⟩ (.cons ⟨⟨rfl, rfl⟩, rfl⟩ (.cons ⟨⟨rfl, Option.some_ne_none _⟩, rfl⟩
      (.cons ⟨rfl, rfl⟩ (.cons ⟨⟨by decide, by decide⟩, rfl⟩ (.cons ⟨⟨rfl, rfl⟩, rfl⟩
      (.cons ⟨⟨Phase.noConfusion, Phase.noConfusion⟩, rfl⟩
      (.cons ⟨⟨Phase.noConfusion, Phase.noConfusion⟩, rfl⟩
      (.cons ⟨⟨Phase.noConfusion, Phase.noConfusion⟩, rfl⟩
      (.cons ⟨rfl, rfl⟩ .refl))))))))), rfl⟩
  exact ⟨s, hruns, hcalls, irq_sound ⟨rfl, rfl⟩ hruns⟩

/-- A spurious interrupt without a handler. -/
theorem irq_handled_spurious : ∃ s : System ℕ,
    Runs CarefulStep (System.boot powerOn) [.setEnabled true, .interrupt false, .handle] s ∧
    s.calls[0]? = some (7, none) ∧ s.taken[0]? = some (7, false) := by
  obtain ⟨s, hruns, hcall⟩ : ∃ s : System ℕ,
      Runs CarefulStep (System.boot powerOn) [.setEnabled true, .interrupt false, .handle] s ∧
      s.calls[0]? = some (7, none) :=
    ⟨_, .cons ⟨trivial, rfl, rfl⟩ (.cons ⟨trivial, ⟨rfl, rfl⟩, rfl⟩
      (.cons ⟨trivial, ⟨Phase.noConfusion, Phase.noConfusion⟩, rfl⟩ .refl)), rfl⟩
  exact ⟨s, hruns, hcall, (irq_handled ⟨rfl, rfl⟩ hruns hcall).1⟩

end HydroxKernel.Arch.Irq
