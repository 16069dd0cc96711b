import HydroxKernel.Lib.Assert
import Mathlib.Data.List.Basic

/-!
# The Interrupt Controllers

Two 8259 controllers pass the requests of devices to the processor. A controller latches a request
in a bit of its IRR when the line of the device rises, and serves the unmasked request of the lowest
number if that is lower than all in service. The processor acknowledges a request, which moves its
bit from the IRR to the ISR, and gets a vector; the kernel then ends it by a command. The
requests of the second controller, the slave, arrive at the first one, the master, at its line 2.

A request can be withdrawn before it is acknowledged. A controller that has none left answers with
its line 7 and puts nothing in service, which is a spurious request.

The first half of the module is the hardware, as far as the kernel's commands use it: rotating
priorities, polling and the special modes are left out. The second half is the kernel's driver.

## Main results

* `remapPic_spec`: what the kernel leaves the controllers in at boot.
* `acknowledge_spec`: what the processor can get while nothing is in service.
* `getLsbD_readIsr`: `read_isr` reads the masks.
-/

namespace HydroxKernel.Arch

/-! ### A controller -/

/-- What a controller expects at its data port: a mask, or the rest of its initialization. -/
inductive PicInit
  | ready
  /-- The offset of the vectors, then ICW3 unless there is one controller only, and ICW4 if
  announced. -/
  | icw2 (single icw4 : Bool)
  | icw3 (icw4 : Bool)
  | icw4
  deriving DecidableEq

/-- A controller: requests, those in service, the mask, ICW2 to ICW4, what it expects at its data
port, and whether its command port reads the ISR. -/
structure Pic where
  irr : BitVec 8
  isr : BitVec 8
  imr : BitVec 8
  offset : BitVec 8
  cascade : BitVec 8
  mode : BitVec 8
  init : PicInit
  readIsr : Bool
  deriving DecidableEq

/-- The bit of a line. -/
def lineBit (i : ℕ) : BitVec 8 := 1#8 <<< i

/-- The first line whose bit is set. -/
def firstLine (b : BitVec 8) : Option ℕ := (List.range 8).find? fun i => b.getLsbD i

/-- What follows in the initialization before ICW4. -/
def PicInit.beforeIcw4 (icw4 : Bool) : PicInit := if icw4 then .icw4 else .ready

namespace Pic

/-- A byte is written to the command port. -/
def writeCommand (p : Pic) (b : BitVec 8) : Pic :=
  if b.getLsbD 4 then
    { p with
      irr := 0
      imr := 0
      mode := if b.getLsbD 0 then p.mode else 0
      init := .icw2 (b.getLsbD 1) (b.getLsbD 0)
      readIsr := false }
  else if b.getLsbD 3 then
    if b.getLsbD 1 then { p with readIsr := b.getLsbD 0 } else p
  else if b.getLsbD 5 then
    if b.getLsbD 6 then { p with isr := p.isr &&& ~~~lineBit (b.toNat % 8) }
    else
      match firstLine p.isr with
      | some i => { p with isr := p.isr &&& ~~~lineBit i }
      | none => p
  else p

/-- A byte is written to the data port. -/
def writeData (p : Pic) (b : BitVec 8) : Pic :=
  match p.init with
  | .ready => { p with imr := b }
  | .icw2 single icw4 =>
      { p with offset := b, init := if single then .beforeIcw4 icw4 else .icw3 icw4 }
  | .icw3 icw4 => { p with cascade := b, init := .beforeIcw4 icw4 }
  | .icw4 => { p with mode := b, init := .ready }

/-- The command port is read. -/
def readCommand (p : Pic) : BitVec 8 := if p.readIsr then p.isr else p.irr

/-- The data port is read. -/
def readData (p : Pic) : BitVec 8 := p.imr

/-- The request that the controller makes, with its lines. -/
def request (p : Pic) (lines : BitVec 8) : Option ℕ :=
  (firstLine (lines &&& ~~~p.imr)).filter fun i =>
    ((firstLine p.isr).map fun j => decide (i < j)).getD true

/-- The vector of a line: the low bits of the offset are not used. -/
def vector (p : Pic) (i : ℕ) : ℕ := p.offset.toNat / 8 * 8 + i

/-- A request is acknowledged. It is in service, unless the controller ends it by itself. -/
def serve (p : Pic) (i : ℕ) : Pic :=
  { p with
    irr := p.irr &&& ~~~lineBit i
    isr := if p.mode.getLsbD 1 then p.isr else p.isr ||| lineBit i }

end Pic

/-! ### The two controllers -/

/-- `MASTER_PIC_COMMAND_PORT`. -/
def masterPicCommandPort : BitVec 16 := 0x20

/-- `MASTER_PIC_DATA_PORT`. -/
def masterPicDataPort : BitVec 16 := 0x21

/-- `SLAVE_PIC_COMMAND_PORT`. -/
def slavePicCommandPort : BitVec 16 := 0xA0

/-- `SLAVE_PIC_DATA_PORT`. -/
def slavePicDataPort : BitVec 16 := 0xA1

/-- The master and the slave. -/
structure Pics where
  master : Pic
  slave : Pic
  deriving DecidableEq

namespace Pics

/-- A byte is written to a port. -/
def write (s : Pics) (port : BitVec 16) (b : BitVec 8) : Pics :=
  if port = masterPicCommandPort then { s with master := s.master.writeCommand b }
  else if port = masterPicDataPort then { s with master := s.master.writeData b }
  else if port = slavePicCommandPort then { s with slave := s.slave.writeCommand b }
  else if port = slavePicDataPort then { s with slave := s.slave.writeData b }
  else s

/-- A port is read. -/
def read (s : Pics) (port : BitVec 16) : BitVec 8 :=
  if port = masterPicCommandPort then s.master.readCommand
  else if port = masterPicDataPort then s.master.readData
  else if port = slavePicCommandPort then s.slave.readCommand
  else if port = slavePicDataPort then s.slave.readData
  else 0xff

/-- The requests at the master: those that it latched, and that of the slave. -/
def masterLines (s : Pics) : BitVec 8 :=
  s.master.irr ||| if (s.slave.request s.slave.irr).isSome then lineBit 2 else 0

/-- The processor acknowledges a request and gets its vector. The request of the slave may be
`withdrawn` after the master saw it. If no slave has the number that the master sends, no one
answers. -/
def acknowledge (s : Pics) (withdrawn : Bool) : ℕ × Pics :=
  match s.master.request s.masterLines with
  | none => (s.master.vector 7, s)
  | some i =>
      let t := { s with master := s.master.serve i }
      if s.master.cascade.getLsbD i then
        if s.slave.cascade.toNat % 8 = i then
          match if withdrawn then none else s.slave.request s.slave.irr with
          | none => (s.slave.vector 7, t)
          | some j => (s.slave.vector j, { t with slave := s.slave.serve j })
        else (0xff, t)
      else (s.master.vector i, t)

/-- The request of a line is latched. -/
def pending (s : Pics) (irq : ℕ) : Bool :=
  if irq < 8 then s.master.irr.getLsbD irq else s.slave.irr.getLsbD (irq - 8)

/-- The line is masked. -/
def masked (s : Pics) (irq : ℕ) : Bool :=
  if irq < 8 then s.master.imr.getLsbD irq else s.slave.imr.getLsbD (irq - 8)

/-- The line of a device rises. -/
def raise (s : Pics) (irq : ℕ) : Pics :=
  if irq < 8 then { s with master := { s.master with irr := s.master.irr ||| lineBit irq } }
  else { s with slave := { s.slave with irr := s.slave.irr ||| lineBit (irq - 8) } }

/-- The line of a device falls before its request is acknowledged. -/
def lower (s : Pics) (irq : ℕ) : Pics :=
  if irq < 8 then { s with master := { s.master with irr := s.master.irr &&& ~~~lineBit irq } }
  else { s with slave := { s.slave with irr := s.slave.irr &&& ~~~lineBit (irq - 8) } }

end Pics

/-! ### The driver -/

/-- The panics of the driver and of the dispatch of interrupts. -/
inductive IrqPanic
  /-- `assert!(irq < 0x10)`. -/
  | irqRange
  /-- An index into the handlers is out of range. -/
  | index
  /-- `assert!(handlers[n].is_none())`. -/
  | registered
  /-- `assert!(handlers[n].is_some())`. -/
  | unregistered
  /-- "Unhandled exception". -/
  | unhandledException
  deriving DecidableEq

/-- The port that `io_wait` writes to. -/
def ioWaitPort : BitVec 16 := 0x80

/-- The writes of `remap_pic`, with the masks that it read. -/
def remapWrites (masterOff slaveOff masterMask slaveMask : BitVec 8) :
    List (BitVec 16 × BitVec 8) :=
  [(masterPicCommandPort, 0x11), (ioWaitPort, 0), (slavePicCommandPort, 0x11), (ioWaitPort, 0),
    (masterPicDataPort, masterOff), (ioWaitPort, 0), (slavePicDataPort, slaveOff), (ioWaitPort, 0),
    (masterPicDataPort, 0x04), (ioWaitPort, 0), (slavePicDataPort, 0x02), (ioWaitPort, 0),
    (masterPicDataPort, 0x01), (ioWaitPort, 0), (slavePicDataPort, 0x01), (ioWaitPort, 0),
    (masterPicDataPort, masterMask), (slavePicDataPort, slaveMask)]

/-- `remap_pic`. -/
def remapPic (masterOff slaveOff : BitVec 8) (s : Pics) : Pics :=
  (remapWrites masterOff slaveOff (s.read masterPicDataPort) (s.read slavePicDataPort)).foldl
    (fun s w => s.write w.1 w.2) s

/-- `mask_all_irqs`. -/
def maskAllIrqs (s : Pics) : Pics :=
  (s.write masterPicDataPort 0xfb).write slavePicDataPort 0xff

/-- The data port of the controller of an IRQ. -/
def picDataPort (irq : ℕ) : BitVec 16 := if irq > 7 then slavePicDataPort else masterPicDataPort

/-- What `set_irq_masked` writes, with the mask that it read. -/
def newMask (irq : ℕ) (masked : Bool) (imr : BitVec 8) : BitVec 8 :=
  if masked then imr ||| lineBit (irq % 8) else imr &&& ~~~lineBit (irq % 8)

/-- `set_irq_masked` up to its read. -/
def readMask (irq : ℕ) (s : Pics) : Except IrqPanic (BitVec 8) := do
  ensure (irq < 0x10) .irqRange
  return s.read (picDataPort irq)

/-- `set_irq_masked` from its write. -/
def writeMask (irq : ℕ) (masked : Bool) (imr : BitVec 8) (s : Pics) : Pics :=
  s.write (picDataPort irq) (newMask irq masked imr)

/-- `read_isr`. -/
def readIsr (s : Pics) : BitVec 16 × Pics :=
  let s := (s.write masterPicCommandPort 0x0A).write slavePicCommandPort 0x0A
  ((s.read masterPicDataPort).setWidth 16 ||| (s.read slavePicDataPort).setWidth 16 <<< 8, s)

/-- The command that ends the first request in service. -/
def picEoi : BitVec 8 := 0x20

/-- `send_eoi` up to the write to the master. -/
def sendEoiSlave (irq : ℕ) (s : Pics) : Except IrqPanic Pics := do
  ensure (irq < 0x10) .irqRange
  return if irq > 7 then s.write slavePicCommandPort picEoi else s

/-- `send_eoi` from the write to the master. -/
def sendEoiMaster (s : Pics) : Pics := s.write masterPicCommandPort picEoi

/-! ### Bits of lines -/

/-- The bit of a line is that of no other one. -/
theorem getLsbD_lineBit {i j : ℕ} (hi : i < 8) : (lineBit i).getLsbD j = decide (i = j) := by
  rw [lineBit, ← BitVec.twoPow_eq, BitVec.getLsbD_twoPow]
  simp [hi]

/-- Clearing the bit of a line leaves those of the others. -/
theorem getLsbD_clear {b : BitVec 8} {i j : ℕ} (hi : i < 8) :
    (b &&& ~~~lineBit i).getLsbD j = (b.getLsbD j && !decide (i = j)) := by
  rw [BitVec.getLsbD_and, BitVec.getLsbD_not, getLsbD_lineBit hi]
  by_cases hj : j < 8
  · simp [hj]
  · rw [BitVec.getLsbD_of_ge _ _ (Nat.not_lt.mp hj), Bool.false_and, Bool.false_and]

/-- Setting the bit of a line leaves those of the others. -/
theorem getLsbD_set {b : BitVec 8} {i j : ℕ} (hi : i < 8) :
    (b ||| lineBit i).getLsbD j = (b.getLsbD j || decide (i = j)) := by
  rw [BitVec.getLsbD_or, getLsbD_lineBit hi]

/-- A line that is first is one whose bit is set. -/
theorem firstLine_eq_some {b : BitVec 8} {i : ℕ} (h : firstLine b = some i) :
    i < 8 ∧ b.getLsbD i = true :=
  ⟨List.mem_range.mp (List.mem_of_find?_eq_some h), List.find?_some h⟩

/-- There is a first line if there is any. -/
theorem isSome_firstLine {b : BitVec 8} {i : ℕ} (h : b.getLsbD i = true) :
    (firstLine b).isSome = true := by
  refine List.find?_isSome.mpr ⟨i, List.mem_range.mpr ?_, h⟩
  exact BitVec.lt_of_getLsbD h

/-- Of one line, that line is the first. -/
theorem firstLine_lineBit : ∀ i < 8, firstLine (lineBit i) = some i := by decide

/-! ### What the commands do -/

/-- A controller that is set up with an offset and ICW3, in the mode that `remap_pic` chooses. -/
structure Pic.SetUp (p : Pic) (offset cascade : BitVec 8) : Prop where
  init : p.init = .ready
  offset : p.offset = offset
  cascade : p.cascade = cascade
  mode : p.mode = 1

/-- The controllers are set up as the kernel sets them up. -/
structure Pics.SetUp (s : Pics) : Prop where
  master : s.master.SetUp 0x20 4
  slave : s.slave.SetUp 0x28 2

/-- **Remapping** sets both controllers up and keeps their masks, whatever they expected before.
No request remains. -/
theorem remapPic_spec (masterOff slaveOff : BitVec 8) (s : Pics) :
    remapPic masterOff slaveOff s =
      ⟨⟨0, s.master.isr, s.master.imr, masterOff, 4, 1, .ready, false⟩,
        ⟨0, s.slave.isr, s.slave.imr, slaveOff, 2, 1, .ready, false⟩⟩ := rfl

/-- **`read_isr` reads the masks**: its command selects the IRR, and that at another port. -/
theorem getLsbD_readIsr (s : Pics) {irq : ℕ} (hirq : irq < 16) :
    (readIsr s).1.getLsbD irq = s.masked irq := by
  have heq : (readIsr s).1 = s.master.imr.setWidth 16 ||| s.slave.imr.setWidth 16 <<< 8 := rfl
  rw [heq, BitVec.getLsbD_or, BitVec.getLsbD_shiftLeft, BitVec.getLsbD_setWidth,
    BitVec.getLsbD_setWidth, Pics.masked]
  by_cases h : irq < 8
  · simp [h, hirq]
  · rw [if_neg h, BitVec.getLsbD_of_ge _ irq (Nat.not_lt.mp h)]
    have hlt : irq - 8 < 16 := by omega
    simp [h, hirq, hlt]

/-- Ending a request that alone is in service leaves none. -/
theorem writeCommand_eoi {p : Pic} {i : ℕ} (hi : i < 8) (h : p.isr = lineBit i) :
    p.writeCommand picEoi = { p with isr := 0 } := by
  have heoi : p.writeCommand picEoi = match firstLine p.isr with
      | some i => { p with isr := p.isr &&& ~~~lineBit i }
      | none => p := rfl
  rw [heoi, h, firstLine_lineBit i hi]
  dsimp only
  rw [BitVec.and_not_self]

/-- Without a request in service, ending one does nothing. -/
theorem writeCommand_eoi_zero {p : Pic} (h : p.isr = 0) : p.writeCommand picEoi = p := by
  have heoi : p.writeCommand picEoi = match firstLine p.isr with
      | some i => { p with isr := p.isr &&& ~~~lineBit i }
      | none => p := rfl
  rw [heoi, h]
  rfl

/-! ### What the processor gets -/

/-- Nothing is in service. -/
structure Pics.Idle (s : Pics) : Prop where
  master : s.master.isr = 0
  slave : s.slave.isr = 0

/-- A request can be acknowledged: it is latched and not masked, and the line of the slave is not
masked either if the request is at the slave. -/
def Pics.Deliverable (s : Pics) (irq : ℕ) : Prop :=
  s.pending irq = true ∧ s.masked irq = false ∧ (8 ≤ irq → s.masked 2 = false)

/-- The request is put in service, or a spurious one is answered. -/
def Pics.served (s : Pics) (irq : ℕ) (requested : Bool) : Pics :=
  if irq < 8 then if requested then { s with master := s.master.serve irq } else s
  else
    { master := s.master.serve 2
      slave := if requested then s.slave.serve (irq - 8) else s.slave }

/-- Without a request in service, the first unmasked one is made. -/
theorem Pic.request_idle {p : Pic} (h : p.isr = 0) (lines : BitVec 8) :
    p.request lines = firstLine (lines &&& ~~~p.imr) := by
  have hfirst : firstLine 0 = none := rfl
  rw [Pic.request, h, hfirst]
  cases firstLine (lines &&& ~~~p.imr) <;> rfl

/-- A request that is made is latched and not masked. -/
theorem Pic.request_some {p : Pic} (h : p.isr = 0) {lines : BitVec 8} {i : ℕ}
    (hi : p.request lines = some i) :
    i < 8 ∧ lines.getLsbD i = true ∧ p.imr.getLsbD i = false := by
  rw [p.request_idle h] at hi
  obtain ⟨hlt, hbit⟩ := firstLine_eq_some hi
  rw [BitVec.getLsbD_and, BitVec.getLsbD_not, Bool.and_eq_true, Bool.and_eq_true,
    Bool.not_eq_true'] at hbit
  exact ⟨hlt, hbit.1, hbit.2.2⟩

/-- An unmasked request leads to a request that is made. -/
theorem Pic.isSome_request {p : Pic} (h : p.isr = 0) {lines : BitVec 8} {i : ℕ}
    (hline : lines.getLsbD i = true) (hmask : p.imr.getLsbD i = false) :
    (p.request lines).isSome = true := by
  rw [p.request_idle h]
  have hlt : i < 8 := BitVec.lt_of_getLsbD hline
  refine isSome_firstLine (i := i) ?_
  rw [BitVec.getLsbD_and, BitVec.getLsbD_not, hline, hmask]
  simp [hlt]

/-- The lines at the master: its own, and that of the slave. -/
theorem getLsbD_masterLines {s : Pics} (h2 : s.master.irr.getLsbD 2 = false) (i : ℕ) :
    s.masterLines.getLsbD i =
      if i = 2 then (s.slave.request s.slave.irr).isSome else s.master.irr.getLsbD i := by
  rw [Pics.masterLines, BitVec.getLsbD_or]
  by_cases hi : i = 2
  · subst hi
    rw [h2, if_pos rfl, Bool.false_or]
    cases (s.slave.request s.slave.irr).isSome <;> rfl
  · rw [if_neg hi]
    cases (s.slave.request s.slave.irr).isSome
    · exact (congrArg _ BitVec.getLsbD_zero).trans (Bool.or_false _)
    · rw [if_pos rfl, getLsbD_lineBit (by omega), decide_eq_false (Ne.symm hi), Bool.or_false]

/-- **What the processor gets** while nothing is in service: the vector of a request that can be
acknowledged, or a spurious one. A request that can be acknowledged is not missed, unless that of
the slave is withdrawn. -/
theorem acknowledge_spec {s : Pics} (hset : s.SetUp) (hidle : s.Idle)
    (h2 : s.master.irr.getLsbD 2 = false) (withdrawn : Bool) :
    ∃ irq requested, irq < 16 ∧ s.acknowledge withdrawn = (0x20 + irq, s.served irq requested) ∧
      (requested = true → irq ≠ 2 ∧ s.Deliverable irq) ∧
      (requested = false → (irq = 7 ∧ ∀ n, ¬ s.Deliverable n) ∨ irq = 15 ∧ withdrawn = true) := by
  have hvector : ∀ i, s.master.vector i = 0x20 + i := fun i => by
    rw [Pic.vector, hset.master.offset]
    rfl
  have hvector' : ∀ i, s.slave.vector i = 0x20 + (8 + i) := fun i => by
    rw [Pic.vector, hset.slave.offset, ← Nat.add_assoc]
    rfl
  rw [Pics.acknowledge]
  cases hreq : s.master.request s.masterLines with
  | none =>
      refine ⟨7, false, by omega, ?_, fun h => absurd h Bool.false_ne_true, fun _ => .inl ⟨rfl, ?_⟩⟩
      · dsimp only
        rw [hvector]
        rfl
      · rintro n ⟨hpending, hmasked, hcascade⟩
        rw [Pics.pending] at hpending
        rw [Pics.masked] at hmasked
        have hsome : (s.master.request s.masterLines).isSome = true := by
          by_cases hn : n < 8
          · rw [if_pos hn] at hpending hmasked
            refine Pic.isSome_request hidle.master ?_ hmasked
            rw [getLsbD_masterLines h2, if_neg, hpending]
            rintro rfl
            rw [h2] at hpending
            exact absurd hpending Bool.false_ne_true
          · rw [if_neg hn] at hpending hmasked
            refine Pic.isSome_request (i := 2) hidle.master ?_ (hcascade (Nat.not_lt.mp hn))
            rw [getLsbD_masterLines h2, if_pos rfl]
            exact Pic.isSome_request hidle.slave hpending hmasked
        rw [hreq] at hsome
        exact absurd hsome Bool.false_ne_true
  | some i =>
      obtain ⟨hi, hline, hmask⟩ := Pic.request_some hidle.master hreq
      rw [getLsbD_masterLines h2] at hline
      dsimp only
      rw [hset.master.cascade, hset.slave.cascade]
      by_cases hi2 : i = 2
      · subst hi2
        rw [if_pos rfl] at hline
        obtain ⟨j, hj⟩ := Option.isSome_iff_exists.mp hline
        obtain ⟨hj8, hjline, hjmask⟩ := Pic.request_some hidle.slave hj
        rw [if_pos (by rfl), if_pos (by rfl), hj]
        cases withdrawn with
        | true =>
            refine ⟨15, false, by omega, ?_, fun h => absurd h Bool.false_ne_true,
              fun _ => .inr ⟨rfl, rfl⟩⟩
            rw [if_pos rfl]
            dsimp only
            rw [hvector']
            rfl
        | false =>
            refine ⟨8 + j, true, by omega, ?_, fun _ => ⟨by omega, ?_, ?_, fun _ => hmask⟩,
              fun h => absurd h.symm Bool.false_ne_true⟩
            · rw [if_neg Bool.false_ne_true]
              dsimp only
              rw [hvector', Pics.served, if_neg (by omega), if_pos rfl, Nat.add_sub_cancel_left]
            · rw [Pics.pending, if_neg (by omega), Nat.add_sub_cancel_left, hjline]
            · rw [Pics.masked, if_neg (by omega), Nat.add_sub_cancel_left, hjmask]
      · rw [if_neg hi2] at hline
        have hcascade : (4 : BitVec 8).getLsbD i = false := by
          have hbit : (4 : BitVec 8) = lineBit 2 := rfl
          rw [hbit, getLsbD_lineBit (by omega)]
          exact decide_eq_false (Ne.symm hi2)
        rw [hcascade, if_neg Bool.false_ne_true]
        refine ⟨i, true, by omega, ?_, fun _ => ⟨hi2, ?_, ?_, fun h => absurd hi (by omega)⟩,
          fun h => absurd h.symm Bool.false_ne_true⟩
        · rw [hvector, Pics.served, if_pos hi, if_pos rfl]
        · rw [Pics.pending, if_pos hi, hline]
        · rw [Pics.masked, if_pos hi, hmask]

/-! ### What an operation keeps -/

/-- A controller without what is requested and in service. -/
def Pic.settings (p : Pic) : Pic := { p with irr := 0, isr := 0 }

/-- The states differ in what is requested and in service only. -/
structure Pics.SameSettings (s t : Pics) : Prop where
  master : t.master.settings = s.master.settings
  slave : t.slave.settings = s.slave.settings

namespace Pics

variable {s t : Pics} {irq n : ℕ}

/-- The controllers remain set up. -/
theorem SameSettings.setUp (h : SameSettings s t) (hs : s.SetUp) : t.SetUp :=
  ⟨⟨(congrArg Pic.init h.master).trans hs.master.init,
      (congrArg Pic.offset h.master).trans hs.master.offset,
      (congrArg Pic.cascade h.master).trans hs.master.cascade,
      (congrArg Pic.mode h.master).trans hs.master.mode⟩,
    ⟨(congrArg Pic.init h.slave).trans hs.slave.init,
      (congrArg Pic.offset h.slave).trans hs.slave.offset,
      (congrArg Pic.cascade h.slave).trans hs.slave.cascade,
      (congrArg Pic.mode h.slave).trans hs.slave.mode⟩⟩

/-- The same lines are masked. -/
theorem SameSettings.masked (h : SameSettings s t) (n : ℕ) : t.masked n = s.masked n := by
  have hm : t.master.settings.imr = s.master.settings.imr := congrArg Pic.imr h.master
  have hs : t.slave.settings.imr = s.slave.settings.imr := congrArg Pic.imr h.slave
  have hm' : t.master.imr = s.master.imr := hm
  have hs' : t.slave.imr = s.slave.imr := hs
  rw [Pics.masked, Pics.masked, hm', hs']

/-- A line that rises changes its request only. -/
theorem sameSettings_raise (s : Pics) (irq : ℕ) : SameSettings s (s.raise irq) := by
  unfold raise
  split <;> exact ⟨rfl, rfl⟩

/-- A line that falls changes its request only. -/
theorem sameSettings_lower (s : Pics) (irq : ℕ) : SameSettings s (s.lower irq) := by
  unfold lower
  split <;> exact ⟨rfl, rfl⟩

/-- Serving a request changes what is requested and in service only. -/
theorem sameSettings_served (s : Pics) (irq : ℕ) (requested : Bool) :
    SameSettings s (s.served irq requested) := by
  unfold served
  split <;> cases requested <;> exact ⟨rfl, rfl⟩

/-- A line that rises puts nothing in service. -/
theorem isr_raise (s : Pics) (irq : ℕ) : (s.raise irq).master.isr = s.master.isr ∧
    (s.raise irq).slave.isr = s.slave.isr := by
  unfold raise
  split <;> exact ⟨rfl, rfl⟩

/-- A line that falls puts nothing in service. -/
theorem isr_lower (s : Pics) (irq : ℕ) : (s.lower irq).master.isr = s.master.isr ∧
    (s.lower irq).slave.isr = s.slave.isr := by
  unfold lower
  split <;> exact ⟨rfl, rfl⟩

/-- The requests after a line rose. -/
theorem pending_raise (s : Pics) (hirq : irq < 16) (hn : n < 16) :
    (s.raise irq).pending n = (s.pending n || decide (irq = n)) := by
  unfold raise pending
  split <;> split
  · exact getLsbD_set ‹_›
  · have hne : irq ≠ n := by omega
    rw [decide_eq_false hne, Bool.or_false]
  · have hne : irq ≠ n := by omega
    rw [decide_eq_false hne, Bool.or_false]
  · have hiff : irq - 8 = n - 8 ↔ irq = n := by omega
    rw [getLsbD_set (by omega), decide_eq_decide.mpr hiff]

/-- The requests after a line fell. -/
theorem pending_lower (s : Pics) (hirq : irq < 16) (hn : n < 16) :
    (s.lower irq).pending n = (s.pending n && !decide (irq = n)) := by
  unfold lower pending
  split <;> split
  · exact getLsbD_clear ‹_›
  · have hne : irq ≠ n := by omega
    rw [decide_eq_false hne, Bool.not_false, Bool.and_true]
  · have hne : irq ≠ n := by omega
    rw [decide_eq_false hne, Bool.not_false, Bool.and_true]
  · have hiff : irq - 8 = n - 8 ↔ irq = n := by omega
    rw [getLsbD_clear (by omega), decide_eq_decide.mpr hiff]

/-- The requests after one was served. The line of the slave is not latched. -/
theorem pending_served (h2 : s.master.irr.getLsbD 2 = false) (hirq : irq < 16) (hn : n < 16)
    (requested : Bool) :
    (s.served irq requested).pending n = (s.pending n && !(requested && decide (irq = n))) := by
  have hclear : (s.master.irr &&& ~~~lineBit 2).getLsbD n = s.master.irr.getLsbD n := by
    rw [getLsbD_clear (by omega)]
    by_cases h : 2 = n
    · rw [← h, h2, Bool.false_and]
    · rw [decide_eq_false h, Bool.not_false, Bool.and_true]
  have hlower := pending_lower s hirq hn
  cases requested with
  | false =>
      rw [Bool.false_and, Bool.not_false, Bool.and_true]
      unfold served pending
      split <;> split
      · rfl
      · exact hclear
      · rfl
      · rfl
  | true =>
      rw [Bool.true_and, ← hlower]
      unfold served lower pending
      split <;> split
      · rfl
      · exact hclear
      · rfl
      · rfl

/-- What is in service while the kernel handles an interrupt that the processor took in a state in
which nothing was. -/
structure InService (s : Pics) (irq : ℕ) (requested : Bool) : Prop where
  master : s.master.isr =
    if irq < 8 then if requested then lineBit irq else 0 else lineBit 2
  slave : s.slave.isr = if irq < 8 then 0 else if requested then lineBit (irq - 8) else 0

/-- **Serving** a request puts it in service, with the line of the slave if it is one of the
slave's. -/
theorem inService_served (hset : s.SetUp) (hidle : s.Idle) (irq : ℕ) (requested : Bool) :
    (s.served irq requested).InService irq requested := by
  have hserve : ∀ (p : Pic) i, p.mode = 1 → p.isr = 0 → (p.serve i).isr = lineBit i := by
    intro p i hmode hisr
    rw [Pic.serve, hmode, hisr]
    exact BitVec.zero_or
  have hm := fun i => hserve s.master i hset.master.mode hidle.master
  have hs := fun i => hserve s.slave i hset.slave.mode hidle.slave
  unfold served
  by_cases h : irq < 8
  · rw [if_pos h]
    cases requested
    · exact ⟨hidle.master.trans (if_pos h).symm, hidle.slave.trans (if_pos h).symm⟩
    · exact ⟨(hm irq).trans (if_pos h).symm, hidle.slave.trans (if_pos h).symm⟩
  · rw [if_neg h]
    cases requested
    · exact ⟨(hm 2).trans (if_neg h).symm, hidle.slave.trans (if_neg h).symm⟩
    · exact ⟨(hm 2).trans (if_neg h).symm, (hs (irq - 8)).trans (if_neg h).symm⟩

/-- **The command to the slave**, if it is given, leaves nothing in service there. -/
theorem InService.sendEoiSlave {requested : Bool} (h : s.InService irq requested)
    (hirq : irq < 16) :
    Arch.sendEoiSlave irq s = .ok { s with slave := { s.slave with isr := 0 } } := by
  have hslave := h.slave
  rw [Arch.sendEoiSlave, ensure_pos hirq, ok_bind]
  by_cases h8 : irq < 8
  · rw [if_pos h8] at hslave
    rw [if_neg (by omega), ← hslave]
    rfl
  · rw [if_neg h8] at hslave
    rw [if_pos (by omega)]
    have hwrite : s.write slavePicCommandPort picEoi =
      { s with slave := s.slave.writeCommand picEoi } := rfl
    rw [hwrite]
    cases requested with
    | true => rw [writeCommand_eoi (by omega) hslave]; rfl
    | false =>
        rw [writeCommand_eoi_zero hslave]
        have hisr : s.slave.isr = 0 := hslave
        rw [← hisr]
        rfl

/-- **The command to the master** leaves nothing in service there. -/
theorem InService.sendEoiMaster {requested : Bool}
    (h : s.master.isr = if irq < 8 then if requested then lineBit irq else 0 else lineBit 2) :
    Arch.sendEoiMaster s = { s with master := { s.master with isr := 0 } } := by
  have hwrite : Arch.sendEoiMaster s = { s with master := s.master.writeCommand picEoi } := rfl
  have hline : (∃ i < 8, s.master.isr = lineBit i) ∨ s.master.isr = 0 := by
    rw [h]
    by_cases h8 : irq < 8
    · cases requested
      · exact .inr (if_pos h8)
      · exact .inl ⟨irq, h8, if_pos h8⟩
    · exact .inl ⟨2, by omega, if_neg h8⟩
  rw [hwrite]
  rcases hline with ⟨i, hi, hisr⟩ | hisr
  · rw [writeCommand_eoi hi hisr]
  · rw [writeCommand_eoi_zero hisr, ← hisr]

/-! ### Masks -/

/-- The mask of the controller of an IRQ. -/
def imrOf (s : Pics) (irq : ℕ) : BitVec 8 := if irq < 8 then s.master.imr else s.slave.imr

/-- `set_irq_masked` reads the mask of the controller of the IRQ. -/
theorem readMask_eq (s : Pics) (hirq : irq < 16) : readMask irq s = .ok (s.imrOf irq) := by
  rw [readMask, ensure_pos hirq, ok_bind, imrOf, picDataPort]
  by_cases h : irq < 8
  · rw [if_pos h, if_neg (by omega)]
    rfl
  · rw [if_neg h, if_pos (by omega)]
    rfl

/-- `set_irq_masked` writes the mask of the controller of the IRQ, and nothing else. -/
theorem writeMask_eq (hs : s.SetUp) (irq : ℕ) (masked : Bool) (imr : BitVec 8) :
    writeMask irq masked imr s =
      if irq < 8 then { s with master := { s.master with imr := newMask irq masked imr } }
      else { s with slave := { s.slave with imr := newMask irq masked imr } } := by
  have hready : ∀ p : Pic, p.init = .ready → ∀ b, p.writeData b = { p with imr := b } := by
    intro p hp b
    rw [Pic.writeData, hp]
  rw [writeMask, picDataPort]
  by_cases h : irq < 8
  · rw [if_pos h, if_neg (by omega), ← hready _ hs.master.init]
    rfl
  · rw [if_neg h, if_pos (by omega), ← hready _ hs.slave.init]
    rfl

/-- The controllers remain set up. -/
theorem setUp_writeMask (hs : s.SetUp) (irq : ℕ) (masked : Bool) (imr : BitVec 8) :
    (writeMask irq masked imr s).SetUp := by
  rw [writeMask_eq hs]
  split
  · exact ⟨⟨hs.master.init, hs.master.offset, hs.master.cascade, hs.master.mode⟩, hs.slave⟩
  · exact ⟨hs.master, ⟨hs.slave.init, hs.slave.offset, hs.slave.cascade, hs.slave.mode⟩⟩

/-- A mask changes neither what is requested nor what is in service. -/
theorem requests_writeMask (hs : s.SetUp) (irq : ℕ) (masked : Bool) (imr : BitVec 8) :
    (writeMask irq masked imr s).master.irr = s.master.irr ∧
      (writeMask irq masked imr s).slave.irr = s.slave.irr ∧
      (writeMask irq masked imr s).master.isr = s.master.isr ∧
      (writeMask irq masked imr s).slave.isr = s.slave.isr := by
  rw [writeMask_eq hs]
  split <;> exact ⟨rfl, rfl, rfl, rfl⟩

/-- **The line that is masked or unmasked**, and no other one. -/
theorem masked_writeMask (hs : s.SetUp) (hirq : irq < 16) (masked : Bool) (hn : n < 16) :
    (writeMask irq masked (s.imrOf irq) s).masked n = if n = irq then masked else s.masked n := by
  have hbit : ∀ (imr : BitVec 8) k, (newMask irq masked imr).getLsbD k =
      if k = irq % 8 then masked else imr.getLsbD k := by
    intro imr k
    have hmod : irq % 8 < 8 := Nat.mod_lt _ (by omega)
    by_cases hk : k = irq % 8
    · subst hk
      cases masked
      · rw [newMask, if_neg Bool.false_ne_true, getLsbD_clear hmod]
        simp
      · rw [newMask, if_pos rfl, getLsbD_set hmod]
        simp
    · have hne : ¬ irq % 8 = k := Ne.symm hk
      cases masked
      · rw [newMask, if_neg Bool.false_ne_true, getLsbD_clear hmod]
        simp [hk, hne]
      · rw [newMask, if_pos rfl, getLsbD_set hmod]
        simp [hk, hne]
  rw [writeMask_eq hs, imrOf]
  unfold Pics.masked
  by_cases h : irq < 8
  · rw [if_pos h, if_pos h]
    by_cases h' : n < 8
    · rw [if_pos h', if_pos h']
      dsimp only
      rw [hbit, Nat.mod_eq_of_lt h]
    · rw [if_neg h', if_neg h', if_neg (by omega)]
  · rw [if_neg h, if_neg h]
    by_cases h' : n < 8
    · rw [if_pos h', if_pos h', if_neg (by omega)]
    · rw [if_neg h', if_neg h']
      dsimp only
      have hiff : n - 8 = irq % 8 ↔ n = irq := by omega
      rw [hbit]
      simp only [hiff]

end Pics

end HydroxKernel.Arch
