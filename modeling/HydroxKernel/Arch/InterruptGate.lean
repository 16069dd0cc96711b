import HydroxKernel.Lib.Assert
import HydroxKernel.Lib.BitFields
import Mathlib.Data.List.Infix

/-!
# Interrupt Gates

An `InterruptTableEntry` packs the fields of an interrupt gate into words: the interrupt stack,
the type, the privilege level and the present bit share `options`, and the address of the handler
is split over three words. Every setter clears the bits of its field with a mask and inserts the
new ones.

The mask of the privilege level is not that of its bits, so setting a level leaves the bits of the
level before it.

## Main results

* `readGate_new`: an entry that is made by `new` has the fields it was made with.
* `gate_fields_iff`: when every field of an entry is the one that was last written.
-/

namespace HydroxKernel.Arch

/-- `PrivilegeLevel`. -/
inductive PrivilegeLevel
  | ring0 | ring1 | ring2 | ring3
  deriving DecidableEq

/-- The number of a privilege level, `dpl as u16`. -/
def PrivilegeLevel.asU16 : PrivilegeLevel → BitVec 16
  | ring0 => 0
  | ring1 => 1
  | ring2 => 2
  | ring3 => 3

/-- The panics of the setters of a gate. -/
inductive GatePanic
  /-- The assertion of `set_type`. -/
  | type
  /-- The assertion of `set_ist`. -/
  | ist
  deriving DecidableEq

/-- `InterruptTableEntry`. -/
structure InterruptTableEntry where
  offset0 : BitVec 16
  segment : BitVec 16
  options : BitVec 16
  offset1 : BitVec 16
  offset2 : BitVec 32
  reserved : BitVec 32
  deriving DecidableEq

namespace InterruptTableEntry

/-- `OPTION_TYPE_MASK`. -/
def optionTypeMask : BitVec 16 := 0x1f00

/-- `OPTION_TYPE_INTERRUPT_GATE`. -/
def optionTypeInterruptGate : BitVec 16 := 0x0e00

/-- `OPTION_DPL_OFF`. -/
def optionDplOff : ℕ := 13

/-- `OPTION_DPL_MASK`. -/
def optionDplMask : BitVec 16 := 0x0060

/-- `OPTION_IST_OFF`. -/
def optionIstOff : ℕ := 0

/-- `OPTION_IST_MASK`. -/
def optionIstMask : BitVec 16 := 0x0007

/-- `OPTION_FLAG_PRESENT`. -/
def optionFlagPresent : BitVec 16 := 0x8000

/-- `EMPTY`. -/
def empty : InterruptTableEntry := ⟨0, 0, optionTypeInterruptGate, 0, 0, 0⟩

/-- `set_dpl`. -/
def setDpl (entry : InterruptTableEntry) (dpl : PrivilegeLevel) : InterruptTableEntry :=
  { entry with
    options := writeMasked entry.options optionDplMask (dpl.asU16 <<< optionDplOff) }

/-- `set_type`. -/
def setType (entry : InterruptTableEntry) (ty : BitVec 16) :
    Except GatePanic InterruptTableEntry := do
  ensure (ty &&& ~~~optionTypeMask = 0) .type
  return { entry with options := writeMasked entry.options optionTypeMask ty }

/-- `set_handler`, where `kernelCs` is the selector `KERNEL_CS`. -/
def setHandler (kernelCs : BitVec 16) (entry : InterruptTableEntry) :
    Option (BitVec 64) → InterruptTableEntry
  | some f =>
      { entry with
        segment := kernelCs
        offset0 := f.setWidth 16
        offset1 := (f >>> 16).setWidth 16
        offset2 := (f >>> 32).setWidth 32
        options := entry.options ||| optionFlagPresent }
  | none => { entry with options := entry.options &&& ~~~optionFlagPresent }

/-- `set_ist`. -/
def setIst (entry : InterruptTableEntry) (ist : BitVec 16) :
    Except GatePanic InterruptTableEntry := do
  ensure (ist &&& ~~~optionIstMask = 0) .ist
  return { entry with options := writeMasked entry.options optionIstMask (ist <<< optionIstOff) }

/-- `new`. -/
def new (kernelCs : BitVec 16) (ty : BitVec 16) (dpl : PrivilegeLevel) (ist : BitVec 16)
    (f : Option (BitVec 64)) : Except GatePanic InterruptTableEntry := do
  let entry ← empty.setType ty
  let entry ← (entry.setDpl dpl).setIst ist
  return entry.setHandler kernelCs f

end InterruptTableEntry

/-! ### Gates -/

/-- The fields of an interrupt gate. -/
structure Gate where
  ist : BitVec 3
  type : BitVec 5
  dpl : BitVec 2
  present : Bool
  segment : BitVec 16
  handler : BitVec 64
  deriving DecidableEq

/-- Reads an entry in the layout of the processor. -/
def InterruptTableEntry.readGate (entry : InterruptTableEntry) : Gate where
  ist := entry.options.extractLsb' 0 3
  type := entry.options.extractLsb' 8 5
  dpl := entry.options.extractLsb' 13 2
  present := entry.options.getLsbD 15
  segment := entry.segment
  handler := entry.offset2 ++ entry.offset1 ++ entry.offset0

/-- The setters, with their arguments. -/
inductive GateOp
  | setType (ty : BitVec 16)
  | setDpl (dpl : PrivilegeLevel)
  | setIst (ist : BitVec 16)
  | setHandler (f : Option (BitVec 64))

/-- What a setter is to do to the fields: it writes its own and leaves the others. -/
def Gate.write (kernelCs : BitVec 16) (gate : Gate) : GateOp → Gate
  | .setType ty => { gate with type := ty.extractLsb' 8 5 }
  | .setDpl dpl => { gate with dpl := dpl.asU16.setWidth 2 }
  | .setIst ist => { gate with ist := ist.setWidth 3 }
  | .setHandler (some f) =>
      { gate with
        present := true
        segment := kernelCs
        handler := f }
  | .setHandler none => { gate with present := false }

namespace InterruptTableEntry

/-- A setter. -/
def set (kernelCs : BitVec 16) (entry : InterruptTableEntry) :
    GateOp → Except GatePanic InterruptTableEntry
  | .setType ty => entry.setType ty
  | .setDpl dpl => .ok (entry.setDpl dpl)
  | .setIst ist => entry.setIst ist
  | .setHandler f => .ok (entry.setHandler kernelCs f)

/-- A sequence of setters. -/
def run (kernelCs : BitVec 16) (ops : List GateOp) (entry : InterruptTableEntry) :
    Except GatePanic InterruptTableEntry :=
  ops.foldlM (set kernelCs) entry

/-! ### What the setters do to the fields -/

/-- The three words of an address. -/
theorem append_offsets (f : BitVec 64) :
    (((f >>> 32).setWidth 32 ++ (f >>> 16).setWidth 16 ++ f.setWidth 16 : BitVec 64)) = f := by
  refine BitVec.eq_of_getLsbD_eq fun i hi => ?_
  simp only [BitVec.getLsbD_append, BitVec.getLsbD_setWidth, BitVec.getLsbD_ushiftRight]
  by_cases h16 : i < 16
  · simp [h16]
  · by_cases h32 : i - 16 < 16
    · have heq : 16 + (i - 16) = i := by omega
      simp [h16, h32, heq]
    · have heq : 32 + (i - 16 - 16) = i := by omega
      have hlt : i - 16 - 16 < 32 := by omega
      simp [h16, h32, heq, hlt]

/-- Setting a type that is accepted. -/
theorem readGate_setType (entry : InterruptTableEntry) {ty : BitVec 16}
    (h : ty &&& ~~~optionTypeMask = 0) :
    ∃ entry', entry.setType ty = .ok entry' ∧
      entry'.readGate = { entry.readGate with type := ty.extractLsb' 8 5 } := by
  refine ⟨{ entry with options := writeMasked entry.options optionTypeMask ty }, ?_, ?_⟩
  · rw [setType, ensure_pos h, ok_bind]
    rfl
  · simp only [readGate, Gate.mk.injEq, and_true]
    exact ⟨field_kept _ (by decide) (field_of_within h (by decide)), field_written _ (by decide),
      field_kept _ (by decide) (field_of_within h (by decide)),
      bit_kept _ (by decide) (field_of_within h (by decide))⟩

/-- Setting an interrupt stack that is accepted. -/
theorem readGate_setIst (entry : InterruptTableEntry) {ist : BitVec 16}
    (h : ist &&& ~~~optionIstMask = 0) :
    ∃ entry', entry.setIst ist = .ok entry' ∧
      entry'.readGate = { entry.readGate with ist := ist.setWidth 3 } := by
  have hshift : ist <<< optionIstOff = ist := BitVec.shiftLeft_zero ist
  refine ⟨{ entry with options := writeMasked entry.options optionIstMask ist }, ?_, ?_⟩
  · rw [setIst, ensure_pos h, ok_bind, hshift]
    rfl
  · simp only [readGate, Gate.mk.injEq, and_true]
    refine ⟨?_, field_kept _ (by decide) (field_of_within h (by decide)),
      field_kept _ (by decide) (field_of_within h (by decide)),
      bit_kept _ (by decide) (field_of_within h (by decide))⟩
    rw [field_written _ (by decide), BitVec.setWidth_eq_extractLsb' (by decide)]

/-- **Setting a level** leaves the bits of the level before it, because the mask is not that of
the level. -/
theorem readGate_setDpl (entry : InterruptTableEntry) (dpl : PrivilegeLevel) :
    (entry.setDpl dpl).readGate =
      { entry.readGate with dpl := entry.readGate.dpl ||| dpl.asU16.setWidth 2 } := by
  have hbits : (dpl.asU16 <<< optionDplOff).extractLsb' 13 2 = dpl.asU16.setWidth 2 ∧
      (dpl.asU16 <<< optionDplOff).extractLsb' 0 3 = 0 ∧
      (dpl.asU16 <<< optionDplOff).extractLsb' 8 5 = 0 ∧
      (dpl.asU16 <<< optionDplOff).extractLsb' 15 1 = 0 := by
    cases dpl <;> decide
  obtain ⟨hdpl, hist, htype, hpresent⟩ := hbits
  simp only [readGate, setDpl, Gate.mk.injEq, and_true]
  refine ⟨field_kept _ (by decide) hist, field_kept _ (by decide) htype, ?_,
    bit_kept _ (by decide) hpresent⟩
  rw [field_merged _ (by decide), hdpl]

/-- Setting a handler, or none. -/
theorem readGate_setHandler (kernelCs : BitVec 16) (entry : InterruptTableEntry)
    (f : Option (BitVec 64)) :
    (entry.setHandler kernelCs f).readGate =
      entry.readGate.write kernelCs (.setHandler f) := by
  cases f with
  | none =>
      simp only [readGate, setHandler, Gate.write, and_not_eq_writeMasked, Gate.mk.injEq, and_true]
      refine ⟨field_kept _ (by decide) (by decide), field_kept _ (by decide) (by decide),
        field_kept _ (by decide) (by decide), ?_⟩
      rw [getLsbD_writeMasked, (by decide : optionFlagPresent.getLsbD 15 = true)]
      simp
  | some f =>
      simp only [readGate, setHandler, Gate.write, or_eq_writeMasked, Gate.mk.injEq, true_and]
      refine ⟨field_kept _ (by decide) (by decide), field_kept _ (by decide) (by decide),
        field_kept _ (by decide) (by decide), ?_, append_offsets f⟩
      rw [getLsbD_writeMasked, (by decide : optionFlagPresent.getLsbD 15 = true), Bool.or_true]

/-- **The step lemma**: a setter that returns writes its field and leaves the others, but a level
is joined with the one before it. -/
theorem readGate_set {kernelCs : BitVec 16} {entry entry' : InterruptTableEntry} {op : GateOp}
    (h : entry.set kernelCs op = .ok entry') :
    entry'.readGate = match op with
      | .setDpl dpl =>
          { entry.readGate with dpl := entry.readGate.dpl ||| dpl.asU16.setWidth 2 }
      | op => entry.readGate.write kernelCs op := by
  cases op with
  | setType ty =>
      have hty := (ensure_bind_eq_ok.mp h).1
      obtain ⟨entry₁, hset, hread⟩ := readGate_setType entry hty
      obtain rfl := Except.ok.inj (hset.symm.trans h)
      exact hread
  | setDpl dpl =>
      obtain rfl := Except.ok.inj h
      exact readGate_setDpl entry dpl
  | setIst ist =>
      have hist := (ensure_bind_eq_ok.mp h).1
      obtain ⟨entry₁, hset, hread⟩ := readGate_setIst entry hist
      obtain rfl := Except.ok.inj (hset.symm.trans h)
      exact hread
  | setHandler f =>
      obtain rfl := Except.ok.inj h
      exact readGate_setHandler kernelCs entry f

/-! ### Runs -/

/-- The values that were last written to the fields. -/
def lastWritten (kernelCs : BitVec 16) (ops : List GateOp) : Gate :=
  ops.foldl (Gate.write kernelCs) empty.readGate

/-- After every setter of a sequence, every field reads the value that was last written. -/
def FieldsIndependent (kernelCs : BitVec 16) (ops : List GateOp) : Prop :=
  ∀ done, done <+: ops → ∀ entry, run kernelCs done empty = .ok entry →
    entry.readGate = lastWritten kernelCs done

/-- Every level that is set has all the bits of the one before it. -/
def LevelsGrow (kernelCs : BitVec 16) (ops : List GateOp) : Prop :=
  ∀ k dpl, ops[k]? = some (.setDpl dpl) →
    (lastWritten kernelCs (ops.take k)).dpl ||| dpl.asU16.setWidth 2 = dpl.asU16.setWidth 2

/-- A sequence of setters that ends with one of them. -/
theorem run_concat {kernelCs : BitVec 16} {ops : List GateOp} {op : GateOp}
    {entry : InterruptTableEntry} : run kernelCs (ops ++ [op]) empty = .ok entry ↔
      ∃ entry₁, run kernelCs ops empty = .ok entry₁ ∧ entry₁.set kernelCs op = .ok entry := by
  rw [run, List.foldlM_append, bind_eq_ok]
  refine exists_congr fun entry₁ => and_congr_right fun _ => ?_
  rw [List.foldlM_cons, bind_eq_ok]
  constructor
  · rintro ⟨entry₂, hset, hnil⟩
    rw [hset, Except.ok.inj hnil]
  · intro hset
    exact ⟨entry, hset, rfl⟩

/-- The setters at the beginning of a sequence that returns return. -/
theorem run_of_isPrefix {kernelCs : BitVec 16} {ops done : List GateOp}
    {entry : InterruptTableEntry} (h : run kernelCs ops empty = .ok entry) (hdone : done <+: ops) :
    ∃ entry₁, run kernelCs done empty = .ok entry₁ := by
  obtain ⟨rest, rfl⟩ := hdone
  rw [run, List.foldlM_append, bind_eq_ok] at h
  obtain ⟨entry₁, hrun, -⟩ := h
  exact ⟨entry₁, hrun⟩

/-- What one more setter writes. -/
theorem lastWritten_concat (kernelCs : BitVec 16) (ops : List GateOp) (op : GateOp) :
    lastWritten kernelCs (ops ++ [op]) = (lastWritten kernelCs ops).write kernelCs op := by
  rw [lastWritten, List.foldl_append]
  rfl

/-- If every level has the bits of the one before it, every field reads the value that was last
written. -/
theorem LevelsGrow.fieldsIndependent {kernelCs : BitVec 16} {ops : List GateOp}
    (h : LevelsGrow kernelCs ops) : FieldsIndependent kernelCs ops := by
  intro done
  induction done using List.reverseRecOn with
  | nil =>
      intro _ entry hrun
      obtain rfl := Except.ok.inj hrun
      rfl
  | append_singleton done op ih =>
      intro hdone entry hrun
      obtain ⟨entry₁, hrun₁, hset⟩ := run_concat.mp hrun
      have hread := ih ((List.prefix_append done [op]).trans hdone) entry₁ hrun₁
      rw [readGate_set hset, hread, lastWritten_concat]
      cases op with
      | setDpl dpl =>
          obtain ⟨rest, rfl⟩ := hdone
          have hlevel := h done.length dpl (by simp)
          rw [List.append_assoc, List.take_left] at hlevel
          simp only [Gate.write, hlevel]
      | setType ty => rfl
      | setIst ist => rfl
      | setHandler f => rfl

/-- **The fields of a gate are independent** if and only if every level that is set has all the
bits of the level that was set before it. -/
theorem gate_fields_iff {kernelCs : BitVec 16} {ops : List GateOp} {entry : InterruptTableEntry}
    (h : run kernelCs ops empty = .ok entry) :
    FieldsIndependent kernelCs ops ↔ LevelsGrow kernelCs ops := by
  refine ⟨fun hfields k dpl hk => ?_, LevelsGrow.fieldsIndependent⟩
  obtain ⟨hlt, hget⟩ := List.getElem?_eq_some_iff.mp hk
  have htake : ops.take (k + 1) = ops.take k ++ [.setDpl dpl] := by
    rw [← hget, List.take_append_getElem]
  obtain ⟨entry₂, hrun⟩ := run_of_isPrefix h (List.take_prefix (k + 1) ops)
  have hread₂ := hfields _ (List.take_prefix (k + 1) ops) entry₂ hrun
  rw [htake] at hrun hread₂
  obtain ⟨entry₁, hrun₁, hset⟩ := run_concat.mp hrun
  have hread₁ := hfields _ (List.take_prefix k ops) entry₁ hrun₁
  rw [readGate_set hset, hread₁, lastWritten_concat] at hread₂
  exact congrArg Gate.dpl hread₂

/-- The level of a gate is raised, and its handler is taken away. -/
theorem gate_fields_raised : FieldsIndependent 8
    [.setDpl .ring1, .setHandler (some 0x123456789abc), .setDpl .ring3, .setHandler none] := by
  have hrun : run 8 [.setDpl .ring1, .setHandler (some 0x123456789abc), .setDpl .ring3,
      .setHandler none] empty = .ok ⟨0x9abc, 8, 0x6e00, 0x5678, 0x1234, 0⟩ := by decide
  refine (gate_fields_iff hrun).mpr ?_
  intro k dpl hk
  match k, hk with
  | 0, hk =>
      cases hk
      decide
  | 1, hk => cases hk
  | 2, hk =>
      cases hk
      decide
  | 3, hk => cases hk

/-- A gate that user mode may call cannot be closed again. -/
theorem gate_level_stays : ¬ FieldsIndependent 8 [.setDpl .ring3, .setDpl .ring0] := by
  intro hfields
  have hread := hfields _ (List.prefix_refl _) ⟨0, 0, 0x6e00, 0, 0, 0⟩ (by decide)
  exact absurd (congrArg Gate.dpl hread) (by decide)

/-- **A new entry** has the fields it was made with: its level is the first one that is set. -/
theorem readGate_new {kernelCs : BitVec 16} {ty : BitVec 16} {dpl : PrivilegeLevel}
    {ist : BitVec 16} {f : Option (BitVec 64)} {entry : InterruptTableEntry}
    (h : new kernelCs ty dpl ist f = .ok entry) :
    entry.readGate =
      lastWritten kernelCs [.setType ty, .setDpl dpl, .setIst ist, .setHandler f] := by
  have hrun : run kernelCs [.setType ty, .setDpl dpl, .setIst ist, .setHandler f] empty =
      .ok entry := by
    obtain ⟨entry₁, htype, h⟩ := bind_eq_ok.mp h
    obtain ⟨entry₂, hist, h⟩ := bind_eq_ok.mp h
    rw [← Except.ok.inj h]
    simp only [run, List.foldlM_cons, set, htype, ok_bind, hist]
    rfl
  have hgrow : LevelsGrow kernelCs [.setType ty, .setDpl dpl, .setIst ist, .setHandler f] := by
    intro k dpl' hk
    match k, hk with
    | 0, hk => cases hk
    | 1, hk => exact BitVec.zero_or
    | 2, hk => cases hk
    | 3, hk => cases hk
  exact hgrow.fieldsIndependent _ (List.prefix_refl _) entry hrun

end InterruptTableEntry

end HydroxKernel.Arch
