import HydroxKernel.Lib.Assert
import HydroxKernel.Lib.Bytes
import HydroxKernel.Lib.Runs
import Mathlib.Data.BitVec

/-!
# Saved Extended Registers

`SavedExtendedRegisters` is the area that `xsave` fills. A class of registers may be in its initial
state, where its bit of `xstate_bv` is clear and its part of the area holds anything. A register of
such a class reads as zero, and a setter clears the part of the area before it sets the bit.

A `ymm` register is in two parts of the area, which two bits govern: its low half is the `xmm`
register. With the bit of the low halves clear, `ymm` reads zero whatever the other bit says, but
the setters do not clear the high halves when they set that bit.

## Main results

* `getYmm_eq`: a `ymm` register reads as its two halves.
* `keepsOthers_iff`, `registers_iff`: when setting registers changes no other register.
-/

namespace HydroxKernel.Arch

/-- The panic of an access: an index is out of bounds. -/
inductive RegisterPanic
  | outOfBounds
  deriving DecidableEq

/-- Reads an array. -/
def index {α : Type} {n : ℕ} (v : Vector α n) (idx : ℕ) : Except RegisterPanic α :=
  if h : idx < n then .ok v[idx] else .error .outOfBounds

/-- Writes an array. -/
def assign {α : Type} {n : ℕ} (v : Vector α n) (idx : ℕ) (a : α) :
    Except RegisterPanic (Vector α n) :=
  if h : idx < n then .ok (v.set idx a) else .error .outOfBounds

/-- Bytes that are zero. -/
def zeros (n : ℕ) : Vector UInt8 n := Vector.replicate n 0

/-- `to_ymm_val`. -/
def toYmmVal (lo hi : Vector UInt8 16) : Vector UInt8 32 :=
  Vector.ofFn fun i => if h : i.val < 16 then lo[i.val] else hi[i.val - 16]

/-- `from_ymm_val`. -/
def fromYmmVal (val : Vector UInt8 32) : Vector UInt8 16 × Vector UInt8 16 :=
  (Vector.ofFn fun i => val[i.val], Vector.ofFn fun i => val[16 + i.val])

/-- `SavedExtendedRegisters`: the registers, the first byte of `xstate_bv` and the extended area. -/
structure SavedExtendedRegisters where
  st : Vector (Vector UInt8 10 × Vector UInt8 6) 8
  xmm : Vector (Vector UInt8 16) 16
  xstateBv : BitVec 8
  xsaveExtended : Bytes

namespace SavedExtendedRegisters

/-- `new`. -/
def new : SavedExtendedRegisters :=
  ⟨Vector.replicate 8 (zeros 10, zeros 6), Vector.replicate 16 (zeros 16), 0, fun _ => 0⟩

/-- The registers are in use: the bit of their class is set. -/
def inUse (s : SavedExtendedRegisters) (bit : BitVec 8) : Bool := s.xstateBv &&& bit != 0

/-- `st`. -/
def getSt (s : SavedExtendedRegisters) (idx : ℕ) : Except RegisterPanic (Vector UInt8 10) :=
  if s.inUse 0x01 then do
    let reg ← index s.st idx
    return reg.1
  else .ok (zeros 10)

/-- The part of `set_st` that puts the `st` registers in use. -/
def useSt (s : SavedExtendedRegisters) : SavedExtendedRegisters :=
  if s.inUse 0x01 then s
  else { s with st := Vector.replicate 8 (zeros 10, zeros 6), xstateBv := s.xstateBv ||| 0x01 }

/-- `set_st`. -/
def setSt (s : SavedExtendedRegisters) (idx : ℕ) (val : Vector UInt8 10) :
    Except RegisterPanic SavedExtendedRegisters := do
  let s := s.useSt
  let reg ← index s.st idx
  let st ← assign s.st idx (val, reg.2)
  return { s with st := st }

/-- `xmm`. -/
def getXmm (s : SavedExtendedRegisters) (idx : ℕ) : Except RegisterPanic (Vector UInt8 16) :=
  if s.inUse 0x02 then index s.xmm idx else .ok (zeros 16)

/-- The part of the setters that puts the `xmm` registers in use. -/
def useXmm (s : SavedExtendedRegisters) : SavedExtendedRegisters :=
  if s.inUse 0x02 then s
  else { s with xmm := Vector.replicate 16 (zeros 16), xstateBv := s.xstateBv ||| 0x02 }

/-- `set_xmm`. -/
def setXmm (s : SavedExtendedRegisters) (idx : ℕ) (val : Vector UInt8 16) :
    Except RegisterPanic SavedExtendedRegisters := do
  let s := s.useXmm
  let xmm ← assign s.xmm idx val
  return { s with xmm := xmm }

/-- `ymm_h[idx]` of the extended area, from its offset on. -/
def ymmH (s : SavedExtendedRegisters) (off idx : ℕ) : Vector UInt8 16 :=
  s.xsaveExtended.readSlice (off + 16 * idx) 16

/-- `ymm`, where `avxOffset` is the offset that is known if AVX is enabled. -/
def getYmm (avxOffset : Option ℕ) (s : SavedExtendedRegisters) (idx : ℕ) :
    Except RegisterPanic (Except Unit (Vector UInt8 32)) :=
  match avxOffset with
  | some off =>
      if !s.inUse 0x02 then .ok (.ok (zeros 32))
      else if !s.inUse 0x04 then do
        let lo ← index s.xmm idx
        return .ok (toYmmVal lo (zeros 16))
      else do
        let lo ← index s.xmm idx
        ensure (idx < 16) .outOfBounds
        return .ok (toYmmVal lo (s.ymmH off idx))
  | none => .ok (.error ())

/-- The part of `set_ymm` that puts the high halves in use. -/
def useYmmH (avxOffset : Option ℕ) (s : SavedExtendedRegisters) : SavedExtendedRegisters :=
  if s.inUse 0x04 then s
  else
    match avxOffset with
    | some off =>
        { s with
          xsaveExtended := s.xsaveExtended.fill off 256 0
          xstateBv := s.xstateBv ||| 0x04 }
    | none => s

/-- `set_ymm`. -/
def setYmm (avxOffset : Option ℕ) (s : SavedExtendedRegisters) (idx : ℕ)
    (val : Vector UInt8 32) : Except RegisterPanic (Except Unit Unit × SavedExtendedRegisters) := do
  let s := s.useXmm.useYmmH avxOffset
  match avxOffset with
  | some off => do
      let (lo, hi) := fromYmmVal val
      ensure (idx < 16) .outOfBounds
      let xsaveExtended := s.xsaveExtended.writeSlice (off + 16 * idx) hi
      let xmm ← assign s.xmm idx lo
      return (.ok (), { s with xmm := xmm, xsaveExtended := xsaveExtended })
  | none => return (.error (), s)

end SavedExtendedRegisters

/-! ### Registers -/

/-- The setters of the registers. -/
inductive RegisterOp
  | setSt (idx : ℕ) (val : Vector UInt8 10)
  | setXmm (idx : ℕ) (val : Vector UInt8 16)
  | setYmm (idx : ℕ) (val : Vector UInt8 32)

/-- The setters that put the low halves in use. -/
def RegisterOp.usesXmm : RegisterOp → Bool
  | .setSt _ _ => false
  | .setXmm _ _ => true
  | .setYmm _ _ => true

/-- The register exists. -/
def RegisterOp.InRange : RegisterOp → Prop
  | .setSt idx _ => idx < 8
  | .setXmm idx _ => idx < 16
  | .setYmm idx _ => idx < 16

namespace SavedExtendedRegisters

/-- A setter that returns, with AVX enabled. -/
def Sets (off : ℕ) (s : SavedExtendedRegisters) : RegisterOp → SavedExtendedRegisters → Prop
  | .setSt idx val, s' => s.setSt idx val = .ok s'
  | .setXmm idx val, s' => s.setXmm idx val = .ok s'
  | .setYmm idx val, s' => s.setYmm (some off) idx val = .ok (.ok (), s')

/-! ### Halves and bits -/

/-- The halves of a register made of halves. -/
theorem fromYmmVal_toYmmVal (lo hi : Vector UInt8 16) : fromYmmVal (toYmmVal lo hi) = (lo, hi) := by
  refine Prod.ext (Vector.ext fun i hi' => ?_) (Vector.ext fun i hi' => ?_)
  · simp [fromYmmVal, toYmmVal]
  · have hge : ¬ 16 + i < 16 := by omega
    simp only [fromYmmVal, toYmmVal, Vector.getElem_ofFn, dif_neg hge, Nat.add_sub_cancel_left]

/-- A register made of its halves. -/
theorem toYmmVal_fromYmmVal (val : Vector UInt8 32) :
    toYmmVal (fromYmmVal val).1 (fromYmmVal val).2 = val := by
  refine Vector.ext fun i hi => ?_
  by_cases h : i < 16
  · simp [fromYmmVal, toYmmVal, h]
  · have heq : 16 + (i - 16) = i := by omega
    simp [fromYmmVal, toYmmVal, h, heq]

/-- A register of zeros. -/
theorem toYmmVal_zeros : toYmmVal (zeros 16) (zeros 16) = zeros 32 := by
  refine Vector.ext fun i hi => ?_
  simp [toYmmVal, zeros]

/-- A `ymm` register has its halves. -/
theorem toYmmVal_inj {lo lo' hi hi' : Vector UInt8 16} :
    toYmmVal lo hi = toYmmVal lo' hi' ↔ lo = lo' ∧ hi = hi' := by
  constructor
  · intro h
    have hfrom := congrArg fromYmmVal h
    rw [fromYmmVal_toYmmVal, fromYmmVal_toYmmVal] at hfrom
    exact Prod.mk.inj hfrom
  · rintro ⟨rfl, rfl⟩
    rfl

/-- Setting a bit leaves the others. -/
theorem or_and_of_disjoint {bv bit bit' : BitVec 8} (h : bit &&& bit' = 0) :
    (bv ||| bit) &&& bit' = bv &&& bit' := by
  rw [BitVec.and_or_distrib_right, h, BitVec.ofNat_eq_ofNat, BitVec.or_zero]

/-- A bit that is set is set. -/
theorem or_and_self_ne {bv bit : BitVec 8} (h : bit ≠ 0) : ((bv ||| bit) &&& bit != 0) = true := by
  rw [bne_iff_ne, BitVec.and_or_distrib_right, BitVec.and_self]
  intro hzero
  exact h (BitVec.or_eq_zero_iff.mp hzero).2

/-- An index in range. -/
theorem index_of_lt {α : Type} {n : ℕ} (v : Vector α n) {idx : ℕ} (h : idx < n) :
    index v idx = .ok v[idx] := dif_pos h

/-- An assignment in range. -/
theorem assign_of_lt {α : Type} {n : ℕ} (v : Vector α n) {idx : ℕ} (a : α) (h : idx < n) :
    assign v idx a = .ok (v.set idx a) := dif_pos h

/-- An assignment that returns is in range. -/
theorem assign_eq_ok {α : Type} {n : ℕ} {v v' : Vector α n} {idx : ℕ} {a : α}
    (h : assign v idx a = .ok v') : ∃ hidx : idx < n, v' = v.set idx a := by
  rw [assign] at h
  split_ifs at h with hidx
  exact ⟨hidx, (Except.ok.inj h).symm⟩

/-! ### What the registers read as -/

/-- What `st(idx)` reads as. -/
def stVal (s : SavedExtendedRegisters) (idx : ℕ) : Vector UInt8 10 :=
  if s.inUse 0x01 then (s.st[idx]?.map Prod.fst).getD (zeros 10) else zeros 10

/-- What `xmm(idx)` reads as: the low half of `ymm(idx)`. -/
def low (s : SavedExtendedRegisters) (idx : ℕ) : Vector UInt8 16 :=
  if s.inUse 0x02 then s.xmm[idx]?.getD (zeros 16) else zeros 16

/-- What the high half of `ymm(idx)` reads as. -/
def high (off : ℕ) (s : SavedExtendedRegisters) (idx : ℕ) : Vector UInt8 16 :=
  if s.inUse 0x02 && s.inUse 0x04 then s.ymmH off idx else zeros 16

/-- `st` returns the value of the register. -/
theorem getSt_eq (s : SavedExtendedRegisters) {idx : ℕ} (h : idx < 8) :
    s.getSt idx = .ok (s.stVal idx) := by
  rw [getSt, stVal]
  split_ifs
  · rw [index_of_lt _ h, ok_bind, Vector.getElem?_eq_getElem h]
    rfl
  · rfl

/-- `xmm` returns the lower half of the register. -/
theorem getXmm_eq (s : SavedExtendedRegisters) {idx : ℕ} (h : idx < 16) :
    s.getXmm idx = .ok (s.low idx) := by
  rw [getXmm, low]
  split_ifs
  · rw [index_of_lt _ h, Vector.getElem?_eq_getElem h]
    rfl
  · rfl

/-- **A `ymm` register reads as its two halves.** -/
theorem getYmm_eq (off : ℕ) (s : SavedExtendedRegisters) {idx : ℕ} (h : idx < 16) :
    s.getYmm (some off) idx = .ok (.ok (toYmmVal (s.low idx) (s.high off idx))) := by
  rw [getYmm, low, high, Vector.getElem?_eq_getElem h, index_of_lt _ h, ensure_pos h]
  cases s.inUse 0x02 with
  | false => simp [toYmmVal_zeros]
  | true =>
      cases s.inUse 0x04 with
      | false => rfl
      | true => rfl

/-! ### What the setters do -/

/-- What the high half of `ymm(idx)` reads as once the low halves are in use. -/
def stored (off : ℕ) (s : SavedExtendedRegisters) (idx : ℕ) : Vector UInt8 16 :=
  if s.inUse 0x04 then s.ymmH off idx else zeros 16

/-- The upper half of a register: what is stored, or zeros. -/
theorem high_eq (off : ℕ) (s : SavedExtendedRegisters) (idx : ℕ) :
    s.high off idx = if s.inUse 0x02 then s.stored off idx else zeros 16 := by
  rw [high, stored]
  cases s.inUse 0x02 with
  | false => rfl
  | true => rfl

/-- Putting the `st` registers in use leaves what they read as. -/
theorem useSt_spec (s : SavedExtendedRegisters) :
    s.useSt.inUse 0x01 = true ∧ s.useSt.inUse 0x02 = s.inUse 0x02 ∧
      s.useSt.inUse 0x04 = s.inUse 0x04 ∧ s.useSt.xmm = s.xmm ∧
      s.useSt.xsaveExtended = s.xsaveExtended ∧
      ∀ j < 8, (s.useSt.st[j]?.map Prod.fst).getD (zeros 10) = s.stVal j := by
  rw [useSt]
  split_ifs with h
  · exact ⟨h, rfl, rfl, rfl, rfl, fun j _ => by rw [stVal, if_pos h]⟩
  · refine ⟨or_and_self_ne (by decide), congrArg (· != 0) (or_and_of_disjoint (by decide)),
      congrArg (· != 0) (or_and_of_disjoint (by decide)), rfl, rfl, fun j hj => ?_⟩
    rw [stVal, if_neg h, Vector.getElem?_replicate, if_pos hj]
    rfl

/-- Putting the `xmm` registers in use leaves what they read as. -/
theorem useXmm_spec (s : SavedExtendedRegisters) :
    s.useXmm.inUse 0x02 = true ∧ s.useXmm.inUse 0x04 = s.inUse 0x04 ∧
      s.useXmm.inUse 0x01 = s.inUse 0x01 ∧ s.useXmm.st = s.st ∧
      s.useXmm.xsaveExtended = s.xsaveExtended ∧
      ∀ j < 16, s.useXmm.xmm[j]?.getD (zeros 16) = s.low j := by
  rw [useXmm]
  split_ifs with h
  · exact ⟨h, rfl, rfl, rfl, rfl, fun j _ => by rw [low, if_pos h]⟩
  · refine ⟨or_and_self_ne (by decide), congrArg (· != 0) (or_and_of_disjoint (by decide)),
      congrArg (· != 0) (or_and_of_disjoint (by decide)), rfl, rfl, fun j hj => ?_⟩
    rw [low, if_neg h, Vector.getElem?_replicate, if_pos hj]
    rfl

/-- Putting the high halves in use leaves what is stored there. -/
theorem useYmmH_spec (off : ℕ) (s : SavedExtendedRegisters) :
    (s.useYmmH (some off)).inUse 0x04 = true ∧
      (s.useYmmH (some off)).inUse 0x02 = s.inUse 0x02 ∧
      (s.useYmmH (some off)).inUse 0x01 = s.inUse 0x01 ∧
      (s.useYmmH (some off)).st = s.st ∧ (s.useYmmH (some off)).xmm = s.xmm ∧
      ∀ j < 16, (s.useYmmH (some off)).ymmH off j = s.stored off j := by
  rw [useYmmH]
  split_ifs with h
  · exact ⟨h, rfl, rfl, rfl, rfl, fun j _ => by rw [stored, if_pos h]⟩
  · refine ⟨or_and_self_ne (by decide), congrArg (· != 0) (or_and_of_disjoint (by decide)),
      congrArg (· != 0) (or_and_of_disjoint (by decide)), rfl, rfl, fun j hj => ?_⟩
    rw [stored, if_neg h]
    exact Bytes.readSlice_fill (by omega)

/-- What two states have in common if they differ in `st` registers only. -/
structure SameVectors (s s' : SavedExtendedRegisters) : Prop where
  low : ∀ j, s'.low j = s.low j
  inUse2 : s'.inUse 0x02 = s.inUse 0x02
  inUse4 : s'.inUse 0x04 = s.inUse 0x04
  area : s'.xsaveExtended = s.xsaveExtended

/-- **Setting an `st` register** changes no other register. -/
theorem setSt_spec {s s' : SavedExtendedRegisters} {idx : ℕ} {val : Vector UInt8 10}
    (h : s.setSt idx val = .ok s') :
    idx < 8 ∧ (∀ j < 8, s'.stVal j = if idx = j then val else s.stVal j) ∧
      SameVectors s s' := by
  obtain ⟨h1, h2, h4, hxmm, harea, hst⟩ := useSt_spec s
  obtain ⟨reg, -, h⟩ := bind_eq_ok.mp h
  obtain ⟨st, hassign, h⟩ := bind_eq_ok.mp h
  obtain ⟨hidx, rfl⟩ := assign_eq_ok hassign
  obtain rfl := Except.ok.inj h
  refine ⟨hidx, fun j hj => ?_, fun j => ?_, h2, h4, harea⟩
  · have hin : SavedExtendedRegisters.inUse { s.useSt with st := s.useSt.st.set idx (val, reg.2) }
        0x01 = true := h1
    rw [stVal, if_pos hin, Vector.getElem?_set]
    split_ifs with heq
    · rfl
    · exact hst j hj
  · have hin : SavedExtendedRegisters.inUse { s.useSt with st := s.useSt.st.set idx (val, reg.2) }
        0x02 = s.inUse 0x02 := h2
    rw [low, low, hin]
    simp only [hxmm]

/-- **Setting an `xmm` register** changes no other `xmm` or `st` register, and the high halves are
those that are stored. -/
theorem setXmm_spec (off : ℕ) {s s' : SavedExtendedRegisters} {idx : ℕ} {val : Vector UInt8 16}
    (h : s.setXmm idx val = .ok s') :
    idx < 16 ∧ s'.inUse 0x02 = true ∧ (∀ j, s'.stVal j = s.stVal j) ∧
      (∀ j < 16, s'.low j = if idx = j then val else s.low j) ∧
      ∀ j, s'.high off j = s.stored off j := by
  obtain ⟨h2, h4, h1, hst, harea, hxmm⟩ := useXmm_spec s
  obtain ⟨xmm, hassign, h⟩ := bind_eq_ok.mp h
  obtain ⟨hidx, rfl⟩ := assign_eq_ok hassign
  obtain rfl := Except.ok.inj h
  have hin : ∀ bit, SavedExtendedRegisters.inUse
      { s.useXmm with xmm := s.useXmm.xmm.set idx val } bit = s.useXmm.inUse bit := fun _ => rfl
  refine ⟨hidx, h2, fun j => ?_, fun j hj => ?_, fun j => ?_⟩
  · rw [stVal, stVal, hin, h1]
    simp only [hst]
  · rw [low, hin, if_pos h2, Vector.getElem?_set]
    split_ifs with heq
    · rfl
    · exact hxmm j hj
  · rw [high_eq, stored, stored, hin, hin, if_pos h2, h4, ymmH, ymmH]
    simp only [harea]

/-- The state after a `ymm` register is set. -/
theorem setYmm_eq_ok {off : ℕ} {s s' : SavedExtendedRegisters} {idx : ℕ} {val : Vector UInt8 32}
    (h : s.setYmm (some off) idx val = .ok (.ok (), s')) :
    ∃ hidx : idx < 16, s' =
      { s.useXmm.useYmmH (some off) with
        xmm := (s.useXmm.useYmmH (some off)).xmm.set idx (fromYmmVal val).1 hidx
        xsaveExtended := (s.useXmm.useYmmH (some off)).xsaveExtended.writeSlice (off + 16 * idx)
          (fromYmmVal val).2 } := by
  obtain ⟨-, h⟩ := ensure_bind_eq_ok.mp h
  obtain ⟨xmm, hassign, h⟩ := bind_eq_ok.mp h
  obtain ⟨hidx, rfl⟩ := assign_eq_ok hassign
  exact ⟨hidx, (Prod.mk.inj (Except.ok.inj h)).2.symm⟩

/-- **Setting a `ymm` register** changes no other `xmm` or `st` register, and the other high halves
are those that are stored. -/
theorem setYmm_spec {off : ℕ} {s s' : SavedExtendedRegisters} {idx : ℕ} {val : Vector UInt8 32}
    (h : s.setYmm (some off) idx val = .ok (.ok (), s')) :
    idx < 16 ∧ s'.inUse 0x02 = true ∧ (∀ j, s'.stVal j = s.stVal j) ∧
      (∀ j < 16, s'.low j = if idx = j then (fromYmmVal val).1 else s.low j) ∧
      ∀ j < 16, s'.high off j = if idx = j then (fromYmmVal val).2 else s.stored off j := by
  obtain ⟨h2, h4, h1, hst, harea, hxmm⟩ := useXmm_spec s
  obtain ⟨h4', h2', h1', hst', hxmm', hstored⟩ := useYmmH_spec off s.useXmm
  obtain ⟨hidx, rfl⟩ := setYmm_eq_ok h
  clear h
  generalize s.useXmm.useYmmH (some off) = u at *
  have hin : ∀ bit, SavedExtendedRegisters.inUse
      { u with
        xmm := u.xmm.set idx (fromYmmVal val).1
        xsaveExtended := u.xsaveExtended.writeSlice (off + 16 * idx) (fromYmmVal val).2 } bit =
      u.inUse bit := fun _ => rfl
  have hst2 : s.useXmm.stored off = s.stored off := by
    funext j
    rw [stored, stored, h4, ymmH, ymmH, harea]
  refine ⟨hidx, h2'.trans h2, fun j => ?_, fun j hj => ?_, fun j hj => ?_⟩
  · rw [stVal, stVal, hin, h1', h1]
    simp only [hst', hst]
  · rw [low, hin, h2', if_pos h2, Vector.getElem?_set, hxmm']
    split_ifs with heq
    · rfl
    · exact hxmm j hj
  · rw [high_eq, stored, hin, hin, h2', if_pos h2, if_pos h4', ymmH]
    split_ifs with heq
    · subst heq
      exact Bytes.readSlice_writeSlice _
    · have hother : off + 16 * j + 16 ≤ off + 16 * idx ∨ off + 16 * idx + 16 ≤ off + 16 * j := by
        omega
      refine (Bytes.readSlice_writeSlice_of_disjoint _ hother).trans ((hstored j hj).trans ?_)
      rw [hst2]

/-! ### The registers as a register file -/

/-- A setter writes its register and changes no other: an `xmm` register is the low half of its
`ymm` register, whose high half stays. -/
def KeepsOthers (off : ℕ) (s : SavedExtendedRegisters) (op : RegisterOp)
    (s' : SavedExtendedRegisters) : Prop :=
  match op with
  | .setSt idx val =>
      s'.getSt idx = .ok val ∧ (∀ j < 8, j ≠ idx → s'.getSt j = s.getSt j) ∧
        ∀ j < 16, s'.getXmm j = s.getXmm j ∧ s'.getYmm (some off) j = s.getYmm (some off) j
  | .setXmm idx val =>
      s'.getXmm idx = .ok val ∧
        (∃ old, s.getYmm (some off) idx = .ok (.ok old) ∧
          s'.getYmm (some off) idx = .ok (.ok (toYmmVal val (fromYmmVal old).2))) ∧
        (∀ j < 8, s'.getSt j = s.getSt j) ∧
        ∀ j < 16, j ≠ idx →
          s'.getXmm j = s.getXmm j ∧ s'.getYmm (some off) j = s.getYmm (some off) j
  | .setYmm idx val =>
      s'.getYmm (some off) idx = .ok (.ok val) ∧ s'.getXmm idx = .ok (fromYmmVal val).1 ∧
        (∀ j < 8, s'.getSt j = s.getSt j) ∧
        ∀ j < 16, j ≠ idx →
          s'.getXmm j = s.getXmm j ∧ s'.getYmm (some off) j = s.getYmm (some off) j

/-- A setter does not bring stale high halves to light: if it is the one that puts the low halves
in use while the high halves already are, these are zero, but for the one that it writes. -/
def NothingStale (off : ℕ) (s : SavedExtendedRegisters) : RegisterOp → Prop
  | .setSt _ _ => True
  | .setXmm _ _ =>
      s.inUse 0x02 = false → s.inUse 0x04 = true → ∀ j < 16, s.ymmH off j = zeros 16
  | .setYmm idx _ =>
      s.inUse 0x02 = false → s.inUse 0x04 = true → ∀ j < 16, j ≠ idx → s.ymmH off j = zeros 16

/-- With the low halves in use, or the high halves not, nothing is stale. -/
theorem high_eq_stored_iff (off : ℕ) (s : SavedExtendedRegisters) (j : ℕ) :
    s.stored off j = s.high off j ↔
      (s.inUse 0x02 = false → s.inUse 0x04 = true → s.ymmH off j = zeros 16) := by
  rw [high_eq, stored]
  cases s.inUse 0x02 with
  | true => simp
  | false =>
      cases s.inUse 0x04 with
      | true => simp
      | false => simp

/-- Two `ymm` registers read the same if both halves do. -/
theorem getYmm_congr {off : ℕ} {s s' : SavedExtendedRegisters} {j : ℕ} (hj : j < 16) :
    s'.getYmm (some off) j = s.getYmm (some off) j ↔
      s'.low j = s.low j ∧ s'.high off j = s.high off j := by
  rw [getYmm_eq off s hj, getYmm_eq off s' hj, Except.ok.injEq, Except.ok.injEq, toYmmVal_inj]

/-- **The step lemma**: a setter changes no other register if and only if it brings nothing stale
to light. -/
theorem keepsOthers_iff {off : ℕ} {s s' : SavedExtendedRegisters} {op : RegisterOp}
    (h : Sets off s op s') : KeepsOthers off s op s' ↔ NothingStale off s op := by
  cases op with
  | setSt idx val =>
      obtain ⟨hidx, hst, hsame⟩ := setSt_spec h
      refine iff_of_true ⟨?_, fun j hj hne => ?_, fun j hj => ⟨?_, ?_⟩⟩ trivial
      · rw [getSt_eq s' hidx, hst idx hidx, if_pos rfl]
      · rw [getSt_eq s' hj, getSt_eq s hj, hst j hj, if_neg (Ne.symm hne)]
      · rw [getXmm_eq s' hj, getXmm_eq s hj, hsame.low]
      · refine (getYmm_congr hj).mpr ⟨hsame.low j, ?_⟩
        rw [high, high, hsame.inUse2, hsame.inUse4, ymmH, ymmH, hsame.area]
  | setXmm idx val =>
      obtain ⟨hidx, -, hst, hlow, hhigh⟩ := setXmm_spec off h
      have hold := getYmm_eq off s hidx
      constructor
      · rintro ⟨-, ⟨old, hget, hset⟩, -, hothers⟩ h2 h4 j hj
        refine (high_eq_stored_iff off s j).mp ?_ h2 h4
        rw [← hhigh j]
        by_cases heq : j = idx
        · subst heq
          obtain rfl := Except.ok.inj (Except.ok.inj (hold.symm.trans hget))
          rw [getYmm_eq off s' hj, Except.ok.injEq, Except.ok.injEq, toYmmVal_inj,
            fromYmmVal_toYmmVal] at hset
          exact hset.2
        · exact ((getYmm_congr hj).mp (hothers j hj heq).2).2
      · intro hstale
        have hsame : ∀ j < 16, s'.high off j = s.high off j := fun j hj =>
          (hhigh j).trans ((high_eq_stored_iff off s j).mpr fun h2 h4 => hstale h2 h4 j hj)
        refine ⟨?_, ⟨_, hold, ?_⟩, fun j hj => ?_, fun j hj hne => ⟨?_, ?_⟩⟩
        · rw [getXmm_eq s' hidx, hlow idx hidx, if_pos rfl]
        · rw [getYmm_eq off s' hidx, hlow idx hidx, if_pos rfl, hsame idx hidx,
            fromYmmVal_toYmmVal]
        · rw [getSt_eq s' hj, getSt_eq s hj, hst]
        · rw [getXmm_eq s' hj, getXmm_eq s hj, hlow j hj, if_neg (Ne.symm hne)]
        · refine (getYmm_congr hj).mpr ⟨?_, hsame j hj⟩
          rw [hlow j hj, if_neg (Ne.symm hne)]
  | setYmm idx val =>
      obtain ⟨hidx, -, hst, hlow, hhigh⟩ := setYmm_spec h
      constructor
      · rintro ⟨-, -, -, hothers⟩ h2 h4 j hj hne
        refine (high_eq_stored_iff off s j).mp ?_ h2 h4
        rw [← ((getYmm_congr hj).mp (hothers j hj hne).2).2, hhigh j hj, if_neg (Ne.symm hne)]
      · intro hstale
        refine ⟨?_, ?_, fun j hj => ?_, fun j hj hne => ⟨?_, ?_⟩⟩
        · rw [getYmm_eq off s' hidx, hlow idx hidx, hhigh idx hidx, if_pos rfl, if_pos rfl,
            toYmmVal_fromYmmVal]
        · rw [getXmm_eq s' hidx, hlow idx hidx, if_pos rfl]
        · rw [getSt_eq s' hj, getSt_eq s hj, hst]
        · rw [getXmm_eq s' hj, getXmm_eq s hj, hlow j hj, if_neg (Ne.symm hne)]
        · refine (getYmm_congr hj).mpr ⟨?_, ?_⟩
          · rw [hlow j hj, if_neg (Ne.symm hne)]
          · rw [hhigh j hj, if_neg (Ne.symm hne)]
            exact (high_eq_stored_iff off s j).mpr fun h2 h4 => hstale h2 h4 j hj hne

/-! ### Sequences of setters -/

/-- With the low halves in use nothing is stale. -/
theorem nothingStale_of_inUse {off : ℕ} {s : SavedExtendedRegisters} (h : s.inUse 0x02 = true)
    (op : RegisterOp) : NothingStale off s op := by
  cases op with
  | setSt idx val => trivial
  | setXmm idx val =>
      intro h2
      exact absurd (h2.symm.trans h) Bool.false_ne_true
  | setYmm idx val =>
      intro h2
      exact absurd (h2.symm.trans h) Bool.false_ne_true

/-- The first setter of a sequence that puts the low halves in use brings nothing stale to light. -/
def NothingStaleFirst (off : ℕ) (s : SavedExtendedRegisters) (ops : List RegisterOp) : Prop :=
  ∀ op, ops.find? RegisterOp.usesXmm = some op → NothingStale off s op

/-- Setters after one that puts the low halves in use. -/
theorem inUse_of_sets {off : ℕ} {s s' : SavedExtendedRegisters} {op : RegisterOp}
    (h : Sets off s op s') (hop : op.usesXmm = true) : s'.inUse 0x02 = true := by
  cases op with
  | setSt idx val => cases hop
  | setXmm idx val => exact (setXmm_spec off h).2.1
  | setYmm idx val => exact (setYmm_spec h).2.1

/-- A setter has one result. -/
theorem sets_unique {off : ℕ} {s s₁ s₂ : SavedExtendedRegisters} {op : RegisterOp}
    (h₁ : Sets off s op s₁) (h₂ : Sets off s op s₂) : s₁ = s₂ := by
  cases op with
  | setSt idx val => exact Except.ok.inj (h₁.symm.trans h₂)
  | setXmm idx val => exact Except.ok.inj (h₁.symm.trans h₂)
  | setYmm idx val => exact (Prod.mk.inj (Except.ok.inj (h₁.symm.trans h₂))).2

/-- Setting `st` registers leaves what is stale. -/
theorem nothingStale_iff_of_setSt {off : ℕ} {s s' : SavedExtendedRegisters} {idx : ℕ}
    {val : Vector UInt8 10} (h : s.setSt idx val = .ok s') (op : RegisterOp) :
    NothingStale off s' op ↔ NothingStale off s op := by
  have hsame := (setSt_spec h).2.2
  have hymm : ∀ j, s'.ymmH off j = s.ymmH off j := fun j => by rw [ymmH, ymmH, hsame.area]
  cases op with
  | setSt idx val => exact Iff.rfl
  | setXmm idx val => simp only [NothingStale, hsame.inUse2, hsame.inUse4, hymm]
  | setYmm idx val => simp only [NothingStale, hsame.inUse2, hsame.inUse4, hymm]

/-- What the first setter of a sequence has to bring nothing stale to light. -/
theorem nothingStaleFirst_cons {off : ℕ} {s s₁ : SavedExtendedRegisters} {op : RegisterOp}
    {ops : List RegisterOp} (h : Sets off s op s₁) : NothingStaleFirst off s (op :: ops) ↔
      NothingStale off s op ∧ NothingStaleFirst off s₁ ops := by
  have husing : op.usesXmm = true → ((NothingStaleFirst off s (op :: ops) ↔
      NothingStale off s op ∧ NothingStaleFirst off s₁ ops)) := by
    intro hop
    have hfind : (op :: ops).find? RegisterOp.usesXmm = some op := List.find?_cons_of_pos hop
    constructor
    · intro hall
      exact ⟨hall op hfind, fun op' _ => nothingStale_of_inUse (inUse_of_sets h hop) op'⟩
    · intro hboth op' hop'
      obtain rfl := Option.some.inj (hfind.symm.trans hop')
      exact hboth.1
  cases op with
  | setSt idx val =>
      constructor
      · intro hall
        exact ⟨trivial, fun op' hop' => (nothingStale_iff_of_setSt h op').mpr (hall op' hop')⟩
      · intro hboth op' hop'
        exact (nothingStale_iff_of_setSt h op').mp (hboth.2 op' hop')
  | setXmm idx val => exact husing rfl
  | setYmm idx val => exact husing rfl

/-- **A setter of a register that exists returns.** -/
theorem sets_of_inRange (off : ℕ) (s : SavedExtendedRegisters) {op : RegisterOp}
    (h : op.InRange) : ∃ s', Sets off s op s' := by
  cases op with
  | setSt idx val =>
      have hidx : idx < 8 := h
      refine ⟨{ s.useSt with st := s.useSt.st.set idx (val, s.useSt.st[idx].2) }, ?_⟩
      rw [Sets, setSt]
      simp only [index_of_lt _ hidx, assign_of_lt _ _ hidx, ok_bind]
      rfl
  | setXmm idx val =>
      have hidx : idx < 16 := h
      refine ⟨{ s.useXmm with xmm := s.useXmm.xmm.set idx val }, ?_⟩
      rw [Sets, setXmm]
      simp only [assign_of_lt _ _ hidx, ok_bind]
      rfl
  | setYmm idx val =>
      have hidx : idx < 16 := h
      refine ⟨{ s.useXmm.useYmmH (some off) with
        xmm := (s.useXmm.useYmmH (some off)).xmm.set idx (fromYmmVal val).1
        xsaveExtended := (s.useXmm.useYmmH (some off)).xsaveExtended.writeSlice (off + 16 * idx)
          (fromYmmVal val).2 }, ?_⟩
      rw [Sets, setYmm]
      simp only [ensure_pos hidx, assign_of_lt _ _ hidx, ok_bind]
      rfl

/-- **Saved registers are a register file** if and only if the first setter that puts the low
halves in use brings no stale high halves to light. -/
theorem registers_iff {off : ℕ} {s : SavedExtendedRegisters} {ops : List RegisterOp}
    (h : ∀ op ∈ ops, op.InRange) :
    ((∃ t, Runs (Sets off) s ops t) ∧ EveryStep (Sets off) (KeepsOthers off) s ops) ↔
      NothingStaleFirst off s ops := by
  induction ops generalizing s with
  | nil => exact iff_of_true ⟨⟨s, .refl⟩, everyStep_nil⟩ fun op hop => by cases hop
  | cons op ops ih =>
      obtain ⟨s₁, hfirst⟩ := sets_of_inRange off s (h op List.mem_cons_self)
      rw [nothingStaleFirst_cons hfirst, ← keepsOthers_iff hfirst, everyStep_cons,
        ← ih fun op' hop' => h op' (List.mem_cons_of_mem op hop')]
      constructor
      · rintro ⟨⟨t, hruns⟩, hall⟩
        obtain ⟨s₂, hset, hrest⟩ := Runs.cons_iff.mp hruns
        obtain rfl := sets_unique hfirst hset
        exact ⟨(hall s₁ hfirst).1, ⟨t, hrest⟩, (hall s₁ hfirst).2⟩
      · rintro ⟨hkeeps, ⟨t, hrest⟩, hall⟩
        refine ⟨⟨t, .cons hfirst hrest⟩, fun s₂ hset => ?_⟩
        obtain rfl := sets_unique hfirst hset
        exact ⟨hkeeps, hall⟩

/-- Setters of a new area. -/
theorem registers_new :
    EveryStep (Sets 0) (KeepsOthers 0) new [.setSt 7 (Vector.replicate 10 1),
      .setXmm 2 (Vector.replicate 16 2), .setYmm 15 (Vector.replicate 32 3)] := by
  refine ((registers_iff fun op hop => ?_).mpr fun op hop => ?_).2
  · simp only [List.mem_cons, List.not_mem_nil, or_false] at hop
    rcases hop with rfl | rfl | rfl
    · exact (by decide : 7 < 8)
    · exact (by decide : 2 < 16)
    · exact (by decide : 15 < 16)
  · obtain rfl := Option.some.inj hop
    intro _ h4
    exact absurd h4 (by decide)

/-- An area with the high halves in use and the low halves not. -/
def staleState : SavedExtendedRegisters :=
  ⟨Vector.replicate 8 (zeros 10, zeros 6), Vector.replicate 16 (zeros 16), 0x04, fun _ => 1⟩

/-- Setting a register brings the high half of another to light. -/
theorem registers_stale :
    ¬ EveryStep (Sets 0) (KeepsOthers 0) staleState [.setXmm 0 (zeros 16)] := by
  intro hall
  have hset : Sets 0 staleState (.setXmm 0 (zeros 16)) _ := rfl
  have hstale := (keepsOthers_iff hset).mp ((everyStep_cons.mp hall) _ hset).1
  have hymm := hstale (by decide) (by decide) 1 (by decide)
  have hbyte := congrArg (fun v => v.get ⟨0, by decide⟩) hymm
  exact absurd hbyte (by decide)

end SavedExtendedRegisters

end HydroxKernel.Arch
