import Mathlib.Data.BitVec
import Mathlib.Data.List.Basic
import Mathlib.Logic.Function.Basic

/-!
# Words on a Stack

A memory gives a word for each address, the addresses wrap around, and consecutive words are
`step` addresses apart. A stack that grows downwards is the list of the words from its pointer on,
the one that was pushed last first.

## Main results

* `wordsAt_push`: a word that is pushed below others leaves them as they are.
* `exists_wordsAt`: any words can be on a stack.
-/

namespace HydroxKernel

variable {n : ℕ} {α : Type*} {step : ℕ} {mem : BitVec n → α} {a : BitVec n}

/-- The words `ws` are in memory, one after another from the address `a` on. -/
def WordsAt (step : ℕ) (mem : BitVec n → α) : BitVec n → List α → Prop
  | _, [] => True
  | a, w :: ws => mem a = w ∧ WordsAt step mem (a + BitVec.ofNat n step) ws

/-- No words are anywhere. -/
@[simp] theorem wordsAt_nil : WordsAt step mem a [] := trivial

/-- The first word, and the others. -/
theorem wordsAt_cons {w : α} {ws : List α} : WordsAt step mem a (w :: ws) ↔
    mem a = w ∧ WordsAt step mem (a + BitVec.ofNat n step) ws := Iff.rfl

/-- A write to another address leaves the words as they are. -/
theorem WordsAt.update {ws : List α} (h : WordsAt step mem a ws) {b : BitVec n} {v : α}
    (hb : ∀ k, k < ws.length → b ≠ a + BitVec.ofNat n (step * k)) :
    WordsAt step (Function.update mem b v) a ws := by
  induction ws generalizing a with
  | nil => trivial
  | cons w ws ih =>
      have hfirst : b ≠ a := by
        have h0 := hb 0 (Nat.succ_pos _)
        rwa [Nat.mul_zero, BitVec.add_zero] at h0
      refine ⟨?_, ih h.2 fun k hk => ?_⟩
      · rw [Function.update_of_ne hfirst.symm]
        exact h.1
      · have hk' := hb (k + 1) (Nat.succ_lt_succ hk)
        rwa [Nat.mul_succ, Nat.add_comm, BitVec.ofNat_add, ← BitVec.add_assoc] at hk'

/-- The address below a stack is none of it, unless the stack is the whole memory. -/
theorem below_ne {k : ℕ} (hstep : 0 < step) (hk : step * (k + 1) < 2 ^ n) :
    a - BitVec.ofNat n step ≠ a + BitVec.ofNat n (step * k) := by
  intro heq
  have hsum : BitVec.ofNat n (step * (k + 1)) = 0#n := by
    rw [Nat.mul_succ, BitVec.ofNat_add]
    have hadd := congrArg (fun b => b + BitVec.ofNat n step - a) heq
    simp only [BitVec.sub_add_cancel, BitVec.sub_self] at hadd
    rw [BitVec.add_assoc, BitVec.add_comm a, BitVec.add_sub_cancel] at hadd
    exact hadd.symm
  have hnat := congrArg BitVec.toNat hsum
  rw [BitVec.toNat_ofNat, Nat.mod_eq_of_lt hk, BitVec.toNat_ofNat, Nat.zero_mod] at hnat
  exact absurd hnat (Nat.mul_pos hstep (Nat.succ_pos k)).ne'

/-- **Pushing** a word leaves the words of the stack as they are. -/
theorem wordsAt_push {ws : List α} (h : WordsAt step mem a ws) (hstep : 0 < step)
    (hlen : step * ws.length < 2 ^ n) (v : α) :
    WordsAt step (Function.update mem (a - BitVec.ofNat n step) v) (a - BitVec.ofNat n step)
      (v :: ws) := by
  refine ⟨Function.update_self _ _ _, ?_⟩
  rw [BitVec.sub_add_cancel]
  refine h.update fun k hk => below_ne hstep ?_
  exact Nat.lt_of_le_of_lt (Nat.mul_le_mul_left step hk) hlen

/-- Any words fit into some memory. -/
theorem exists_wordsAt {α : Type*} [Inhabited α] (hstep : 0 < step) (a : BitVec n) {ws : List α}
    (hlen : step * ws.length < 2 ^ n) : ∃ mem, WordsAt step mem a ws := by
  induction ws generalizing a with
  | nil => exact ⟨fun _ => default, trivial⟩
  | cons w ws ih =>
      have hlen' : step * ws.length < 2 ^ n := by
        rw [List.length_cons, Nat.mul_succ] at hlen
        omega
      obtain ⟨mem, hmem⟩ := ih (a + BitVec.ofNat n step) hlen'
      have hpush := wordsAt_push hmem hstep hlen' w
      rw [BitVec.add_sub_cancel] at hpush
      exact ⟨_, hpush⟩

end HydroxKernel
