import Mathlib.Data.List.Forall2
import Mathlib.Data.List.Nodup
import Mathlib.Tactic.Tauto
import HydroxKernel.Lib.Runs
import HydroxKernel.Sync.Future

/-!
# The References of a Future

The two counts of a block say how many futures still refer to it and how many of them want
the value; queued actions hold on to the value only. Every operation keeps this, the block
is destroyed when the last reference goes away, and every consumer gets what `finish` was
given.

## Main results

* `refs_of_runs`: in every run the counts are exact, the block is destroyed once, and no
  operation uses a destroyed block or a value that is not there.
* `delivery_of_runs`: in every run each callback is run exactly once, in the order of
  attachment and not before `finish`, and every consumer receives the value or `()`.
-/

namespace HydroxKernel.Future

variable {V : Type*}

/-! ### Counting -/

/-- The future still refers to the block. -/
def FutureInternal.isUnresolved : FutureInternal V → Bool
  | .withVal | .withoutVal => true
  | _ => false

/-- The future still refers to the block and wants the value. -/
def FutureInternal.isWithVal : FutureInternal V → Bool
  | .withVal => true
  | _ => false

/-- The future is one with a value. -/
def FutureInternal.hasVal : FutureInternal V → Bool
  | .withVal | .done _ => true
  | _ => false

/-- The number of live futures that refer to the block. -/
def unresolved (hs : List (ℕ × FutureInternal V)) : ℕ := hs.countP fun e => e.2.isUnresolved

/-- The number of live futures that refer to the block and want the value. -/
def withVals (hs : List (ℕ × FutureInternal V)) : ℕ := hs.countP fun e => e.2.isWithVal

/-- The number of queued actions that want the value. -/
def queuedVals (actions : List (ℕ × Bool)) : ℕ := actions.countP fun a => a.2

/-- The futures that refer to the block, of a future and others. -/
@[simp] theorem unresolved_cons (h : ℕ) (f : FutureInternal V) (hs : List (ℕ × FutureInternal V)) :
    unresolved ((h, f) :: hs) = unresolved hs + f.isUnresolved.toNat := by
  cases hf : f.isUnresolved <;> simp [unresolved, hf]

/-- The futures that want the value, of a future and others. -/
@[simp] theorem withVals_cons (h : ℕ) (f : FutureInternal V) (hs : List (ℕ × FutureInternal V)) :
    withVals ((h, f) :: hs) = withVals hs + f.isWithVal.toNat := by
  cases hf : f.isWithVal <;> simp [withVals, hf]

/-- A future that wants the value refers to the block. -/
theorem withVals_le (hs : List (ℕ × FutureInternal V)) : withVals hs ≤ unresolved hs := by
  refine List.countP_mono_left fun e _ he => ?_
  cases hf : e.2 <;> simp_all [FutureInternal.isWithVal, FutureInternal.isUnresolved]

/-- At most the references to the block, with others, want the value. -/
theorem withVals_le_add (hs : List (ℕ × FutureInternal V)) (k : ℕ) :
    withVals hs ≤ unresolved hs + k := Nat.le_trans (withVals_le hs) (Nat.le_add_right _ _)

/-- The actions that want the value, of actions and further ones. -/
theorem queuedVals_append (as bs : List (ℕ × Bool)) :
    queuedVals (as ++ bs) = queuedVals as + queuedVals bs := by simp [queuedVals]

/-- The actions that want the value, of an action and others. -/
@[simp] theorem queuedVals_cons (c : ℕ) (b : Bool) (as : List (ℕ × Bool)) :
    queuedVals ((c, b) :: as) = queuedVals as + b.toNat := by cases b <;> simp [queuedVals]

/-- No action wants the value. -/
@[simp] theorem queuedVals_nil : queuedVals [] = 0 := rfl

/-- Taking a future out leaves the others. -/
theorem takeHandle_perm {hs hs' : List (ℕ × FutureInternal V)} {h : ℕ} {f : FutureInternal V}
    (ht : takeHandle hs h = some (f, hs')) : hs.Perm ((h, f) :: hs') := by
  induction hs generalizing hs' with
  | nil => simp [takeHandle] at ht
  | cons e hs ih =>
      obtain ⟨k, g⟩ := e
      rw [takeHandle] at ht
      split at ht
      next hk =>
        obtain ⟨rfl, rfl⟩ := Prod.mk.inj (Option.some.inj ht)
        rw [hk]
      next =>
        obtain ⟨r, hr, heq⟩ := Option.map_eq_some_iff.mp ht
        obtain ⟨rfl, rfl⟩ := Prod.mk.inj heq
        exact ((ih hr).cons _).trans (List.Perm.swap _ _ _)

/-- A live future can be taken out. -/
theorem exists_takeHandle {hs : List (ℕ × FutureInternal V)} {h : ℕ}
    (hh : h ∈ hs.map Prod.fst) : ∃ f hs', takeHandle hs h = some (f, hs') := by
  induction hs with
  | nil => simp at hh
  | cons e hs ih =>
      obtain ⟨k, g⟩ := e
      by_cases hk : k = h
      · exact ⟨g, hs, by simp [takeHandle, hk]⟩
      · have hh' : h ∈ hs.map Prod.fst := by
          rcases List.mem_cons.mp hh with heq | hmem
          · exact absurd heq.symm hk
          · exact hmem
        obtain ⟨f, hs', hr⟩ := ih hh'
        exact ⟨f, (k, g) :: hs', by simp [takeHandle, hk, hr]⟩

/-! ### The invariant of the block -/

/-- The value of an allocated block to which `n` futures refer for the value, when `res` is
what `finish` was given. Until then the room for the value holds `y`. -/
structure Refs (cl : Bool) (y : Option (Value V)) (w : FutureWait V) (res : Option V)
    (n moved : ℕ) : Prop where
  valRefs : w.valRefs = n + queuedVals w.actions
  resolved : w.resolved = res.isSome
  actions : res.isSome = true → w.actions = []
  pending : res = none → w.val = y ∧ moved = 0
  stored : ∀ v, res = some v → 0 < w.valRefs → w.val = some (.orig v) ∧ moved = 0
  gone : ∀ v, res = some v → w.valRefs = 0 → moved = 1
  cloneable : cl = false → w.valRefs ≤ 1

/-- The state of a block to which `u` futures refer, `n` of them for the value. -/
structure At (cl : Bool) (y : Option (Value V)) (s : State V) (res : Option V) (u n : ℕ) :
    Prop where
  writer : s.writer = res.isNone
  le : n ≤ u
  block : (∃ w, s.wait = some w ∧ s.destroyed = 0 ∧ 0 < w.waitRefs ∧
      w.waitRefs = u + res.isNone.toNat ∧ Refs cl y w res n s.moved) ∨
    (s.wait = none ∧ s.destroyed = 1 ∧ res.isSome = true ∧ u = 0 ∧ s.moved = 1)

/-- What a consumer of a future with or without a value receives. -/
def Receives (v : V) (hasVal : Bool) (x : Arg V) : Prop :=
  match x with
  | .val x => hasVal = true ∧ x.base = v
  | .unit => hasVal = false

/-- The actions that wait for the value. -/
def State.queue (s : State V) : List (ℕ × Bool) :=
  match s.wait with
  | some w => w.actions
  | none => []

/-- The operation concerns the block and its counts only. -/
structure Frame (s s' : State V) : Prop where
  handles : s'.handles = s.handles
  log : s'.log = s.log
  queue : s'.queue = s.queue

/-- An operation that does nothing. -/
theorem Frame.refl (s : State V) : Frame s s := ⟨rfl, rfl, rfl⟩

/-- A future that is done was resolved. -/
def Settled (res : Option V) : FutureInternal V → Prop
  | .done x => ∃ v, res = some v ∧ x.base = v
  | .doneUnit => res.isSome = true
  | _ => True

section Ops

variable {cl : Bool} {y : Option (Value V)} {s : State V} {w : FutureWait V} {res : Option V}
  {u n : ℕ} {v : V}

/-- A block to which somebody refers is allocated. -/
theorem At.alive (h : At cl y s res u n) (hu : 0 < u + res.isNone.toNat) :
    ∃ w, s.wait = some w ∧ s.destroyed = 0 ∧ w.waitRefs = u + res.isNone.toNat ∧
      Refs cl y w res n s.moved := by
  rcases h.block with ⟨w, hw, hd, -, hwr, hr⟩ | ⟨-, -, hres, hu0, -⟩
  · exact ⟨w, hw, hd, hwr, hr⟩
  · cases res with
    | none => simp at hres
    | some v => simp [hu0] at hu

/-- The two counts of a block may be changed. -/
theorem Refs.congr {w' : FutureWait V} {n' m m' : ℕ} (hr : Refs cl y w res n m)
    (hval : w'.valRefs = n' + queuedVals w'.actions) (hresolved : w'.resolved = w.resolved)
    (hactions : res.isSome = true → w'.actions = []) (hslot : w'.val = w.val) (hm : m' = m)
    (hpos : res.isSome = true → (w'.valRefs = 0 ↔ w.valRefs = 0))
    (hcl : cl = false → w'.valRefs ≤ 1) : Refs cl y w' res n' m' := by
  subst hm
  refine ⟨hval, hresolved.trans hr.resolved, hactions, fun hres => ?_, fun v hv h0 => ?_,
    fun v hv h0 => ?_, hcl⟩
  · rw [hslot]
    exact hr.pending hres
  · rw [hslot]
    refine hr.stored v hv ?_
    have := hpos (by simp [hv])
    omega
  · exact hr.gone v hv ((hpos (by simp [hv])).mp h0)

/-- Giving up one reference. -/
theorem decWaitRef_at (hwr : s.writer = res.isNone) (hd : s.destroyed = 0) (hle : n ≤ u)
    (hw : w.waitRefs = u + res.isNone.toNat + 1) (hr : Refs cl y w res n s.moved) :
    ∃ s', decWaitRef s w = .ok s' ∧ At cl y s' res u n ∧ s'.handles = s.handles ∧
      s'.log = s.log ∧ s'.queue = w.actions := by
  rw [decWaitRef, hw]
  cases hk : u + res.isNone.toNat with
  | zero =>
      obtain ⟨v, rfl⟩ : ∃ v, res = some v := by
        cases res with
        | none => simp at hk
        | some v => exact ⟨v, rfl⟩
      have hu : u = 0 := by simpa using hk
      have hval : w.valRefs = 0 := by
        rw [hr.valRefs, hr.actions rfl, queuedVals_nil]
        omega
      exact ⟨_, rfl, ⟨hwr, hle, Or.inr ⟨rfl, by simp [hd], rfl, hu, hr.gone v rfl hval⟩⟩, rfl, rfl,
        (hr.actions rfl).symm⟩
  | succ k =>
      refine ⟨_, rfl, ⟨hwr, hle, Or.inl ⟨_, rfl, hd, by simp, by simp [hk], ?_⟩⟩, rfl, rfl, rfl⟩
      exact hr.congr hr.valRefs rfl hr.actions rfl rfl (fun _ => Iff.rfl) hr.cloneable

/-- Taking the value after the resolution. -/
theorem takeArg_refs {b : Bool} (hr : Refs cl y w (some v) (n + b.toNat) s.moved) :
    ∃ x s' w', takeArg cl s w b = .ok (x, s', w') ∧ Receives v b x ∧
      Refs cl y w' (some v) n s'.moved ∧ w'.waitRefs = w.waitRefs ∧
      s' = { s with moved := s'.moved } := by
  have hval := hr.valRefs
  have hact := hr.actions rfl
  rw [hact, queuedVals_nil, Nat.add_zero] at hval
  have hres : w.resolved = true := by simpa using hr.resolved
  cases b with
  | false => exact ⟨.unit, s, w, rfl, rfl, hr, rfl, rfl⟩
  | true =>
      simp only [Bool.toNat_true] at hval
      obtain ⟨hslot, hmoved⟩ := hr.stored v rfl (by omega)
      cases n with
      | zero =>
          refine ⟨.val (.orig v), { s with moved := s.moved + 1 },
            { w with valRefs := 0, val := none }, ?_, ⟨rfl, rfl⟩, ?_, rfl, rfl⟩
          · simp [takeArg, takeVal, hres, hval, readVal, hslot, bind, Except.bind]
          · exact ⟨by simp [hact], hr.resolved, hr.actions, by simp, by simp, by simp [hmoved],
              by simp⟩
      | succ n =>
          have hcl : cl = true := by
            by_contra hcl
            have := hr.cloneable (by simpa using hcl)
            omega
          refine ⟨.val (.clone (.orig v)), s, { w with valRefs := n + 1 }, ?_, ⟨rfl, rfl⟩, ?_, rfl,
            rfl⟩
          · simp [takeArg, takeVal, hres, hval, hslot, hcl, bind, Except.bind]
          · exact hr.congr (by simp [hact]) rfl hr.actions rfl rfl (fun _ => by simp [hval])
              (by simp [hcl])

/-- `try_resolve` of one of the futures that refer to the block. -/
theorem tryResolve_at {b : Bool} (h : At cl y s res (u + 1) (n + b.toNat)) (hle : n ≤ u) :
    (res = none ∧ tryResolve cl s b = .ok (none, s)) ∨
    ∃ v x s', res = some v ∧ tryResolve cl s b = .ok (some x, s') ∧ Receives v b x ∧
      At cl y s' res u n ∧ Frame s s' := by
  obtain ⟨w, hw, hd, hwait, hr⟩ := h.alive (by omega)
  have hderef : s.deref = .ok w := by simp [State.deref, hw]
  cases res with
  | none =>
      have hres : w.resolved = false := by simpa using hr.resolved
      exact Or.inl ⟨rfl, by simp [tryResolve, hderef, hres, bind, Except.bind]⟩
  | some v =>
      right
      have hres : w.resolved = true := by simpa using hr.resolved
      obtain ⟨x, s₁, w₁, htake, hx, hr₁, hw₁, hs₁⟩ := takeArg_refs hr
      have hwait₁ : w₁.waitRefs = u + (some v).isNone.toNat + 1 := by
        rw [hw₁, hwait]
        rfl
      obtain ⟨s', hdec, hat, hh, hl, hq⟩ := decWaitRef_at (s := s₁) (by rw [hs₁]; exact h.writer)
        (by rw [hs₁]; exact hd) hle hwait₁ hr₁
      have hqueue : s'.queue = s.queue := by
        rw [hq, hr₁.actions rfl, State.queue, hw]
        exact (hr.actions rfl).symm
      refine ⟨v, x, s', rfl, ?_, hx, hat, by rw [hh, hs₁], by rw [hl, hs₁], hqueue⟩
      simp [tryResolve, hderef, hres, htake, hdec, bind, Except.bind]

/-- Giving up a reference to the value. -/
theorem decValRef_refs (hr : Refs cl y w res (n + 1) s.moved) :
    ∃ s' w', decValRef s w = .ok (s', w') ∧ Refs cl y w' res n s'.moved ∧
      w'.waitRefs = w.waitRefs ∧ w'.actions = w.actions ∧
      s' = { s with moved := s'.moved } := by
  have hval := hr.valRefs
  obtain ⟨k, hk⟩ : ∃ k, w.valRefs = k + 1 := ⟨n + queuedVals w.actions, by omega⟩
  have hkq : k = n + queuedVals w.actions := by omega
  have hcl : cl = false → k ≤ 1 := fun hc => by
    have := hr.cloneable hc
    omega
  cases res with
  | none =>
      have hres : w.resolved = false := by simpa using hr.resolved
      refine ⟨s, { w with valRefs := k }, by simp [decValRef, hk, hres], ?_, rfl, rfl, rfl⟩
      exact hr.congr hkq rfl hr.actions rfl rfl (by simp) hcl
  | some v =>
      have hres : w.resolved = true := by simpa using hr.resolved
      obtain ⟨hslot, hmoved⟩ := hr.stored v rfl (by omega)
      cases k with
      | zero =>
          refine ⟨{ s with moved := s.moved + 1 }, { w with valRefs := 0, val := none },
            ?_, ?_, rfl, rfl, rfl⟩
          · simp [decValRef, hk, hres, readVal, hslot, bind, Except.bind]
          · exact ⟨hkq, hr.resolved, hr.actions, by simp, by simp, by simp [hmoved], by simp⟩
      | succ k =>
          refine ⟨s, { w with valRefs := k + 1 }, by simp [decValRef, hk, hres], ?_, rfl, rfl, rfl⟩
          exact hr.congr hkq rfl hr.actions rfl rfl (fun _ => by simp [hk]) hcl

/-- Dropping one of the futures that refer to the block. -/
theorem dropUnresolved_at {b : Bool} (h : At cl y s res (u + 1) (n + b.toNat)) (hle : n ≤ u) :
    ∃ s', dropUnresolved s b = .ok s' ∧ At cl y s' res u n ∧ Frame s s' := by
  obtain ⟨w, hw, hd, hwait, hr⟩ := h.alive (by omega)
  have hderef : s.deref = .ok w := by simp [State.deref, hw]
  have hqueue : s.queue = w.actions := by simp [State.queue, hw]
  cases b with
  | false =>
      obtain ⟨s', hdec, hat, hh, hl, hq⟩ := decWaitRef_at h.writer hd hle (by omega) hr
      exact ⟨s', by simp [dropUnresolved, hderef, hdec, bind, Except.bind], hat, hh, hl,
        hq.trans hqueue.symm⟩
  | true =>
      obtain ⟨s₁, w₁, hval, hr₁, hw₁, ha₁, hs₁⟩ := decValRef_refs hr
      obtain ⟨s', hdec, hat, hh, hl, hq⟩ := decWaitRef_at (s := s₁) (by rw [hs₁]; exact h.writer)
        (by rw [hs₁]; exact hd) hle (by omega) hr₁
      refine ⟨s', ?_, hat, by rw [hh, hs₁], by rw [hl, hs₁], by rw [hq, ha₁, hqueue]⟩
      simp [dropUnresolved, hderef, hval, hdec, bind, Except.bind]

/-- One more reference to a block that is not resolved. -/
theorem put_at {b : Bool} (h : At cl y s none u n) (hcl : b = true → cl = true) :
    ∃ w, s.deref = .ok w ∧ w.resolved = false ∧
      At cl y (s.put { w with waitRefs := w.waitRefs + 1, valRefs := w.valRefs + b.toNat }) none
        (u + 1) (n + b.toNat) ∧
      Frame s (s.put { w with waitRefs := w.waitRefs + 1, valRefs := w.valRefs + b.toNat }) := by
  obtain ⟨w, hw, hd, hwait, hr⟩ := h.alive (by simp)
  have hval := hr.valRefs
  have hle := h.le
  refine ⟨w, by simp [State.deref, hw], by simpa using hr.resolved, ⟨h.writer, ?_,
    Or.inl ⟨_, rfl, hd, by simp, ?_, ?_⟩⟩, rfl, rfl, by simp [State.queue, State.put, hw]⟩
  · cases b <;> simp <;> omega
  · simp only [hwait]
    omega
  · refine hr.congr ?_ rfl hr.actions rfl rfl (by simp) ?_
    · simp only
      omega
    · intro hc
      have := hr.cloneable hc
      cases b with
      | false => simpa using this
      | true => simp [hcl rfl] at hc

/-- Updating a future. -/
theorem updateState_at {f : FutureInternal V}
    (h : At cl y s res (u + f.isUnresolved.toNat) (n + f.isWithVal.toNat)) (hle : n ≤ u)
    (hf : Settled res f) :
    ∃ g s', updateState cl s f = .ok (g, s') ∧
      At cl y s' res (u + g.isUnresolved.toNat) (n + g.isWithVal.toNat) ∧ Frame s s' ∧
      Settled res g ∧ g.hasVal = f.hasVal ∧ g.isUnresolved = (f.isUnresolved && res.isNone) := by
  have hresolve : ∀ b, At cl y s res (u + 1) (n + b.toNat) → f.hasVal = b → f.isUnresolved = true →
      f.isWithVal = b → ∃ g s', updateState.resolve cl s f b = .ok (g, s') ∧
        At cl y s' res (u + g.isUnresolved.toNat) (n + g.isWithVal.toNat) ∧ Frame s s' ∧
        Settled res g ∧ g.hasVal = f.hasVal ∧ g.isUnresolved = (f.isUnresolved && res.isNone) := by
    intro b hat hb hun hwv
    rcases tryResolve_at hat hle with ⟨rfl, htry⟩ | ⟨v, x, s', rfl, htry, hx, hat', hframe⟩
    · refine ⟨f, s, by simp [updateState.resolve, htry, bind, Except.bind], ?_, Frame.refl s, hf,
        rfl, by simp⟩
      rw [hun, hwv]
      exact hat
    · refine ⟨.ofArg x, s', by simp [updateState.resolve, htry, bind, Except.bind], ?_, hframe, ?_,
        ?_, ?_⟩
      · cases x <;> exact hat'
      · cases x with
        | val x => exact ⟨v, rfl, hx.2⟩
        | unit => rfl
      · rw [hb]
        cases x with
        | val x => exact hx.1.symm
        | unit => exact hx.symm
      · cases x <;> simp [FutureInternal.ofArg, FutureInternal.isUnresolved]
  cases f with
  | withVal => exact hresolve true h rfl rfl rfl
  | withoutVal => exact hresolve false h rfl rfl rfl
  | done x => exact ⟨.done x, s, rfl, h, Frame.refl s, hf, rfl, rfl⟩
  | doneUnit => exact ⟨.doneUnit, s, rfl, h, Frame.refl s, hf, rfl, rfl⟩

/-- Cloning one of the live futures. -/
theorem cloneInternal_at {f : FutureInternal V} (h : At cl y s res u n)
    (hu : f.isUnresolved.toNat ≤ u) (hn : f.isWithVal.toNat ≤ n) (hf : Settled res f)
    (hcl : f.hasVal = true → cl = true) :
    ∃ g s', cloneInternal s f = .ok (g, s') ∧
      At cl y s' res (u + g.isUnresolved.toNat) (n + g.isWithVal.toNat) ∧ Frame s s' ∧
      Settled res g ∧ g.hasVal = f.hasVal := by
  cases f with
  | withVal =>
      simp only [FutureInternal.isUnresolved, FutureInternal.isWithVal, Bool.toNat_true] at hu hn
      cases res with
      | none =>
          obtain ⟨w, hw, hres, hat, hframe⟩ := put_at (b := true) h fun _ => hcl rfl
          exact ⟨.withVal, _, by simp [cloneInternal, hw, hres, bind, Except.bind], hat, hframe,
            trivial, rfl⟩
      | some v =>
          obtain ⟨w, hw, hd, hwait, hr⟩ := h.alive (by omega)
          have hres : w.resolved = true := by simpa using hr.resolved
          have hpos : 0 < w.valRefs := by
            have := hr.valRefs
            omega
          have hslot := (hr.stored v rfl hpos).1
          refine ⟨.done (.clone (.orig v)), s, ?_, h, Frame.refl s, ⟨v, rfl, rfl⟩, rfl⟩
          simp [cloneInternal, State.deref, hw, hres, hslot, bind, Except.bind]
  | withoutVal =>
      simp only [FutureInternal.isUnresolved, Bool.toNat_true] at hu
      cases res with
      | none =>
          obtain ⟨w, hw, hres, hat, hframe⟩ := put_at (b := false) h (by simp)
          exact ⟨.withoutVal, _, by simp [cloneInternal, hw, hres, bind, Except.bind], hat, hframe,
            trivial, rfl⟩
      | some v =>
          obtain ⟨w, hw, hd, hwait, hr⟩ := h.alive (by omega)
          have hres : w.resolved = true := by simpa using hr.resolved
          refine ⟨.doneUnit, s, ?_, h, Frame.refl s, rfl, rfl⟩
          simp [cloneInternal, State.deref, hw, hres, bind, Except.bind]
  | done x =>
      obtain ⟨v, hv, hx⟩ := hf
      exact ⟨.done (.clone x), s, rfl, h, Frame.refl s, ⟨v, hv, hx⟩, rfl⟩
  | doneUnit => exact ⟨.doneUnit, s, rfl, h, Frame.refl s, hf, rfl⟩

/-- A future without a value made from one of the live futures. -/
theorem withoutVal_at {f : FutureInternal V} (h : At cl y s res u n)
    (hu : f.isUnresolved.toNat ≤ u) (hf : Settled res f) :
    ∃ g s', withoutVal s f = .ok (g, s') ∧
      At cl y s' res (u + g.isUnresolved.toNat) (n + g.isWithVal.toNat) ∧ Frame s s' ∧
      Settled res g ∧ g.hasVal = false := by
  cases f with
  | withVal =>
      simp only [FutureInternal.isUnresolved, Bool.toNat_true] at hu
      cases res with
      | none =>
          obtain ⟨w, hw, hres, hat, hframe⟩ := put_at (b := false) h (by simp)
          exact ⟨.withoutVal, _, by simp [withoutVal, hw, hres, bind, Except.bind], hat, hframe,
            trivial, rfl⟩
      | some v =>
          obtain ⟨w, hw, hd, hwait, hr⟩ := h.alive (by omega)
          have hres : w.resolved = true := by simpa using hr.resolved
          refine ⟨.doneUnit, s, ?_, h, Frame.refl s, rfl, rfl⟩
          simp [withoutVal, State.deref, hw, hres, bind, Except.bind]
  | withoutVal =>
      simp only [FutureInternal.isUnresolved, Bool.toNat_true] at hu
      obtain ⟨w, hw, hd, hwait, hr⟩ := h.alive (by omega)
      refine ⟨.withoutVal, s.put { w with waitRefs := w.waitRefs + 1 }, ?_, ⟨h.writer, ?_,
        Or.inl ⟨_, rfl, hd, by simp, ?_, ?_⟩⟩, ⟨rfl, rfl, ?_⟩, trivial, rfl⟩
      · simp [withoutVal, State.deref, hw, bind, Except.bind]
      · have := h.le
        simp only [FutureInternal.isUnresolved, FutureInternal.isWithVal, Bool.toNat_true,
          Bool.toNat_false]
        omega
      · simp only [hwait, FutureInternal.isUnresolved, Bool.toNat_true]
        omega
      · exact hr.congr hr.valRefs rfl hr.actions rfl rfl (fun _ => Iff.rfl) hr.cloneable
      · simp [State.queue, State.put, hw]
  | done x =>
      obtain ⟨v, hv, -⟩ := hf
      exact ⟨.doneUnit, s, rfl, h, Frame.refl s, by simp [Settled, hv], rfl⟩
  | doneUnit => exact ⟨.doneUnit, s, rfl, h, Frame.refl s, hf, rfl⟩

/-- Dropping a future. -/
theorem dropFuture_at {f : FutureInternal V}
    (h : At cl y s res (u + f.isUnresolved.toNat) (n + f.isWithVal.toNat)) (hle : n ≤ u) :
    ∃ s', dropFuture s f = .ok s' ∧ At cl y s' res u n ∧ Frame s s' := by
  cases f with
  | withVal => exact dropUnresolved_at (b := true) h hle
  | withoutVal => exact dropUnresolved_at (b := false) h hle
  | done x => exact ⟨s, rfl, h, Frame.refl s⟩
  | doneUnit => exact ⟨s, rfl, h, Frame.refl s⟩

/-- What a callback is given. -/
def Delivers (v : V) (a : ℕ × Bool) (e : ℕ × Arg V) : Prop := a.1 = e.1 ∧ Receives v a.2 e.2

/-- Attaching a callback to a future: it is queued before the resolution and run at once
after it. -/
theorem whenResolved_at {f : FutureInternal V} {c : ℕ}
    (h : At cl y s res (u + f.isUnresolved.toNat) (n + f.isWithVal.toNat)) (hle : n ≤ u)
    (hf : Settled res f) :
    ∃ s', whenResolved cl s c f = .ok s' ∧ At cl y s' res u n ∧ s'.handles = s.handles ∧
      (res = none → s'.log = s.log ∧ s'.queue = s.queue ++ [(c, f.hasVal)]) ∧
      ∀ v, res = some v → s'.queue = s.queue ∧
        ∃ e, s'.log = s.log ++ [e] ∧ Delivers v (c, f.hasVal) e := by
  have hattach : ∀ b, At cl y s res (u + 1) (n + b.toNat) →
      ∃ s', whenResolved.attach cl s c b = .ok s' ∧
        At cl y s' res u n ∧ s'.handles = s.handles ∧
        (res = none → s'.log = s.log ∧ s'.queue = s.queue ++ [(c, b)]) ∧
        ∀ v, res = some v → s'.queue = s.queue ∧
          ∃ e, s'.log = s.log ++ [e] ∧ Delivers v (c, b) e := by
    intro b hat
    rcases tryResolve_at hat hle with ⟨rfl, htry⟩ | ⟨v, x, s', rfl, htry, hx, hat', hframe⟩
    · obtain ⟨w, hw, hd, hwait, hr⟩ := hat.alive (by simp)
      have hwait' : w.waitRefs = u + 1 + 1 := by simpa using hwait
      refine ⟨s.put { w with actions := w.actions ++ [(c, b)], waitRefs := u + 1 }, ?_,
        ⟨hat.writer, hle, Or.inl ⟨_, rfl, hd, by simp, by simp, ?_⟩⟩, rfl, fun _ => ⟨rfl, ?_⟩,
        by simp⟩
      · simp [whenResolved.attach, htry, State.deref, hw, hwait', bind, Except.bind]
      · refine hr.congr ?_ rfl (by simp) rfl rfl (by simp) hr.cloneable
        have := hr.valRefs
        simp only [queuedVals_append, queuedVals_cons, queuedVals_nil]
        omega
      · simp [State.queue, State.put, hw]
    · refine ⟨s'.call c x, by simp [whenResolved.attach, htry, bind, Except.bind],
        ⟨hat'.writer, hat'.le, hat'.block⟩, hframe.handles, by simp, ?_⟩
      intro v' hv'
      obtain rfl : v = v' := by simpa using hv'
      exact ⟨hframe.queue, (c, x), by simp [State.call, hframe.log], rfl, hx⟩
  cases f with
  | withVal => exact hattach true h
  | withoutVal => exact hattach false h
  | done x =>
      obtain ⟨v, rfl, hx⟩ := hf
      refine ⟨s.call c (.val x), rfl, ⟨h.writer, h.le, h.block⟩, rfl, by simp, ?_⟩
      intro v' hv'
      obtain rfl : v = v' := by simpa using hv'
      exact ⟨rfl, (c, .val x), rfl, rfl, rfl, hx⟩
  | doneUnit =>
      refine ⟨s.call c .unit, rfl, ⟨h.writer, h.le, h.block⟩, rfl, ?_, ?_⟩
      · rintro rfl
        simp [Settled] at hf
      · intro v hv
        exact ⟨rfl, (c, .unit), rfl, rfl, rfl⟩

/-- The loop of `finish_internal` runs every action once, in order. -/
theorem runActions_refs {as : List (ℕ × Bool)}
    (hr : Refs cl y w (some v) (n + queuedVals as) s.moved) :
    ∃ s' w' l, runActions cl s w as = .ok (s', w') ∧ Refs cl y w' (some v) n s'.moved ∧
      w'.waitRefs = w.waitRefs ∧ s' = { s with moved := s'.moved, log := s.log ++ l } ∧
      List.Forall₂ (Delivers v) as l := by
  induction as generalizing s w with
  | nil => exact ⟨s, w, [], rfl, by simpa using hr, rfl, by simp, .nil⟩
  | cons a as ih =>
      obtain ⟨c, b⟩ := a
      have hr' : Refs cl y w (some v) ((n + queuedVals as) + b.toNat) s.moved := by
        rwa [queuedVals_cons, ← Nat.add_assoc] at hr
      obtain ⟨x, s₁, w₁, htake, hx, hr₁, hw₁, hs₁⟩ := takeArg_refs hr'
      obtain ⟨s', w', l, hrun, hr₂, hw₂, hs', hl⟩ := ih (s := s₁.call c x) hr₁
      refine ⟨s', w', (c, x) :: l, ?_, hr₂, hw₂.trans hw₁, ?_, .cons ⟨rfl, hx⟩ hl⟩
      · simp [runActions, htake, hrun, bind, Except.bind]
      · rw [hs', hs₁]
        simp [State.call]

/-- The resolution. A value that nobody wants is as good as dropped. -/
theorem Refs.resolve {m : ℕ} (hr : Refs cl y w none n m) {x : Option (Value V)}
    (hx : 0 < w.valRefs → x = some (.orig v)) :
    Refs cl y { w with val := x, resolved := true, actions := [] } (some v)
      (n + queuedVals w.actions) (m + if w.valRefs = 0 then 1 else 0) := by
  have hmoved := (hr.pending rfl).2
  refine ⟨hr.valRefs, rfl, by simp, by simp, fun v' hv' hpos => ?_, fun v' _ h0 => ?_,
    hr.cloneable⟩
  · obtain rfl := Option.some.inj hv'
    exact ⟨hx hpos, by simp [hmoved, Nat.pos_iff_ne_zero.mp hpos]⟩
  · have h0' : w.valRefs = 0 := h0
    simp [hmoved, h0']

/-- `finish_internal` resolves the future and runs the queued actions, if the value is there for
whoever wants it. -/
theorem finishInternal_at (h : At cl y s none u n) (hw : s.wait = some w) {x : Option (Value V)}
    (hx : 0 < w.valRefs → x = some (.orig v)) :
    ∃ s' l, finishInternal cl
        { s with writer := false, moved := s.moved + if w.valRefs = 0 then 1 else 0 }
        { w with val := x } = .ok s' ∧
      At cl y s' (some v) u n ∧ s'.handles = s.handles ∧
      s'.log = s.log ++ l ∧ List.Forall₂ (Delivers v) s.queue l := by
  obtain ⟨w', hw', hd, hwait, hr⟩ := h.alive (by simp)
  obtain rfl : w = w' := Option.some.inj (hw.symm.trans hw')
  have hqueue : s.queue = w.actions := by simp [State.queue, hw]
  have hr₀ := hr.resolve hx
  obtain ⟨s₁, w₁, l, hrun, hr₁, hw₁, hs₁, hl⟩ := runActions_refs (s :=
    { s with writer := false, moved := s.moved + if w.valRefs = 0 then 1 else 0 }) hr₀
  have hwr₁ : s₁.writer = (some v).isNone := by rw [hs₁]; rfl
  have hd₁ : s₁.destroyed = 0 := by rw [hs₁]; exact hd
  have hw₁' : w₁.waitRefs = u + (some v).isNone.toNat + 1 := by rw [hw₁, hwait]; rfl
  obtain ⟨s', hdec, hat, hh, hlog, -⟩ := decWaitRef_at hwr₁ hd₁ h.le hw₁' hr₁
  refine ⟨s', l, ?_, hat, by rw [hh, hs₁], by rw [hlog, hs₁], hqueue ▸ hl⟩
  simp only [finishInternal, hrun, bind, Except.bind]
  exact hdec

/-- `finish` resolves the future and runs the queued actions. -/
theorem finish_at (h : At cl y s none u n) (v : V) :
    ∃ s' l, finish cl s v = .ok s' ∧ At cl y s' (some v) u n ∧ s'.handles = s.handles ∧
      s'.log = s.log ++ l ∧ List.Forall₂ (Delivers v) s.queue l := by
  obtain ⟨w, hw, -⟩ := h.alive (by simp)
  have hderef : s.deref = .ok w := by simp [State.deref, hw]
  by_cases hval : w.valRefs = 0
  · obtain ⟨s', l, hfin, hrest⟩ := finishInternal_at (v := v) h hw (x := w.val) (by simp [hval])
    refine ⟨s', l, ?_, hrest⟩
    rw [if_pos hval] at hfin
    simp only [finish, hderef, hval, bind, Except.bind, ne_eq, not_true_eq_false, if_false]
    exact hfin
  · obtain ⟨s', l, hfin, hrest⟩ := finishInternal_at (v := v) h hw fun _ => rfl
    refine ⟨s', l, ?_, hrest⟩
    rw [if_neg hval] at hfin
    simpa [finish, hderef, hval, bind, Except.bind] using hfin

end Ops

/-! ### Runs -/

/-- The names of the live futures. -/
def State.names (s : State V) : List ℕ := s.handles.map Prod.fst

/-- What callers can do: an operation is called on a live future, a new future gets a new
name, a future with a value is cloned only if the value can be, and the writer is used until
it finishes. -/
def Permitted (cl : Bool) (s : State V) : Op V → Prop
  | .asFuture h => s.writer = true ∧ cl = true ∧ h ∉ s.names
  | .clone h new => (∃ f, (h, f) ∈ s.handles ∧ (f.hasVal = true → cl = true)) ∧ new ∉ s.names
  | .withoutVal h new => h ∈ s.names ∧ new ∉ s.names
  | .whenResolved h _ => h ∈ s.names
  | .updateReadiness h => h ∈ s.names
  | .tryUnwrap h => h ∈ s.names
  | .unwrapBlocking h => h ∈ s.names
  | .drop h => h ∈ s.names
  | .finish _ => s.writer = true

/-- What has happened so far: what `finish` was given, and the callbacks in the order in
which they were attached, each with the kind of its future. -/
structure Hist (V : Type*) where
  res : Option V
  attached : List (ℕ × Bool)

/-- Nothing has happened. -/
def Hist.new : Hist V := ⟨none, []⟩

/-- Records an operation. -/
def Hist.record (hist : Hist V) (s : State V) : Op V → Hist V
  | .whenResolved h c =>
      match takeHandle s.handles h with
      | some (f, _) => { hist with attached := hist.attached ++ [(c, f.hasVal)] }
      | none => hist
  | .finish v => { hist with res := some v }
  | _ => hist

/-- A permitted operation that returns. -/
def Step (cl : Bool) (s : State V × Hist V) (op : Op V) (t : State V × Hist V) : Prop :=
  Permitted cl s.1 op ∧ (∃ o, exec cl s.1 op = .ok (t.1, o)) ∧ t.2 = s.2.record s.1 op

/-- The invariant of a run of a block to which `k` others refer besides the futures and the
writer, and in which the room for the value holds `y` until the resolution. -/
structure Held (cl : Bool) (y : Option (Value V)) (k : ℕ) (s : State V) (hist : Hist V) :
    Prop where
  refs : At cl y s hist.res (unresolved s.handles + k) (withVals s.handles)
  settled : ∀ e ∈ s.handles, Settled hist.res e.2
  names : s.names.Nodup
  pending : hist.res = none → s.log = [] ∧ s.queue = hist.attached
  delivered : ∀ v, hist.res = some v → List.Forall₂ (Delivers v) hist.attached s.log

/-- The invariant of a run of a block to which only its futures and its writer refer. -/
def Inv (cl : Bool) (s : State V) (hist : Hist V) : Prop := Held cl none 0 s hist

/-- The outcome of an operation on a future with or without a value. -/
def Expected (res : Option V) (b : Bool) (op : Op V) (o : Outcome V) : Prop :=
  match op with
  | .updateReadiness _ => o = .ready res.isSome
  | .tryUnwrap _ => (res = none → o = .err) ∧ ∀ v, res = some v → ∃ x, o = .ok x ∧ Receives v b x
  | .unwrapBlocking _ =>
      (res = none → o = .blocks) ∧ ∀ v, res = some v → ∃ x, o = .ok x ∧ Receives v b x
  | _ => o = .none

/-- The invariant holds of a new future with its writer. -/
theorem inv_newFuture (cl : Bool) (h : ℕ) : Inv cl (State.newFuture h : State V) Hist.new where
  refs := by
    refine ⟨rfl, by simp [State.newFuture, unresolved, withVals, FutureInternal.isUnresolved,
      FutureInternal.isWithVal], Or.inl ⟨_, rfl, rfl, by simp, rfl, ?_⟩⟩
    exact ⟨rfl, rfl, by simp, fun _ => ⟨rfl, rfl⟩, by simp [Hist.new], by simp [Hist.new], by simp⟩
  settled := by simp [State.newFuture, Settled]
  names := by simp [State.names, State.newFuture]
  pending := fun _ => ⟨rfl, rfl⟩
  delivered := by simp [Hist.new]

/-- The invariant holds of a new writer without futures. -/
theorem inv_newWriter (cl : Bool) : Inv cl (State.newWriter : State V) Hist.new where
  refs := by
    refine ⟨rfl, by simp [State.newWriter, withVals], Or.inl ⟨_, rfl, rfl, by simp, rfl, ?_⟩⟩
    exact ⟨rfl, rfl, by simp, fun _ => ⟨rfl, rfl⟩, by simp [Hist.new], by simp [Hist.new], by simp⟩
  settled := by simp [State.newWriter]
  names := by simp [State.names, State.newWriter]
  pending := fun _ => ⟨rfl, rfl⟩
  delivered := by simp [Hist.new]

section Exec

variable {cl : Bool} {y : Option (Value V)} {k : ℕ} {s s' : State V} {hist : Hist V} {h : ℕ}
  {f : FutureInternal V} {hs : List (ℕ × FutureInternal V)}

/-- A new future in the list changes nothing in the block. -/
theorem At.push {res : Option V} {u n : ℕ} (ha : At cl y s res u n) :
    At cl y (s.push h f) res u n :=
  ⟨ha.writer, ha.le, ha.block⟩

/-- What is known once a future has been taken out of the list. -/
structure Taken (cl : Bool) (y : Option (Value V)) (k : ℕ) (s : State V) (hist : Hist V) (h : ℕ)
    (f : FutureInternal V) (hs : List (ℕ × FutureInternal V)) : Prop where
  refs : At cl y { s with handles := hs } hist.res (unresolved hs + k + f.isUnresolved.toNat)
    (withVals hs + f.isWithVal.toNat)
  settled : Settled hist.res f
  others : ∀ e ∈ hs, Settled hist.res e.2
  names : ((h, f) :: hs).map Prod.fst |>.Nodup
  perm : s.handles.Perm ((h, f) :: hs)

/-- What is known of a future that is taken out. -/
theorem Held.taken (hi : Held cl y k s hist) (ht : takeHandle s.handles h = some (f, hs)) :
    Taken cl y k s hist h f hs := by
  have hperm := takeHandle_perm ht
  have href := hi.refs
  rw [unresolved, withVals, hperm.countP_eq, hperm.countP_eq, ← unresolved, ← withVals,
    unresolved_cons, withVals_cons, Nat.add_right_comm] at href
  exact ⟨⟨href.writer, href.le, href.block⟩, hi.settled (h, f) (hperm.mem_iff.mpr (by simp)),
    fun e he => hi.settled e (hperm.mem_iff.mpr (by simp [he])),
    (hperm.map _).nodup_iff.mp hi.names, hperm⟩

/-- The invariant after an operation that leaves the callbacks alone: the future `h` is still
there, or is gone, and there may be a new one. -/
theorem Held.of_frame (hi : Held cl y k s hist) {hs hs' : List (ℕ × FutureInternal V)} {k' : ℕ}
    (hframe : Frame { s with handles := hs } s')
    (hrefs : At cl y s' hist.res (unresolved hs' + k') (withVals hs'))
    (hset : ∀ e ∈ hs', Settled hist.res e.2) (hnames : (hs'.map Prod.fst).Nodup) :
    Held cl y k' { s' with handles := hs' } hist where
  refs := ⟨hrefs.writer, hrefs.le, hrefs.block⟩
  settled := hset
  names := hnames
  pending hres := by
    obtain ⟨h1, h2⟩ := hi.pending hres
    exact ⟨hframe.log.trans h1, hframe.queue.trans h2⟩
  delivered v hv := by
    have hlog : s'.log = s.log := hframe.log
    rw [hlog]
    exact hi.delivered v hv

/-- A live future is the one that its name stands for. -/
theorem Held.eq_of_mem (hi : Held cl y k s hist) {g : FutureInternal V} (hf : (h, f) ∈ s.handles)
    (hg : (h, g) ∈ s.handles) : f = g := by
  have heq := List.inj_on_of_nodup_map hi.names hf hg rfl
  exact (Prod.mk.inj heq).2

/-- The future that was taken out was in the list. -/
theorem Taken.self_mem (ht : Taken cl y k s hist h f hs) : (h, f) ∈ s.handles :=
  ht.perm.mem_iff.mpr List.mem_cons_self

/-- Futures other than the one taken out stay. -/
theorem Taken.mem (ht : Taken cl y k s hist h f hs) {e : ℕ × FutureInternal V} (he : e ∈ s.handles)
    (hne : e.1 ≠ h) : e ∈ hs := by
  rcases List.mem_cons.mp (ht.perm.mem_iff.mp he) with rfl | hmem
  · exact absurd rfl hne
  · exact hmem

/-- What an operation on the future `f` called `h` does, given the others. -/
def Good (cl : Bool) (y : Option (Value V)) (k : ℕ) (s : State V) (hist : Hist V)
    (f : FutureInternal V) (hs : List (ℕ × FutureInternal V)) (op : Op V)
    (r : Except Fault (State V × Outcome V)) : Prop :=
  ∃ s' o, r = .ok (s', o) ∧ Held cl y k s' (hist.record s op) ∧ Expected hist.res f.hasVal op o ∧
    ∀ e ∈ hs, e ∈ s'.handles

/-- A new future made from a live one. -/
theorem Taken.new_future (hi : Held cl y k s hist) (ht : Taken cl y k s hist h f hs) {new : ℕ}
    {g : FutureInternal V} (hnew : new ∉ s.names) (hframe : Frame { s with handles := hs } s')
    (hrefs : At cl y s' hist.res (unresolved hs + k + f.isUnresolved.toNat + g.isUnresolved.toNat)
      (withVals hs + f.isWithVal.toNat + g.isWithVal.toNat)) (hg : Settled hist.res g) :
    Held cl y k ((s'.push h f).push new g) hist ∧
      ∀ e ∈ hs, e ∈ ((s'.push h f).push new g).handles := by
  have hhandles : (s'.push h f).push new g = { s' with handles := (new, g) :: (h, f) :: hs } := by
    simp [State.push, hframe.handles]
  rw [hhandles]
  refine ⟨hi.of_frame hframe ?_ ?_ ?_, by simp_all⟩
  · rw [unresolved_cons, unresolved_cons, withVals_cons, withVals_cons]
    convert hrefs using 1
    omega
  · intro e he
    rcases List.mem_cons.mp he with rfl | he
    · exact hg
    rcases List.mem_cons.mp he with rfl | he
    · exact ht.settled
    · exact ht.others e he
  · rw [List.map_cons, List.nodup_cons]
    refine ⟨fun hmem => hnew ?_, ht.names⟩
    exact ((ht.perm.map Prod.fst).mem_iff).mpr hmem

/-- A future that was updated, and lives on. -/
theorem Taken.updated (hi : Held cl y k s hist) (ht : Taken cl y k s hist h f hs)
    {g : FutureInternal V} (hframe : Frame { s with handles := hs } s')
    (hrefs : At cl y s' hist.res (unresolved hs + k + g.isUnresolved.toNat)
      (withVals hs + g.isWithVal.toNat)) (hg : Settled hist.res g) :
    Held cl y k (s'.push h g) hist ∧ ∀ e ∈ hs, e ∈ (s'.push h g).handles := by
  have hhandles : s'.push h g = { s' with handles := (h, g) :: hs } := by
    simp [State.push, hframe.handles]
  rw [hhandles]
  refine ⟨hi.of_frame hframe ?_ ?_ (by simpa using ht.names), by simp_all⟩
  · rw [unresolved_cons, withVals_cons, Nat.add_right_comm]
    exact hrefs
  intro e he
  rcases List.mem_cons.mp he with rfl | he
  · exact hg
  · exact ht.others e he

/-- A future that is gone. -/
theorem Taken.consumed (hi : Held cl y k s hist) (ht : Taken cl y k s hist h f hs)
    (hframe : Frame { s with handles := hs } s')
    (hrefs : At cl y s' hist.res (unresolved hs + k) (withVals hs)) :
    Held cl y k s' hist ∧ ∀ e ∈ hs, e ∈ s'.handles := by
  have hhandles : s' = { s' with handles := hs } := by
    have : s'.handles = hs := hframe.handles
    rw [← this]
  rw [hhandles]
  exact ⟨hi.of_frame hframe hrefs ht.others (List.nodup_cons.mp ht.names).2, by simp⟩

/-- Unwrapping a future: before the resolution it is returned, after it the result is. -/
theorem Taken.unwrap (hi : Held cl y k s hist) (ht : Taken cl y k s hist h f hs)
    (pending : Outcome V) :
    ∃ g s', updateState cl { s with handles := hs } f = .ok (g, s') ∧
      Held cl y k (if (unwrapDone pending g).2 then s'.push h g else s') hist ∧
      (hist.res = none → (unwrapDone pending g).1 = pending) ∧
      (∀ v, hist.res = some v → ∃ x, (unwrapDone pending g).1 = .ok x ∧ Receives v f.hasVal x) ∧
      ∀ e ∈ hs, e ∈ (if (unwrapDone pending g).2 then s'.push h g else s').handles := by
  obtain ⟨g, s', hup, hat, hframe, hset, hval, hun⟩ :=
    updateState_at ht.refs (withVals_le_add hs k) ht.settled
  cases hr : hist.res with
  | none =>
      have hpend : unwrapDone pending g = (pending, true) := by
        cases g with
        | done x =>
            obtain ⟨v, hv, -⟩ := hset
            simp [hr] at hv
        | doneUnit => simp [Settled, hr] at hset
        | withVal => rfl
        | withoutVal => rfl
      obtain ⟨hinv, hmem⟩ := ht.updated hi hframe hat hset
      exact ⟨g, s', hup, by simpa [hpend] using hinv, by simp [hpend], by simp, by
        simpa [hpend] using hmem⟩
  | some v =>
      have hgone : g.isUnresolved = false := by simp [hun, hr]
      have hat' : At cl y s' hist.res (unresolved hs + k) (withVals hs) := by
        have hwv : g.isWithVal = false := by
          cases g <;> simp_all [FutureInternal.isUnresolved, FutureInternal.isWithVal]
        simpa [hgone, hwv] using hat
      obtain ⟨hinv, hmem⟩ := ht.consumed hi hframe hat'
      cases g with
      | withVal => simp [FutureInternal.isUnresolved] at hgone
      | withoutVal => simp [FutureInternal.isUnresolved] at hgone
      | done x =>
          obtain ⟨v', hv', hx⟩ := hset
          refine ⟨.done x, s', hup, hinv, by simp, ?_, hmem⟩
          intro v'' hv''
          obtain rfl : v = v'' := by simpa using hv''
          obtain rfl : v = v' := by simpa [hr] using hv'
          exact ⟨.val x, rfl, hval.symm, hx⟩
      | doneUnit =>
          exact ⟨.doneUnit, s', hup, hinv, by simp, fun v'' _ => ⟨.unit, rfl, hval.symm⟩, hmem⟩

/-- The invariant after a callback was attached. -/
theorem Taken.attached (hi : Held cl y k s hist) (ht : Taken cl y k s hist h f hs) {c : ℕ}
    (hrefs : At cl y s' hist.res (unresolved hs + k) (withVals hs)) (hhandles : s'.handles = hs)
    (hpend : hist.res = none → s'.log = s.log ∧ s'.queue = s.queue ++ [(c, f.hasVal)])
    (hdone : ∀ v, hist.res = some v → ∃ e, s'.log = s.log ++ [e] ∧ Delivers v (c, f.hasVal) e) :
    Held cl y k s' { hist with attached := hist.attached ++ [(c, f.hasVal)] } where
  refs := by rwa [hhandles]
  settled := by
    rw [hhandles]
    exact ht.others
  names := by
    rw [State.names, hhandles]
    exact (List.nodup_cons.mp ht.names).2
  pending hres := by
    obtain ⟨h1, h2⟩ := hi.pending hres
    obtain ⟨h3, h4⟩ := hpend hres
    exact ⟨h3.trans h1, by rw [h4, h2]⟩
  delivered v hv := by
    obtain ⟨e, he, hdel⟩ := hdone v hv
    rw [he]
    exact List.rel_append (hi.delivered v hv) (.cons hdel .nil)

/-- The invariant after the resolution. -/
theorem Held.resolved (hi : Held cl y k s hist) (hres : hist.res = none) {k' : ℕ} {v : V}
    (hrefs : At cl y s' (some v) (unresolved s.handles + k') (withVals s.handles))
    (hhandles : s'.handles = s.handles) {l : List (ℕ × Arg V)} (hlog : s'.log = s.log ++ l)
    (hl : List.Forall₂ (Delivers v) s.queue l) :
    Held cl y k' s' { hist with res := some v } where
  refs := by rwa [hhandles]
  settled e he := by
    rw [hhandles] at he
    have hset := hi.settled e he
    cases hf : e.2 with
    | done x =>
        rw [hf, hres] at hset
        obtain ⟨v', hv', -⟩ := hset
        simp at hv'
    | doneUnit => rfl
    | withVal => trivial
    | withoutVal => trivial
  names := by
    rw [State.names, hhandles]
    exact hi.names
  pending := by simp
  delivered v' hv' := by
    obtain rfl : v = v' := by simpa using hv'
    obtain ⟨hl0, hq⟩ := hi.pending hres
    rw [hlog, hl0, List.nil_append]
    exact hq ▸ hl

/-- **An operation on a live future** succeeds, keeps the invariant and returns what it
should. -/
theorem execOn_good (hi : Held cl y k s hist) {op : Op V} (hp : Permitted cl s op)
    (hop : op.target = some h) (htake : takeHandle s.handles h = some (f, hs)) :
    Good cl y k s hist f hs op (execOn cl { s with handles := hs } h f op) := by
  have ht := hi.taken htake
  have hle := withVals_le_add hs k
  cases op with
  | asFuture h' => simp [Op.target] at hop
  | finish v => simp [Op.target] at hop
  | clone h' new =>
      obtain rfl : h' = h := by simpa [Op.target] using hop
      obtain ⟨⟨f', hf', hcl⟩, hnew⟩ := hp
      obtain rfl := hi.eq_of_mem hf' ht.self_mem
      obtain ⟨g, s', hc, hat, hframe, hset, -⟩ :=
        cloneInternal_at ht.refs (by omega) (by omega) ht.settled hcl
      obtain ⟨hinv, hmem⟩ := ht.new_future hi hnew hframe hat hset
      exact ⟨_, .none, by simp [execOn, hc, bind, Except.bind], hinv, rfl, hmem⟩
  | withoutVal h' new =>
      obtain rfl : h' = h := by simpa [Op.target] using hop
      obtain ⟨g, s', hc, hat, hframe, hset, -⟩ := withoutVal_at ht.refs (by omega) ht.settled
      obtain ⟨hinv, hmem⟩ := ht.new_future hi hp.2 hframe hat hset
      exact ⟨_, .none, by simp [execOn, hc, bind, Except.bind], hinv, rfl, hmem⟩
  | whenResolved h' c =>
      obtain rfl : h' = h := by simpa [Op.target] using hop
      obtain ⟨s', hw, hat, hhandles, hpend, hdone⟩ :=
        whenResolved_at (c := c) ht.refs hle ht.settled
      have hinv := ht.attached hi hat hhandles hpend fun v hv => (hdone v hv).2
      refine ⟨s', .none, by simp [execOn, hw, bind, Except.bind], ?_, rfl, ?_⟩
      · simpa [Hist.record, htake] using hinv
      · intro e he
        rwa [hhandles]
  | updateReadiness h' =>
      obtain rfl : h' = h := by simpa [Op.target] using hop
      obtain ⟨g, s', hup, hat, hframe, hset, -, hun⟩ := updateState_at ht.refs hle ht.settled
      obtain ⟨hinv, hmem⟩ := ht.updated hi hframe hat hset
      refine ⟨_, _, by simp only [execOn, hup, bind, Except.bind]; rfl, hinv, ?_, hmem⟩
      have hready : g.isReady = hist.res.isSome := by
        cases hr : hist.res with
        | none =>
            rw [hr] at hset
            cases g <;> simp_all [FutureInternal.isReady, Settled]
        | some v =>
            rw [hr] at hun
            cases g <;> simp_all [FutureInternal.isReady, FutureInternal.isUnresolved]
      simp [Expected, hready]
  | tryUnwrap h' =>
      obtain rfl : h' = h := by simpa [Op.target] using hop
      obtain ⟨g, s', hup, hinv, hnone, hsome, hmem⟩ := ht.unwrap hi .err
      exact ⟨_, _, by simp only [execOn, hup, bind, Except.bind], hinv, ⟨hnone, hsome⟩, hmem⟩
  | unwrapBlocking h' =>
      obtain rfl : h' = h := by simpa [Op.target] using hop
      obtain ⟨g, s', hup, hinv, hnone, hsome, hmem⟩ := ht.unwrap hi .blocks
      exact ⟨_, _, by simp only [execOn, hup, bind, Except.bind], hinv, ⟨hnone, hsome⟩, hmem⟩
  | drop h' =>
      obtain rfl : h' = h := by simpa [Op.target] using hop
      obtain ⟨s', hd, hat, hframe⟩ := dropFuture_at ht.refs hle
      obtain ⟨hinv, hmem⟩ := ht.consumed hi hframe hat
      exact ⟨s', .none, by simp [execOn, hd, bind, Except.bind], hinv, rfl, hmem⟩

/-- A permitted operation on a future is called on a live one. -/
theorem Permitted.target_mem {op : Op V} (hp : Permitted cl s op) (hop : op.target = some h) :
    h ∈ s.names := by
  cases op with
  | asFuture h' => simp [Op.target] at hop
  | finish v => simp [Op.target] at hop
  | clone h' new =>
      obtain rfl : h' = h := by simpa [Op.target] using hop
      obtain ⟨⟨f, hf, -⟩, -⟩ := hp
      exact List.mem_map_of_mem hf
  | withoutVal h' new =>
      obtain rfl : h' = h := by simpa [Op.target] using hop
      exact hp.1
  | _ =>
      simp only [Op.target, Option.some.injEq] at hop
      exact hop ▸ hp

/-- **Every permitted operation** succeeds, keeps the invariant, and returns what it
should. -/
theorem exec_inv (hi : Held cl y k s hist) {op : Op V} (hp : Permitted cl s op) :
    ∃ s' o, exec cl s op = .ok (s', o) ∧ Held cl y k s' (hist.record s op) ∧
      (∀ h f, op.target = some h → (h, f) ∈ s.handles → Expected hist.res f.hasVal op o) ∧
      ∀ e ∈ s.handles, op.target ≠ some e.1 → e ∈ s'.handles := by
  cases hop : op.target with
  | some h =>
      obtain ⟨f, hs, htake⟩ := exists_takeHandle (hp.target_mem hop)
      have ht := hi.taken htake
      obtain ⟨s', o, hexec, hinv, hout, hmem⟩ := execOn_good hi hp hop htake
      have hsame : exec cl s op = execOn cl { s with handles := hs } h f op := by
        cases op <;> simp_all [exec, Op.target]
      refine ⟨s', o, by rw [hsame, hexec], hinv, ?_, ?_⟩
      · intro h' f' heq hf'
        obtain rfl : h = h' := by simpa using heq
        obtain rfl := hi.eq_of_mem hf' ht.self_mem
        exact hout
      · intro e he hne
        exact hmem e (ht.mem he fun heq => hne (by rw [heq]))
  | none =>
      cases op with
      | asFuture h =>
          obtain ⟨hwr, hcl, hnew⟩ := hp
          have hres : hist.res = none := by
            have := hi.refs.writer
            rw [hwr] at this
            simpa using this.symm
          obtain ⟨w, hw, -, hat, hframe⟩ := put_at (b := true) (hres ▸ hi.refs) fun _ => hcl
          refine ⟨_, .none, by simp only [exec, asFuture, hw, bind, Except.bind]; rfl,
            ?_, by simp, ?_⟩
          · refine ⟨?_, ?_, ?_, fun hn => ?_, fun v hv => ?_⟩
            · simp only [Hist.record, hres, State.push, State.put, unresolved_cons, withVals_cons]
              rw [Nat.add_right_comm]
              exact hat.push (h := h) (f := .withVal)
            · intro e he
              rcases List.mem_cons.mp he with rfl | he
              · trivial
              · exact hi.settled e he
            · exact List.nodup_cons.mpr ⟨hnew, hi.names⟩
            · obtain ⟨h1, h2⟩ := hi.pending hres
              exact ⟨h1, hframe.queue.trans h2⟩
            · simp [Hist.record, hres] at hv
          · intro e he _
            exact List.mem_cons_of_mem _ he
      | finish v =>
          have hres : hist.res = none := by
            have hwr : s.writer = true := hp
            have := hi.refs.writer
            rw [hwr] at this
            simpa using this.symm
          obtain ⟨s', l, hfin, hat, hhandles, hlog, hl⟩ := finish_at (hres ▸ hi.refs) v
          refine ⟨s', .none, by simp [exec, hfin, bind, Except.bind],
            hi.resolved hres hat hhandles hlog hl, by simp, ?_⟩
          intro e he _
          rwa [hhandles]
      | _ => simp [Op.target] at hop

end Exec

/-- A new block: from `Future::new` or from `FutureWriter::new`. -/
def Initial (s : State V × Hist V) : Prop :=
  s.2 = Hist.new ∧ ((∃ h, s.1 = State.newFuture h) ∨ s.1 = State.newWriter)

/-- The invariant holds in every state that a run reaches. -/
theorem inv_of_runs {cl : Bool} {s t : State V × Hist V} {ops : List (Op V)} (hs : Initial s)
    (hrun : Runs (Step cl) s ops t) : Inv cl t.1 t.2 := by
  refine hrun.invariant (P := fun t => Inv cl t.1 t.2) ?_ ?_
  · obtain ⟨h1, ⟨h, h2⟩ | h2⟩ := hs
    · rw [h1, h2]
      exact inv_newFuture cl h
    · rw [h1, h2]
      exact inv_newWriter cl
  · rintro a op b hi ⟨hp, ⟨o, hexec⟩, hhist⟩
    obtain ⟨s', o', hexec', hinv, -⟩ := exec_inv hi hp
    obtain ⟨rfl, -⟩ := Prod.mk.inj (Except.ok.inj (hexec.symm.trans hexec'))
    rw [hhist]
    exact hinv

/-- **The reference counts of futures.** In every run, while the block is allocated its
counts are the numbers of futures and queued actions that refer to it, and the block is
allocated exactly as long as a future refers to it or the writer has not finished. It is
destroyed once, the value is moved out or dropped once, and no permitted operation fails: none
uses the block after that, or a value that is not there. -/
theorem refs_of_runs {cl : Bool} {s t : State V × Hist V} {ops : List (Op V)} (hs : Initial s)
    (hrun : Runs (Step cl) s ops t) :
    (∀ w, t.1.wait = some w →
      w.waitRefs = unresolved t.1.handles + t.1.writer.toNat ∧
      w.valRefs = withVals t.1.handles + queuedVals w.actions ∧
      t.1.destroyed = 0 ∧ (t.1.writer = true → t.1.moved = 0) ∧
      (t.1.writer = false → t.1.moved = if w.valRefs = 0 then 1 else 0)) ∧
    (t.1.wait = none ↔ unresolved t.1.handles = 0 ∧ t.1.writer = false) ∧
    (t.1.wait = none → t.1.destroyed = 1 ∧ t.1.moved = 1) ∧
    ∀ op, Permitted cl t.1 op → ∃ r, exec cl t.1 op = .ok r := by
  have hi := inv_of_runs hs hrun
  have hwr := hi.refs.writer
  refine ⟨fun w hw => ?_, ⟨fun hnone => ?_, fun ⟨hu, hf⟩ => ?_⟩, fun hnone => ?_, fun op hp => ?_⟩
  · rcases hi.refs.block with ⟨w', hw', hd, -, hwait, hr⟩ | ⟨hnone, -⟩
    · obtain rfl : w = w' := Option.some.inj (hw.symm.trans hw')
      refine ⟨by rw [hwait, hwr, Nat.add_zero], hr.valRefs, hd, fun ht => ?_, fun hf => ?_⟩
      · rw [ht] at hwr
        exact (hr.pending (by simpa using hwr.symm)).2
      · rw [hf] at hwr
        obtain ⟨v, hv⟩ : ∃ v, t.2.res = some v := by
          cases hr : t.2.res with
          | none => simp [hr] at hwr
          | some v => exact ⟨v, rfl⟩
        split
        next h0 => exact hr.gone v hv h0
        next h0 => exact (hr.stored v hv (Nat.pos_of_ne_zero h0)).2
    · simp [hw] at hnone
  · rcases hi.refs.block with ⟨w', hw', -⟩ | ⟨-, -, hres, hu, -⟩
    · simp [hw'] at hnone
    · refine ⟨hu, ?_⟩
      rw [hwr]
      simpa using hres
  · rcases hi.refs.block with ⟨w', -, -, hpos, hwait, -⟩ | ⟨hnone, -⟩
    · rw [hwait, ← hwr, hu, hf] at hpos
      simp at hpos
    · exact hnone
  · rcases hi.refs.block with ⟨w', hw', -⟩ | ⟨-, hd, -, -, hm⟩
    · simp [hw'] at hnone
    · exact ⟨hd, hm⟩
  · obtain ⟨s', o, hexec, -⟩ := exec_inv hi hp
    exact ⟨_, hexec⟩

/-- A future that is cloned, with a callback on the clone and a future without the value beside
it: when it is finished, unwrapped and dropped, the block is gone. -/
theorem refs_of_runs_clone :
    ∃ t, Runs (Step true) (State.newFuture 0, Hist.new)
        [.clone 0 1, .withoutVal 0 2, .whenResolved 1 5, .finish 7, .tryUnwrap 0, .drop 2] t ∧
      t.1.wait = none ∧ t.1.destroyed = 1 ∧ t.1.moved = 1 := by
  have hrun : Runs (Step true) (State.newFuture 0, Hist.new)
      [.clone 0 1, .withoutVal 0 2, .whenResolved 1 5, .finish 7, .tryUnwrap 0, .drop 2] _ :=
    .cons (t := (_, _)) ⟨⟨⟨.withVal, by simp [State.newFuture], fun _ => rfl⟩,
        by simp [State.names, State.newFuture]⟩, ⟨_, rfl⟩, rfl⟩ <|
      .cons (t := (_, _)) ⟨⟨List.mem_cons_of_mem 1 (List.mem_cons_self (a := 0) (l := [])),
        by decide⟩, ⟨_, rfl⟩, rfl⟩ <|
      .cons (t := (_, _)) ⟨List.mem_cons_of_mem 2 (List.mem_cons_of_mem 0
        (List.mem_cons_self (a := 1) (l := []))), ⟨_, rfl⟩, rfl⟩ <|
      .cons (t := (_, _)) ⟨rfl, ⟨_, rfl⟩, rfl⟩ <|
      .cons (t := (_, _)) ⟨List.mem_cons_of_mem 2 (List.mem_cons_self (a := 0) (l := [])),
        ⟨_, rfl⟩, rfl⟩ <|
      .cons (t := (_, _)) ⟨List.mem_cons_self (a := 2) (l := []), ⟨_, rfl⟩, rfl⟩ .refl
  have href := refs_of_runs ⟨rfl, Or.inl ⟨0, rfl⟩⟩ hrun
  exact ⟨_, hrun, rfl, href.2.2.1 rfl⟩

/-- **Exactly-once delivery.** In every run, no callback is run before `finish(v)`, and from
then on exactly the callbacks attached so far have been run, each once and in the order of
attachment, with `v` or a clone of it for a future with a value and with `()` for one without.
An operation on a live future returns `Err` before and `Ok` with the same after, and dropping a
future changes neither the other futures nor what callbacks have run. -/
theorem delivery_of_runs {cl : Bool} {s t : State V × Hist V} {ops : List (Op V)} (hs : Initial s)
    (hrun : Runs (Step cl) s ops t) :
    (t.2.res = none → t.1.log = []) ∧
    (∀ v, t.2.res = some v → List.Forall₂ (Delivers v) t.2.attached t.1.log) ∧
    (∀ op h f, Permitted cl t.1 op → op.target = some h → (h, f) ∈ t.1.handles →
      ∃ u o, exec cl t.1 op = .ok (u, o) ∧ Expected t.2.res f.hasVal op o) ∧
    ∀ h u o, exec cl t.1 (.drop h) = .ok (u, o) → h ∈ t.1.names →
      u.log = t.1.log ∧ ∀ e ∈ t.1.handles, e.1 ≠ h → e ∈ u.handles := by
  have hi := inv_of_runs hs hrun
  refine ⟨fun hres => (hi.pending hres).1, hi.delivered, fun op h f hp hop hf => ?_,
    fun h u o hexec hh => ?_⟩
  · obtain ⟨u, o, hexec, -, hout, -⟩ := exec_inv hi hp
    exact ⟨u, o, hexec, hout h f hop hf⟩
  · obtain ⟨f, hs', htake⟩ := exists_takeHandle hh
    have ht := hi.taken htake
    obtain ⟨u', hd, -, hframe⟩ := dropFuture_at ht.refs (withVals_le_add hs' 0)
    have hsame : exec cl t.1 (.drop h) = .ok (u', .none) := by
      simp [exec, Op.target, htake, execOn, hd, bind, Except.bind]
    obtain ⟨rfl, -⟩ := Prod.mk.inj (Except.ok.inj (hexec.symm.trans hsame))
    refine ⟨hframe.log, fun e he hne => ?_⟩
    rw [hframe.handles]
    exact ht.mem he hne

/-- Two callbacks on a future and its clone are run by `finish` in their order. -/
theorem delivery_of_runs_clone :
    ∃ t, Runs (Step true) (State.newFuture 0, Hist.new)
        [.clone 0 1, .whenResolved 1 5, .whenResolved 0 6, .finish 7] t ∧
      List.Forall₂ (Delivers 7) [(5, true), (6, true)] t.1.log := by
  have hrun : Runs (Step true) (State.newFuture 0, Hist.new)
      [.clone 0 1, .whenResolved 1 5, .whenResolved 0 6, .finish 7] _ :=
    Runs.cons (t := (_, _)) ⟨⟨⟨.withVal, by simp [State.newFuture], fun _ => rfl⟩,
        by simp [State.names, State.newFuture]⟩, ⟨_, rfl⟩, rfl⟩
      (Runs.cons (t := (_, _)) ⟨List.mem_cons_self (a := 1) (l := [0]), ⟨_, rfl⟩, rfl⟩
        (Runs.cons (t := (_, _)) ⟨List.mem_cons_self (a := 0) (l := []), ⟨_, rfl⟩, rfl⟩
          (Runs.cons (t := (_, _)) ⟨rfl, ⟨_, rfl⟩, rfl⟩ Runs.refl)))
  exact ⟨_, hrun, (delivery_of_runs ⟨rfl, Or.inl ⟨0, rfl⟩⟩ hrun).2.1 7 rfl⟩

end HydroxKernel.Future
