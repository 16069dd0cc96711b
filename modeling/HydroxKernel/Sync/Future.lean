import Mathlib.Data.List.Perm.Basic
import Mathlib.Data.List.Count

/-!
# Futures

A future and its writer share a block, the `FutureWait`, with two reference counts, the
actions that wait for the value, and room for the value. This is a model of one such block
and of all handles on it: `State` holds the block while it is allocated and the internals of
every live `Future`. Every operation on a block runs under its lock, so the operations on
it happen one after another. The wait list of the block, by which `unwrap_blocking` sleeps,
has no influence on the counts or on the results and is left out: a call that would sleep
changes nothing.

What the code must never do is a `Fault`. Values are opaque; whether the type of the value
can be cloned is a parameter, since `take_val` panics if it has to clone one that cannot.
-/

namespace HydroxKernel.Future

variable {V : Type*}

/-- The value given to `finish`, or a clone of it, or a clone of a clone. -/
inductive Value (V : Type*)
  | orig (v : V)
  | clone (x : Value V)

/-- The value that a value was cloned from. -/
def Value.base : Value V → V
  | .orig v => v
  | .clone x => x.base

/-- What a consumer receives: a value, or `()` from a future without a value. -/
inductive Arg (V : Type*)
  | val (x : Value V)
  | unit

/-- What the code must never do. -/
inductive Fault
  /-- The block is used after it was destroyed. -/
  | useAfterFree
  /-- The room for the value is read while there is no value in it. -/
  | uninit
  /-- An assertion on the counts fails, or a count would become negative. -/
  | badCount
  /-- "Attempt to clone uncloneable type". -/
  | uncloneable
  deriving DecidableEq

/-- `FutureInternal`. A future without a value is a `Future<()>`; once done it holds `()`. -/
inductive FutureInternal (V : Type*)
  | withVal
  | withoutVal
  | done (x : Value V)
  | doneUnit

/-- `FutureWait`, with the state under its lock. An action is the name of a callback and
whether it was attached to a future with a value. -/
structure FutureWait (V : Type*) where
  waitRefs : ℕ
  valRefs : ℕ
  resolved : Bool
  actions : List (ℕ × Bool)
  val : Option (Value V)

/-- The block while it is allocated, whether the writer has not finished, and the live
futures by name. The rest records what happened: the callbacks that were run, how often the
value was moved out of the block or dropped, and how often the block was destroyed. -/
structure State (V : Type*) where
  wait : Option (FutureWait V)
  writer : Bool
  handles : List (ℕ × FutureInternal V)
  log : List (ℕ × Arg V)
  moved : ℕ
  destroyed : ℕ

/-- `Future::new`. -/
def State.newFuture (h : ℕ) : State V :=
  ⟨some ⟨2, 1, false, [], none⟩, true, [(h, .withVal)], [], 0, 0⟩

/-- `FutureWriter::new`. -/
def State.newWriter : State V := ⟨some ⟨1, 0, false, [], none⟩, true, [], [], 0, 0⟩

/-- Dereferences the pointer to the block. -/
def State.deref (s : State V) : Except Fault (FutureWait V) :=
  match s.wait with
  | some w => .ok w
  | none => .error .useAfterFree

/-- Writes the block. -/
def State.put (s : State V) (w : FutureWait V) : State V := { s with wait := some w }

/-- A new future. -/
def State.push (s : State V) (h : ℕ) (f : FutureInternal V) : State V :=
  { s with handles := (h, f) :: s.handles }

/-! ### References -/

/-- `dec_wait_ref`: the last reference destroys the block. -/
def decWaitRef (s : State V) (w : FutureWait V) : Except Fault (State V) :=
  match w.waitRefs with
  | 0 => .error .badCount
  | 1 => .ok { s with wait := none, destroyed := s.destroyed + 1 }
  | n + 2 => .ok (s.put { w with waitRefs := n + 1 })

/-- Moves the value out of the block. -/
def readVal (s : State V) (w : FutureWait V) :
    Except Fault (Value V × State V × FutureWait V) :=
  match w.val with
  | some x => .ok (x, { s with moved := s.moved + 1 }, { w with val := none })
  | none => .error .uninit

/-- `dec_val_ref`: after the resolution, the last reference drops the value. -/
def decValRef (s : State V) (w : FutureWait V) : Except Fault (State V × FutureWait V) :=
  match w.valRefs with
  | 0 => .error .badCount
  | n + 1 =>
      let w := { w with valRefs := n }
      if w.resolved && n = 0 then do
        let (_, s, w) ← readVal s w
        .ok (s, w)
      else .ok (s, w)

/-- `take_val`: the last reference takes the value, every other one a clone. -/
def takeVal (cloneable : Bool) (s : State V) (w : FutureWait V) :
    Except Fault (Value V × State V × FutureWait V) :=
  if !w.resolved then .error .badCount
  else
    match w.valRefs with
    | 0 => .error .badCount
    | 1 => readVal s { w with valRefs := 0 }
    | n + 2 =>
        match w.val with
        | none => .error .uninit
        | some x =>
            if cloneable then .ok (.clone x, s, { w with valRefs := n + 1 })
            else .error .uncloneable

/-- The value for a consumer: taken from the block, or `()`. -/
def takeArg (cloneable : Bool) (s : State V) (w : FutureWait V) (hasVal : Bool) :
    Except Fault (Arg V × State V × FutureWait V) :=
  if hasVal then do
    let (x, s, w) ← takeVal cloneable s w
    .ok (.val x, s, w)
  else .ok (.unit, s, w)

/-- `try_resolve`, on a future with or without a value. -/
def tryResolve (cloneable : Bool) (s : State V) (hasVal : Bool) :
    Except Fault (Option (Arg V) × State V) := do
  let w ← s.deref
  if w.resolved then do
    let (x, s, w) ← takeArg cloneable s w hasVal
    let s ← decWaitRef s w
    .ok (some x, s)
  else .ok (none, s)

/-- `drop` of a `FutureInternalUnresolved`. -/
def dropUnresolved (s : State V) (hasVal : Bool) : Except Fault (State V) := do
  let w ← s.deref
  let (s, w) ← if hasVal then decValRef s w else Except.ok (s, w)
  decWaitRef s w

/-! ### Operations on a future -/

/-- `is_ready`. -/
def FutureInternal.isReady : FutureInternal V → Bool
  | .done _ | .doneUnit => true
  | _ => false

/-- The internals of a future that has been resolved. -/
def FutureInternal.ofArg : Arg V → FutureInternal V
  | .val x => .done x
  | .unit => .doneUnit

/-- `update_state`: the internals of the future afterwards. -/
def updateState (cloneable : Bool) (s : State V) (f : FutureInternal V) :
    Except Fault (FutureInternal V × State V) :=
  match f with
  | .withVal => resolve true
  | .withoutVal => resolve false
  | f => .ok (f, s)
where
  /-- The branch of `update_state` for an unresolved future. -/
  resolve (hasVal : Bool) : Except Fault (FutureInternal V × State V) := do
    match ← tryResolve cloneable s hasVal with
    | (some x, s) => .ok (.ofArg x, s)
    | (none, s) => .ok (f, s)

/-- `FutureInternal::clone`. -/
def cloneInternal (s : State V) : FutureInternal V → Except Fault (FutureInternal V × State V)
  | .withVal => do
      let w ← s.deref
      if w.resolved then
        match w.val with
        | some x => .ok (.done (.clone x), s)
        | none => .error .uninit
      else
        .ok (.withVal, s.put { w with waitRefs := w.waitRefs + 1, valRefs := w.valRefs + 1 })
  | .withoutVal => do
      let w ← s.deref
      if w.resolved then .ok (.doneUnit, s)
      else .ok (.withoutVal, s.put { w with waitRefs := w.waitRefs + 1 })
  | .done x => .ok (.done (.clone x), s)
  | .doneUnit => .ok (.doneUnit, s)

/-- `without_val`. A future that is itself without a value is not checked for its
resolution. -/
def withoutVal (s : State V) : FutureInternal V → Except Fault (FutureInternal V × State V)
  | .withVal => do
      let w ← s.deref
      if w.resolved then .ok (.doneUnit, s)
      else .ok (.withoutVal, s.put { w with waitRefs := w.waitRefs + 1 })
  | .withoutVal => do
      let w ← s.deref
      .ok (.withoutVal, s.put { w with waitRefs := w.waitRefs + 1 })
  | .done _ => .ok (.doneUnit, s)
  | .doneUnit => .ok (.doneUnit, s)

/-- Runs a callback. -/
def State.call (s : State V) (c : ℕ) (x : Arg V) : State V := { s with log := s.log ++ [(c, x)] }

/-- `when_resolved`. -/
def whenResolved (cloneable : Bool) (s : State V) (c : ℕ) :
    FutureInternal V → Except Fault (State V)
  | .withVal => attach true
  | .withoutVal => attach false
  | .done x => .ok (s.call c (.val x))
  | .doneUnit => .ok (s.call c .unit)
where
  /-- The branch of `when_resolved` for an unresolved future. -/
  attach (hasVal : Bool) : Except Fault (State V) := do
    match ← tryResolve cloneable s hasVal with
    | (some x, s) => .ok (s.call c x)
    | (none, s) => do
        let w ← s.deref
        match w.waitRefs with
        | 0 => .error .badCount
        | n + 1 => .ok (s.put { w with actions := w.actions ++ [(c, hasVal)], waitRefs := n })

/-- `drop` of a future. -/
def dropFuture (s : State V) : FutureInternal V → Except Fault (State V)
  | .withVal => dropUnresolved s true
  | .withoutVal => dropUnresolved s false
  | .done _ => .ok s
  | .doneUnit => .ok s

/-! ### Operations on the writer -/

/-- `as_future`. -/
def asFuture (s : State V) (h : ℕ) : Except Fault (State V) := do
  let w ← s.deref
  .ok ((s.put { w with waitRefs := w.waitRefs + 1, valRefs := w.valRefs + 1 }).push h .withVal)

/-- The loop of `finish_internal` over the actions. -/
def runActions (cloneable : Bool) (s : State V) (w : FutureWait V) :
    List (ℕ × Bool) → Except Fault (State V × FutureWait V)
  | [] => .ok (s, w)
  | (c, hasVal) :: actions => do
      let (x, s, w) ← takeArg cloneable s w hasVal
      runActions cloneable (s.call c x) w actions

/-- `finish_internal`. -/
def finishInternal (cloneable : Bool) (s : State V) (w : FutureWait V) :
    Except Fault (State V) := do
  let (s, w) ← runActions cloneable s { w with resolved := true, actions := [] } w.actions
  decWaitRef s w

/-- `finish`: the value is stored only if somebody wants it, and dropped otherwise. -/
def finish (cloneable : Bool) (s : State V) (v : V) : Except Fault (State V) := do
  let w ← s.deref
  if w.valRefs ≠ 0 then
    finishInternal cloneable { s with writer := false } { w with val := some (.orig v) }
  else finishInternal cloneable { s with writer := false, moved := s.moved + 1 } w

/-! ### Runs -/

/-- The operations on a block and its futures, which are given by name. -/
inductive Op (V : Type*)
  | asFuture (h : ℕ)
  | clone (h new : ℕ)
  | withoutVal (h new : ℕ)
  | whenResolved (h c : ℕ)
  | updateReadiness (h : ℕ)
  | tryUnwrap (h : ℕ)
  | unwrapBlocking (h : ℕ)
  | drop (h : ℕ)
  | finish (v : V)

/-- What an operation returns to its caller. -/
inductive Outcome (V : Type*)
  /-- Nothing, or a new handle. -/
  | none
  /-- The result of `update_readiness`. -/
  | ready (b : Bool)
  /-- `Ok` with what the future resolved to. -/
  | ok (x : Arg V)
  /-- `Err` with the future. -/
  | err
  /-- The call sleeps. -/
  | blocks

/-- Takes a future out of the list of live futures. -/
def takeHandle : List (ℕ × FutureInternal V) → ℕ →
    Option (FutureInternal V × List (ℕ × FutureInternal V))
  | [], _ => none
  | (k, f) :: hs, h =>
      if k = h then some (f, hs)
      else (takeHandle hs h).map fun r => (r.1, (k, f) :: r.2)

/-- What an unwrapping operation returns for a future that is up to date, and whether the
future lives on. -/
def unwrapDone (pending : Outcome V) : FutureInternal V → Outcome V × Bool
  | .done x => (.ok (.val x), false)
  | .doneUnit => (.ok .unit, false)
  | _ => (pending, true)

/-- Performs an operation that consumes or updates the future `f` called `h`, in the state
without it. -/
def execOn (cloneable : Bool) (s : State V) (h : ℕ) (f : FutureInternal V) :
    Op V → Except Fault (State V × Outcome V)
  | .clone _ new => do
      let (g, s) ← cloneInternal s f
      .ok ((s.push h f).push new g, .none)
  | .withoutVal _ new => do
      let (g, s) ← withoutVal s f
      .ok ((s.push h f).push new g, .none)
  | .whenResolved _ c => do
      let s ← whenResolved cloneable s c f
      .ok (s, .none)
  | .updateReadiness _ => do
      let (f, s) ← updateState cloneable s f
      .ok (s.push h f, .ready f.isReady)
  | .tryUnwrap _ => do
      let (f, s) ← updateState cloneable s f
      let (o, live) := unwrapDone .err f
      .ok (if live then s.push h f else s, o)
  | .unwrapBlocking _ => do
      let (f, s) ← updateState cloneable s f
      let (o, live) := unwrapDone .blocks f
      .ok (if live then s.push h f else s, o)
  | .drop _ => do
      let s ← dropFuture s f
      .ok (s, .none)
  | _ => .ok (s.push h f, .none)

/-- The future that an operation is called on. -/
def Op.target : Op V → Option ℕ
  | .asFuture _ => none
  | .clone h _ => some h
  | .withoutVal h _ => some h
  | .whenResolved h _ => some h
  | .updateReadiness h => some h
  | .tryUnwrap h => some h
  | .unwrapBlocking h => some h
  | .drop h => some h
  | .finish _ => none

/-- Performs an operation. On a future that does not exist nothing happens. -/
def exec (cloneable : Bool) (s : State V) (op : Op V) : Except Fault (State V × Outcome V) :=
  match op with
  | .asFuture h => do
      let s ← asFuture s h
      .ok (s, .none)
  | .finish v => do
      let s ← finish cloneable s v
      .ok (s, .none)
  | op =>
      match op.target with
      | none => .ok (s, .none)
      | some h =>
          match takeHandle s.handles h with
          | none => .ok (s, .none)
          | some (f, hs) => execOn cloneable { s with handles := hs } h f op

end HydroxKernel.Future
