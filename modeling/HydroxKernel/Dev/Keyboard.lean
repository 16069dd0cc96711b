import HydroxKernel.Dev.Scancode
import HydroxKernel.Sync.Future
import HydroxKernel.Util.ArrayDeque

/-!
# The PS/2 Keyboard

An interrupt reads one byte. A byte that ends a scancode changes the state of a key, and a key
that is pressed goes to the future that a reader of the keyboard waits for, or to a ring buffer.
The locks, the modifiers and the keys that are held are kept along the way.

The controller, which the keyboard is locked with, and the devices that it belongs to are left
out: every operation runs under the lock of the controller. The map of keys and the map of
scancodes can be any, and the name of a map of keys is left out.
-/

namespace HydroxKernel.Keyboard

/-! ### Keys -/

/-- `CommonKeycode`. -/
inductive CommonKeycode
  | esc
  | f1
  | f2
  | f3
  | f4
  | f5
  | f6
  | f7
  | f8
  | f9
  | f10
  | f11
  | f12
  | tilde
  | num1
  | num2
  | num3
  | num4
  | num5
  | num6
  | num7
  | num8
  | num9
  | num0
  | minus
  | equal
  | backspace
  | tab
  | q
  | w
  | e
  | r
  | t
  | y
  | u
  | i
  | o
  | p
  | leftBracket
  | rightBracket
  | backslash
  | capsLock
  | a
  | s
  | d
  | f
  | g
  | h
  | j
  | k
  | l
  | colon
  | quote
  | enter
  | leftShift
  | z
  | x
  | c
  | v
  | b
  | n
  | m
  | comma
  | period
  | slash
  | rightShift
  | leftCtrl
  | leftSuper
  | leftAlt
  | space
  | rightAlt
  | rightSuper
  | menu
  | rightCtrl
  | printScreen
  | scrollLock
  | pause
  | insert
  | home
  | pageUp
  | delete
  | endKey
  | pageDown
  | upArrow
  | leftArrow
  | downArrow
  | rightArrow
  | numLock
  | numpadSlash
  | numpadTimes
  | numpadMinus
  | numpadPlus
  | numpadDot
  | numpadEnter
  | numpad0
  | numpad1
  | numpad2
  | numpad3
  | numpad4
  | numpad5
  | numpad6
  | numpad7
  | numpad8
  | numpad9
  deriving DecidableEq

/-- `Keycode`. -/
inductive Keycode
  | common (key : CommonKeycode)
  | deviceSpecific (code : UInt16)
  deriving DecidableEq

/-- `KeyboardLockState`. -/
structure KeyboardLockState where
  scrollLock : Bool
  numLock : Bool
  capsLock : Bool
  deriving DecidableEq

/-- `KeyboardLockState::none`. -/
def KeyboardLockState.none : KeyboardLockState := ⟨false, false, false⟩

/-- `KeyboardLockState::handle_key_pressed`. -/
def KeyboardLockState.handleKeyPressed (s : KeyboardLockState) :
    Keycode → Bool × KeyboardLockState
  | .common .scrollLock => (true, { s with scrollLock := !s.scrollLock })
  | .common .numLock => (true, { s with numLock := !s.numLock })
  | .common .capsLock => (true, { s with capsLock := !s.capsLock })
  | _ => (false, s)

/-- `ModifierState`. -/
structure ModifierState where
  leftCtrl : Bool
  rightCtrl : Bool
  leftAlt : Bool
  rightAlt : Bool
  leftShift : Bool
  rightShift : Bool
  leftSuperKey : Bool
  rightSuperKey : Bool
  deriving DecidableEq

namespace ModifierState

/-- `ModifierState::none`. -/
def none : ModifierState := ⟨false, false, false, false, false, false, false, false⟩

/-- `ModifierState::ctrl`. -/
def ctrl (s : ModifierState) : Bool := s.leftCtrl || s.rightCtrl

/-- `ModifierState::alt`. -/
def alt (s : ModifierState) : Bool := s.leftAlt || s.rightAlt

/-- `ModifierState::shift`. -/
def shift (s : ModifierState) : Bool := s.leftShift || s.rightShift

/-- `ModifierState::super_key`. -/
def superKey (s : ModifierState) : Bool := s.leftSuperKey || s.rightSuperKey

/-- `ModifierState::handle_key_state_changed`. -/
def handleKeyStateChanged (s : ModifierState) (key : Keycode) (pressed : Bool) :
    Bool × ModifierState :=
  match key with
  | .common .leftCtrl => (true, { s with leftCtrl := pressed })
  | .common .rightCtrl => (true, { s with rightCtrl := pressed })
  | .common .leftAlt => (true, { s with leftAlt := pressed })
  | .common .rightAlt => (true, { s with rightAlt := pressed })
  | .common .leftShift => (true, { s with leftShift := pressed })
  | .common .rightShift => (true, { s with rightShift := pressed })
  | .common .leftSuper => (true, { s with leftSuperKey := pressed })
  | .common .rightSuper => (true, { s with rightSuperKey := pressed })
  | _ => (false, s)

end ModifierState

/-- `KeyPress`. -/
structure KeyPress where
  code : Keycode
  lockState : KeyboardLockState
  mods : ModifierState
  str : List Char
  deriving DecidableEq

/-- `KeyboardError`. -/
inductive KeyboardError
  | error
  deriving DecidableEq

/-! ### Maps -/

/-- `KeyAction`. -/
inductive KeyAction
  | none
  | char (ch : Char)
  | str (s : List Char)
  | string (s : List Char)
  deriving DecidableEq

/-- `KeycodeMapEntry`. -/
inductive KeycodeMapEntry
  | simple (a : KeyAction)
  | shift (no yes : KeyAction)
  | shiftCaps (no yes : KeyAction)
  | numLock (no yes : KeyAction)

/-- `KeycodeMap`. -/
structure KeycodeMap where
  common : CommonKeycode → KeycodeMapEntry

/-- `KeycodeMap::get`. -/
def KeycodeMap.get (map : KeycodeMap) (key : Keycode) (lockState : KeyboardLockState)
    (mods : ModifierState) : Option KeyAction :=
  if mods.ctrl || mods.alt || mods.superKey then none
  else
    match key with
    | .common key =>
        match map.common key with
        | .simple a => some a
        | .shift no yes => some (if mods.shift then yes else no)
        | .shiftCaps no yes => some (if mods.shift != lockState.capsLock then yes else no)
        | .numLock no yes => some (if lockState.numLock then yes else no)
    | .deviceSpecific _ => none

/-- `ScancodeMap`. -/
structure ScancodeMap where
  basic : UInt8 → Option Keycode
  extended : UInt8 → Option Keycode
  dualExtended : List (UInt8 × UInt8 × Keycode)

/-- `ScancodeMap::get`. -/
def ScancodeMap.get (map : ScancodeMap) : ScancodeKey → Option Keycode
  | .basic b => map.basic b
  | .extended b => map.extended b
  | .dualExtended b₀ b₁ =>
      (map.dualExtended.find? fun m => m.1 == b₀ && m.2.1 == b₁).map fun m => m.2.2

/-! ### The keyboard -/

/-- What goes wrong in the keyboard. -/
inductive Panic
  /-- A panic of the buffer of scancodes. -/
  | buffer (why : BufferPanic)
  /-- A panic of the ring buffer. -/
  | deque (why : ArrayDequePanic)
  /-- Something that a future must never do. -/
  | future (why : Future.Fault)
  deriving DecidableEq

/-- What a future of the keyboard resolves to. -/
abbrev KeyResult := Except KeyboardError KeyPress

/-- The block of a future of the keyboard. -/
abbrev Block := Future.State KeyResult

/-- `Ps2KeyboardInternals`. The writer of the future that is waited for is named by its block. -/
structure Ps2KeyboardInternals where
  lockState : KeyboardLockState
  modState : ModifierState
  heldKeys : CommonKeycode → Bool
  inputBuf : ArrayDeque KeyPress 16
  inputFuture : Option ℕ
  scancodeBuf : ScancodeBuffer
  scancodeMap : ScancodeMap
  keycodeMap : KeycodeMap

/-- The internals of a new keyboard. -/
def Ps2KeyboardInternals.new (scancodeMap : ScancodeMap) (keycodeMap : KeycodeMap) :
    Ps2KeyboardInternals :=
  ⟨.none, .none, fun _ => false, .new, none, .new, scancodeMap, keycodeMap⟩

/-- A keyboard, with the blocks of all its futures. -/
structure Ps2Keyboard where
  internal : Ps2KeyboardInternals
  blocks : List Block

/-- Panics of another part. -/
def liftPanic {ε α : Type} (f : ε → Panic) : Except ε α → Except Panic α
  | .ok a => .ok a
  | .error why => .error (f why)

/-- An operation on a block. A block that does not exist has been freed. -/
def Ps2Keyboard.onBlock (k : Ps2Keyboard) (id : ℕ) (op : Future.Op KeyResult) :
    Except Panic (Ps2Keyboard × Future.Outcome KeyResult) :=
  match k.blocks[id]? with
  | none => .error (.future .useAfterFree)
  | some block => do
      let (block, outcome) ← liftPanic .future (Future.exec true block op)
      return ({ k with blocks := k.blocks.set id block }, outcome)

/-- The text of a key. -/
def keyText (action : Option KeyAction) : List Char :=
  match action with
  | none => []
  | some .none => []
  | some (.char ch) => [ch]
  | some (.str s) => s
  | some (.string s) => s

/-- The `KeyPress` of a key that is pressed. -/
def Ps2KeyboardInternals.keyPress (k : Ps2KeyboardInternals) (key : Keycode) : KeyPress :=
  ⟨key, k.lockState, k.modState, keyText (k.keycodeMap.get key k.lockState k.modState)⟩

/-- The part of `handle_key_state_changed` that hands a key press over: to the future that is
waited for, or to the ring buffer. The result says whether it was not lost. -/
def Ps2Keyboard.deliver (k : Ps2Keyboard) (keypress : KeyPress) :
    Except Panic (Bool × Ps2Keyboard) :=
  match k.internal.inputFuture with
  | some id => do
      let k := { k with internal := { k.internal with inputFuture := none } }
      let (k, _) ← k.onBlock id (.finish (.ok keypress))
      return (true, k)
  | none => do
      let (room, buf) ← liftPanic .deque (k.internal.inputBuf.pushBack keypress)
      return (room, { k with internal := { k.internal with inputBuf := buf } })

/-- The keys that are held, after one has changed. -/
def setHeld (held : CommonKeycode → Bool) (key : Keycode) (pressed : Bool) :
    CommonKeycode → Bool :=
  match key with
  | .common key => Function.update held key pressed
  | .deviceSpecific _ => held

/-- `Ps2Keyboard::handle_key_state_changed`. The result is the key press, if there is one, and
whether it was not lost. -/
def Ps2Keyboard.handleKeyStateChanged (k : Ps2Keyboard) (key : Keycode) (pressed : Bool) :
    Except Panic (Option (KeyPress × Bool) × Ps2Keyboard) := do
  let k := { k with
    internal := { k.internal with heldKeys := setHeld k.internal.heldKeys key pressed } }
  let (r, k) ←
    if pressed then do
      let keypress := k.internal.keyPress key
      let (kept, k) ← k.deliver keypress
      let k := { k with internal :=
        { k.internal with lockState := (k.internal.lockState.handleKeyPressed key).2 } }
      Except.ok (some (keypress, kept), k)
    else Except.ok (none, k)
  return (r, { k with internal :=
    { k.internal with modState := (k.internal.modState.handleKeyStateChanged key pressed).2 } })

/-- `Ps2Keyboard::handle_interrupt`, given the byte that was read, if one was. The result is the
scancode that it ends, and the key press. -/
def Ps2Keyboard.handleInterrupt (k : Ps2Keyboard) (b : Option UInt8) :
    Except Panic (Option Scancode × Option (KeyPress × Bool) × Ps2Keyboard) :=
  match b with
  | none => .ok (none, none, k)
  | some b => do
      let (scancode, buf) ← liftPanic .buffer (k.internal.scancodeBuf.receive b)
      let k := { k with internal := { k.internal with scancodeBuf := buf } }
      match scancode with
      | none => return (none, none, k)
      | some scancode =>
          match k.internal.scancodeMap.get scancode.key with
          | none => return (some scancode, none, k)
          | some key => do
              let (r, k) ← k.handleKeyStateChanged key (!scancode.released)
              return (some scancode, r, k)

/-- A future that `next_key` returns: a key press that was there, or a handle on a block. -/
inductive KeyFuture
  | done (r : KeyResult)
  | handle (block h : ℕ)

/-- `Ps2Keyboard::next_key`. -/
def Ps2Keyboard.nextKey (k : Ps2Keyboard) : Except Panic (KeyFuture × Ps2Keyboard) := do
  let (front, buf) ← liftPanic .deque k.internal.inputBuf.popFront
  let k := { k with internal := { k.internal with inputBuf := buf } }
  match front, k.internal.inputFuture with
  | some keypress, _ => return (.done (.ok keypress), k)
  | none, some id => do
      let h := (k.blocks[id]?.map fun block => block.handles.length).getD 0
      let (k, _) ← k.onBlock id (.asFuture h)
      return (.handle id h, k)
  | none, none =>
      return (.handle k.blocks.length 0,
        { internal := { k.internal with inputFuture := some k.blocks.length }
          blocks := k.blocks ++ [Future.State.newFuture 0] })

/-- `set_lock_state`. -/
def Ps2Keyboard.setLockState (k : Ps2Keyboard) (lockState : KeyboardLockState) : Ps2Keyboard :=
  { k with internal := { k.internal with lockState := lockState } }

/-- `set_keymap`. -/
def Ps2Keyboard.setKeymap (k : Ps2Keyboard) (map : KeycodeMap) : Ps2Keyboard :=
  { k with internal := { k.internal with keycodeMap := map } }

end HydroxKernel.Keyboard
