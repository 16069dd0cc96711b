import HydroxKernel.Dev.Tree
import HydroxKernel.Lib.Assert

/-!
# Device Hubs

Three kinds of devices are hubs. A `VirtualDeviceHub` has a list of children, to which devices are
added and from which they are removed, a `VirtualTerminalManager` has its terminals, and a
`Ps2Controller` has a keyboard and a mouse. Each device has a weak reference to its parent, which
is set when it is connected, and a disconnect event, which fires when it is disconnected.

Devices are named by their addresses, in the order in which they are made, from the root on. A
device is never freed here: one that is still connected cannot be, because its disconnect event
would be dropped without a value, and one that is disconnected is no longer looked at.

## Main results

* `State.children`: what `for_children` of a hub enumerates.
* `State.apply`: the operations on the devices.
-/

namespace HydroxKernel.Dev.Hubs

/-- The devices. -/
inductive Device
  /-- A device that is no hub. -/
  | other
  | virtualDeviceHub (ownRef : Option ℕ) (children : List ℕ)
  | virtualTerminalManager (this : Option ℕ) (terminals : List ℕ) (displays : List ℕ)
  | ps2Controller (keyboard mouse : Option ℕ)
  | ps2Keyboard (controller : ℕ)
  | ps2Mouse (controller : ℕ)
  deriving DecidableEq

/-- `for_children`: what it enumerates, or nothing for a device that is no hub. -/
def Device.children : Device → Option (List ℕ)
  | .virtualDeviceHub _ children => some children
  | .virtualTerminalManager _ terminals _ => some terminals
  | .ps2Controller keyboard _ => some keyboard.toList
  | _ => none

/-- `DeviceNode`. The disconnect event is there until it fires. -/
structure Node where
  name : List Char
  parent : Option ℕ
  disconnectEvent : Bool
  dev : Device

/-- The panics of the operations on devices. -/
inductive Panic
  /-- "Cannot operate on disconnected VirtualDeviceHub". -/
  | hubDisconnected
  /-- "Attempt to remove device from VirtualDeviceHub that it's not connected to". -/
  | notConnectedTo
  /-- "Cannot disconnect an already disconnected device". -/
  | alreadyDisconnected
  /-- The assertion that a terminal manager has a display. -/
  | noDisplay
  /-- The device is no `VirtualDeviceHub`. -/
  | noHub
  /-- The recursion has not come to an end. -/
  | diverges
  deriving DecidableEq

/-- The devices, by their addresses, and the address of the next one. -/
structure State where
  node : ℕ → Node
  next : ℕ

namespace State

/-- What is at an address before a device is made there. -/
def blank : Node := ⟨[], none, false, .other⟩

/-- `init_device_root`. -/
def init : State where
  node := Function.update (fun _ => blank) 0
    ⟨"(root)".toList, none, false, .virtualDeviceHub (some 0) []⟩
  next := 1

/-- Changes the device of a node. -/
def setDev (s : State) (d : ℕ) (dev : Device) : State :=
  { s with node := Function.update s.node d { s.node d with dev := dev } }

/-- Makes a node that is connected: `DeviceNode::new`, and `connect` up to `on_connected`. -/
def make (s : State) (name : List Char) (parent : Option ℕ) (dev : Device) : ℕ × State :=
  (s.next, ⟨Function.update s.node s.next ⟨name, parent, true, dev⟩, s.next + 1⟩)

/-- `on_connected`. A terminal has nothing to do when it is connected. -/
def onConnected (s : State) (d : ℕ) : Except Panic State :=
  match (s.node d).dev with
  | .virtualDeviceHub _ children => .ok (s.setDev d (.virtualDeviceHub (some d) children))
  | .virtualTerminalManager _ terminals displays => do
      ensure (displays ≠ []) .noDisplay
      let (terminal, s) := s.make "vt0".toList (some d) .other
      return s.setDev d (.virtualTerminalManager (some d) (terminals ++ [terminal]) displays)
  | _ => .ok s

/-- `DeviceNode::connect`. -/
def connect (s : State) (name : List Char) (parent : Option ℕ) (dev : Device) :
    Except Panic (ℕ × State) := do
  let (d, s) := s.make name parent dev
  let s ← s.onConnected d
  return (d, s)

/-- `VirtualDeviceHub::add_device`. -/
def addDevice (s : State) (hub : ℕ) (name : List Char) (dev : Device) :
    Except Panic (ℕ × State) :=
  match (s.node hub).dev with
  | .virtualDeviceHub ownRef children => do
      ensure (ownRef.isSome) .hubDisconnected
      let (d, s) ← s.connect name ownRef dev
      return (d, s.setDev hub (.virtualDeviceHub ownRef (children ++ [d])))
  | _ => .error .noHub

/-- `VirtualDeviceHub::remove_device`. -/
def removeDevice (s : State) (hub d : ℕ) : Except Panic State :=
  match (s.node hub).dev with
  | .virtualDeviceHub ownRef children => do
      ensure (d ∈ children) .notConnectedTo
      return s.setDev hub (.virtualDeviceHub ownRef (children.erase d))
  | _ => .error .noHub

/-- `disconnect_event.finish`. -/
def finish (s : State) (d : ℕ) : State :=
  { s with node := Function.update s.node d { s.node d with disconnectEvent := false } }

/-- `DeviceNode::disconnect`, with `on_disconnected`. The fuel is for the children. -/
def disconnect : ℕ → ℕ → State → Except Panic State
  | 0, _, _ => .error .diverges
  | fuel + 1, d, s => do
      ensure ((s.node d).disconnectEvent = true) .alreadyDisconnected
      let s := s.finish d
      match (s.node d).dev with
      | .virtualDeviceHub _ children =>
          children.foldlM (fun s child => disconnect fuel child s)
            (s.setDev d (.virtualDeviceHub none []))
      | .virtualTerminalManager _ terminals _ => do
          let s ← terminals.foldlM (fun s terminal => disconnect fuel terminal s) s
          return s.setDev d (.virtualTerminalManager none [] [])
      | _ => return s

/-- `DeviceNode::connect`, for a device that the hardware may have. -/
def connectIf (s : State) (has : Bool) (name : List Char) (parent : Option ℕ) (dev : Device) :
    Except Panic (Option ℕ × State) :=
  if has then do
    let (d, s) ← s.connect name parent dev
    return (some d, s)
  else .ok (none, s)

/-- The end of `init` of the PS/2 driver, where the hardware has been set up. An initialisation
that fails before does nothing to the devices. -/
def ps2Init (s : State) (hasKeyboard hasMouse : Bool) : Except Panic State := do
  let (controller, s) ← s.addDevice 0 "ps2".toList (.ps2Controller none none)
  let (keyboard, s) ←
    s.connectIf hasKeyboard "keyboard".toList (some controller) (.ps2Keyboard controller)
  let (mouse, s) ← s.connectIf hasMouse "mouse".toList (some controller) (.ps2Mouse controller)
  return s.setDev controller (.ps2Controller keyboard mouse)

/-- What `for_children` of a hub enumerates, or nothing for a device that is no hub. -/
def children (s : State) (hub : ℕ) : Option (List ℕ) := (s.node hub).dev.children

end State

/-- The operations on the devices. -/
inductive Op
  /-- `add_device` with a device that is no hub. -/
  | addDevice (hub : ℕ) (name : List Char)
  /-- `add_device` with a new `VirtualDeviceHub`. -/
  | addHub (hub : ℕ) (name : List Char)
  /-- `add_device` with a new `VirtualTerminalManager`. -/
  | addTerminalManager (hub : ℕ) (name : List Char) (display : ℕ)
  | removeDevice (hub d : ℕ)
  | disconnect (d : ℕ)
  | ps2Init (hasKeyboard hasMouse : Bool)
  deriving DecidableEq

/-- An operation. -/
def State.apply (s : State) : Op → Except Panic State
  | .addDevice hub name => Prod.snd <$> s.addDevice hub name .other
  | .addHub hub name => Prod.snd <$> s.addDevice hub name (.virtualDeviceHub none [])
  | .addTerminalManager hub name display =>
      Prod.snd <$> s.addDevice hub name (.virtualTerminalManager none [] [display])
  | .removeDevice hub d => s.removeDevice hub d
  | .disconnect d => s.disconnect (s.next + 1) d
  | .ps2Init hasKeyboard hasMouse => s.ps2Init hasKeyboard hasMouse

/-- An operation that returns. -/
def Step (s : State) (op : Op) (s' : State) : Prop := s.apply op = .ok s'

/-- The devices, as a tree of nodes. -/
def State.devices (s : State) : Devices where
  node d := ⟨(s.node d).name, (s.node d).parent, s.children d⟩
  alive d := decide (d < s.next)
  root := 0

end HydroxKernel.Dev.Hubs
