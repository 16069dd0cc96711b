import HydroxKernel.Dev.Hubs
import HydroxKernel.Lib.ChildLinks

/-!
# Connecting Devices to Hubs

The children that a hub enumerates and the parents of the devices are stored apart. `Inv` says what
links them between two operations: the links are complete up to the devices that were taken off
a list without being disconnected, and those that were disconnected without being taken off.

## Main results

* `Inv.connect`: a device that is connected is on no list yet.
* `Inv.addDevice`: a device that is added is on the list of the hub.
* `Inv.removeDevice`: a device that is removed is taken off the list by itself.
-/

namespace HydroxKernel.Dev.Hubs

open ChildLinks (Complete)

/-! ### The links of a state -/

/-- The links between the devices. -/
def State.links (s : State) : ChildLinks ℕ where
  parent d := (s.node d).parent
  live d := (s.node d).disconnectEvent = true
  children := s.children

/-- A hub that has a reference has one to the address. -/
def Device.RefersTo (d : ℕ) : Device → Prop
  | .virtualDeviceHub ownRef _ => ∀ r, ownRef = some r → r = d
  | _ => True

/-- The links are complete up to the devices in the two sets. Parents are older than their
children, and a hub that has a reference has one to itself. -/
structure Inv (removed disconnected : Set ℕ) (s : State) : Prop where
  complete : Complete removed disconnected s.links
  older : ∀ {d hub}, (s.node d).parent = some hub → hub < d
  blank : ∀ {d}, s.next ≤ d → s.node d = State.blank
  refersTo : ∀ d, (s.node d).dev.RefersTo d

variable {R R' D : Set ℕ} {s s' : State} {d hub : ℕ} {cs : List ℕ} {dev : Device}
  {name : List Char}

/-- The children of a device are those of its hub. -/
theorem children_of_dev (h : (s.node d).dev = dev) : s.children d = dev.children :=
  congrArg Device.children h

/-- The other nodes after a device was written. -/
theorem node_setDev_of_ne {x : ℕ} (h : x ≠ d) : (s.setDev d dev).node x = s.node x :=
  Function.update_of_ne h _ _

/-- The node whose device was written. -/
theorem node_setDev_self : (s.setDev d dev).node d = { s.node d with dev := dev } :=
  Function.update_self _ _ _

/-- The children after a device was written. -/
theorem children_setDev :
    (s.setDev d dev).children = Function.update s.children d dev.children := by
  funext x
  by_cases hx : x = d
  · subst hx
    rw [State.children, node_setDev_self, Function.update_self]
  · rw [State.children, node_setDev_of_ne hx, Function.update_of_ne hx, State.children]

/-- Changing the device of a node changes its children only. -/
theorem links_setDev : (s.setDev d dev).links =
    ⟨s.links.parent, s.links.live, Function.update s.children d dev.children⟩ := by
  have hnode : ∀ x, ((s.setDev d dev).node x).parent = (s.node x).parent ∧
      ((s.setDev d dev).node x).disconnectEvent = (s.node x).disconnectEvent := by
    intro x
    by_cases hx : x = d
    · subst hx
      rw [node_setDev_self]
      exact ⟨rfl, rfl⟩
    · rw [node_setDev_of_ne hx]
      exact ⟨rfl, rfl⟩
  simp only [State.links, hnode, children_setDev]

/-- A hub lists other children. -/
theorem links_relist (h : dev.children = some cs) :
    (s.setDev d dev).links = s.links.relist d cs := by
  rw [links_setDev, h]
  rfl

/-- A hub that keeps its children keeps the links. -/
theorem links_setDev_eq (hold : s.children d = some cs) (hnew : dev.children = some cs) :
    (s.setDev d dev).links = s.links := by
  rw [links_setDev, hnew, ← hold, Function.update_eq_self]
  rfl

/-- A node that is there has an address below the next one. -/
theorem Inv.lt_next_of_children (h : Inv R D s) (hcs : s.children d = some cs) : d < s.next := by
  by_contra hge
  rw [State.children, h.blank (not_lt.mp hge)] at hcs
  cases hcs

/-- A node with a parent was made. -/
theorem Inv.lt_next_of_parent (h : Inv R D s) (hparent : (s.node d).parent = some hub) :
    d < s.next := by
  by_contra hge
  rw [h.blank (not_lt.mp hge)] at hparent
  cases hparent

/-- The next address is in neither set. -/
theorem Inv.next_notMem (h : Inv R D s) : s.next ∉ R := by
  intro hmem
  obtain ⟨hub, hparent⟩ := h.complete.parent_of_taken hmem
  exact absurd (h.lt_next_of_parent hparent) (lt_irrefl _)

/-- A child of a hub. -/
theorem Inv.of_mem (h : Inv R D s) (hcs : s.children hub = some cs) (hd : d ∈ cs) :
    (s.node d).parent = some hub ∧ hub < d ∧ d < s.next ∧ d ∉ R := by
  have hparent : (s.node d).parent = some hub := h.complete.parent_of_mem hcs hd
  refine ⟨hparent, h.older hparent, h.lt_next_of_parent hparent, fun hmem => ?_⟩
  exact (h.complete.standing hparent).listed_of_taken hmem ((ChildLinks.lists_iff hcs).mpr hd)

/-- **Changing the device** of a node. -/
theorem Inv.setDev (h : Inv R D s) (hd : d < s.next) (hown : dev.RefersTo d)
    (hcomplete : Complete R' D (s.setDev d dev).links) : Inv R' D (s.setDev d dev) where
  complete := hcomplete
  older {x y} hx := by
    by_cases heq : x = d
    · subst heq
      rw [node_setDev_self] at hx
      exact h.older hx
    · rw [node_setDev_of_ne heq] at hx
      exact h.older hx
  blank {x} hx := by
    have hne : x ≠ d := (hd.trans_le hx).ne'
    rw [node_setDev_of_ne hne]
    exact h.blank hx
  refersTo x := by
    by_cases heq : x = d
    · subst heq
      rw [node_setDev_self]
      exact hown
    · rw [node_setDev_of_ne heq]
      exact h.refersTo x

/-- A device that has not been connected yet. -/
def Device.Fresh : Device → Prop
  | .virtualDeviceHub ownRef children => ownRef = none ∧ children = []
  | .virtualTerminalManager _ terminals _ => terminals = []
  | .ps2Controller keyboard _ => keyboard = none
  | _ => True

/-- A fresh hub has no children. -/
theorem Device.Fresh.children (h : dev.Fresh) (hcs : dev.children = some cs) : cs = [] := by
  cases dev with
  | other => cases hcs
  | virtualDeviceHub ownRef children =>
      obtain rfl := Option.some.inj hcs
      exact h.2
  | virtualTerminalManager this terminals displays =>
      obtain rfl := Option.some.inj hcs
      exact h
  | ps2Controller keyboard mouse =>
      obtain rfl := Option.some.inj hcs
      rw [show keyboard = none from h]
      rfl
  | ps2Keyboard controller => cases hcs
  | ps2Mouse controller => cases hcs

/-! ### Making devices -/

/-- A fresh device refers to no other. -/
theorem Device.Fresh.refersTo (h : dev.Fresh) (d : ℕ) : dev.RefersTo d := by
  cases dev with
  | virtualDeviceHub ownRef children =>
      obtain ⟨rfl, -⟩ := h
      rintro r ⟨⟩
  | other | virtualTerminalManager | ps2Controller | ps2Keyboard | ps2Mouse => trivial

/-- How many nodes are made when the device is connected. -/
def Device.nodes : Device → ℕ
  | .virtualTerminalManager _ _ _ => 2
  | _ => 1

/-- The other nodes after one was made. -/
theorem node_make_of_ne {parent : Option ℕ} {x : ℕ} (h : x ≠ s.next) :
    (s.make name parent dev).2.node x = s.node x := Function.update_of_ne h _ _

/-- The node that was made. -/
theorem node_make_self {parent : Option ℕ} :
    (s.make name parent dev).2.node s.next = ⟨name, parent, true, dev⟩ :=
  Function.update_self _ _ _

/-- A node that is made refers to its hub. -/
theorem links_make :
    (s.make name (some hub) dev).2.links = s.links.add s.next hub dev.children := by
  have hparent : (fun x => ((s.make name (some hub) dev).2.node x).parent) =
      Function.update (fun x => (s.node x).parent) s.next (some hub) := by
    funext x
    by_cases hx : x = s.next
    · subst hx
      rw [node_make_self, Function.update_self]
    · rw [node_make_of_ne hx, Function.update_of_ne hx]
  have hlive : (fun x => ((s.make name (some hub) dev).2.node x).disconnectEvent = true) =
      fun x => x = s.next ∨ (s.node x).disconnectEvent = true := by
    funext x
    by_cases hx : x = s.next
    · subst hx
      rw [node_make_self]
      simp
    · rw [node_make_of_ne hx]
      simp [hx]
  have hchildren : (s.make name (some hub) dev).2.children =
      Function.update s.children s.next dev.children := by
    funext x
    by_cases hx : x = s.next
    · subst hx
      rw [State.children, node_make_self, Function.update_self]
    · rw [State.children, node_make_of_ne hx, Function.update_of_ne hx, State.children]
  rw [State.links, hparent, hlive, hchildren]
  rfl

/-- **A new device** is on no list yet. -/
theorem Inv.make (h : Inv R D s) (hhub : s.children hub = some cs) (hfresh : dev.Fresh) :
    Inv (insert s.next R) D (s.make name (some hub) dev).2 where
  complete := by
    rw [links_make]
    have hblank := h.blank (le_refl s.next)
    refine h.complete.add ?_ ?_ ⟨cs, hhub⟩ fun cs hcs => hfresh.children hcs
    · have hparent : (s.node s.next).parent = none := by rw [hblank]; rfl
      exact hparent
    · exact children_of_dev (congrArg Node.dev hblank)
  older {x y} hx := by
    by_cases heq : x = s.next
    · subst heq
      rw [node_make_self] at hx
      obtain rfl := Option.some.inj hx
      exact h.lt_next_of_children hhub
    · rw [node_make_of_ne heq] at hx
      exact h.older hx
  blank {x} hx := by
    have hlt : s.next < x := hx
    rw [node_make_of_ne hlt.ne']
    exact h.blank hlt.le
  refersTo x := by
    by_cases heq : x = s.next
    · subst heq
      rw [node_make_self]
      exact hfresh.refersTo s.next
    · rw [node_make_of_ne heq]
      exact h.refersTo x

/-- **What `connect` can do**: a hub is given a reference to itself, and a terminal manager makes
its first terminal. -/
theorem connect_eq_ok {parent : Option ℕ} (h : s.connect name parent dev = .ok (d, s')) :
    d = s.next ∧ match dev with
      | .virtualDeviceHub _ children =>
          s' = (s.make name parent dev).2.setDev d (.virtualDeviceHub (some d) children)
      | .virtualTerminalManager _ terminals displays =>
          s' = ((s.make name parent dev).2.make "vt0".toList (some d) .other).2.setDev d
            (.virtualTerminalManager (some d) (terminals ++ [s.next + 1]) displays)
      | _ => s' = (s.make name parent dev).2 := by
  obtain ⟨t, hon, hret⟩ := bind_eq_ok.mp h
  obtain ⟨rfl, rfl⟩ := Prod.mk.inj (Except.ok.inj hret)
  have hnode : ((s.make name parent dev).2.node s.next).dev = dev := by rw [node_make_self]
  change (s.make name parent dev).2.onConnected s.next = .ok t at hon
  rw [State.onConnected, hnode] at hon
  refine ⟨rfl, ?_⟩
  cases dev with
  | virtualTerminalManager this terminals displays =>
      obtain ⟨-, hret⟩ := ensure_bind_eq_ok.mp hon
      exact (Except.ok.inj hret).symm
  | virtualDeviceHub | other | ps2Controller | ps2Keyboard | ps2Mouse =>
      exact (Except.ok.inj hon).symm

/-- Connecting a device makes its nodes. -/
theorem next_connect {parent : Option ℕ} (h : s.connect name parent dev = .ok (d, s')) :
    s'.next = s.next + dev.nodes := by
  obtain ⟨rfl, h⟩ := connect_eq_ok h
  cases dev <;> exact h ▸ rfl

/-- What connecting a device to a hub leaves. -/
structure Connected (R D : Set ℕ) (s : State) (hub : ℕ) (dev : Device) (d : ℕ) (s' : State) :
    Prop where
  inv : Inv (insert d R) D s'
  addr : d = s.next
  lt_next : d < s'.next
  parent : (s'.node d).parent = some hub
  event : (s'.node d).disconnectEvent = true
  older : ∀ {x}, x < s.next → s'.node x = s.node x

/-- A new device is connected. -/
theorem Inv.make_connected (h : Inv R D s) (hhub : s.children hub = some cs)
    (hfresh : dev.Fresh) :
    Connected R D s hub dev s.next (s.make name (some hub) dev).2 where
  inv := h.make hhub hfresh
  addr := rfl
  lt_next := Nat.lt_succ_self _
  parent := by rw [node_make_self]
  event := by rw [node_make_self]
  older hx := node_make_of_ne hx.ne

/-- A device that has just been connected may change itself and make others. -/
theorem Connected.later {t : State} (h : Connected R D s hub dev d s')
    (hinv : Inv (insert d R) D t) (hnext : s'.next ≤ t.next)
    (hnode : ∀ {x}, x < d → t.node x = s'.node x)
    (hself : ∃ dev', t.node d = { s'.node d with dev := dev' }) :
    Connected R D s hub dev d t where
  inv := hinv
  addr := h.addr
  lt_next := h.lt_next.trans_le hnext
  parent := by
    obtain ⟨dev', hself⟩ := hself
    rw [hself]
    exact h.parent
  event := by
    obtain ⟨dev', hself⟩ := hself
    rw [hself]
    exact h.event
  older hx := (hnode (h.addr ▸ hx)).trans (h.older hx)

/-- **Putting a device on the list** of its hub. -/
theorem Inv.putOn (h : Inv (insert d R) D s) (hd : d ∉ R)
    (hevent : (s.node d).disconnectEvent = true) (hparent : (s.node d).parent = some hub)
    (hcs : s.children hub = some cs) (hnew : dev.children = some (cs ++ [d]))
    (hown : dev.RefersTo hub) : Inv R D (s.setDev hub dev) := by
  refine h.setDev (h.lt_next_of_children hcs) hown ?_
  rw [links_relist hnew]
  exact h.complete.putOn hd hevent hparent hcs

/-- A hub that is connected gets a reference to itself. -/
theorem Connected.virtualDeviceHub {children : List ℕ} (h : Connected R D s hub dev d s')
    (hdev : (s'.node d).dev = .virtualDeviceHub none children) :
    Connected R D s hub dev d (s'.setDev d (.virtualDeviceHub (some d) children)) := by
  have hcs : s'.children d = some children := children_of_dev hdev
  refine h.later (h.inv.setDev h.lt_next (fun r hr => (Option.some.inj hr).symm) ?_) le_rfl
    (fun hx => node_setDev_of_ne hx.ne) ⟨_, node_setDev_self⟩
  rw [links_setDev_eq hcs rfl]
  exact h.inv.complete

/-- **A terminal manager** that is connected makes its first terminal. -/
theorem Connected.virtualTerminalManager {this this' : Option ℕ} {displays : List ℕ}
    (h : Connected R D s hub dev d s')
    (hdev : (s'.node d).dev = .virtualTerminalManager this [] displays) :
    Connected R D s hub dev d ((s'.make name (some d) .other).2.setDev d
      (.virtualTerminalManager this' [s'.next] displays)) := by
  have hcs : s'.children d = some [] := children_of_dev hdev
  have hmake : Inv (insert s'.next (insert d R)) D (s'.make name (some d) .other).2 :=
    h.inv.make hcs trivial
  have hnode : (s'.make name (some d) .other).2.node d = s'.node d :=
    node_make_of_ne h.lt_next.ne
  have hcs' : (s'.make name (some d) .other).2.children d = some [] := by
    rw [State.children, hnode]
    exact hcs
  refine h.later (hmake.putOn h.inv.next_notMem ?_ ?_ hcs' rfl trivial)
    (Nat.le_succ _) (fun hx => ?_) ⟨.virtualTerminalManager this' [s'.next] displays, ?_⟩
  · rw [node_make_self]
  · rw [node_make_self]
  · rw [node_setDev_of_ne hx.ne, node_make_of_ne (hx.trans h.lt_next).ne]
  · rw [node_setDev_self, hnode]

/-- **What `connect` does** with a new device. -/
theorem Inv.connect (h : Inv R D s) (hhub : s.children hub = some cs) (hfresh : dev.Fresh)
    (hconnect : s.connect name (some hub) dev = .ok (d, s')) :
    Connected R D s hub dev d s' := by
  obtain ⟨rfl, hs⟩ := connect_eq_ok hconnect
  have hmade : Connected R D s hub dev s.next (s.make name (some hub) dev).2 :=
    h.make_connected hhub hfresh
  have hnode : ((s.make name (some hub) dev).2.node s.next).dev = dev := by rw [node_make_self]
  cases dev with
  | virtualDeviceHub ownRef children =>
      obtain ⟨rfl, rfl⟩ := hfresh
      exact hs ▸ hmade.virtualDeviceHub hnode
  | virtualTerminalManager this terminals displays =>
      obtain rfl : terminals = [] := hfresh
      exact hs ▸ hmade.virtualTerminalManager hnode
  | other | ps2Controller | ps2Keyboard | ps2Mouse => exact hs ▸ hmade

/-- A PS/2 controller that is connected is left as it is. -/
theorem node_connect_ps2Controller {parent keyboard mouse : Option ℕ}
    (hconnect : s.connect name parent (.ps2Controller keyboard mouse) = .ok (d, s')) :
    (s'.node d).dev = .ps2Controller keyboard mouse := by
  obtain ⟨rfl, hs⟩ := connect_eq_ok hconnect
  rw [show s' = _ from hs, node_make_self]

/-- **What `add_device` can do**: the hub has a reference, and the device is connected and put on
its list. -/
theorem addDevice_eq_ok (h : s.addDevice hub name dev = .ok (d, s')) :
    ∃ r cs t, (s.node hub).dev = .virtualDeviceHub (some r) cs ∧
      s.connect name (some r) dev = .ok (d, t) ∧
      s' = t.setDev hub (.virtualDeviceHub (some r) (cs ++ [d])) := by
  rw [State.addDevice] at h
  split at h
  case h_2 => cases h
  case h_1 ownRef cs hdev =>
    obtain ⟨href, hrest⟩ := ensure_bind_eq_ok.mp h
    obtain ⟨r, rfl⟩ := Option.isSome_iff_exists.mp href
    obtain ⟨⟨d', t⟩, hconnect, hret⟩ := bind_eq_ok.mp hrest
    obtain ⟨rfl, rfl⟩ := Prod.mk.inj (Except.ok.inj hret)
    exact ⟨r, cs, t, hdev, hconnect, rfl⟩

/-- Adding a device makes its nodes. -/
theorem next_addDevice (h : s.addDevice hub name dev = .ok (d, s')) :
    s'.next = s.next + dev.nodes := by
  obtain ⟨r, cs, t, -, hconnect, rfl⟩ := addDevice_eq_ok h
  have hnext : t.next = s.next + dev.nodes := next_connect hconnect
  exact hnext

/-- **What `add_device` does**: the new device is on the list of the hub. -/
theorem Inv.addDevice (h : Inv R D s) (hfresh : dev.Fresh)
    (hadd : s.addDevice hub name dev = .ok (d, s')) :
    ∃ t dev', s.connect name (some hub) dev = .ok (d, t) ∧ Connected R D s hub dev d t ∧
      s' = t.setDev hub dev' ∧ hub < s.next ∧ Inv R D s' := by
  obtain ⟨r, cs, t, hdev, hconnect, rfl⟩ := addDevice_eq_ok hadd
  have href := h.refersTo hub
  rw [hdev] at href
  obtain rfl := href r rfl
  have hcs : s.children r = some cs := children_of_dev hdev
  have hlt := h.lt_next_of_children hcs
  have hconn := h.connect hcs hfresh hconnect
  have hcs' : t.children r = some cs := by
    rw [State.children, hconn.older hlt]
    exact hcs
  have hd : d ∉ R := hconn.addr ▸ h.next_notMem
  exact ⟨t, _, hconnect, hconn, rfl, hlt,
    hconn.inv.putOn hd hconn.event hconn.parent hcs' rfl href⟩

/-- **What `remove_device` does**: the device is off the list of the hub. -/
theorem Inv.removeDevice (h : Inv R D s) (hremove : s.removeDevice hub d = .ok s') :
    Inv (insert d R) D s' := by
  rw [State.removeDevice] at hremove
  split at hremove
  case h_2 => cases hremove
  case h_1 ownRef cs hdev =>
    obtain ⟨hd, hret⟩ := ensure_bind_eq_ok.mp hremove
    obtain rfl := Except.ok.inj hret
    have hcs : s.children hub = some cs := children_of_dev hdev
    have href := h.refersTo hub
    rw [hdev] at href
    refine h.setDev (h.lt_next_of_children hcs) href ?_
    rw [links_relist rfl]
    exact h.complete.takeOff hcs hd

/-- Removing a device makes no node. -/
theorem next_removeDevice (h : s.removeDevice hub d = .ok s') : s'.next = s.next := by
  rw [State.removeDevice] at h
  split at h
  case h_2 => cases h
  case h_1 =>
    obtain ⟨-, hret⟩ := ensure_bind_eq_ok.mp h
    exact (Except.ok.inj hret) ▸ rfl

end HydroxKernel.Dev.Hubs
