import HydroxKernel.Dev.HubConnect
import HydroxKernel.Dev.Lookup
import Mathlib.Algebra.GroupWithZero.Nat

/-!
# Links Between Hubs and Devices

The children that a hub enumerates and the parents of the devices agree unless a device is taken
off the list of its hub without being disconnected, or disconnected without being taken off.
`remove_device` does the one and `disconnect` the other, and the mouse of a PS/2 controller is never
on a list.

## Main results

* `Inv.disconnect`: what disconnecting a device does to the links.
* `Inv.step`: what an operation does to the links.
* `linked_of_runs`: the parents of the devices under the root are always their hubs.
* `disconnect_ne_diverges`: disconnecting a device does not run on for ever.
* `links_agree_iff`: when hubs and devices agree.
-/

namespace HydroxKernel.Dev.Hubs

variable {R D : Set ℕ} {s s' : State} {d hub fuel : ℕ} {cs : List ℕ} {dev : Device}
  {name : List Char}

/-! ### Disconnecting devices -/

/-- The other nodes after the disconnect event of one. -/
theorem node_finish_of_ne {x : ℕ} (h : x ≠ d) : (s.finish d).node x = s.node x :=
  Function.update_of_ne h _ _

/-- The node whose disconnect event ran. -/
theorem node_finish_self :
    (s.finish d).node d = { s.node d with disconnectEvent := false } :=
  Function.update_self _ _ _

/-- Disconnecting a device leaves every device as it is, and all but the event. -/
theorem node_finish (x : ℕ) : ((s.finish d).node x).dev = (s.node x).dev ∧
    ((s.finish d).node x).parent = (s.node x).parent := by
  by_cases hx : x = d
  · subst hx
    rw [node_finish_self]
    exact ⟨rfl, rfl⟩
  · rw [node_finish_of_ne hx]
    exact ⟨rfl, rfl⟩

/-- A disconnect event changes no children. -/
theorem children_finish (x : ℕ) : (s.finish d).children x = s.children x := by
  rw [State.children, (node_finish x).1, State.children]

/-- A disconnect event ends the life of the node. -/
theorem links_finish : (s.finish d).links = s.links.endLife d := by
  have hlive : (fun x => ((s.finish d).node x).disconnectEvent = true) =
      fun x => x ≠ d ∧ (s.node x).disconnectEvent = true := by
    funext x
    by_cases hx : x = d
    · subst hx
      rw [node_finish_self]
      simp
    · rw [node_finish_of_ne hx]
      simp [hx]
  have hchildren : (s.finish d).children = s.children := funext children_finish
  rw [State.links, hlive, hchildren, ChildLinks.endLife]
  simp only [node_finish]
  rfl

/-- **Firing the event** of a device by itself. -/
theorem Inv.finish (h : Inv R D s) (hevent : (s.node d).disconnectEvent = true) :
    Inv R (insert d D) (s.finish d) where
  complete := by
    rw [links_finish]
    exact h.complete.endLife hevent
  older {x y} hx := by
    rw [(node_finish x).2] at hx
    exact h.older hx
  blank {x} hx := by
    have hne : x ≠ d := by
      rintro rfl
      rw [h.blank hx] at hevent
      cases hevent
    rw [node_finish_of_ne hne]
    exact h.blank hx
  refersTo x := by
    rw [(node_finish x).1]
    exact h.refersTo x

/-- **Clearing the list** of a hub. -/
theorem Inv.clear (h : Inv R D s) (dev : Device) (hcs : s.children d = some cs)
    (hnew : dev.children = some []) (hown : dev.RefersTo d) :
    Inv (R ∪ {x | x ∈ cs}) D (s.setDev d dev) := by
  refine h.setDev (h.lt_next_of_children hcs) hown ?_
  rw [links_relist hnew]
  exact h.complete.clear hcs

/-- Devices that are both removed and disconnected need not be excepted. -/
theorem Inv.contract {both : Set ℕ} (h : Inv (R ∪ both) (D ∪ both) s)
    (hR : ∀ x ∈ both, x ∉ R) (hD : ∀ x ∈ both, x ∉ D) : Inv R D s :=
  ⟨h.complete.contract hR hD, h.older, h.blank, h.refersTo⟩

/-- What disconnecting some devices leaves. None of them had been disconnected before, and what is
older than all of them is as it was. -/
structure Ended (R D gone : Set ℕ) (s s' : State) : Prop where
  inv : Inv R (D ∪ gone) s'
  notMem : ∀ {x}, x ∈ gone → x ∉ D
  next : s'.next = s.next
  older : ∀ {x}, (∀ y ∈ gone, x < y) → s'.node x = s.node x

/-- Devices are disconnected one after the other. -/
theorem Ended.trans {gone gone' : Set ℕ} {t : State} (h : Ended R D gone s t)
    (h' : Ended R (D ∪ gone) gone' t s') : Ended R D (gone ∪ gone') s s' where
  inv := by
    rw [← Set.union_assoc]
    exact h'.inv
  notMem {x} hx := by
    rcases hx with hx | hx
    · exact h.notMem hx
    · exact fun hD => h'.notMem hx (.inl hD)
  next := h'.next.trans h.next
  older hx := (h'.older fun y hy => hx y (.inr hy)).trans (h.older fun y hy => hx y (.inl hy))

/-- **The loop over the children** disconnects each. -/
theorem Inv.disconnectLoop
    (hstep : ∀ {d : ℕ} {s s' : State} {R D : Set ℕ}, Inv R D s → s.disconnect fuel d = .ok s' →
      Ended R D {d} s s')
    (h : Inv R D s) (hloop : cs.foldlM (fun s child => State.disconnect fuel child s) s = .ok s') :
    Ended R D {x | x ∈ cs} s s' := by
  induction cs generalizing s D with
  | nil =>
      obtain rfl := Except.ok.inj hloop
      have hempty : {x : ℕ | x ∈ ([] : List ℕ)} = ∅ := by
        simp
      rw [hempty]
      exact ⟨by rwa [Set.union_empty], fun hx => absurd hx (Set.notMem_empty _), rfl,
        fun _ => rfl⟩
  | cons child cs ih =>
      obtain ⟨t, hchild, hrest⟩ := bind_eq_ok.mp hloop
      have hfirst := hstep h hchild
      have hall : {x | x ∈ child :: cs} = {child} ∪ {x | x ∈ cs} := by
        ext x
        simp
      rw [hall]
      exact hfirst.trans (ih hfirst.inv hrest)

/-- A device whose event has fired is disconnected once its children are. -/
theorem Inv.ended_of_finish (h : Inv R D s) (hevent : (s.node d).disconnectEvent = true)
    (hinv : Inv R (insert d D) s') (hnext : s'.next = s.next)
    (holder : ∀ {x}, x < d → s'.node x = (s.finish d).node x) : Ended R D {d} s s' where
  inv := by
    rw [Set.union_singleton]
    exact hinv
  notMem hx := hx ▸ h.complete.notMem_ended hevent
  next := hnext
  older hx := (holder (hx d rfl)).trans (node_finish_of_ne (hx d rfl).ne)

/-- **What `disconnect` does**: the event of the device has fired. Its children were taken off its
list and were disconnected, so they are no exceptions. -/
theorem Inv.disconnect (h : Inv R D s) (hdis : s.disconnect fuel d = .ok s') :
    Ended R D {d} s s' := by
  induction fuel generalizing d s s' R D with
  | zero => cases hdis
  | succ fuel ih =>
      obtain ⟨hevent, hrest⟩ := ensure_bind_eq_ok.mp hdis
      have hfinish := h.finish hevent
      dsimp only at hrest
      split at hrest
      case h_1 ownRef cs hdev =>
        -- the list is cleared before the children are disconnected
        have hcs : (s.finish d).children d = some cs := children_of_dev hdev
        have hclear := hfinish.clear (.virtualDeviceHub none []) hcs rfl (by rintro r ⟨⟩)
        have hloop := hclear.disconnectLoop ih hrest
        have hinv := hloop.inv.contract (fun x hx => (hfinish.of_mem hcs hx).2.2.2)
          fun x hx => hloop.notMem hx
        refine h.ended_of_finish hevent hinv hloop.next fun {x} hlt => ?_
        rw [hloop.older fun y hy => hlt.trans (hfinish.of_mem hcs hy).2.1,
          node_setDev_of_ne hlt.ne]
      case h_2 this cs displays hdev =>
        -- the terminals are disconnected before the list is cleared
        have hcs : (s.finish d).children d = some cs := children_of_dev hdev
        obtain ⟨t, hrun, hret⟩ := bind_eq_ok.mp hrest
        obtain rfl := Except.ok.inj hret
        have hloop := hfinish.disconnectLoop ih hrun
        have hcs' : t.children d = some cs := by
          rw [State.children, hloop.older fun y hy => (hfinish.of_mem hcs hy).2.1]
          exact hcs
        have hclear := hloop.inv.clear (.virtualTerminalManager none [] []) hcs' rfl trivial
        have hinv := hclear.contract (fun x hx => (hfinish.of_mem hcs hx).2.2.2)
          fun x hx => hloop.notMem hx
        refine h.ended_of_finish hevent hinv hloop.next fun {x} hlt => ?_
        rw [node_setDev_of_ne hlt.ne, hloop.older fun y hy => hlt.trans (hfinish.of_mem hcs hy).2.1]
      case h_3 =>
        obtain rfl := Except.ok.inj hrest
        exact h.ended_of_finish hevent hfinish rfl fun _ => rfl

/-- The loop over the children does not run on for ever if no child does. -/
theorem Inv.disconnectLoop_ne_diverges (h : Inv R D s)
    (hchild : ∀ child ∈ cs, ∀ {t : State} {D : Set ℕ}, Inv R D t → t.next = s.next →
      t.disconnect fuel child ≠ .error .diverges) :
    cs.foldlM (fun s child => State.disconnect fuel child s) s ≠ .error .diverges := by
  induction cs generalizing s D with
  | nil => exact fun hloop => nomatch hloop
  | cons child cs ih =>
      rw [List.foldlM_cons, ne_eq, bind_eq_error]
      rintro (herror | ⟨t, hfirst, hrest⟩)
      · exact hchild child List.mem_cons_self h rfl herror
      · have hended := h.disconnect hfirst
        refine ih hended.inv (fun c hc t' D' hinv hnext => ?_) hrest
        exact hchild c (List.mem_cons_of_mem _ hc) hinv (hnext.trans hended.next)

/-- **`disconnect` does not run on for ever**: a child has a greater address than its hub. -/
theorem Inv.disconnect_ne_diverges (h : Inv R D s) (hpos : 0 < fuel)
    (hfuel : s.next < fuel + d + 1) : s.disconnect fuel d ≠ .error .diverges := by
  induction fuel generalizing d s R D with
  | zero => exact absurd hpos (lt_irrefl 0)
  | succ fuel ih =>
      by_cases hevent : (s.node d).disconnectEvent = true
      · have hfinish := h.finish hevent
        have hchild : ∀ {cs}, (s.finish d).children d = some cs → ∀ {R : Set ℕ}, ∀ child ∈ cs,
            ∀ {t : State} {D : Set ℕ}, Inv R D t → t.next = s.next →
              t.disconnect fuel child ≠ .error .diverges := by
          intro cs hcs R child hmem t D hinv hnext
          obtain ⟨-, hlt, hlt', -⟩ := hfinish.of_mem hcs hmem
          have hbound : child < s.next := hlt'
          exact ih hinv (by omega) (by omega)
        rw [State.disconnect, ensure_pos hevent, ok_bind]
        dsimp only
        split
        case h_1 ownRef cs hdev =>
          have hcs : (s.finish d).children d = some cs := children_of_dev hdev
          exact (hfinish.clear (.virtualDeviceHub none []) hcs rfl (by rintro r ⟨⟩)
            ).disconnectLoop_ne_diverges (hchild hcs)
        case h_2 this cs displays hdev =>
          have hcs : (s.finish d).children d = some cs := children_of_dev hdev
          rw [ne_eq, bind_eq_error]
          rintro (hloop | ⟨t, -, hret⟩)
          · exact hfinish.disconnectLoop_ne_diverges (hchild hcs) hloop
          · cases hret
        case h_3 => exact fun hret => by cases hret
      · rw [State.disconnect, ensure_neg hevent, error_bind]
        exact fun herror => by cases herror

/-! ### Setting up a PS/2 controller -/

/-- How many nodes an operation makes. -/
def Op.nodes : Op → ℕ
  | .addDevice _ _ | .addHub _ _ => 1
  | .addTerminalManager _ _ _ => 2
  | .removeDevice _ _ | .disconnect _ => 0
  | .ps2Init hasKeyboard hasMouse => 1 + hasKeyboard.toNat + hasMouse.toNat

/-- The address of the mouse that an operation connects. It is made last. -/
def Op.mouse (next : ℕ) : Op → Option ℕ
  | .ps2Init hasKeyboard true => some (next + 1 + hasKeyboard.toNat)
  | _ => none

/-- What connecting a device that the hardware may have leaves. -/
structure ConnectedIf (R D : Set ℕ) (s : State) (hub : ℕ) (dev : Device) (o : Option ℕ)
    (s' : State) : Prop where
  inv : Inv (R ∪ {x | o = some x}) D s'
  addr : ∀ {x}, o = some x → x = s.next
  parent : ∀ {x}, o = some x → (s'.node x).parent = some hub
  event : ∀ {x}, o = some x → (s'.node x).disconnectEvent = true
  older : ∀ {x}, x < s.next → s'.node x = s.node x

/-- Connecting such a device makes a node, at the next address, if there is one. -/
theorem connectIf_eq_ok {has : Bool} {parent o : Option ℕ}
    (h : s.connectIf has name parent dev = .ok (o, s')) (hnodes : dev.nodes = 1) :
    o = (if has then some s.next else none) ∧ s'.next = s.next + has.toNat := by
  cases has with
  | false =>
      obtain ⟨rfl, rfl⟩ := Prod.mk.inj (Except.ok.inj h)
      exact ⟨rfl, rfl⟩
  | true =>
      obtain ⟨⟨d, t⟩, hconnect, hret⟩ := bind_eq_ok.mp h
      obtain ⟨rfl, rfl⟩ := Prod.mk.inj (Except.ok.inj hret)
      have hnext := next_connect hconnect
      rw [hnodes] at hnext
      exact ⟨congrArg some (connect_eq_ok hconnect).1, hnext⟩

/-- **What connecting a device** that the hardware may have does. -/
theorem Inv.connectIf {has : Bool} {o : Option ℕ} (h : Inv R D s) (hhub : s.children hub = some cs)
    (hfresh : dev.Fresh) (hconnect : s.connectIf has name (some hub) dev = .ok (o, s')) :
    ConnectedIf R D s hub dev o s' := by
  cases has with
  | false =>
      obtain ⟨rfl, rfl⟩ := Prod.mk.inj (Except.ok.inj hconnect)
      exact
        { inv := by simpa using h
          addr := fun hx => nomatch hx
          parent := fun hx => nomatch hx
          event := fun hx => nomatch hx
          older := fun _ => rfl }
  | true =>
      obtain ⟨⟨d, t⟩, hconn, hret⟩ := bind_eq_ok.mp hconnect
      obtain ⟨rfl, rfl⟩ := Prod.mk.inj (Except.ok.inj hret)
      have hd := h.connect hhub hfresh hconn
      have hset : R ∪ {x | some d = some x} = insert d R := by
        ext x
        simp [eq_comm]
      exact
        { inv := hset ▸ hd.inv
          addr := fun hx => Option.some.inj hx ▸ hd.addr
          parent := fun hx => Option.some.inj hx ▸ hd.parent
          event := fun hx => Option.some.inj hx ▸ hd.event
          older := hd.older }

/-- A controller stores its keyboard, if it has one. -/
theorem Inv.storeKeyboard {keyboard mouse : Option ℕ}
    (h : Inv (R ∪ {x | keyboard = some x}) D s) (hcs : s.children hub = some [])
    (hnot : ∀ {x}, keyboard = some x → x ∉ R)
    (hparent : ∀ {x}, keyboard = some x → (s.node x).parent = some hub)
    (hevent : ∀ {x}, keyboard = some x → (s.node x).disconnectEvent = true) :
    Inv R D (s.setDev hub (.ps2Controller keyboard mouse)) := by
  cases keyboard with
  | none =>
      have hset : R ∪ {x : ℕ | none = some x} = R := by simp
      rw [hset] at h
      refine h.setDev (h.lt_next_of_children hcs) trivial ?_
      rw [links_setDev_eq hcs rfl]
      exact h.complete
  | some k =>
      have hset : R ∪ {x | some k = some x} = insert k R := by
        ext x
        simp [eq_comm]
      rw [hset] at h
      exact h.putOn (hnot rfl) (hevent rfl) (hparent rfl) hcs rfl trivial

/-- **What the initialisation of the PS/2 driver can do**: it makes a controller, and the devices
that it is to have. -/
theorem ps2Init_eq_ok {hasKeyboard hasMouse : Bool}
    (h : s.ps2Init hasKeyboard hasMouse = .ok s') :
    ∃ controller s₁ keyboard s₂ mouse s₃,
      s.addDevice 0 "ps2".toList (.ps2Controller none none) = .ok (controller, s₁) ∧
      s₁.connectIf hasKeyboard "keyboard".toList (some controller) (.ps2Keyboard controller) =
        .ok (keyboard, s₂) ∧
      s₂.connectIf hasMouse "mouse".toList (some controller) (.ps2Mouse controller) =
        .ok (mouse, s₃) ∧
      s' = s₃.setDev controller (.ps2Controller keyboard mouse) ∧
      mouse = Op.mouse s.next (.ps2Init hasKeyboard hasMouse) ∧
      s'.next = s.next + Op.nodes (.ps2Init hasKeyboard hasMouse) := by
  obtain ⟨⟨c, s₁⟩, hadd, hrest⟩ := bind_eq_ok.mp h
  obtain ⟨⟨keyboard, s₂⟩, hkeyboard, hrest⟩ := bind_eq_ok.mp hrest
  obtain ⟨⟨mouse, s₃⟩, hmouse, hret⟩ := bind_eq_ok.mp hrest
  obtain rfl := Except.ok.inj hret
  have hnext₁ : s₁.next = s.next + 1 := next_addDevice hadd
  have hnext₂ : s₂.next = s₁.next + hasKeyboard.toNat := (connectIf_eq_ok hkeyboard rfl).2
  obtain ⟨haddr, hnext₃⟩ := connectIf_eq_ok hmouse rfl
  refine ⟨c, s₁, keyboard, s₂, mouse, s₃, hadd, hkeyboard, hmouse, rfl, ?_, ?_⟩
  · rw [haddr, hnext₂, hnext₁]
    cases hasMouse with
    | false => rfl
    | true => rfl
  · have hset : (s₃.setDev c (.ps2Controller keyboard mouse)).next = s₃.next := rfl
    rw [hset, hnext₃, hnext₂, hnext₁, Op.nodes]
    omega

/-- Initialising the PS/2 controller makes its nodes. -/
theorem next_ps2Init {hasKeyboard hasMouse : Bool}
    (h : s.ps2Init hasKeyboard hasMouse = .ok s') :
    s'.next = s.next + Op.nodes (.ps2Init hasKeyboard hasMouse) := by
  obtain ⟨c, s₁, keyboard, s₂, mouse, s₃, -, -, -, -, -, hnext⟩ := ps2Init_eq_ok h
  exact hnext

/-- **What the initialisation of the PS/2 driver does**: only the mouse is on no list. -/
theorem Inv.ps2Init {hasKeyboard hasMouse : Bool} (h : Inv R D s)
    (hinit : s.ps2Init hasKeyboard hasMouse = .ok s') :
    Inv (R ∪ {x | Op.mouse s.next (.ps2Init hasKeyboard hasMouse) = some x}) D s' := by
  obtain ⟨c, s₁, keyboard, s₂, mouse, s₃, hadd, hkeyboard, hmouse, rfl, haddr, -⟩ :=
    ps2Init_eq_ok hinit
  have hfresh : (Device.ps2Controller none none).Fresh := rfl
  obtain ⟨t, dev', hconnect, hconn, rfl, hlt, hinv⟩ := h.addDevice hfresh hadd
  have hc : (t.setDev 0 dev').children c = some [] := by
    have hne : c ≠ 0 := by
      rw [hconn.addr]
      exact hlt.ne'
    rw [State.children, node_setDev_of_ne hne, node_connect_ps2Controller hconnect]
    rfl
  have hk := hinv.connectIf hc (show (Device.ps2Keyboard c).Fresh from trivial) hkeyboard
  have hck : s₂.children c = some [] := by
    rw [State.children, hk.older (hinv.lt_next_of_children hc)]
    exact hc
  have hm := hk.inv.connectIf hck (show (Device.ps2Mouse c).Fresh from trivial) hmouse
  have hcm : s₃.children c = some [] := by
    rw [State.children, hm.older (hk.inv.lt_next_of_children hck)]
    exact hck
  -- the mouse is connected after the keyboard and is not stored where the keyboard is
  have hold : ∀ {x}, keyboard = some x → x < s₂.next := fun hx =>
    hk.inv.lt_next_of_parent (hk.parent hx)
  rw [← haddr]
  have hboth : Inv (R ∪ {x | mouse = some x} ∪ {x | keyboard = some x}) D s₃ := by
    rw [Set.union_right_comm]
    exact hm.inv
  refine hboth.storeKeyboard hcm (fun {x} hx => ?_) (fun hx => ?_) (fun hx => ?_)
  · rintro (hR | hx')
    · exact hinv.next_notMem (hk.addr hx ▸ hR)
    · exact absurd (hm.addr hx') (hold hx).ne
  · rw [hm.older (hold hx)]
    exact hk.parent hx
  · rw [hm.older (hold hx)]
    exact hk.event hx

/-! ### Runs -/

/-- The devices that an operation takes off a list without disconnecting them, or puts on none. -/
def Op.removed (next : ℕ) (op : Op) : Set ℕ :=
  {d | (∃ hub, op = .removeDevice hub d) ∨ op.mouse next = some d}

/-- **What an operation does to the links.** -/
theorem Inv.step {op : Op} (h : Inv R D s) (hstep : Step s op s') :
    Inv (R ∪ op.removed s.next) (D ∪ {d | op = .disconnect d}) s' ∧
      s'.next = s.next + op.nodes := by
  have hadd : ∀ {hub name} (dev : Device), dev.Fresh →
      Prod.snd <$> s.addDevice hub name dev = .ok s' → op.nodes = dev.nodes →
      op.removed s.next = ∅ → {d | op = .disconnect d} = ∅ →
      Inv (R ∪ op.removed s.next) (D ∪ {d | op = .disconnect d}) s' ∧
        s'.next = s.next + op.nodes := by
    intro hub name dev hfresh hmap hnodes hremoved hdisconnected
    obtain ⟨⟨d, t⟩, hadd, hret⟩ := bind_eq_ok.mp hmap
    obtain rfl := Except.ok.inj hret
    obtain ⟨t', dev', -, -, rfl, -, hinv⟩ := h.addDevice hfresh hadd
    rw [hremoved, hdisconnected, hnodes, Set.union_empty, Set.union_empty]
    exact ⟨hinv, next_addDevice hadd⟩
  cases op with
  | addDevice hub name =>
      exact hadd .other trivial hstep rfl (by simp [Op.removed, Op.mouse]) (by simp)
  | addHub hub name =>
      exact hadd (.virtualDeviceHub none []) ⟨rfl, rfl⟩ hstep rfl
        (by simp [Op.removed, Op.mouse]) (by simp)
  | addTerminalManager hub name display =>
      exact hadd (.virtualTerminalManager none [] [display]) rfl hstep rfl
        (by simp [Op.removed, Op.mouse]) (by simp)
  | removeDevice hub d =>
      have hset : R ∪ Op.removed s.next (.removeDevice hub d) = insert d R := by
        ext x
        simp [Op.removed, Op.mouse, eq_comm]
      have hnone : {x | Op.removeDevice hub d = .disconnect x} = ∅ := by simp
      rw [hset, hnone, Set.union_empty]
      exact ⟨h.removeDevice hstep, next_removeDevice hstep⟩
  | disconnect d =>
      have hset : {x | Op.disconnect d = .disconnect x} = {d} := by
        ext x
        simp [eq_comm]
      have hnone : Op.removed s.next (.disconnect d) = ∅ := by simp [Op.removed, Op.mouse]
      rw [hset, hnone, Set.union_empty]
      have hended := h.disconnect hstep
      exact ⟨hended.inv, hended.next⟩
  | ps2Init hasKeyboard hasMouse =>
      have hset : Op.removed s.next (.ps2Init hasKeyboard hasMouse) =
          {x | Op.mouse s.next (.ps2Init hasKeyboard hasMouse) = some x} := by
        simp [Op.removed]
      have hnone : {x | Op.ps2Init hasKeyboard hasMouse = .disconnect x} = ∅ := by simp
      rw [hset, hnone, Set.union_empty]
      exact ⟨h.ps2Init hstep, next_ps2Init hstep⟩

/-- How many nodes there are after some operations. -/
def nodesAfter (ops : List Op) : ℕ := State.init.next + (ops.map Op.nodes).sum

/-- The addresses of the mice that some operations connect, where a number of nodes has been made
before. -/
def miceFrom : ℕ → List Op → List ℕ
  | _, [] => []
  | next, op :: ops => (op.mouse next).toList ++ miceFrom (next + op.nodes) ops

/-- The addresses of the mice that the operations connect. -/
def mice (ops : List Op) : List ℕ := miceFrom State.init.next ops

/-- The mice of operations and further ones. -/
theorem miceFrom_append (next : ℕ) (ops ops' : List Op) :
    miceFrom next (ops ++ ops') =
      miceFrom next ops ++ miceFrom (next + (ops.map Op.nodes).sum) ops' := by
  induction ops generalizing next with
  | nil => rfl
  | cons op ops ih =>
      rw [List.cons_append, miceFrom, miceFrom, ih, List.append_assoc, List.map_cons,
        List.sum_cons, Nat.add_assoc]

/-- The devices that were taken off a list by `remove_device`, or are mice. -/
def removed (ops : List Op) : Set ℕ :=
  {d | (∃ hub, .removeDevice hub d ∈ ops) ∨ d ∈ mice ops}

/-- The nodes removed by one more operation. -/
theorem removed_append (ops : List Op) (op : Op) :
    removed (ops ++ [op]) = removed ops ∪ op.removed (nodesAfter ops) := by
  ext d
  simp only [removed, mice, miceFrom_append, Op.removed, Set.mem_ofPred_eq, Set.mem_union,
    List.mem_append, List.mem_singleton, miceFrom, List.append_nil, Option.mem_toList,
    nodesAfter]
  constructor
  · rintro (⟨hub, hd | rfl⟩ | hd | hd)
    · exact .inl (.inl ⟨hub, hd⟩)
    · exact .inr (.inl ⟨hub, rfl⟩)
    · exact .inl (.inr hd)
    · exact .inr (.inr hd)
  · rintro ((⟨hub, hd⟩ | hd) | ⟨hub, rfl⟩ | hd)
    · exact .inl ⟨hub, .inl hd⟩
    · exact .inr (.inl hd)
    · exact .inl ⟨hub, .inr rfl⟩
    · exact .inr (.inr hd)

/-- At first there is the root alone. -/
theorem node_init (d : ℕ) : (State.init.node d).parent = none ∧
    (State.init.node d).disconnectEvent = false ∧ (d ≠ 0 → State.init.node d = State.blank) := by
  by_cases hd : d = 0
  · subst hd
    exact ⟨rfl, rfl, fun hne => absurd rfl hne⟩
  · have hblank : State.init.node d = State.blank := by simp [State.init, hd]
    rw [hblank]
    exact ⟨rfl, rfl, fun _ => rfl⟩

/-- At first there is one hub, without children. -/
theorem children_init (h : State.init.children hub = some cs) : hub = 0 ∧ cs = [] := by
  by_cases hhub : hub = 0
  · subst hhub
    exact ⟨rfl, (Option.some.inj h).symm⟩
  · rw [State.children, (node_init hub).2.2 hhub] at h
    cases h

/-- **The first state** has no exceptions. -/
theorem inv_init : Inv ∅ ∅ State.init where
  complete := by
    have hparent : ∀ {d hub}, State.init.links.parent d ≠ some hub := by
      intro d hub hp
      exact nomatch (node_init d).1.symm.trans hp
    have hlive : ∀ {d}, ¬ State.init.links.live d := by
      intro d hl
      exact nomatch (node_init d).2.1.symm.trans hl
    exact
      { nodup := fun hcs => (children_init hcs).2 ▸ List.nodup_nil
        parent_of_mem := fun hcs hd => absurd hd ((children_init hcs).2 ▸ List.not_mem_nil)
        children_of_parent := fun hp => absurd hp hparent
        parent_of_live := fun hl => absurd hl hlive
        parent_of_taken := fun hd => absurd hd (Set.notMem_empty _)
        parent_of_ended := fun hd => absurd hd (Set.notMem_empty _)
        standing := fun hp => absurd hp hparent }
  older {d hub} hp := nomatch (node_init d).1.symm.trans hp
  blank {d} hd := (node_init d).2.2 (Nat.one_le_iff_ne_zero.mp hd)
  refersTo d := by
    by_cases hd : d = 0
    · subst hd
      exact fun r hr => (Option.some.inj hr).symm
    · rw [(node_init d).2.2 hd]
      trivial

/-- **The links after any operations** are complete up to the devices that were removed, or are
mice, and those that were disconnected. -/
theorem inv_of_runs {ops : List Op} (h : Runs Step State.init ops s) :
    Inv (removed ops) {d | .disconnect d ∈ ops} s ∧ s.next = nodesAfter ops := by
  induction h with
  | refl =>
      have hremoved : removed [] = ∅ := by simp [removed, mice, miceFrom]
      have hdisconnected : {d | .disconnect d ∈ ([] : List Op)} = ∅ := by simp
      rw [hremoved, hdisconnected]
      exact ⟨inv_init, rfl⟩
  | @snoc ops op t u hrun hlast ih =>
      obtain ⟨hinv, hnext⟩ := ih
      obtain ⟨hstep, hnext'⟩ := hinv.step hlast
      have hset : {d | .disconnect d ∈ ops ++ [op]} =
          {d | .disconnect d ∈ ops} ∪ {d | op = .disconnect d} := by
        ext d
        simp [eq_comm]
      refine ⟨?_, ?_⟩
      · rw [removed_append, ← hnext, hset]
        exact hstep
      · rw [hnext', hnext, nodesAfter, nodesAfter]
        simp [Nat.add_assoc]

/-- **The devices under the root** are linked to their hubs after any operations. -/
theorem linked_of_runs {ops : List Op} (h : Runs Step State.init ops s) : s.devices.Linked := by
  obtain ⟨hinv, hnext⟩ := inv_of_runs h
  have hroot : 0 < s.next := by
    rw [hnext, nodesAfter]
    exact Nat.add_pos_left Nat.one_pos _
  have hchild : ∀ {hub name dev}, s.devices.Child hub name dev →
      (s.node dev).parent = some hub := by
    rintro hub name dev ⟨cs, hcs, hmem, -⟩
    exact hinv.complete.parent_of_mem hcs hmem
  refine ⟨?_, fun _ hc => hchild hc, fun {path hub} hpath => ?_⟩
  · cases hparent : (s.node 0).parent with
    | none => exact hparent
    | some hub => exact absurd (hinv.older hparent) (Nat.not_lt_zero _)
  · cases hpath with
    | refl => exact decide_eq_true hroot
    | snoc _ hlast => exact decide_eq_true (hinv.lt_next_of_parent (hchild hlast))

/-- **Disconnecting a device** does not run on for ever. -/
theorem disconnect_ne_diverges {ops : List Op} (h : Runs Step State.init ops s) (d : ℕ) :
    s.apply (.disconnect d) ≠ .error .diverges :=
  (inv_of_runs h).1.disconnect_ne_diverges (Nat.succ_pos _) (by omega)

/-- A hub enumerates a device once if and only if the device is connected and the hub is its
parent. -/
def LinksAgree (s : State) : Prop :=
  ∀ hub cs, s.children hub = some cs →
    ∀ d, cs.count d = 1 ↔ (s.node d).disconnectEvent = true ∧ (s.node d).parent = some hub

/-- **Hubs and devices agree** after any operations if and only if the devices that were removed
from a hub, or are mice, are those that were disconnected by themselves. -/
theorem links_agree_iff {ops : List Op} (h : Runs Step State.init ops s) :
    LinksAgree s ↔
      ∀ d, (∃ hub, .removeDevice hub d ∈ ops) ∨ d ∈ mice ops ↔ .disconnect d ∈ ops :=
  (inv_of_runs h).1.complete.agree_iff

/-- The links agree after a run in which the device that is removed is disconnected. -/
theorem links_agree_keyboard :
    ∃ s, Runs Step State.init [.ps2Init true false, .addHub 0 "hub".toList,
      .addDevice 3 "dev".toList, .removeDevice 3 4, .disconnect 4] s ∧ LinksAgree s := by
  obtain ⟨s, hrun⟩ : ∃ s, Runs Step State.init [.ps2Init true false, .addHub 0 "hub".toList,
      .addDevice 3 "dev".toList, .removeDevice 3 4, .disconnect 4] s :=
    ⟨_, .cons rfl (.cons rfl (.cons rfl (.cons rfl (.cons rfl .refl))))⟩
  refine ⟨s, hrun, (links_agree_iff hrun).mpr fun d => ?_⟩
  simp [mice, miceFrom, Op.mouse]

/-- The links disagree about the mouse of a PS/2 controller. -/
theorem links_disagree_mouse :
    ∃ s, Runs Step State.init [.ps2Init true true] s ∧ ¬ LinksAgree s := by
  refine ⟨_, Runs.refl.snoc rfl, fun hagree => ?_⟩
  have hmouse := hagree 1 [2] rfl 3
  exact absurd (hmouse.mpr ⟨rfl, rfl⟩) (by decide)

end HydroxKernel.Dev.Hubs
