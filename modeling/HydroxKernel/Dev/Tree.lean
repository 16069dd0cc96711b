import HydroxKernel.Lib.Runs
import HydroxKernel.Lib.Str

/-!
# The Device Tree

Devices are nodes with a name, a weak reference to their parent and, if they are hubs, references
to their children. A full name is written by following the parents up to the root, and a device
is found by following the parts of a name down from the root.

## Main results

* `findChild_eq_some_iff`: a child is found by its name.
* `Devices.Named.runs_inj`: names lead from a hub to one device.
-/

namespace HydroxKernel.Dev

open Str

/-- `DeviceNode`. A weak reference is `none` if it was created without a device, and
`children` is what `for_children` of a hub enumerates, or `none` for a device that is no hub. -/
structure DeviceNode where
  name : List Char
  parent : Option ℕ
  children : Option (List ℕ)

/-- The devices, by their addresses. A weak reference to a device that is not alive cannot be
upgraded. -/
structure Devices where
  node : ℕ → DeviceNode
  alive : ℕ → Bool
  root : ℕ

/-- `DeviceNotFoundError`. -/
inductive DeviceNotFoundError
  | deviceNotFound
  deriving DecidableEq

/-- `DeviceWeak::upgrade`. -/
def Devices.upgrade (t : Devices) (weak : Option ℕ) : Option ℕ := weak.filter t.alive

/-- The separator of the parts of a name. -/
def sep : List Char := [':', ':']

/-- `DeviceFullName::fmt`. The fuel is for the parents, and there is no name if it runs out. -/
def Devices.fullName (t : Devices) : ℕ → ℕ → Option (List Char)
  | 0, _ => none
  | fuel + 1, dev =>
      match t.upgrade (t.node dev).parent with
      | some parent =>
          if t.root = parent then some (sep ++ (t.node dev).name)
          else (t.fullName fuel parent).map fun name => name ++ sep ++ (t.node dev).name
      | none =>
          if t.root ≠ dev then some (['(', '?', '?', '?', ')'] ++ sep ++ (t.node dev).name)
          else some (t.node dev).name

/-- `DeviceHub::for_children`: calls the closure for one child after another, while it returns
`true`. The closure has a state. -/
def forChildren {σ : Type} (f : ℕ → σ → Bool × σ) : List ℕ → σ → Bool × σ
  | [], s => (true, s)
  | child :: children, s =>
      match f child s with
      | (true, s) => forChildren f children s
      | (false, s) => (false, s)

/-- `DeviceHubExt::find_child`. -/
def Devices.findChild (t : Devices) (children : List ℕ) (name : List Char) : Option ℕ :=
  (forChildren (fun child dev => if (t.node child).name = name then (false, some child)
    else (true, dev)) children none).2

/-- The loop of `get_device_by_name`, and what comes behind it. -/
def Devices.getDeviceLoop (t : Devices) :
    ℕ → ℕ → List Char → Except Panic (Except DeviceNotFoundError ℕ)
  | 0, _, _ => .error .diverged
  | fuel + 1, hub, name =>
      match findStr sep name with
      | some endPart => do
          let namePart ← cut (sliceTo name endPart)
          let name ← cut (sliceFrom name (endPart + 2))
          match (t.node hub).children with
          | none => return .error .deviceNotFound
          | some children =>
              match t.findChild children namePart with
              | some dev => t.getDeviceLoop fuel dev name
              | none => t.getDeviceLoop fuel hub name
      | none =>
          match (t.node hub).children with
          | none => return .error .deviceNotFound
          | some children =>
              match t.findChild children name with
              | some dev => return .ok dev
              | none => return .error .deviceNotFound

/-- `get_device_by_name`. Every round of the loop takes at least one character. -/
def Devices.getDeviceByName (t : Devices) (name : List Char) :
    Except Panic (Except DeviceNotFoundError ℕ) :=
  t.getDeviceLoop (name.length + 1) t.root name

/-! ### Children and their names -/

/-- A hub has a child with a name. -/
def Devices.Child (t : Devices) (hub : ℕ) (name : List Char) (dev : ℕ) : Prop :=
  ∃ children, (t.node hub).children = some children ∧ dev ∈ children ∧ (t.node dev).name = name

/-- The names of the devices under the root: they are not empty and have no colon, and those of
the children of one hub are distinct. -/
structure Devices.Named (t : Devices) : Prop where
  name_ne_nil : ∀ {path : List (List Char)} {hub dev : ℕ} {name : List Char},
    Runs t.Child t.root path hub → t.Child hub name dev → name ≠ []
  colon : ∀ {path : List (List Char)} {hub dev : ℕ} {name : List Char},
    Runs t.Child t.root path hub → t.Child hub name dev → ':' ∉ name
  distinct : ∀ {path : List (List Char)} {hub : ℕ} {children : List ℕ},
    Runs t.Child t.root path hub → (t.node hub).children = some children →
      (children.map fun dev => (t.node dev).name).Nodup

variable {t : Devices} {hub dev dev' : ℕ} {children : List ℕ} {name : List Char}
  {path : List (List Char)}

/-- The first child with the name is found. -/
theorem findChild_cons (t : Devices) (child : ℕ) (children : List ℕ) (name : List Char) :
    t.findChild (child :: children) name =
      if (t.node child).name = name then some child else t.findChild children name := by
  by_cases hname : (t.node child).name = name
  · rw [if_pos hname, Devices.findChild, forChildren, if_pos hname]
  · rw [if_neg hname, Devices.findChild, forChildren, if_neg hname]
    rfl

/-- **A child is found by its name**, if the names of the children are distinct. -/
theorem findChild_eq_some_iff (hdistinct : (children.map fun dev => (t.node dev).name).Nodup) :
    t.findChild children name = some dev ↔ dev ∈ children ∧ (t.node dev).name = name := by
  induction children with
  | nil => exact iff_of_false (fun h => nomatch h) fun h => nomatch h.1
  | cons child children ih =>
      rw [List.map_cons, List.nodup_cons] at hdistinct
      obtain ⟨hchild, hdistinct⟩ := hdistinct
      rw [findChild_cons]
      by_cases hname : (t.node child).name = name
      · rw [if_pos hname]
        constructor
        · intro h
          obtain rfl := Option.some.inj h
          exact ⟨List.mem_cons_self, hname⟩
        · rintro ⟨hmem, hdev⟩
          rcases List.mem_cons.mp hmem with rfl | hmem
          · rfl
          · refine absurd (List.mem_map.mpr ⟨dev, hmem, ?_⟩) hchild
            rw [hdev, hname]
      · rw [if_neg hname, ih hdistinct, List.mem_cons]
        constructor
        · rintro ⟨hmem, hdev⟩
          exact ⟨.inr hmem, hdev⟩
        · rintro ⟨rfl | hmem, hdev⟩
          · exact absurd hdev hname
          · exact ⟨hmem, hdev⟩

/-- The children of a hub under the root, and `find_child`. -/
theorem Devices.Named.child_iff (ht : t.Named) (hpath : Runs t.Child t.root path hub)
    (hchildren : (t.node hub).children = some children) :
    t.Child hub name dev ↔ t.findChild children name = some dev := by
  rw [findChild_eq_some_iff (ht.distinct hpath hchildren)]
  constructor
  · rintro ⟨children', hchildren', hmem, hname⟩
    obtain rfl := Option.some.inj (hchildren.symm.trans hchildren')
    exact ⟨hmem, hname⟩
  · rintro ⟨hmem, hname⟩
    exact ⟨children, hchildren, hmem, hname⟩

/-- A hub under the root has one child with a name. -/
theorem Devices.Named.child_inj (ht : t.Named) (hpath : Runs t.Child t.root path hub)
    (h : t.Child hub name dev) (h' : t.Child hub name dev') : dev = dev' := by
  obtain ⟨children, hchildren, -⟩ := id h
  rw [ht.child_iff hpath hchildren] at h h'
  exact Option.some.inj (h.symm.trans h')

/-- **Names lead to one device**. -/
theorem Devices.Named.runs_inj (ht : t.Named) {names : List (List Char)}
    (hpath : Runs t.Child t.root path hub) (h : Runs t.Child hub names dev)
    (h' : Runs t.Child hub names dev') : dev = dev' := by
  induction names generalizing path hub with
  | nil => rw [Runs.nil_iff.mp h, Runs.nil_iff.mp h']
  | cons name names ih =>
      obtain ⟨d, hd, h⟩ := Runs.cons_iff.mp h
      obtain ⟨d', hd', h'⟩ := Runs.cons_iff.mp h'
      obtain rfl := ht.child_inj hpath hd hd'
      exact ih (hpath.snoc hd) h h'

end HydroxKernel.Dev
