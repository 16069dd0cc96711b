import HydroxKernel.Dev.Tree

/-!
# Looking up Devices

`get_device_by_name` splits a name at its `::` and follows the parts down from the root. The
first part of a full name is empty and names no child of the root, and the loop passes over it.
It passes over every other part that names no child in the same way, but for the last one.

## Main results

* `Devices.Named.getDeviceByName_spec`: what the loop finds.
* `getDeviceByName_fullName`: a device is found by its full name.
* `resolvesOnlyPaths_iff`: the names that lead nowhere else than the path that they spell.
-/

namespace HydroxKernel.Dev

open Str

/-! ### Splitting names -/

/-- The parts of a name. -/
def components : List Char → List (List Char)
  | [] => [[]]
  | ':' :: ':' :: name => [] :: components name
  | c :: name => (components name).modifyHead (c :: ·)

/-- A name has a part. -/
theorem components_ne_nil (name : List Char) : components name ≠ [] := by
  induction name using components.induct with
  | case1 => exact List.cons_ne_nil _ _
  | case2 name ih => exact List.cons_ne_nil _ _
  | case3 c name hsep ih =>
      rw [components.eq_3 c name hsep]
      cases hparts : components name with
      | nil => exact absurd hparts ih
      | cons part parts => exact List.cons_ne_nil _ _

/-- A part in front of a separator. -/
theorem components_sep {part : List Char} (hpart : ':' ∉ part) (name : List Char) :
    components (part ++ (sep ++ name)) = part :: components name := by
  induction part with
  | nil => rfl
  | cons c part ih =>
      rw [List.mem_cons, not_or] at hpart
      rw [List.cons_append, components.eq_3 _ _ fun _ h => absurd h.symm hpart.1, ih hpart.2]
      rfl

/-- A name of one part. -/
theorem components_of_notMem {part : List Char} (hpart : ':' ∉ part) :
    components part = [part] := by
  induction part with
  | nil => rfl
  | cons c part ih =>
      rw [List.mem_cons, not_or] at hpart
      rw [components.eq_3 _ _ fun _ h => absurd h.symm hpart.1, ih hpart.2]
      rfl

/-- What begins with a separator. -/
theorem isPrefixOf_sep_eq_false {c : Char} {name : List Char}
    (h : ∀ name', c = ':' → name = ':' :: name' → False) :
    sep.isPrefixOf (c :: name) = false := by
  rw [Bool.eq_false_iff, Ne, List.isPrefixOf_iff_prefix]
  rintro ⟨rest, hrest⟩
  obtain ⟨hc, hname⟩ := List.cons.inj hrest
  exact h rest hc.symm hname.symm

/-- **The parts of a name** are what `find` splits it into. -/
theorem components_cases (name : List Char) :
    (findStr sep name = none ∧ components name = [name]) ∨
      ∃ part rest, name = part ++ (sep ++ rest) ∧ findStr sep name = some (byteLen part) ∧
        components name = part :: components rest := by
  induction name using components.induct with
  | case1 => exact .inl ⟨rfl, rfl⟩
  | case2 name ih => exact .inr ⟨[], name, rfl, rfl, rfl⟩
  | case3 c name hsep ih =>
      rw [components.eq_3 c name hsep, findStr, isPrefixOf_sep_eq_false hsep]
      rcases ih with ⟨hfind, hparts⟩ | ⟨part, rest, rfl, hfind, hparts⟩
      · refine .inl ⟨?_, by rw [hparts]; rfl⟩
        rw [if_neg Bool.false_ne_true, hfind]
        rfl
      · refine .inr ⟨c :: part, rest, rfl, ?_, by rw [hparts]; rfl⟩
        rw [if_neg Bool.false_ne_true, hfind]
        rfl

/-- A name is cut behind its first separator. -/
theorem sliceFrom_sep (part rest : List Char) :
    sliceFrom (part ++ (sep ++ rest)) (byteLen part + 2) = some rest := by
  have h := sliceFrom_append (part ++ sep) rest
  rwa [byteLen_append, List.append_assoc] at h

/-! ### What the loop finds -/

/-- Parts of a name that lead from a hub to a device if some of them are left out, and those that
are left out. Each of these names no child of the hub that the parts before it lead to, and the
last part is not left out. -/
inductive LeadsWithout (t : Devices) : ℕ → List (List Char) → List (List Char) → ℕ → Prop
  | last {hub dev : ℕ} {part : List Char} (hchild : t.Child hub part dev) :
      LeadsWithout t hub [part] [] dev
  | step {hub hub' dev : ℕ} {part : List Char} {parts left : List (List Char)}
      (hchild : t.Child hub part hub') (hrest : LeadsWithout t hub' parts left dev) :
      LeadsWithout t hub (part :: parts) left dev
  | pass {hub dev : ℕ} {part : List Char} {parts left : List (List Char)}
      (hno : ∀ dev', ¬t.Child hub part dev') (hrest : LeadsWithout t hub parts left dev) :
      LeadsWithout t hub (part :: parts) (part :: left) dev

variable {t : Devices} {hub hub' dev dev' : ℕ} {part : List Char}
  {path parts left : List (List Char)}

/-- Nothing leads nowhere. -/
theorem not_leadsWithout_nil : ¬LeadsWithout t hub [] left dev := fun h => nomatch h

/-- The last part names a child. -/
theorem leadsWithout_singleton_iff :
    (∃ left, LeadsWithout t hub [part] left dev) ↔ t.Child hub part dev := by
  constructor
  · rintro ⟨left, hlast | ⟨-, hrest⟩ | ⟨-, hrest⟩⟩
    · exact hlast
    · exact absurd hrest not_leadsWithout_nil
    · exact absurd hrest not_leadsWithout_nil
  · exact fun h => ⟨[], .last h⟩

/-- A part that names a child, and others behind it. -/
theorem Devices.Named.leadsWithout_step_iff (ht : t.Named) (hpath : Runs t.Child t.root path hub)
    (hchild : t.Child hub part hub') (hparts : parts ≠ []) :
    LeadsWithout t hub (part :: parts) left dev ↔ LeadsWithout t hub' parts left dev := by
  constructor
  · intro h
    cases h with
    | last h => exact absurd rfl hparts
    | step h hrest =>
        obtain rfl := ht.child_inj hpath hchild h
        exact hrest
    | pass hno hrest => exact absurd hchild (hno hub')
  · exact .step hchild

/-- A part that names no child, and others behind it. -/
theorem leadsWithout_pass_iff (hno : ∀ dev', ¬t.Child hub part dev') (hparts : parts ≠ []) :
    (∃ left, LeadsWithout t hub (part :: parts) left dev) ↔
      ∃ left, LeadsWithout t hub parts left dev := by
  constructor
  · rintro ⟨left, hlast | ⟨hchild, -⟩ | ⟨-, hrest⟩⟩
    · exact absurd rfl hparts
    · exact absurd hchild (hno _)
    · exact ⟨_, hrest⟩
  · rintro ⟨left, hrest⟩
    exact ⟨part :: left, .pass hno hrest⟩

/-- A device that is no hub leads nowhere. -/
theorem not_leadsWithout_of_children (hchildren : (t.node hub).children = none) :
    ¬LeadsWithout t hub parts left dev := by
  intro h
  induction h with
  | last hchild | step hchild hrest ih =>
      obtain ⟨children, hsome, -⟩ := hchild
      rw [hchildren] at hsome
      cases hsome
  | pass hno hrest ih => exact ih hchildren

/-- A child that `find_child` does not find. -/
theorem Devices.Named.not_child (ht : t.Named) (hpath : Runs t.Child t.root path hub)
    {children : List ℕ} (hchildren : (t.node hub).children = some children)
    (hfind : t.findChild children part = none) (dev : ℕ) : ¬t.Child hub part dev := by
  rw [ht.child_iff hpath hchildren, hfind]
  exact fun h => nomatch h

/-- A device that is no hub has no children to be found. -/
theorem getDeviceLoop_of_children (hchildren : (t.node hub).children = none) (fuel : ℕ)
    (name : List Char) :
    t.getDeviceLoop (fuel + 1) hub name = .ok (.error .deviceNotFound) := by
  rcases components_cases name with ⟨hfind, -⟩ | ⟨part, rest, rfl, hfind, -⟩
  · rw [Devices.getDeviceLoop, hfind, hchildren]
    rfl
  · rw [Devices.getDeviceLoop, hfind]
    dsimp only
    rw [sliceTo_append, sliceFrom_sep, hchildren]
    rfl

/-- A round of the loop: it stays at the hub if the part names no child. -/
theorem getDeviceLoop_sep {children : List ℕ} {rest : List Char}
    (hfind : findStr sep (part ++ (sep ++ rest)) = some (byteLen part))
    (hchildren : (t.node hub).children = some children) (fuel : ℕ) :
    t.getDeviceLoop (fuel + 1) hub (part ++ (sep ++ rest)) =
      t.getDeviceLoop fuel ((t.findChild children part).getD hub) rest := by
  rw [Devices.getDeviceLoop, hfind]
  dsimp only
  rw [sliceTo_append, sliceFrom_sep, hchildren]
  cases hchild : t.findChild children part with
  | none | some child =>
      simp only [cut, ok_bind, hchild]
      rfl

/-- **The loop** always ends, and finds what the parts of the name lead to. -/
theorem Devices.Named.getDeviceLoop_spec (ht : t.Named) {fuel : ℕ} {name : List Char}
    (hpath : Runs t.Child t.root path hub) (hfuel : name.length < fuel) :
    ∃ r, t.getDeviceLoop fuel hub name = .ok r ∧
      ∀ dev, r = .ok dev ↔ ∃ left, LeadsWithout t hub (components name) left dev := by
  induction fuel generalizing path hub name with
  | zero => exact absurd hfuel (Nat.not_lt_zero _)
  | succ fuel ih =>
      cases hchildren : (t.node hub).children with
      | none =>
          refine ⟨_, getDeviceLoop_of_children hchildren fuel name, fun dev =>
            iff_of_false (fun h => nomatch h) ?_⟩
          rintro ⟨left, h⟩
          exact not_leadsWithout_of_children hchildren h
      | some children =>
          rcases components_cases name with ⟨hfind, hparts⟩ | ⟨part, rest, rfl, hfind, hparts⟩
          · rw [Devices.getDeviceLoop, hfind, hchildren, hparts]
            dsimp only
            simp only [leadsWithout_singleton_iff, ht.child_iff hpath hchildren]
            cases hchild : t.findChild children name with
            | none => exact ⟨_, rfl, fun dev => iff_of_false (fun h => nomatch h) nofun⟩
            | some child =>
                refine ⟨_, rfl, fun dev => ?_⟩
                rw [Except.ok.injEq, Option.some.injEq]
          · have hrest : rest.length < fuel := by
              simp only [List.length_append, sep, List.length_cons] at hfuel
              omega
            have hne := components_ne_nil rest
            rw [getDeviceLoop_sep hfind hchildren, hparts]
            cases hchild : t.findChild children part with
            | none =>
                obtain ⟨r, hr, hiff⟩ := ih hpath hrest
                refine ⟨r, hr, fun dev => ?_⟩
                rw [hiff, leadsWithout_pass_iff (ht.not_child hpath hchildren hchild) hne]
            | some child =>
                have hc := (ht.child_iff hpath hchildren).mpr hchild
                obtain ⟨r, hr, hiff⟩ := ih (hpath.snoc hc) hrest
                refine ⟨r, hr, fun dev => ?_⟩
                rw [hiff]
                simp only [ht.leadsWithout_step_iff hpath hc hne]

/-- **What `get_device_by_name` returns**: the device that the parts of the name lead to if some
of them are left out. -/
theorem Devices.Named.getDeviceByName_spec (ht : t.Named) (name : List Char) :
    ∃ r, t.getDeviceByName name = .ok r ∧
      ∀ dev, r = .ok dev ↔ ∃ left, LeadsWithout t t.root (components name) left dev :=
  ht.getDeviceLoop_spec .refl (Nat.lt_succ_self _)

/-! ### Full names -/

/-- The parents of the devices under the root are alive, and are the hubs whose children they
are. The root has no parent. -/
structure Devices.Linked (t : Devices) : Prop where
  root_parent : (t.node t.root).parent = none
  parent : ∀ {path : List (List Char)} {hub dev : ℕ} {name : List Char},
    Runs t.Child t.root path hub → t.Child hub name dev → (t.node dev).parent = some hub
  alive : ∀ {path : List (List Char)} {hub : ℕ}, Runs t.Child t.root path hub → t.alive hub = true

/-- Names with a separator in front of each. -/
def joined (path : List (List Char)) : List Char := path.flatMap fun name => sep ++ name

/-- The parent of a device under the root. -/
theorem Devices.Linked.upgrade_parent (hl : t.Linked) {name : List Char}
    (hpath : Runs t.Child t.root path hub) (hchild : t.Child hub name dev) :
    t.upgrade (t.node dev).parent = some hub := by
  rw [hl.parent hpath hchild, Devices.upgrade]
  exact Option.filter_some_pos (hl.alive hpath)

/-- No names lead back to the root. -/
theorem Devices.Linked.path_eq_nil (hl : t.Linked) (h : Runs t.Child t.root path dev)
    (hdev : dev = t.root) : path = [] := by
  cases h with
  | refl => rfl
  | snoc hpath hchild =>
      have hparent := hl.parent hpath hchild
      rw [hdev, hl.root_parent] at hparent
      cases hparent

/-- **A full name** is made of the names that lead to the device. -/
theorem Devices.Linked.fullName_eq (hl : t.Linked) (h : Runs t.Child t.root path dev)
    (hdev : dev ≠ t.root) {fuel : ℕ} (hfuel : path.length ≤ fuel) :
    t.fullName fuel dev = some (joined path) := by
  induction h generalizing fuel with
  | refl => exact absurd rfl hdev
  | @snoc path name hub dev hpath hchild ih =>
      rw [List.length_append, List.length_singleton] at hfuel
      obtain ⟨fuel, rfl⟩ := Nat.exists_eq_add_of_le' (Nat.le_of_add_left_le hfuel)
      obtain ⟨-, -, -, hname⟩ := id hchild
      rw [Devices.fullName, hl.upgrade_parent hpath hchild, hname, joined, List.flatMap_append,
        List.flatMap_singleton]
      dsimp only
      by_cases hroot : t.root = hub
      · rw [if_pos hroot, hl.path_eq_nil hpath hroot.symm]
        rfl
      · rw [if_neg hroot, ih (Ne.symm hroot) (Nat.le_of_add_le_add_right hfuel), Option.map_some,
          List.append_assoc]
        rfl

/-- The names that lead to a device have no colon. -/
theorem Devices.Named.colon_notMem (ht : t.Named) (h : Runs t.Child t.root path dev) :
    ∀ name ∈ path, ':' ∉ name := by
  induction h with
  | refl => exact fun _ h => nomatch h
  | @snoc path name hub dev hpath hchild ih =>
      intro name' hname'
      rcases List.mem_append.mp hname' with hmem | hmem
      · exact ih name' hmem
      · rw [List.mem_singleton.mp hmem]
        exact ht.colon hpath hchild

/-- **The parts of a full name** are an empty one and the names. -/
theorem components_joined {name : List Char} (hname : ':' ∉ name)
    (hpath : ∀ name ∈ path, ':' ∉ name) :
    components (name ++ joined path) = name :: path := by
  induction path generalizing name with
  | nil => rw [joined, List.flatMap_nil, List.append_nil, components_of_notMem hname]
  | cons name' path ih =>
      obtain ⟨hname', hpath⟩ := List.forall_mem_cons.mp hpath
      rw [joined, List.flatMap_cons, List.append_assoc, components_sep hname, ← joined,
        ih hname' hpath]

/-- No part is left out of a path. -/
theorem leadsWithout_of_runs (h : Runs t.Child hub parts dev) (hparts : parts ≠ []) :
    LeadsWithout t hub parts [] dev := by
  induction parts generalizing hub with
  | nil => exact absurd rfl hparts
  | cons part parts ih =>
      obtain ⟨hub', hchild, hrest⟩ := Runs.cons_iff.mp h
      cases parts with
      | nil =>
          rw [Runs.nil_iff] at hrest
          subst hrest
          exact .last hchild
      | cons part' parts => exact .step hchild (ih hrest (List.cons_ne_nil _ _))

/-- No child has an empty name. -/
theorem Devices.Named.not_child_nil (ht : t.Named) (hpath : Runs t.Child t.root path hub)
    (dev : ℕ) : ¬t.Child hub [] dev := fun h => ht.name_ne_nil hpath h rfl

/-- **A device is found by its full name.** -/
theorem getDeviceByName_fullName (ht : t.Named) (hl : t.Linked)
    (h : Runs t.Child t.root path dev) (hdev : dev ≠ t.root) :
    ∃ name, (∀ fuel, path.length ≤ fuel → t.fullName fuel dev = some name) ∧
      t.getDeviceByName name = .ok (.ok dev) := by
  refine ⟨joined path, fun fuel => hl.fullName_eq h hdev, ?_⟩
  have hpath : path ≠ [] := by
    rintro rfl
    exact hdev (Runs.nil_iff.mp h)
  have hparts : components (joined path) = [] :: path :=
    components_joined (List.not_mem_nil) (ht.colon_notMem h)
  obtain ⟨r, hr, hiff⟩ := ht.getDeviceByName_spec (joined path)
  have hleads : LeadsWithout t t.root ([] :: path) [[]] dev :=
    .pass (ht.not_child_nil .refl) (leadsWithout_of_runs h hpath)
  rw [hr, (hiff dev).mpr ⟨[[]], hparts ▸ hleads⟩]

/-- A hub with one child, which is a hub with one child. -/
def twoHubs : Devices where
  node
    | 0 => ⟨['r'], none, some [1]⟩
    | 1 => ⟨['p', 's', '2'], some 0, some [2]⟩
    | _ => ⟨['k', 'b', 'd'], some 1, none⟩
  alive _ := true
  root := 0

/-- The children of the hubs. -/
theorem twoHubs_child {hub dev : ℕ} {name : List Char} (h : twoHubs.Child hub name dev) :
    (hub = 0 ∧ dev = 1 ∧ name = ['p', 's', '2']) ∨
      (hub = 1 ∧ dev = 2 ∧ name = ['k', 'b', 'd']) := by
  obtain ⟨children, hchildren, hmem, rfl⟩ := h
  match hub with
  | 0 =>
      obtain rfl := Option.some.inj hchildren
      obtain rfl := List.mem_singleton.mp hmem
      exact .inl ⟨rfl, rfl, rfl⟩
  | 1 =>
      obtain rfl := Option.some.inj hchildren
      obtain rfl := List.mem_singleton.mp hmem
      exact .inr ⟨rfl, rfl, rfl⟩
  | _ + 2 => cases hchildren

/-- Their names. -/
theorem twoHubs_named : twoHubs.Named := by
  constructor
  case name_ne_nil =>
    intro path hub dev name _ hchild
    rcases twoHubs_child hchild with ⟨-, -, rfl⟩ | ⟨-, -, rfl⟩ <;> exact List.cons_ne_nil _ _
  case colon =>
    intro path hub dev name _ hchild
    rcases twoHubs_child hchild with ⟨-, -, rfl⟩ | ⟨-, -, rfl⟩ <;> decide
  case distinct =>
    intro path hub children _ hchildren
    match hub with
    | 0 | 1 =>
        obtain rfl := Option.some.inj hchildren
        exact List.pairwise_singleton _ _
    | _ + 2 => cases hchildren

/-- Their parents. -/
theorem twoHubs_linked : twoHubs.Linked := by
  refine ⟨rfl, ?_, fun _ => rfl⟩
  intro path hub dev name _ hchild
  rcases twoHubs_child hchild with ⟨rfl, rfl, -⟩ | ⟨rfl, rfl, -⟩ <;> rfl

/-- The path of the last device. -/
theorem twoHubs_path :
    Runs twoHubs.Child twoHubs.root [['p', 's', '2'], ['k', 'b', 'd']] 2 :=
  .cons ⟨[1], rfl, List.mem_singleton.mpr rfl, rfl⟩
    (.cons ⟨[2], rfl, List.mem_singleton.mpr rfl, rfl⟩ .refl)

/-- Its full name. -/
theorem getDeviceByName_fullName_kbd :
    ∃ name, (∀ fuel, 2 ≤ fuel → twoHubs.fullName fuel 2 = some name) ∧
      twoHubs.getDeviceByName name = .ok (.ok 2) :=
  getDeviceByName_fullName twoHubs_named twoHubs_linked twoHubs_path (by decide)

/-! ### Wrong names -/

/-- A name without a separator at its beginning. -/
def stripRoot : List Char → List Char
  | ':' :: ':' :: name => name
  | name => name

/-- A name is resolved only to the device of the path that it spells, and is an error if some part
names no child of the hub that the parts before it lead to. -/
def ResolvesOnlyPaths (t : Devices) (name : List Char) : Prop :=
  (∀ dev, t.getDeviceByName name = .ok (.ok dev) →
    Runs t.Child t.root (components (stripRoot name)) dev) ∧
  ∀ before part after hub, components (stripRoot name) = before ++ part :: after →
    Runs t.Child t.root before hub → (∀ dev, ¬t.Child hub part dev) →
      t.getDeviceByName name = .ok (.error .deviceNotFound)

/-- The separator at the beginning of a name does not matter. -/
theorem Devices.Named.leadsWithout_stripRoot_iff (ht : t.Named) (name : List Char) :
    (∃ left, LeadsWithout t t.root (components name) left dev) ↔
      ∃ left, LeadsWithout t t.root (components (stripRoot name)) left dev := by
  unfold stripRoot
  split
  · next name =>
      exact leadsWithout_pass_iff (ht.not_child_nil .refl) (components_ne_nil name)
  · exact Iff.rfl

/-- If no part is left out, the parts are a path. -/
theorem LeadsWithout.runs (h : LeadsWithout t hub parts left dev) (hleft : left = []) :
    Runs t.Child hub parts dev := by
  induction h with
  | last hchild => exact .cons hchild .refl
  | step hchild hrest ih => exact .cons hchild (ih hleft)
  | pass hno hrest ih => exact absurd hleft (List.cons_ne_nil _ _)

/-- If the parts are a path, none is left out. -/
theorem Devices.Named.left_eq_nil (ht : t.Named) (hpath : Runs t.Child t.root path hub)
    (h : LeadsWithout t hub parts left dev) (hruns : Runs t.Child hub parts dev') : left = [] := by
  induction h generalizing path with
  | last hchild => rfl
  | step hchild hrest ih =>
      obtain ⟨hub', hchild', hruns⟩ := Runs.cons_iff.mp hruns
      obtain rfl := ht.child_inj hpath hchild hchild'
      exact ih (hpath.snoc hchild) hruns
  | pass hno hrest ih =>
      obtain ⟨hub', hchild', -⟩ := Runs.cons_iff.mp hruns
      exact absurd hchild' (hno hub')

/-- A path goes on with a child of the hub that its beginning leads to. -/
theorem Devices.Named.child_of_runs (ht : t.Named) {before after : List (List Char)}
    (hbefore : Runs t.Child t.root before hub)
    (h : Runs t.Child t.root (before ++ part :: after) dev) : ∃ dev', t.Child hub part dev' := by
  obtain ⟨hub', hbefore', hrest⟩ := Runs.append_iff.mp h
  obtain rfl := ht.runs_inj .refl hbefore hbefore'
  obtain ⟨dev', hchild, -⟩ := Runs.cons_iff.mp hrest
  exact ⟨dev', hchild⟩

/-- **A name is resolved only to the path that it spells** exactly if its parts do not lead to a
device when some of them are left out. -/
theorem resolvesOnlyPaths_iff (ht : t.Named) (name : List Char) :
    ResolvesOnlyPaths t name ↔
      ∀ left dev, LeadsWithout t t.root (components (stripRoot name)) left dev → left = [] := by
  obtain ⟨r, hr, hiff⟩ := ht.getDeviceByName_spec name
  replace hiff dev := (hiff dev).trans (ht.leadsWithout_stripRoot_iff name)
  rw [ResolvesOnlyPaths]
  rw [hr]
  constructor
  · rintro ⟨hpaths, -⟩ left dev hleads
    obtain rfl := (hiff dev).mpr ⟨left, hleads⟩
    exact ht.left_eq_nil .refl hleads (hpaths dev rfl)
  · intro hleft
    have hpaths : ∀ dev, r = .ok dev → Runs t.Child t.root (components (stripRoot name)) dev := by
      intro dev hdev
      obtain ⟨left, hleads⟩ := (hiff dev).mp hdev
      exact hleads.runs (hleft left dev hleads)
    refine ⟨fun dev hdev => hpaths dev (Except.ok.inj hdev), ?_⟩
    intro before part after hub hparts hbefore hno
    cases r with
    | ok dev =>
        have hruns := hpaths dev rfl
        rw [hparts] at hruns
        obtain ⟨dev', hchild⟩ := ht.child_of_runs hbefore hruns
        exact absurd hchild (hno dev')
    | error why => cases why; rfl

/-- A full name is resolved only to its path. -/
theorem resolvesOnlyPaths_kbd :
    ResolvesOnlyPaths twoHubs [':', ':', 'p', 's', '2', ':', ':', 'k', 'b', 'd'] :=
  (resolvesOnlyPaths_iff twoHubs_named _).mpr fun _ _ hleads =>
    twoHubs_named.left_eq_nil .refl hleads twoHubs_path

/-- A part that names nothing is passed over. -/
theorem not_resolvesOnlyPaths :
    twoHubs.getDeviceByName ['x', ':', ':', 'p', 's', '2'] = .ok (.ok 1) ∧
      twoHubs.Named ∧ twoHubs.Linked ∧
      ¬ResolvesOnlyPaths twoHubs ['x', ':', ':', 'p', 's', '2'] := by
  refine ⟨rfl, twoHubs_named, twoHubs_linked, fun h => ?_⟩
  have hruns := h.1 1 rfl
  obtain ⟨dev, hchild, -⟩ := Runs.cons_iff.mp hruns
  rcases twoHubs_child hchild with ⟨-, -, hname⟩ | ⟨-, -, hname⟩ <;> cases hname

end HydroxKernel.Dev
