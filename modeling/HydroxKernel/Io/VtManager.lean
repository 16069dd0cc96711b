import HydroxKernel.Arch.VgaDisplay
import HydroxKernel.Dev.KeyEvents
import HydroxKernel.Io.TtyStream

/-!
# The Manager of Virtual Terminals

The manager has the terminals and the displays. Every display shows one terminal, and is drawn
anew when that is written to or another is switched to. When the manager is connected, it makes
the first terminal, in the size of the first display.

## Main results

* `Shown.write`, `Shown.switchDisplay`: every display shows what was written to its terminal.
-/

namespace HydroxKernel.Console

open HydroxKernel.Ansi HydroxKernel.Vt HydroxKernel.Vga

/-- The panics of the console. -/
inductive Panic
  /-- A panic of a terminal. -/
  | vt (why : Vt.Panic)
  /-- A panic of drawing a terminal. -/
  | redraw (why : RedrawPanic)
  /-- A panic of the read queue of a terminal. -/
  | tty (why : Tty.Panic)
  /-- A panic of the keyboard. -/
  | keyboard (why : Keyboard.Panic)
  /-- The `assert!` of `on_connected`. -/
  | noDisplay
  /-- The `assert!` of `attach_keyboard`. -/
  | keyboardAttached
  /-- The manager has no reference to itself. -/
  | noSelf
  /-- The keyboard has an error, which is not implemented. -/
  | unimplemented
  /-- An index of the terminals or the displays is out of bounds. -/
  | outOfBounds
  deriving DecidableEq

/-- `VirtualTerminal`, with the fields that are not in `VirtualTerminalInternals`. -/
structure VirtualTerminal where
  internals : VirtualTerminalInternals
  cursorHidden : Bool
  id : ℕ
  readQueue : Tty.State 64

/-- `VirtualTerminal::new`. -/
def VirtualTerminal.new (id width height : ℕ) : Except Panic VirtualTerminal := do
  let internals ← (VirtualTerminalInternals.new width height).mapError .vt
  return ⟨internals, false, id, .new⟩

/-- `DisplayInfo`. The display is the VGA text buffer, and `keyboard` says whether there is a
keyboard. -/
structure DisplayInfo where
  display : VgaTextBuffer
  keyboard : Bool
  terminalId : ℕ

/-- `DisplayInfo`, with the display drawn anew. -/
def DisplayInfo.redraw (info : DisplayInfo) (vt : VirtualTerminal) : Except Panic DisplayInfo := do
  let display ← (info.display.redraw vt.internals vt.cursorHidden).mapError .redraw
  return { info with display := display }

/-- `VirtualTerminalManagerInternals`. `this` says whether there is a reference to itself. -/
structure VirtualTerminalManager where
  this : Bool
  terminals : List VirtualTerminal
  displays : List DisplayInfo

namespace VirtualTerminalManager

/-- `VirtualTerminalManager::new`. -/
def new (primaryDisplay : VgaTextBuffer) : VirtualTerminalManager :=
  ⟨false, [], [⟨primaryDisplay, false, 0⟩]⟩

/-- A terminal of the list. -/
def terminal (m : VirtualTerminalManager) (id : ℕ) : Except Panic VirtualTerminal :=
  match m.terminals[id]? with
  | some vt => .ok vt
  | none => .error .outOfBounds

/-- A display of the list. -/
def display (m : VirtualTerminalManager) (id : ℕ) : Except Panic DisplayInfo :=
  match m.displays[id]? with
  | some info => .ok info
  | none => .error .outOfBounds

/-- `on_connected`. -/
def onConnected (m : VirtualTerminalManager) : Except Panic VirtualTerminalManager := do
  ensure (m.displays ≠ []) .noDisplay
  let info ← m.display 0
  let vt ← VirtualTerminal.new 0 info.display.width info.display.height
  let m := { m with this := true, terminals := m.terminals ++ [vt] }
  let info ← info.redraw (← m.terminal 0)
  return { m with displays := m.displays.set 0 info }

/-- `VirtualTerminalInternals::redraw`: all displays that show the terminal are drawn. -/
def redraw (m : VirtualTerminalManager) (vt : VirtualTerminal) :
    Except Panic VirtualTerminalManager := do
  let displays ← m.displays.mapM fun info =>
    if info.terminalId = vt.id then info.redraw vt else return info
  return { m with displays := displays }

/-- `VirtualTerminal::write`, on a terminal of the manager. -/
def write (m : VirtualTerminalManager) (id : ℕ) (bytes : List UInt8) :
    Except Panic VirtualTerminalManager := do
  let vt ← m.terminal id
  let internals ← (vt.internals.write bytes).mapError .vt
  let vt := { vt with internals := internals }
  { m with terminals := m.terminals.set id vt }.redraw vt

/-- `VirtualTerminal::read`, on a terminal of the manager. -/
def read (m : VirtualTerminalManager) (id len : ℕ) : Except Panic VirtualTerminalManager := do
  let vt ← m.terminal id
  let readQueue ← (Tty.perform vt.readQueue (.read len)).mapError .tty
  return { m with terminals := m.terminals.set id { vt with readQueue := readQueue } }

/-- `switch_display`. -/
def switchDisplay (m : VirtualTerminalManager) (displayId terminalId : ℕ) :
    Except Panic (Bool × VirtualTerminalManager) := do
  if terminalId < m.terminals.length then do
    let vt ← m.terminal terminalId
    if displayId < m.displays.length then do
      let info ← m.display displayId
      let info ← { info with terminalId := terminalId }.redraw vt
      return (true, { m with displays := m.displays.set displayId info })
    else return (false, m)
  else return (false, m)

end VirtualTerminalManager

/-! ### Terminals and what was written to them -/

variable {w h : ℕ}

/-- The grid of a new terminal. -/
def blankGrid (hw : 0 < w) (hh : 0 < h) : Grid w h :=
  ⟨fun _ _ => ⟨' ', .white, .black⟩, ⟨0, hw⟩, ⟨0, hh⟩, .white, .black⟩

/-- The terminal shows the grid that the bytes lead to. -/
def Wrote (hw : 0 < w) (hh : 0 < h) (vt : VirtualTerminal) (bytes : List UInt8) : Prop :=
  ∃ actions, AnsiParser.new.writeAll bytes = .ok (actions, vt.internals.ansi) ∧
    vt.internals.ansi.state.InRange ∧ vt.cursorHidden = false ∧
    Vt.Shows vt.internals (actions.foldl Grid.vtAct (blankGrid hw hh))

/-- The grid that bytes lead to. -/
def screen (hw : 0 < w) (hh : 0 < h) (bytes : List UInt8) : Grid w h :=
  match AnsiParser.new.writeAll bytes with
  | .ok (actions, _) => actions.foldl Grid.vtAct (blankGrid hw hh)
  | .error _ => blankGrid hw hh

variable {hw : 0 < w} {hh : 0 < h} {vt : VirtualTerminal} {bytes bytes' : List UInt8}

/-- Bytes never make the parser panic. -/
theorem writeAll_spec {p : AnsiParser} (hp : p.state.InRange) (bytes : List UInt8) :
    ∃ actions p', p.writeAll bytes = .ok (actions, p') ∧ p'.state.InRange := by
  induction bytes generalizing p with
  | nil => exact ⟨[], p, rfl, hp⟩
  | cons b bytes ih =>
      obtain ⟨action, p₁, hwrite, hp₁⟩ := write_spec hp b
      obtain ⟨actions, p₂, hwrite', hp₂⟩ := ih hp₁
      refine ⟨action.toList ++ actions, p₂, ?_, hp₂⟩
      rw [AnsiParser.writeAll, hwrite, ok_bind]
      dsimp only
      rw [hwrite', ok_bind]
      rfl

/-- The terminal shows the grid. -/
theorem Wrote.shows (hwrote : Wrote hw hh vt bytes) :
    Vt.Shows vt.internals (screen hw hh bytes) := by
  obtain ⟨actions, hwrite, -, -, hshows⟩ := hwrote
  rw [screen, hwrite]
  exact hshows

/-- **Writing to a terminal** leads to the grid of all the bytes. -/
theorem Wrote.write (hwrote : Wrote hw hh vt bytes) (bytes' : List UInt8) :
    ∃ internals, vt.internals.write bytes' = .ok internals ∧
      Wrote hw hh { vt with internals := internals } (bytes ++ bytes') := by
  obtain ⟨actions, hwrite, hp, hcursor, hshows⟩ := hwrote
  obtain ⟨actions', p, hwrite', hp'⟩ := writeAll_spec hp bytes'
  obtain ⟨internals, hvt, hansi, hshows'⟩ := hshows.write_actions bytes' hp hwrite'
  refine ⟨internals, hvt, actions ++ actions', ?_, ?_, hcursor, ?_⟩
  · rw [hansi]
    exact writeAll_append hwrite hwrite'
  · rw [hansi]
    exact hp'
  · rw [List.foldl_append]
    exact hshows'

/-- A new terminal. -/
theorem wrote_new (hw : 0 < w) (hh : 0 < h) (hwh : w * h < 2 ^ 64) (id : ℕ) :
    ∃ vt, VirtualTerminal.new id w h = .ok vt ∧ vt.id = id ∧ vt.readQueue = .new ∧
      Wrote hw hh vt [] := by
  obtain ⟨internals, hnew, hansi, hshows⟩ := new_shows hw hh hwh
  refine ⟨⟨internals, false, id, .new⟩, ?_, rfl, rfl, [], ?_, ?_, rfl, hshows⟩
  · rw [VirtualTerminal.new, hnew]
    rfl
  · rw [hansi]
    rfl
  · rw [hansi]
    exact trivial

/-! ### Displays -/

/-- The terminal that a display shows is there, and the display shows it. -/
def Drawn (hw : 0 < w) (hh : 0 < h) (n : ℕ) (written : ℕ → List UInt8) (info : DisplayInfo) :
    Prop :=
  info.terminalId < n ∧ Displays info.display (screen hw hh (written info.terminalId))

/-- Every terminal shows what was written to it, and every display what its terminal does. -/
structure Shown (hw : 0 < w) (hh : 0 < h) (m : VirtualTerminalManager)
    (written : ℕ → List UInt8) : Prop where
  ids : ∀ (id : ℕ) (vt : VirtualTerminal), m.terminals[id]? = some vt → vt.id = id
  terminals : ∀ (id : ℕ) (vt : VirtualTerminal), m.terminals[id]? = some vt →
    Wrote hw hh vt (written id)
  displays : ∀ info ∈ m.displays,
    Drawn hw hh m.terminals.length written info

/-- **A display** that is drawn shows what the terminal does. -/
theorem DisplayInfo.redraw_spec (info : DisplayInfo) {cells : Fin h → Fin w → ScreenChar}
    (hinfo : Holds info.display cells) (hwrote : Wrote hw hh vt bytes) :
    ∃ display, info.redraw vt = .ok { info with display := display } ∧
      Displays display (screen hw hh bytes) := by
  obtain ⟨display, hredraw, hdisplays⟩ := Vga.redraw_spec hinfo hwrote.shows
  obtain ⟨actions, -, -, hcursor, -⟩ := hwrote
  refine ⟨display, ?_, hdisplays⟩
  rw [DisplayInfo.redraw, hcursor, hredraw]
  rfl

/-- A loop that draws some of the displays. -/
theorem mapM_drawn {f : DisplayInfo → Except Panic DisplayInfo} {P Q : DisplayInfo → Prop}
    {infos : List DisplayInfo}
    (hf : ∀ info, P info → ∃ info', f info = .ok info' ∧ Q info' ∧ info'.keyboard = info.keyboard)
    (hP : ∀ info ∈ infos, P info) :
    ∃ infos', infos.mapM f = .ok infos' ∧ (∀ info ∈ infos', Q info) ∧
      infos'.map DisplayInfo.keyboard = infos.map DisplayInfo.keyboard := by
  induction infos with
  | nil => exact ⟨[], rfl, fun info hinfo => absurd hinfo List.not_mem_nil, rfl⟩
  | cons info infos ih =>
      obtain ⟨info', hinfo', hQ, hkeyboard⟩ := hf info (hP info (List.mem_cons_self ..))
      obtain ⟨infos', hinfos', hQs, hkeyboards⟩ := ih fun info' hmem =>
        hP info' (List.mem_cons_of_mem _ hmem)
      refine ⟨info' :: infos', ?_, List.forall_mem_cons.mpr ⟨hQ, hQs⟩, ?_⟩
      · rw [List.mapM_cons, hinfo', ok_bind, hinfos', ok_bind]
        rfl
      · rw [List.map_cons, List.map_cons, hkeyboard, hkeyboards]

/-- What was written to the terminals, after more was written to one. -/
def wroteTo (written : ℕ → List UInt8) (id : ℕ) (bytes : List UInt8) : ℕ → List UInt8 :=
  Function.update written id (written id ++ bytes)

variable {m : VirtualTerminalManager} {written : ℕ → List UInt8} {id : ℕ}

/-- The terminals after one has changed. -/
theorem forall_terminals_set {P : ℕ → VirtualTerminal → Prop} {vt : VirtualTerminal}
    (hP : P id vt) (hm : ∀ i vt, i ≠ id → m.terminals[i]? = some vt → P i vt) :
    ∀ i vt', (m.terminals.set id vt)[i]? = some vt' → P i vt' := by
  intro i vt' hvt'
  rw [List.getElem?_set] at hvt'
  split at hvt'
  · rename_i hid
    subst hid
    split at hvt'
    · obtain rfl := Option.some.inj hvt'
      exact hP
    · cases hvt'
  · rename_i hid
    exact hm i vt' (Ne.symm hid) hvt'

/-- **A write** to a terminal draws the displays that show it. -/
theorem Shown.write (hm : Shown hw hh m written) {vt : VirtualTerminal}
    (hvt : m.terminals[id]? = some vt) (bytes : List UInt8) :
    ∃ m' internals, m.write id bytes = .ok m' ∧ Shown hw hh m' (wroteTo written id bytes) ∧
      m'.this = m.this ∧ m'.terminals = m.terminals.set id { vt with internals := internals } ∧
      m'.displays.map DisplayInfo.keyboard = m.displays.map DisplayInfo.keyboard := by
  obtain ⟨internals, hwrite, hwrote⟩ := (hm.terminals id vt hvt).write bytes
  have hid := hm.ids id vt hvt
  obtain ⟨displays, hdisplays, hdrawn, hkeyboards⟩ := mapM_drawn
    (f := fun info => if info.terminalId = vt.id then
      info.redraw { vt with internals := internals } else return info)
    (P := Drawn hw hh m.terminals.length written)
    (Q := Drawn hw hh m.terminals.length (wroteTo written id bytes)) (by
      rintro info ⟨hlt, hinfo⟩
      by_cases heq : info.terminalId = vt.id
      · obtain ⟨display, hredraw, hdisplays⟩ := DisplayInfo.redraw_spec _ hinfo.cells hwrote
        rw [if_pos heq]
        refine ⟨_, hredraw, ⟨hlt, ?_⟩, rfl⟩
        dsimp only
        rw [heq, hid, wroteTo, Function.update_self]
        exact hdisplays
      · rw [if_neg heq]
        refine ⟨_, rfl, ⟨hlt, ?_⟩, rfl⟩
        rw [wroteTo, Function.update_of_ne (hid ▸ heq)]
        exact hinfo) hm.displays
  refine ⟨{ m with
      terminals := m.terminals.set id { vt with internals := internals }, displays := displays },
    internals, ?_, ⟨?_, ?_, ?_⟩, rfl, rfl, hkeyboards⟩
  · rw [VirtualTerminalManager.write, VirtualTerminalManager.terminal, hvt, ok_bind, hwrite]
    dsimp only [Except.mapError, ok_bind]
    rw [VirtualTerminalManager.redraw]
    dsimp only
    rw [hdisplays, ok_bind]
    rfl
  · exact forall_terminals_set hid fun i vt _ => hm.ids i vt
  · refine forall_terminals_set ?_ fun i vt hne hvt => ?_
    · rw [wroteTo, Function.update_self]
      exact hwrote
    · rw [wroteTo, Function.update_of_ne hne]
      exact hm.terminals i vt hvt
  · rw [List.length_set]
    exact hdrawn

/-- A terminal that changes in its read queue only shows the same. -/
theorem Shown.setReadQueue (hm : Shown hw hh m written) {vt : VirtualTerminal}
    (hvt : m.terminals[id]? = some vt) (readQueue : Tty.State 64) :
    Shown hw hh { m with terminals := m.terminals.set id { vt with readQueue := readQueue } }
      written := by
  refine ⟨?_, ?_, ?_⟩
  · exact forall_terminals_set (hm.ids id vt hvt) fun i vt _ => hm.ids i vt
  · exact forall_terminals_set (hm.terminals id vt hvt) fun i vt _ => hm.terminals i vt
  · dsimp only
    rw [List.length_set]
    exact hm.displays

/-- A list that changes at a place where a function has the same value. -/
theorem map_set_of_eq {α β : Type} {f : α → β} {l : List α} {i : ℕ} {a b : α}
    (hb : l[i]? = some b) (heq : f a = f b) : (l.set i a).map f = l.map f := by
  refine List.ext_getElem? fun j => ?_
  rw [List.getElem?_map, List.getElem?_map, List.getElem?_set]
  split
  · rename_i hij
    subst hij
    obtain ⟨hlt, -⟩ := List.getElem?_eq_some_iff.mp hb
    rw [if_pos hlt, hb, Option.map_some, Option.map_some, heq]
  · rfl

/-- **A switch** of a display draws the terminal that it switches to. -/
theorem Shown.switchDisplay (hm : Shown hw hh m written) (displayId terminalId : ℕ) :
    ∃ b m', m.switchDisplay displayId terminalId = .ok (b, m') ∧ Shown hw hh m' written ∧
      m'.this = m.this ∧ m'.terminals = m.terminals ∧
      m'.displays.map DisplayInfo.keyboard = m.displays.map DisplayInfo.keyboard ∧
      (b = true ↔ displayId < m.displays.length ∧ terminalId < m.terminals.length) := by
  rw [VirtualTerminalManager.switchDisplay]
  by_cases ht : terminalId < m.terminals.length
  · have hvt := List.getElem?_eq_getElem ht
    rw [if_pos ht, VirtualTerminalManager.terminal, hvt, ok_bind]
    by_cases hd : displayId < m.displays.length
    · have hinfo := List.getElem?_eq_getElem hd
      obtain ⟨-, hdrawn⟩ := hm.displays _ (List.getElem_mem hd)
      obtain ⟨display, hredraw, hdisplays⟩ := DisplayInfo.redraw_spec
        { m.displays[displayId] with terminalId := terminalId } hdrawn.cells
        (hm.terminals _ _ hvt)
      refine ⟨true, ⟨m.this, m.terminals,
        m.displays.set displayId ⟨display, m.displays[displayId].keyboard, terminalId⟩⟩, ?_,
        ⟨hm.ids, hm.terminals, fun info hmem => ?_⟩, rfl, rfl, map_set_of_eq hinfo rfl,
        iff_of_true rfl ⟨hd, ht⟩⟩
      · rw [if_pos hd, VirtualTerminalManager.display, hinfo, ok_bind, hredraw, ok_bind]
        rfl
      · rcases List.mem_or_eq_of_mem_set hmem with hmem | rfl
        · exact hm.displays info hmem
        · exact ⟨ht, hdisplays⟩
    · rw [if_neg hd]
      exact ⟨false, m, rfl, hm, rfl, rfl, rfl,
        iff_of_false Bool.false_ne_true fun h => hd h.1⟩
  · rw [if_neg ht]
    exact ⟨false, m, rfl, hm, rfl, rfl, rfl, iff_of_false Bool.false_ne_true fun h => ht h.2⟩

/-- **The manager** that is connected has one terminal, and its display shows it. -/
theorem onConnected_spec (hw : 0 < w) (hh : 0 < h) {b : VgaTextBuffer}
    {cells : Fin h → Fin w → ScreenChar} (hb : Holds b cells) (hwh : w * h < 2 ^ 64) :
    ∃ m vt, (VirtualTerminalManager.new b).onConnected = .ok m ∧ m.this = true ∧
      m.terminals = [vt] ∧ vt.readQueue = .new ∧
      m.displays.map DisplayInfo.keyboard = [false] ∧ Shown hw hh m fun _ => [] := by
  obtain ⟨vt, hnew, hid, hqueue, hwrote⟩ := wrote_new hw hh hwh 0
  obtain ⟨display, hredraw, hdisplays⟩ :=
    DisplayInfo.redraw_spec ⟨b, false, 0⟩ hb hwrote
  refine ⟨⟨true, [vt], [⟨display, false, 0⟩]⟩, vt, ?_, rfl, rfl, hqueue, rfl, ?_, ?_, ?_⟩
  · have hne : (VirtualTerminalManager.new b).displays ≠ [] := List.cons_ne_nil _ _
    rw [VirtualTerminalManager.onConnected, ensure_pos hne, ok_bind]
    change (do
      let vt ← VirtualTerminal.new 0 b.width b.height
      _) = _
    rw [hb.width, hb.height, hnew, ok_bind]
    change (do
      let info ← DisplayInfo.redraw ⟨b, false, 0⟩ vt
      _) = _
    rw [hredraw]
    rfl
  · intro i vt' hvt'
    cases i with
    | zero =>
        obtain rfl := Option.some.inj hvt'
        exact hid
    | succ i => cases hvt'
  · intro i vt' hvt'
    cases i with
    | zero =>
        obtain rfl := Option.some.inj hvt'
        exact hwrote
    | succ i => cases hvt'
  · intro info hinfo
    obtain rfl := List.mem_singleton.mp hinfo
    exact ⟨Nat.zero_lt_one, hdisplays⟩

end HydroxKernel.Console
