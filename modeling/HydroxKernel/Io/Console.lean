import HydroxKernel.Io.VtManager
import HydroxKernel.Lib.Str

/-!
# The Console

The keyboard, the terminals and the displays together. The manager of terminals listens to the
keyboard of a display: it waits for the next key, and a key that arrives is handled in a soft
interrupt, which hands its text to the terminal of the display and listens again. The text of a
key goes to the read queue of the terminal as a whole, or not at all if there is no room for it.

All of this runs on one processor, and every operation holds the locks it needs from its beginning
to its end, so that operations are steps. Between the steps, threads write to terminals and read
from them, and displays are switched.

`presses`, `handled` and `written` are ledgers: the keys that were pressed, each with whether the
keyboard did not lose it, the keys that were handed to the terminal, each with whether there was
room for it, and what was written to the terminals.

## Main results

* `Inv.perform`: what one step preserves.
* `console_displays`: in every reached state, the displays show what was written.
* `console_keys`: in every reached state, the keys arrive at the terminal in order.
-/

namespace HydroxKernel.Console

open HydroxKernel.Keyboard (KeyPress KeyResult KeyFuture Ps2Keyboard ScancodeMap KeycodeMap
  KeyboardLockState SameKeys keptOf)
open HydroxKernel.Vga HydroxKernel.Vt Str

/-- The manager and the keyboard, with the soft interrupts that handle keys, each with its display
and its key. -/
structure System where
  manager : VirtualTerminalManager
  kbd : Ps2Keyboard
  soft : List (ℕ × KeyResult)
  presses : List (KeyPress × Bool)
  handled : List (KeyPress × Bool)
  written : ℕ → List UInt8

/-- `vt::init` with the primary display, and a new keyboard. -/
def System.boot (primaryDisplay : VgaTextBuffer) (scancodeMap : ScancodeMap)
    (keycodeMap : KeycodeMap) : Except Panic System := do
  let manager ← (VirtualTerminalManager.new primaryDisplay).onConnected
  return ⟨manager, ⟨.new scancodeMap keycodeMap, []⟩, [], [], [], fun _ => []⟩

/-! ### Soft interrupts -/

/-- The soft interrupt that a callback of `when_resolved_soft` enqueues. The callback of a display
has its number. -/
def softOf : ℕ × Future.Arg KeyResult → Option (ℕ × KeyResult)
  | (c, .val x) => some (c, x.base)
  | (_, .unit) => none

/-- The soft interrupts that are enqueued by the callbacks that ran. -/
def enqueued (old new : List Keyboard.Block) : List (ℕ × KeyResult) :=
  (old.zip new).flatMap fun p => (p.2.log.drop p.1.log.length).filterMap softOf

/-- `VirtualTerminal::handle_key_pressed`. The result says whether there was room. -/
def VirtualTerminal.handleKeyPressed (vt : VirtualTerminal) (keypress : KeyPress) :
    Except Panic (Bool × VirtualTerminal) :=
  if vt.readQueue.hasRoom (byteLen keypress.str) then do
    let readQueue ← (Tty.perform vt.readQueue (.push (asBytes keypress.str))).mapError .tty
    return (true, { vt with readQueue := readQueue })
  else .ok (false, vt)

namespace System

/-- `listen_for_keypress`: the next key of the keyboard is waited for, with a callback. If there is
one already, its callback runs at once. -/
def listenForKeypress (s : System) (displayId : ℕ) : Except Panic System := do
  let info ← s.manager.display displayId
  if info.keyboard then do
    ensure (s.manager.this = true) .noSelf
    let (future, kbd) ← s.kbd.nextKey.mapError .keyboard
    match future with
    | .done r => return { s with kbd := kbd, soft := s.soft ++ [(displayId, r)] }
    | .handle id h => do
        let (kbd', _) ← (kbd.onBlock id (.whenResolved h displayId)).mapError .keyboard
        return { s with kbd := kbd', soft := s.soft ++ enqueued kbd.blocks kbd'.blocks }
  else return s

/-- `VirtualTerminalManager::handle_key_pressed`. -/
def handleKeyPressed (s : System) (displayId : ℕ) (keypress : KeyPress) : Except Panic System := do
  let info ← s.manager.display displayId
  let vt ← s.manager.terminal info.terminalId
  let (room, vt) ← vt.handleKeyPressed keypress
  let manager := { s.manager with terminals := s.manager.terminals.set info.terminalId vt }
  { s with manager := manager, handled := s.handled ++ [(keypress, room)] }.listenForKeypress
    displayId

/-- `attach_keyboard`. -/
def attachKeyboard (s : System) (displayId : ℕ) : Except Panic System := do
  let info ← s.manager.display displayId
  ensure (info.keyboard = false) .keyboardAttached
  let manager := { s.manager with
    displays := s.manager.displays.set displayId { info with keyboard := true } }
  { s with manager := manager }.listenForKeypress displayId

/-- An interrupt of the keyboard. -/
def interrupt (s : System) (b : Option UInt8) : Except Panic System := do
  let (_, r, kbd) ← (s.kbd.handleInterrupt b).mapError .keyboard
  return { s with
    kbd := kbd
    soft := s.soft ++ enqueued s.kbd.blocks kbd.blocks
    presses := s.presses ++ r.toList }

/-- The first soft interrupt runs, if there is one. -/
def runSoft (s : System) : Except Panic System :=
  match s.soft with
  | [] => .ok s
  | (displayId, .ok keypress) :: soft => { s with soft := soft }.handleKeyPressed displayId keypress
  | (_, .error _) :: _ => .error .unimplemented

end System

/-- The steps of the console. -/
inductive Op
  | attachKeyboard (displayId : ℕ)
  | interrupt (b : Option UInt8)
  | soft
  | write (id : ℕ) (bytes : List UInt8)
  | read (id len : ℕ)
  | switchDisplay (displayId terminalId : ℕ)
  | setLockState (lockState : KeyboardLockState)
  | setKeymap (map : KeycodeMap)

/-- Performs a step. -/
def perform (s : System) : Op → Except Panic System
  | .attachKeyboard displayId => s.attachKeyboard displayId
  | .interrupt b => s.interrupt b
  | .soft => s.runSoft
  | .write id bytes => do
      let manager ← s.manager.write id bytes
      return { s with manager := manager, written := wroteTo s.written id bytes }
  | .read id len => do
      let manager ← s.manager.read id len
      return { s with manager := manager }
  | .switchDisplay displayId terminalId => do
      let (_, manager) ← s.manager.switchDisplay displayId terminalId
      return { s with manager := manager }
  | .setLockState lockState => .ok { s with kbd := s.kbd.setLockState lockState }
  | .setKeymap map => .ok { s with kbd := s.kbd.setKeymap map }

/-- The steps that can be taken: a keyboard is attached to a display that has none, and terminals
are written to and read from that exist, with buffers whose length fits into a `usize`. -/
def Enabled (s : System) : Op → Prop
  | .attachKeyboard displayId =>
      ∃ info, s.manager.displays[displayId]? = some info ∧ info.keyboard = false
  | .write id _ => id < s.manager.terminals.length
  | .read id len => id < s.manager.terminals.length ∧ len < 2 ^ 64
  | _ => True

/-- A step. -/
def Step (s : System) (op : Op) (t : System) : Prop := Enabled s op ∧ perform s op = .ok t

/-! ### Listening to the keyboard -/

/-- The block of a future that has only the callback of a display. -/
def waitingBlock (displayId : ℕ) : Keyboard.Block :=
  ⟨some ⟨1, 1, false, [(displayId, true)], none⟩, true, [], [], 0, 0⟩

/-- A callback is added to a new future. -/
theorem exec_whenResolved (displayId : ℕ) :
    Future.exec true (.newFuture 0 : Keyboard.Block) (.whenResolved 0 displayId) =
      .ok (waitingBlock displayId, .none) := rfl

/-- A key resolves the future and runs the callback. -/
theorem exec_finish_waiting (displayId : ℕ) (r : KeyResult) :
    ∃ block, Future.exec true (waitingBlock displayId) (.finish r) = .ok (block, .none) ∧
      block.log = [(displayId, .val (.orig r))] := ⟨_, rfl, rfl⟩

/-- No callback runs while no block changes. -/
theorem enqueued_self (blocks : List Keyboard.Block) : enqueued blocks blocks = [] := by
  rw [enqueued]
  induction blocks with
  | nil => rfl
  | cons block blocks ih =>
      rw [List.zip_cons_cons, List.flatMap_cons, ih, List.drop_length]
      rfl

/-- The callbacks of one block. -/
theorem enqueued_set {blocks : List Keyboard.Block} {id : ℕ} {block : Keyboard.Block}
    (hblock : blocks[id]? = some block) (block' : Keyboard.Block) :
    enqueued blocks (blocks.set id block') =
      (block'.log.drop block.log.length).filterMap softOf := by
  induction blocks generalizing id with
  | nil => cases hblock
  | cons b blocks ih =>
      have hrest := enqueued_self blocks
      rw [enqueued] at hrest ⊢
      cases id with
      | zero =>
          obtain rfl := Option.some.inj hblock
          rw [List.set_cons_zero, List.zip_cons_cons, List.flatMap_cons, hrest, List.append_nil]
      | succ id =>
          have hid := @ih id hblock
          rw [enqueued] at hid
          rw [List.set_cons_succ, List.zip_cons_cons, List.flatMap_cons, hid, List.drop_length]
          rfl

/-- Whether the manager listens to the keyboard, and the soft interrupts. While a key is not
handled yet, nobody waits for the next one, and otherwise there is no key that is buffered. -/
inductive Listens (k : Ps2Keyboard) (buf : List KeyPress) : Bool → List (ℕ × KeyResult) → Prop
  | detached (hnone : k.internal.inputFuture = none) : Listens k buf false []
  | handling (hnone : k.internal.inputFuture = none) (keypress : KeyPress) :
      Listens k buf true [(0, .ok keypress)]
  | waiting {id : ℕ} (hsome : k.internal.inputFuture = some id)
      (hblock : k.blocks[id]? = some (waitingBlock 0)) (hempty : buf = []) : Listens k buf true []

variable {k k' : Ps2Keyboard} {buf : List KeyPress} {attached : Bool} {soft : List (ℕ × KeyResult)}

/-- Only the futures and the blocks matter. -/
theorem Listens.congr (h : Listens k buf attached soft) (hsame : SameKeys k k') :
    Listens k' buf attached soft := by
  cases h with
  | detached hnone => exact .detached (hsame.inputFuture.trans hnone)
  | handling hnone keypress => exact .handling (hsame.inputFuture.trans hnone) keypress
  | waiting hsome hblock hempty =>
      exact .waiting (hsame.inputFuture.trans hsome) (by rw [hsame.blocks, hblock]) hempty

/-- **A key press** is handed over to the soft interrupt, or goes to the ring buffer. It is lost if
nobody waits for it and the ring buffer is full. -/
theorem Listens.deliver (h : Listens k buf attached soft)
    (hdeque : k.internal.inputBuf.Represents buf) (keypress : KeyPress) :
    ∃ kept k' buf', k.deliver keypress = .ok (kept, k') ∧
      k'.internal.inputBuf.Represents buf' ∧
      Listens k' buf' attached (soft ++ enqueued k.blocks k'.blocks) ∧
      (soft ++ enqueued k.blocks k'.blocks).map Prod.snd ++ buf'.map .ok =
        soft.map Prod.snd ++ buf.map .ok ++ (if kept then [.ok keypress] else []) ∧
      (kept = false ↔ k.internal.inputFuture = none ∧ buf.length = 16) := by
  by_cases hnone : k.internal.inputFuture = none
  · have hlistens : ∀ d buf', Listens { k with internal := { k.internal with inputBuf := d } } buf'
        attached (soft ++ enqueued k.blocks k.blocks) := by
      intro d buf'
      rw [enqueued_self, List.append_nil]
      cases h with
      | detached hnone => exact .detached hnone
      | handling hnone keypress =>
          refine .handling ?_ keypress
          exact hnone
      | waiting hsome hblock hempty =>
          rw [hnone] at hsome
          cases hsome
    rw [Ps2Keyboard.deliver]
    rw [hnone]
    dsimp only
    rcases Nat.lt_or_ge buf.length 16 with hroom | hfull
    · obtain ⟨d, hd, hrep⟩ := hdeque.pushBack hroom keypress
      rw [hd]
      refine ⟨true, _, buf ++ [keypress], rfl, hrep, hlistens d _, ?_, ?_⟩
      · rw [enqueued_self, List.append_nil, List.map_append, ← List.append_assoc]
        rfl
      · exact iff_of_false (by simp) fun h => Nat.ne_of_lt hroom h.2
    · have hlength : buf.length = 16 := Nat.le_antisymm hdeque.le hfull
      rw [hdeque.pushBack_full hlength]
      refine ⟨false, _, buf, rfl, hdeque, hlistens _ _, ?_, iff_of_true rfl ⟨rfl, hlength⟩⟩
      rw [enqueued_self, List.append_nil]
      exact (List.append_nil _).symm
  · cases h with
    | detached hnone' => exact absurd hnone' hnone
    | handling hnone' keypress => exact absurd hnone' hnone
    | @waiting id hsome hblock hempty =>
        subst hempty
        obtain ⟨block, hexec, hlog⟩ := exec_finish_waiting 0 (.ok keypress)
        have henqueued : enqueued k.blocks (k.blocks.set id block) = [(0, .ok keypress)] := by
          rw [enqueued_set hblock, hlog]
          rfl
        unfold Ps2Keyboard.deliver Ps2Keyboard.onBlock
        rw [hsome]
        dsimp only
        rw [hblock]
        dsimp only
        rw [hexec]
        refine ⟨true, ⟨{ k.internal with inputFuture := none }, k.blocks.set id block⟩, [], rfl,
          hdeque, ?_, ?_, ?_⟩
        · rw [henqueued]
          exact .handling rfl keypress
        · rw [henqueued]
          rfl
        · exact iff_of_false (by simp) fun h => by simp at h

/-- The keyboard after the manager has begun to listen: only the keys to hand over and the futures
have changed. -/
def SameInternal (k k' : Ps2Keyboard) : Prop :=
  k'.internal = { k.internal with
    inputBuf := k'.internal.inputBuf, inputFuture := k'.internal.inputFuture }

/-- **Listening** waits for the next key, or enqueues the soft interrupt of the one that is there
already. -/
theorem listenForKeypress_spec {s : System} {info : DisplayInfo}
    (hinfo : s.manager.displays[0]? = some info) (hkeyboard : info.keyboard = true)
    (hthis : s.manager.this = true) (hnone : s.kbd.internal.inputFuture = none)
    (hsoft : s.soft = []) (hdeque : s.kbd.internal.inputBuf.Represents buf) :
    ∃ kbd soft buf', s.listenForKeypress 0 = .ok { s with kbd := kbd, soft := soft } ∧
      SameInternal s.kbd kbd ∧ kbd.internal.inputBuf.Represents buf' ∧
      Listens kbd buf' true soft ∧ soft.map Prod.snd ++ buf'.map .ok = buf.map .ok := by
  rw [System.listenForKeypress, VirtualTerminalManager.display, hinfo, ok_bind, if_pos hkeyboard,
    ensure_pos hthis, ok_bind, hsoft, Ps2Keyboard.nextKey]
  cases buf with
  | nil =>
      have hlast : (s.kbd.blocks ++ [Future.State.newFuture 0])[s.kbd.blocks.length]? =
          some (.newFuture 0 : Keyboard.Block) := List.getElem?_concat_length
      have hset : (s.kbd.blocks ++ [Future.State.newFuture 0]).set s.kbd.blocks.length
          (waitingBlock 0) = s.kbd.blocks ++ [waitingBlock 0] := by
        rw [List.set_append_right _ _ (Nat.le_refl _), Nat.sub_self]
        rfl
      have hexec := exec_whenResolved 0
      have henqueued := enqueued_set hlast (waitingBlock 0)
      rw [hset] at henqueued
      rw [hdeque.popFront_nil]
      refine ⟨⟨{ s.kbd.internal with inputFuture := some s.kbd.blocks.length },
        s.kbd.blocks ++ [waitingBlock 0]⟩, [], [], ?_, rfl, hdeque,
        .waiting rfl List.getElem?_concat_length rfl, rfl⟩
      simp only [Keyboard.liftPanic, ok_bind, hnone, pure, Except.pure, Except.mapError,
        Ps2Keyboard.onBlock, hlast, hexec, hset, henqueued]
      rfl
  | cons keypress buf =>
      obtain ⟨d, hd, hrep⟩ := hdeque.popFront_cons
      rw [hd]
      refine ⟨⟨{ s.kbd.internal with inputBuf := d }, s.kbd.blocks⟩, [(0, .ok keypress)], buf, rfl,
        rfl, hrep, .handling ?_ keypress, rfl⟩
      exact hnone

/-! ### The invariant -/

/-- The text that entered the read queue of the terminal. -/
def entered (handled : List (KeyPress × Bool)) : List UInt8 :=
  (handled.filter (·.2)).flatMap fun p => asBytes p.1.str

variable {w h : ℕ} {hw : 0 < w} {hh : 0 < h} {s : System} {unread : List UInt8}
  {vt : VirtualTerminal}

/-- The invariant: there is one terminal and one display, the terminal and the display show what
was written, and the keys that the keyboard did not lose are handled, about to be handled or
buffered, in order. -/
structure Inv (hw : 0 < w) (hh : 0 < h) (s : System) (attached : Bool) (vt : VirtualTerminal)
    (buf : List KeyPress) (unread : List UInt8) : Prop where
  shown : Shown hw hh s.manager s.written
  this : s.manager.this = true
  terminals : s.manager.terminals = [vt]
  keyboards : s.manager.displays.map DisplayInfo.keyboard = [attached]
  tty : Tty.Inv vt.readQueue unread
  accepted : vt.readQueue.accepted = true
  pushed : vt.readQueue.pushed = entered s.handled
  deque : s.kbd.internal.inputBuf.Represents buf
  framed : s.kbd.internal.scancodeBuf.Framed
  listens : Listens s.kbd buf attached s.soft
  order : s.handled.map (fun p => Except.ok p.1) ++ (s.soft.map Prod.snd ++ buf.map .ok) =
    (keptOf s.presses).map .ok

/-- The display of the console. -/
theorem Inv.display (hs : Inv hw hh s attached vt buf unread) :
    ∃ info, s.manager.displays = [info] ∧ info.keyboard = attached ∧ info.terminalId = 0 := by
  obtain ⟨info, hinfo, hkeyboard⟩ := List.map_eq_singleton_iff.mp hs.keyboards
  have hlt := (hs.shown.displays info (by rw [hinfo]; exact List.mem_singleton_self info)).1
  rw [hs.terminals] at hlt
  exact ⟨info, hinfo, hkeyboard, Nat.lt_one_iff.mp hlt⟩

/-- The only terminal has the number 0. -/
theorem Inv.terminal_eq (hs : Inv hw hh s attached vt buf unread) {id : ℕ}
    (hid : id < s.manager.terminals.length) : id = 0 ∧ s.manager.terminals[id]? = some vt := by
  rw [hs.terminals] at hid ⊢
  obtain rfl : id = 0 := Nat.lt_one_iff.mp hid
  exact ⟨rfl, rfl⟩

/-! ### Steps -/

/-- The length of a string is that of its bytes. -/
theorem length_asBytes (str : List Char) : (asBytes str).length = byteLen str := by
  induction str with
  | nil => rfl
  | cons c str ih =>
      rw [asBytes_cons, List.length_append, String.length_utf8EncodeChar, ih, byteLen_cons]

/-- **A keypress** enters the read queue of the terminal as a whole, if there is room. -/
theorem handleKeyPressed_spec (htty : Tty.Inv vt.readQueue unread)
    (haccepted : vt.readQueue.accepted = true) (keypress : KeyPress) :
    ∃ room vt' unread', vt.handleKeyPressed keypress = .ok (room, vt') ∧
      vt' = { vt with readQueue := vt'.readQueue } ∧ Tty.Inv vt'.readQueue unread' ∧
      vt'.readQueue.accepted = true ∧
      vt'.readQueue.pushed =
        vt.readQueue.pushed ++ (if room then asBytes keypress.str else []) ∧
      unread'.length ≤ unread.length + (asBytes keypress.str).length ∧
      (room = true ↔ (asBytes keypress.str).length < 64 ∧
        (asBytes keypress.str).length ≤ 64 - unread.length) := by
  have hroom : vt.readQueue.hasRoom (asBytes keypress.str).length = true ↔
      (asBytes keypress.str).length < 64 ∧ (asBytes keypress.str).length ≤ 64 - unread.length := by
    rw [Tty.State.hasRoom, htty.buf.len, Bool.and_eq_true, decide_eq_true_eq, decide_eq_true_eq]
  rw [VirtualTerminal.handleKeyPressed, ← length_asBytes]
  by_cases hfits : vt.readQueue.hasRoom (asBytes keypress.str).length = true
  · obtain ⟨all, q, unread', hpush, hp⟩ := Tty.pushBytes_spec htty (asBytes keypress.str)
    obtain rfl := hp.all_of_hasRoom htty.buf hfits
    have hperform : Tty.perform vt.readQueue (.push (asBytes keypress.str)) =
        .ok { q with
          pushed := q.pushed ++ asBytes keypress.str
          accepted := q.accepted && true } := by
      rw [Tty.perform, hpush]
      rfl
    obtain ⟨unread'', hinv⟩ := htty.step ⟨fun len h => (by cases h), hperform⟩
    rw [if_pos hfits, hperform]
    refine ⟨true, _, unread'', rfl, rfl, hinv, ?_, ?_, ?_, iff_of_true rfl (hroom.mp hfits)⟩
    · exact (Bool.and_true _).trans (hp.accepted.trans haccepted)
    · exact congrArg (· ++ asBytes keypress.str) hp.pushed
    · exact Tty.pushLoop_length htty.served htty.buf hpush hinv.buf
  · rw [if_neg hfits]
    refine ⟨false, vt, unread, rfl, rfl, htty, haccepted, ?_, Nat.le_add_right _ _, ?_⟩
    · exact (List.append_nil _).symm
    · exact iff_of_false Bool.false_ne_true fun h => hfits (hroom.mpr h)

/-- A keyboard is attached. -/
theorem Inv.attachKeyboard (hs : Inv hw hh s attached vt buf unread) {displayId : ℕ}
    (henabled : Enabled s (.attachKeyboard displayId)) :
    ∃ t buf', s.attachKeyboard displayId = .ok t ∧ Inv hw hh t true vt buf' unread ∧
      t.presses = s.presses ∧ t.handled = s.handled := by
  obtain ⟨info, hinfo, hfree⟩ := henabled
  obtain ⟨info', hdisplays, hkeyboard, -⟩ := hs.display
  obtain ⟨rfl, rfl⟩ : displayId = 0 ∧ info' = info := by
    rw [hdisplays] at hinfo
    obtain ⟨hlt, hget⟩ := List.getElem?_eq_some_iff.mp hinfo
    obtain rfl : displayId = 0 := Nat.lt_one_iff.mp hlt
    exact ⟨rfl, hget⟩
  obtain rfl : attached = false := hkeyboard.symm.trans hfree
  have hnone : s.kbd.internal.inputFuture = none ∧ s.soft = [] := by
    generalize hsoft : s.soft = soft
    have hlistens := hs.listens
    rw [hsoft] at hlistens
    cases hlistens with
    | detached hnone => exact ⟨hnone, rfl⟩
  have hset : (s.manager.displays.set 0 { info' with keyboard := true })[0]? =
      some { info' with keyboard := true } := by
    rw [hdisplays]
    rfl
  obtain ⟨kbd, soft, buf', hlisten, hsame, hdeque, hlistens, horder⟩ := listenForKeypress_spec
    (s := { s with manager := { s.manager with
      displays := s.manager.displays.set 0 { info' with keyboard := true } } })
    hset rfl hs.this hnone.1 hnone.2 hs.deque
  refine ⟨{ s with
      manager := { s.manager with
        displays := s.manager.displays.set 0 { info' with keyboard := true } }
      kbd := kbd
      soft := soft }, buf', ?_, ⟨⟨hs.shown.ids, hs.shown.terminals, ?_⟩, hs.this, hs.terminals, ?_,
    hs.tty, hs.accepted, hs.pushed, hdeque, ?_, hlistens, ?_⟩, rfl, rfl⟩
  · rw [System.attachKeyboard, VirtualTerminalManager.display, hinfo, ok_bind, ensure_pos hfree,
      ok_bind]
    exact hlisten
  · dsimp only
    rw [hdisplays]
    intro info hmem
    obtain rfl := List.mem_singleton.mp hmem
    exact hs.shown.displays info' (by rw [hdisplays]; exact List.mem_singleton_self _)
  · dsimp only
    rw [hdisplays]
    rfl
  · rw [hsame]
    exact hs.framed
  · have hbefore := hs.order
    rw [hnone.2] at hbefore
    dsimp only
    rw [horder]
    exact hbefore

/-- A key press that is recorded: with the locks and the modifiers from before, and as lost exactly
if nobody waits for a key and 16 are buffered. -/
def Recorded (s t : System) (key : Keyboard.Keycode) : Prop :=
  ∃ kept, t.presses = s.presses ++ [(s.kbd.internal.keyPress key, kept)] ∧
    (kept = false ↔ s.kbd.internal.inputFuture = none ∧
      s.kbd.internal.inputBuf.toList.length = 16)

/-- **An interrupt** hands a key press over, if it ends the scancode of a key that is pressed. -/
theorem Inv.interrupt (hs : Inv hw hh s attached vt buf unread) (b : Option UInt8) :
    ∃ t buf', s.interrupt b = .ok t ∧ Inv hw hh t attached vt buf' unread ∧
      (t.presses = s.presses ∨ ∃ key, Recorded s t key) ∧ t.handled = s.handled := by
  obtain ⟨scancode, r, kbd, hinterrupt, hcases, hframed⟩ := Keyboard.handleInterrupt_cases
    hs.framed (fun k₁ hsame keypress => by
      obtain ⟨kept, k₂, -, hdeliver, -⟩ := (hs.listens.congr hsame).deliver
        (by rw [hsame.inputBuf]; exact hs.deque) keypress
      exact ⟨kept, k₂, hdeliver⟩) b
  have hperform : s.interrupt b = .ok { s with
      kbd := kbd
      soft := s.soft ++ enqueued s.kbd.blocks kbd.blocks
      presses := s.presses ++ r.toList } := by
    rw [System.interrupt, hinterrupt]
    rfl
  cases hcases with
  | quiet hsame =>
      refine ⟨_, buf, hperform, ⟨hs.shown, hs.this, hs.terminals, hs.keyboards, hs.tty,
        hs.accepted, hs.pushed, ?_, hframed, ?_, ?_⟩, .inl (List.append_nil _), rfl⟩
      · dsimp only
        rw [hsame.inputBuf]
        exact hs.deque
      · dsimp only
        rw [hsame.blocks, enqueued_self, List.append_nil]
        exact hs.listens.congr hsame
      · dsimp only
        rw [hsame.blocks, enqueued_self, List.append_nil, Option.toList_none, List.append_nil]
        exact hs.order
  | @pressed k₁ k₂ _ kept key hsame hdeliver hsame' =>
      obtain ⟨kept', k₂', buf', hdeliver', hdeque, hlistens, horder, hlost⟩ :=
        (hs.listens.congr hsame).deliver (by rw [hsame.inputBuf]; exact hs.deque)
          (s.kbd.internal.keyPress key)
      obtain ⟨rfl, rfl⟩ := Prod.mk.inj (Except.ok.inj (hdeliver'.symm.trans hdeliver))
      rw [hsame.blocks, ← hsame'.blocks] at hlistens horder
      refine ⟨_, buf', hperform, ⟨hs.shown, hs.this, hs.terminals, hs.keyboards, hs.tty,
        hs.accepted, hs.pushed, ?_, hframed, ?_, ?_⟩, .inr ⟨key, kept', rfl, ?_⟩, rfl⟩
      · dsimp only
        rw [hsame'.inputBuf]
        exact hdeque
      · exact hlistens.congr hsame'
      · dsimp only
        rw [horder, ← List.append_assoc, hs.order, Keyboard.keptOf_append, List.map_append]
        cases kept' <;> rfl
      · rw [hlost, hsame.inputFuture, hs.deque.toList_eq]

/-- The terminal of the list, with another read queue. -/
theorem set_terminal {ts : List VirtualTerminal} (hts : ts = [vt]) (vt' : VirtualTerminal) :
    ts.set 0 vt' = [vt'] := by
  rw [hts]
  rfl

/-- What the first soft interrupt does: its key is handled, with whether there is room for its
text. -/
def HandledFirst (s t : System) (unread : List UInt8) : Prop :=
  ∀ displayId keypress soft, s.soft = (displayId, .ok keypress) :: soft →
    ∃ room, t.handled = s.handled ++ [(keypress, room)] ∧
      (room = true ↔ (asBytes keypress.str).length < 64 ∧
        (asBytes keypress.str).length ≤ 64 - unread.length)

/-- **A soft interrupt** handles its key and listens to the next one. -/
theorem Inv.runSoft (hs : Inv hw hh s attached vt buf unread) :
    ∃ t vt' buf' unread', s.runSoft = .ok t ∧ Inv hw hh t attached vt' buf' unread' ∧
      SameInternal s.kbd t.kbd ∧
      (∀ displayId keypress soft, s.soft = (displayId, .ok keypress) :: soft →
        unread'.length ≤ unread.length + (asBytes keypress.str).length) ∧
      t.presses = s.presses ∧ HandledFirst s t unread := by
  generalize hsoft : s.soft = soft
  have hlistens := hs.listens
  have hbefore := hs.order
  rw [hsoft] at hlistens hbefore
  cases hlistens with
  | detached hnone =>
      refine ⟨s, vt, buf, unread, by rw [System.runSoft, hsoft], hs, rfl,
        fun displayId keypress soft h => (by cases h), rfl, ?_⟩
      intro displayId keypress soft h
      rw [hsoft] at h
      cases h
  | waiting hsome hblock hempty =>
      refine ⟨s, vt, buf, unread, by rw [System.runSoft, hsoft], hs, rfl,
        fun displayId keypress soft h => (by cases h), rfl, ?_⟩
      intro displayId keypress soft h
      rw [hsoft] at h
      cases h
  | handling hnone keypress =>
      obtain ⟨room, vt', unread', hhandle, hvt', htty, haccepted, hpushed, hlength, hroom⟩ :=
        handleKeyPressed_spec hs.tty hs.accepted keypress
      obtain ⟨info, hdisplays, hkeyboard, hterminal⟩ := hs.display
      have hvt : s.manager.terminals[0]? = some vt := by
        rw [hs.terminals]
        rfl
      have hinfo : s.manager.displays[0]? = some info := by
        rw [hdisplays]
        rfl
      obtain ⟨kbd, soft, buf', hlisten, hsame, hdeque, hlistens, horder⟩ := listenForKeypress_spec
        (s := { s with
          soft := []
          manager := { s.manager with terminals := s.manager.terminals.set 0 vt' }
          handled := s.handled ++ [(keypress, room)] }) hinfo hkeyboard hs.this hnone rfl hs.deque
      have hshown := hs.shown.setReadQueue hvt vt'.readQueue
      rw [← hvt'] at hshown
      refine ⟨{ s with
          manager := { s.manager with terminals := s.manager.terminals.set 0 vt' }
          kbd := kbd
          soft := soft
          handled := s.handled ++ [(keypress, room)] }, vt', buf', unread', ?_,
        ⟨hshown, hs.this, set_terminal hs.terminals vt', hs.keyboards, htty, haccepted, ?_, hdeque,
          ?_, hlistens, ?_⟩, hsame, ?_, rfl, ?_⟩
      · rw [System.runSoft, hsoft]
        dsimp only
        rw [System.handleKeyPressed, VirtualTerminalManager.display, hinfo, ok_bind, hterminal,
          VirtualTerminalManager.terminal, hvt, ok_bind, hhandle, ok_bind]
        exact hlisten
      · rw [hpushed, hs.pushed]
        dsimp only [entered]
        rw [List.filter_append, List.flatMap_append]
        cases room with
        | false => rfl
        | true => exact congrArg (_ ++ ·) (List.append_nil _).symm
      · rw [hsame]
        exact hs.framed
      · dsimp only
        rw [horder, List.map_append, List.append_assoc]
        exact hbefore
      · intro displayId keypress' soft' h
        obtain ⟨heq, -⟩ := List.cons.inj h
        obtain ⟨-, heq⟩ := Prod.mk.inj heq
        obtain rfl := Except.ok.inj heq
        exact hlength
      · intro displayId keypress' soft' h
        rw [hsoft] at h
        obtain ⟨heq, -⟩ := List.cons.inj h
        obtain ⟨-, heq⟩ := Prod.mk.inj heq
        obtain rfl := Except.ok.inj heq
        exact ⟨room, rfl, hroom⟩

/-- A write draws the display. -/
theorem Inv.write (hs : Inv hw hh s attached vt buf unread) {id : ℕ}
    (hid : id < s.manager.terminals.length) (bytes : List UInt8) :
    ∃ t vt', perform s (.write id bytes) = .ok t ∧ Inv hw hh t attached vt' buf unread ∧
      t.presses = s.presses ∧ t.handled = s.handled := by
  obtain ⟨rfl, hvt⟩ := hs.terminal_eq hid
  obtain ⟨m, internals, hwrite, hshown, hthis, hterminals, hkeyboards⟩ := hs.shown.write hvt bytes
  refine ⟨{ s with manager := m, written := wroteTo s.written 0 bytes },
    { vt with internals := internals }, ?_, ⟨hshown, hthis.trans hs.this, ?_,
    hkeyboards.trans hs.keyboards, hs.tty, hs.accepted, hs.pushed, hs.deque, hs.framed, hs.listens,
    hs.order⟩, rfl, rfl⟩
  · rw [perform, hwrite]
    rfl
  · rw [hterminals]
    exact set_terminal hs.terminals _

/-- A read takes bytes from the read queue. -/
theorem Inv.read (hs : Inv hw hh s attached vt buf unread) {id len : ℕ}
    (hid : id < s.manager.terminals.length) (hlen : len < 2 ^ 64) :
    ∃ t vt' unread', perform s (.read id len) = .ok t ∧ Inv hw hh t attached vt' buf unread' ∧
      t.presses = s.presses ∧ t.handled = s.handled := by
  obtain ⟨rfl, hvt⟩ := hs.terminal_eq hid
  obtain ⟨q, unread', hread, hinv⟩ := Tty.read_spec hs.tty hlen
  obtain ⟨hpushed, haccepted⟩ := Tty.read_ledgers hread
  refine ⟨{ s with manager := { s.manager with
      terminals := s.manager.terminals.set 0 { vt with readQueue := q } } },
    { vt with readQueue := q }, unread', ?_, ⟨hs.shown.setReadQueue hvt q, hs.this,
    set_terminal hs.terminals _, hs.keyboards, hinv, haccepted.trans hs.accepted,
    hpushed.trans hs.pushed, hs.deque, hs.framed, hs.listens, hs.order⟩, rfl, rfl⟩
  rw [perform, VirtualTerminalManager.read, VirtualTerminalManager.terminal, hvt, ok_bind,
    Tty.perform, hread]
  rfl

/-- A switch of the display draws the terminal. -/
theorem Inv.switchDisplay (hs : Inv hw hh s attached vt buf unread) (displayId terminalId : ℕ) :
    ∃ t, perform s (.switchDisplay displayId terminalId) = .ok t ∧
      Inv hw hh t attached vt buf unread ∧ t.presses = s.presses ∧ t.handled = s.handled := by
  obtain ⟨b, m, hswitch, hshown, hthis, hterminals, hkeyboards, -⟩ :=
    hs.shown.switchDisplay displayId terminalId
  refine ⟨{ s with manager := m }, ?_, ⟨hshown, hthis.trans hs.this,
    hterminals.trans hs.terminals, hkeyboards.trans hs.keyboards, hs.tty, hs.accepted, hs.pushed,
    hs.deque, hs.framed, hs.listens, hs.order⟩, rfl, rfl⟩
  rw [perform, hswitch]
  rfl

/-- Settings of the keyboard do not matter for the keys that are on their way. -/
theorem Inv.setKbd (hs : Inv hw hh s attached vt buf unread) {kbd : Ps2Keyboard}
    (hsame : SameKeys s.kbd kbd) (hframed : kbd.internal.scancodeBuf.Framed) :
    Inv hw hh { s with kbd := kbd } attached vt buf unread := by
  refine ⟨hs.shown, hs.this, hs.terminals, hs.keyboards, hs.tty, hs.accepted, hs.pushed, ?_,
    hframed, hs.listens.congr hsame, hs.order⟩
  rw [hsame.inputBuf]
  exact hs.deque

/-- The bytes that the terminals have and that were not read yet. -/
def System.readable (s : System) : List UInt8 :=
  s.manager.terminals.flatMap fun vt => vt.readQueue.queue.buf.toList

/-- The bytes that were given to readers of the terminals. -/
def System.delivered (s : System) : List UInt8 :=
  s.manager.terminals.flatMap fun vt => vt.readQueue.written

/-- What a step adds to the ledgers of keys. -/
def StepOk (s t : System) : Op → Prop
  | .interrupt _ => (t.presses = s.presses ∨ ∃ key, Recorded s t key) ∧ t.handled = s.handled
  | .soft => t.presses = s.presses ∧ HandledFirst s t s.readable
  | _ => t.presses = s.presses ∧ t.handled = s.handled

/-- The bytes that were not read yet are in the ring buffer of the terminal. -/
theorem Inv.readable_eq (hs : Inv hw hh s attached vt buf unread) : s.readable = unread := by
  rw [System.readable, hs.terminals, List.flatMap_singleton, hs.tty.buf.toList_eq]

/-- **A step** keeps the invariant, and does not panic. -/
theorem Inv.perform (hs : Inv hw hh s attached vt buf unread) {op : Op} (henabled : Enabled s op) :
    ∃ t attached' vt' buf' unread', Console.perform s op = .ok t ∧
      Inv hw hh t attached' vt' buf' unread' ∧ StepOk s t op := by
  cases op with
  | attachKeyboard displayId =>
      obtain ⟨t, buf', hperform, hinv, hledgers⟩ := hs.attachKeyboard henabled
      exact ⟨t, true, vt, buf', unread, hperform, hinv, hledgers⟩
  | interrupt b =>
      obtain ⟨t, buf', hperform, hinv, hledgers⟩ := hs.interrupt b
      exact ⟨t, attached, vt, buf', unread, hperform, hinv, hledgers⟩
  | soft =>
      obtain ⟨t, vt', buf', unread', hperform, hinv, -, -, hledgers⟩ := hs.runSoft
      refine ⟨t, attached, vt', buf', unread', hperform, hinv, ?_⟩
      rw [StepOk, hs.readable_eq]
      exact hledgers
  | write id bytes =>
      obtain ⟨t, vt', hperform, hinv, hledgers⟩ := hs.write henabled bytes
      exact ⟨t, attached, vt', buf, unread, hperform, hinv, hledgers⟩
  | read id len =>
      obtain ⟨t, vt', unread', hperform, hinv, hledgers⟩ := hs.read henabled.1 henabled.2
      exact ⟨t, attached, vt', buf, unread', hperform, hinv, hledgers⟩
  | switchDisplay displayId terminalId =>
      obtain ⟨t, hperform, hinv, hledgers⟩ := hs.switchDisplay displayId terminalId
      exact ⟨t, attached, vt, buf, unread, hperform, hinv, hledgers⟩
  | setLockState lockState =>
      exact ⟨_, attached, vt, buf, unread, rfl, hs.setKbd ⟨rfl, rfl, rfl⟩ hs.framed,
        rfl, rfl⟩
  | setKeymap map =>
      exact ⟨_, attached, vt, buf, unread, rfl, hs.setKbd ⟨rfl, rfl, rfl⟩ hs.framed,
        rfl, rfl⟩

/-- The state has the invariant. -/
def Good (hw : 0 < w) (hh : 0 < h) (s : System) : Prop :=
  ∃ attached vt buf unread, Inv hw hh s attached vt buf unread

/-- The console is booted. -/
theorem good_boot (hw : 0 < w) (hh : 0 < h) {b : VgaTextBuffer}
    {cells : Fin h → Fin w → ScreenChar} (hb : Vga.Holds b cells) (hwh : w * h < 2 ^ 64)
    (scancodeMap : ScancodeMap) (keycodeMap : KeycodeMap) :
    ∃ s, System.boot b scancodeMap keycodeMap = .ok s ∧ Good hw hh s := by
  obtain ⟨m, vt, hconnected, hthis, hterminals, hqueue, hkeyboards, hshown⟩ :=
    onConnected_spec hw hh hb hwh
  have hframed : Keyboard.ScancodeBuffer.new.Framed :=
    Keyboard.ScancodeBuffer.framed_of_pos rfl rfl
  refine ⟨⟨m, ⟨.new scancodeMap keycodeMap, []⟩, [], [], [], fun _ => []⟩, ?_, false, vt, [], [],
    hshown, hthis, hterminals, hkeyboards, ?_, ?_, ?_, ArrayDeque.represents_new, hframed,
    .detached rfl, rfl⟩
  · rw [System.boot, hconnected]
    rfl
  · rw [hqueue]
    exact Tty.inv_new
  · rw [hqueue]
    rfl
  · rw [hqueue]
    rfl

/-- Every reached state has the invariant. -/
theorem Good.runs (hs : Good hw hh s) {ops : List Op} {t : System} (h : Runs Step s ops t) :
    Good hw hh t := by
  refine h.invariant hs ?_
  rintro s op t ⟨attached, vt, buf, unread, hinv⟩ ⟨henabled, hperform⟩
  obtain ⟨t', attached', vt', buf', unread', hperform', hinv', -⟩ := hinv.perform henabled
  obtain rfl := Except.ok.inj (hperform'.symm.trans hperform)
  exact ⟨attached', vt', buf', unread', hinv'⟩

/-- The displays show what was written, and no step panics. -/
structure DisplaysShown (hw : 0 < w) (hh : 0 < h) (s : System) : Prop where
  returns : ∀ op, Enabled s op → ∃ t, perform s op = .ok t
  displays : ∀ info ∈ s.manager.displays, info.terminalId < s.manager.terminals.length ∧
    Displays info.display (screen hw hh (s.written info.terminalId))

/-- **What was written is on the display**: in every state that the console reaches, whatever is
written, read, typed and switched, nothing panics, and every display holds the cells and has the
cursor of the grid that the bytes lead to that were written to its terminal, where erasing is
that of `Grid.vtAct`. -/
theorem console_displays {b : VgaTextBuffer} (hb : b.buf.length = b.width * b.height)
    (hw : 0 < b.width) (hh : 0 < b.height) (hwh : b.width * b.height < 2 ^ 64)
    (scancodeMap : ScancodeMap) (keycodeMap : KeycodeMap) :
    ∃ s₀, System.boot b scancodeMap keycodeMap = .ok s₀ ∧
      ∀ ops s, Runs Step s₀ ops s → DisplaysShown hw hh s := by
  obtain ⟨cells, hcells⟩ := exists_holds hb
  obtain ⟨s₀, hboot, hgood⟩ := good_boot hw hh hcells hwh scancodeMap keycodeMap
  refine ⟨s₀, hboot, fun ops s hruns => ?_⟩
  obtain ⟨attached, vt, buf, unread, hinv⟩ := hgood.runs hruns
  refine ⟨fun op henabled => ?_, hinv.shown.displays⟩
  obtain ⟨t, -, -, -, -, hperform, -⟩ := hinv.perform henabled
  exact ⟨t, hperform⟩

/-- What holds of the keys in a state. -/
structure KeysHandled (s : System) : Prop where
  /-- The keys that were not lost are handled, about to be handled, or buffered, in order. -/
  order : s.handled.map (fun p => Except.ok p.1) ++ (s.soft.map Prod.snd ++
    s.kbd.internal.inputBuf.toList.map .ok) = (keptOf s.presses).map .ok
  /-- What readers got and can still get are the texts of the keys for which there was room. -/
  stream : s.delivered ++ s.readable = entered s.handled
  /-- At most one key is about to be handled. If none is, none is buffered, and the next one is
  waited for. -/
  awake : (∃ info ∈ s.manager.displays, info.keyboard = true) →
    s.soft.length = 1 ∨ s.soft = [] ∧ s.kbd.internal.inputBuf.toList = [] ∧
      s.kbd.internal.inputFuture ≠ none
  /-- What a step adds to the keys that are pressed and handled. -/
  steps : ∀ op t, Step s op t → StepOk s t op

/-- **The invariant** gives what holds of the keys. -/
theorem Inv.keysHandled (hs : Inv hw hh s attached vt buf unread) : KeysHandled s := by
  constructor
  case order =>
    rw [hs.deque.toList_eq]
    exact hs.order
  case stream =>
    rw [hs.readable_eq, System.delivered, hs.terminals, List.flatMap_singleton,
      hs.tty.stream hs.accepted, hs.pushed]
  case awake =>
    rintro ⟨info, hmem, hkeyboard⟩
    obtain ⟨info', hdisplays, hattached, -⟩ := hs.display
    rw [hdisplays] at hmem
    obtain rfl := List.mem_singleton.mp hmem
    obtain rfl : attached = true := hattached.symm.trans hkeyboard
    rw [hs.deque.toList_eq]
    generalize hsoft : s.soft = soft
    have hlistens := hs.listens
    rw [hsoft] at hlistens
    cases hlistens with
    | handling hnone keypress => exact .inl rfl
    | waiting hsome hblock hempty =>
        exact .inr ⟨rfl, hempty, fun hnone => by rw [hsome] at hnone; cases hnone⟩
  case steps =>
    rintro op t ⟨henabled, hperform⟩
    obtain ⟨t', -, -, -, -, hperform', -, hok⟩ := hs.perform henabled
    obtain rfl := Except.ok.inj (hperform'.symm.trans hperform)
    exact hok

/-- **Keys arrive at the terminal**: in every state that the console reaches, the keys that the
keyboard did not lose arrive in the order in which they were pressed, and what is read from the
terminal are their texts, each as a whole or, if there was no room for it, not at all. A key is
lost only while 16 are buffered. -/
theorem console_keys {b : VgaTextBuffer} (hb : b.buf.length = b.width * b.height)
    (hw : 0 < b.width) (hh : 0 < b.height) (hwh : b.width * b.height < 2 ^ 64)
    (scancodeMap : ScancodeMap) (keycodeMap : KeycodeMap) :
    ∃ s₀, System.boot b scancodeMap keycodeMap = .ok s₀ ∧
      ∀ ops s, Runs Step s₀ ops s → KeysHandled s := by
  obtain ⟨cells, hcells⟩ := exists_holds hb
  obtain ⟨s₀, hboot, hgood⟩ := good_boot hw hh hcells hwh scancodeMap keycodeMap
  refine ⟨s₀, hboot, fun ops s hruns => ?_⟩
  obtain ⟨attached, vt, buf, unread, hinv⟩ := hgood.runs hruns
  exact hinv.keysHandled

/-! ### A small console -/

/-- A display of two cells. -/
def twoCells : VgaTextBuffer := ⟨[⟨0, ⟨0⟩⟩, ⟨0, ⟨0⟩⟩], 2, 1, (0, 0)⟩

/-- A letter is written to a display of two cells. -/
theorem console_displays_letter :
    ∃ s₀ s, System.boot twoCells Keyboard.keyA.1 Keyboard.keyA.2 = .ok s₀ ∧
      Runs Step s₀ [.write 0 [72]] s ∧
      DisplaysShown (w := twoCells.width) (h := twoCells.height) (by decide) (by decide) s := by
  obtain ⟨s₀, hboot, hruns⟩ := console_displays (b := twoCells) rfl (by decide) (by decide)
    (by decide) Keyboard.keyA.1 Keyboard.keyA.2
  obtain ⟨s, hrun⟩ : ∃ s, Runs Step s₀ [.write 0 [72]] s := by
    have hbooted : System.boot twoCells Keyboard.keyA.1 Keyboard.keyA.2 = .ok _ := rfl
    obtain rfl := Except.ok.inj (hboot.symm.trans hbooted)
    exact ⟨_, .cons ⟨Nat.zero_lt_one, rfl⟩ .refl⟩
  exact ⟨s₀, s, hboot, hrun, hruns _ s hrun⟩

/-- A key is pressed and read. -/
theorem console_keys_letter :
    ∃ s₀ s, System.boot twoCells Keyboard.keyA.1 Keyboard.keyA.2 = .ok s₀ ∧
      Runs Step s₀ [.attachKeyboard 0, .interrupt (some 0x1C), .soft, .read 0 1] s ∧
      s.delivered = [97] ∧ KeysHandled s := by
  obtain ⟨s₀, hboot, hruns⟩ := console_keys (b := twoCells) rfl (by decide) (by decide)
    (by decide) Keyboard.keyA.1 Keyboard.keyA.2
  obtain ⟨s, hrun, hread⟩ : ∃ s, Runs Step s₀
      [.attachKeyboard 0, .interrupt (some 0x1C), .soft, .read 0 1] s ∧ s.delivered = [97] := by
    have hbooted : System.boot twoCells Keyboard.keyA.1 Keyboard.keyA.2 = .ok _ := rfl
    obtain rfl := Except.ok.inj (hboot.symm.trans hbooted)
    exact ⟨_, .cons ⟨⟨_, rfl, rfl⟩, rfl⟩ (.cons ⟨trivial, rfl⟩ (.cons ⟨trivial, rfl⟩
      (.cons ⟨⟨Nat.zero_lt_one, by decide⟩, rfl⟩ .refl))), rfl⟩
  exact ⟨s₀, s, hboot, hrun, hread, hruns _ s hrun⟩

end HydroxKernel.Console
