import HydroxKernel.Dev.Keyboard
import HydroxKernel.Lib.Runs

/-!
# Delivering Keys

A keyboard and one reader of its keys: keys change, and the reader asks for the next key and
waits for the future that it gets before it asks again. `presses` is a ledger of the keys that
were pressed, each with whether it was handed over, and `scancodes` one of what was recognized at
each byte.

A future is pending only while the ring buffer is empty. Then a key that is pressed resolves the
future, and all others go through the ring buffer, so that the reader receives the keys in order.

## Main results

* `Good.handleKeyStateChanged`, `Good.nextKey`: what the operations of the keyboard preserve.
* `key_delivery`: in every reached state, what was received, what is on its way and what is
  buffered are the keys that were handed over.
* `scancode_framing`: in every reached state, the buffer holds a beginning of a scancode, and
  scancodes are recognized as they are sent.
-/

namespace HydroxKernel.Keyboard

/-- The keyboard and its reader, with the ledgers. -/
structure State where
  kbd : Ps2Keyboard
  reader : Option KeyFuture
  received : List KeyResult
  presses : List (KeyPress × Bool)
  scancodes : List (Option Scancode)

/-- A new keyboard. -/
def State.new (scancodeMap : ScancodeMap) (keycodeMap : KeycodeMap) : State :=
  ⟨⟨.new scancodeMap keycodeMap, []⟩, none, [], [], []⟩

/-- What happens to the keyboard. -/
inductive Op
  | key (key : Keycode) (pressed : Bool)
  | interrupt (b : Option UInt8)
  | nextKey
  | await
  | setLockState (lockState : KeyboardLockState)
  | setKeymap (map : KeycodeMap)

/-- The reader waits for its future. A call that would sleep changes nothing. -/
def State.await (s : State) : Except Panic State :=
  match s.reader with
  | none => .ok s
  | some (.done r) => .ok { s with reader := none, received := s.received ++ [r] }
  | some (.handle id h) => do
      let (kbd, outcome) ← s.kbd.onBlock id (.unwrapBlocking h)
      match outcome with
      | .ok (.val x) => return { s with
          kbd := kbd, reader := none, received := s.received ++ [x.base] }
      | _ => return { s with kbd := kbd }

/-- Performs an operation. -/
def perform (s : State) : Op → Except Panic State
  | .key key pressed => do
      let (r, kbd) ← s.kbd.handleKeyStateChanged key pressed
      return { s with kbd := kbd, presses := s.presses ++ r.toList }
  | .interrupt b => do
      let (scancode, r, kbd) ← s.kbd.handleInterrupt b
      return { s with
        kbd := kbd
        presses := s.presses ++ r.toList
        scancodes := s.scancodes ++ b.toList.map fun _ => scancode }
  | .nextKey => do
      let (future, kbd) ← s.kbd.nextKey
      return { s with kbd := kbd, reader := some future }
  | .await => s.await
  | .setLockState lockState => .ok { s with kbd := s.kbd.setLockState lockState }
  | .setKeymap map => .ok { s with kbd := s.kbd.setKeymap map }

/-- The reader does not ask for a key while it waits for another one. -/
def Enabled (s : State) (op : Op) : Prop := op = .nextKey → s.reader = none

/-- A step. -/
def Step (s : State) (op : Op) (t : State) : Prop := Enabled s op ∧ perform s op = .ok t

/-- The reader waits for a future that is not resolved. -/
def State.Waiting (s : State) : Prop :=
  ∃ id h block w, s.reader = some (.handle id h) ∧ s.kbd.blocks[id]? = some block ∧
    block.wait = some w ∧ w.resolved = false

/-- The key that is on its way to the reader. -/
def State.inFlight (s : State) : List KeyResult :=
  match s.reader with
  | none => []
  | some (.done r) => [r]
  | some (.handle id _) =>
      match s.kbd.blocks[id]? with
      | none => []
      | some block => (block.wait.bind (·.val)).toList.map Future.Value.base

/-- The keys in the ring buffer. -/
def State.buffered (s : State) : List KeyPress := s.kbd.internal.inputBuf.toList

/-- The key presses that were not lost. -/
def keptOf (presses : List (KeyPress × Bool)) : List KeyPress :=
  (presses.filter (·.2)).map (·.1)

/-- The keys that were handed over. -/
def State.kept (s : State) : List KeyPress := keptOf s.presses

/-- Every modifier is what the state of its key is. -/
structure ModsAgree (mods : ModifierState) (held : CommonKeycode → Bool) : Prop where
  leftCtrl : mods.leftCtrl = held .leftCtrl
  rightCtrl : mods.rightCtrl = held .rightCtrl
  leftAlt : mods.leftAlt = held .leftAlt
  rightAlt : mods.rightAlt = held .rightAlt
  leftShift : mods.leftShift = held .leftShift
  rightShift : mods.rightShift = held .rightShift
  leftSuperKey : mods.leftSuperKey = held .leftSuper
  rightSuperKey : mods.rightSuperKey = held .rightSuper

/-! ### Futures -/

/-- The block of a future that is resolved, while the reader has not taken the value. -/
def resolvedBlock (r : KeyResult) : Block :=
  ⟨some ⟨1, 1, true, [], some (.orig r)⟩, false, [(0, .withVal)], [], 0, 0⟩

/-- A pending future is resolved. -/
theorem exec_finish (r : KeyResult) :
    Future.exec true (.newFuture 0) (.finish r) = .ok (resolvedBlock r, .none) := rfl

/-- A pending future cannot be unwrapped yet. -/
theorem exec_unwrap_pending :
    Future.exec true (.newFuture 0 : Block) (.unwrapBlocking 0) = .ok (.newFuture 0, .blocks) :=
  rfl

/-- A resolved future has its value. -/
theorem exec_unwrap_resolved (r : KeyResult) :
    ∃ block, Future.exec true (resolvedBlock r) (.unwrapBlocking 0) =
      .ok (block, .ok (.val (.orig r))) := ⟨_, rfl⟩

/-- The reader's future, the future that the keyboard has to resolve, and the key that is on its
way. -/
inductive Waits (k : Ps2Keyboard) (buf : List KeyPress) :
    Option KeyFuture → List KeyResult → Prop
  | idle (hnone : k.internal.inputFuture = none) : Waits k buf none []
  | ready (hnone : k.internal.inputFuture = none) (r : KeyResult) :
      Waits k buf (some (.done r)) [r]
  | resolved (hnone : k.internal.inputFuture = none) {id : ℕ} {r : KeyResult}
      (hblock : k.blocks[id]? = some (resolvedBlock r)) : Waits k buf (some (.handle id 0)) [r]
  | pending {id : ℕ} (hsome : k.internal.inputFuture = some id)
      (hblock : k.blocks[id]? = some (.newFuture 0)) (hempty : buf = []) :
      Waits k buf (some (.handle id 0)) []

/-- Only the futures and the blocks matter. -/
theorem Waits.congr {k k' : Ps2Keyboard} {buf : List KeyPress} {reader : Option KeyFuture}
    {inFlight : List KeyResult} (h : Waits k buf reader inFlight)
    (hfuture : k'.internal.inputFuture = k.internal.inputFuture) (hblocks : k'.blocks = k.blocks) :
    Waits k' buf reader inFlight := by
  cases h with
  | idle hnone => exact .idle (hfuture.trans hnone)
  | ready hnone r => exact .ready (hfuture.trans hnone) r
  | resolved hnone hblock => exact .resolved (hfuture.trans hnone) (by rw [hblocks, hblock])
  | pending hsome hblock hempty =>
      exact .pending (hfuture.trans hsome) (by rw [hblocks, hblock]) hempty

/-- What holds between operations. -/
structure Good (k : Ps2Keyboard) (reader : Option KeyFuture) (inFlight : List KeyResult)
    (buf : List KeyPress) : Prop where
  deque : k.internal.inputBuf.Represents buf
  waits : Waits k buf reader inFlight
  mods : ModsAgree k.internal.modState k.internal.heldKeys
  framed : k.internal.scancodeBuf.Framed

/-! ### Keys -/

/-- What handing a key press over does: it changes the future that is waited for and the ring
buffer, and adds the key press to the keys that the reader has still to receive, unless it is
lost. It is lost if no future is waited for and the ring buffer is full. -/
structure Delivered (k k' : Ps2Keyboard) (reader : Option KeyFuture)
    (inFlight inFlight' : List KeyResult) (buf buf' : List KeyPress) (keypress : KeyPress)
    (kept : Bool) : Prop where
  same : k'.internal = { k.internal with
    inputBuf := k'.internal.inputBuf, inputFuture := k'.internal.inputFuture }
  deque : k'.internal.inputBuf.Represents buf'
  waits : Waits k' buf' reader inFlight'
  order : inFlight' ++ buf'.map .ok =
    inFlight ++ buf.map .ok ++ (if kept then [.ok keypress] else [])
  lost : kept = false ↔ k.internal.inputFuture = none ∧ buf.length = 16

/-- Without a future that is waited for, a key press goes to the ring buffer. -/
theorem deliver_of_none {k : Ps2Keyboard} {buf : List KeyPress} {reader : Option KeyFuture}
    {inFlight : List KeyResult} (hnone : k.internal.inputFuture = none)
    (hdeque : k.internal.inputBuf.Represents buf)
    (hwaits : ∀ k' : Ps2Keyboard, k'.internal.inputFuture = none → k'.blocks = k.blocks →
      ∀ buf', Waits k' buf' reader inFlight) (keypress : KeyPress) :
    ∃ kept k' inFlight' buf', k.deliver keypress = .ok (kept, k') ∧
      Delivered k k' reader inFlight inFlight' buf buf' keypress kept := by
  rw [Ps2Keyboard.deliver]
  rw [hnone]
  rcases Nat.lt_or_ge buf.length 16 with hroom | hfull
  · obtain ⟨d, hd, hrep⟩ := hdeque.pushBack hroom keypress
    dsimp only
    rw [hd]
    refine ⟨true, { k with internal := { k.internal with inputBuf := d } }, inFlight,
      buf ++ [keypress], rfl, rfl, hrep,
      hwaits ⟨{ k.internal with inputBuf := d }, k.blocks⟩ hnone rfl _, ?_, ?_⟩
    · rw [List.map_append, ← List.append_assoc]
      rfl
    · exact iff_of_false (by simp) fun h => Nat.ne_of_lt hroom h.2
  · have hlength : buf.length = 16 := Nat.le_antisymm hdeque.le hfull
    dsimp only
    rw [hdeque.pushBack_full hlength]
    refine ⟨false, k, inFlight, buf, rfl, rfl, hdeque, hwaits k hnone rfl _, ?_, ?_⟩
    · exact (List.append_nil _).symm
    · exact iff_of_true rfl ⟨hnone, hlength⟩

/-- **A key press is handed over**, or lost. -/
theorem Waits.deliver {k : Ps2Keyboard} {buf : List KeyPress} {reader : Option KeyFuture}
    {inFlight : List KeyResult} (h : Waits k buf reader inFlight)
    (hdeque : k.internal.inputBuf.Represents buf) (keypress : KeyPress) :
    ∃ kept k' inFlight' buf', k.deliver keypress = .ok (kept, k') ∧
      Delivered k k' reader inFlight inFlight' buf buf' keypress kept := by
  cases h with
  | idle hnone => exact deliver_of_none hnone hdeque (fun k' hk' _ _ => .idle hk') keypress
  | ready hnone r =>
      exact deliver_of_none hnone hdeque (fun k' hk' _ _ => .ready hk' r) keypress
  | resolved hnone hblock =>
      exact deliver_of_none hnone hdeque
        (fun k' hk' hblocks _ => .resolved hk' (by rw [hblocks, hblock])) keypress
  | @pending id hsome hblock hempty =>
      subst hempty
      obtain ⟨hlt, -⟩ := List.getElem?_eq_some_iff.mp hblock
      unfold Ps2Keyboard.deliver Ps2Keyboard.onBlock
      rw [hsome]
      dsimp only
      rw [hblock]
      dsimp only
      rw [exec_finish]
      refine ⟨true, ⟨{ k.internal with inputFuture := none },
        k.blocks.set id (resolvedBlock (.ok keypress))⟩, [.ok keypress], [], rfl, rfl, hdeque,
        .resolved rfl (List.getElem?_set_self hlt), rfl, ?_⟩
      exact iff_of_false (by simp) fun h => by simp [hsome] at h

/-- The state of a key and its modifier change together. -/
theorem ModsAgree.handleKeyStateChanged {mods : ModifierState} {held : CommonKeycode → Bool}
    (h : ModsAgree mods held) (key : Keycode) (pressed : Bool) :
    ModsAgree (mods.handleKeyStateChanged key pressed).2 (setHeld held key pressed) := by
  obtain ⟨hlc, hrc, hla, hra, hls, hrs, hlsup, hrsup⟩ := h
  cases key with
  | deviceSpecific code => exact ⟨hlc, hrc, hla, hra, hls, hrs, hlsup, hrsup⟩
  | common key =>
      unfold ModifierState.handleKeyStateChanged setHeld
      -- each modifier has its own key, and the other keys change none of them
      split <;> constructor <;> simp_all [eq_comm]

/-- The key press of a key, and that it is lost exactly if no future is waited for and the ring
buffer is full. -/
def Pressed (k : Ps2Keyboard) (key : Keycode) (buf : List KeyPress) (r : KeyPress × Bool) : Prop :=
  r.1 = k.internal.keyPress key ∧
    (r.2 = false ↔ k.internal.inputFuture = none ∧ buf.length = 16)

/-- **A key that changes** goes to the reader or to the ring buffer, behind the keys before it,
with the locks and the modifiers from before. -/
theorem Good.handleKeyStateChanged {k : Ps2Keyboard} {reader : Option KeyFuture}
    {inFlight : List KeyResult} {buf : List KeyPress} (h : Good k reader inFlight buf)
    (key : Keycode) (pressed : Bool) :
    ∃ r k' inFlight' buf', k.handleKeyStateChanged key pressed = .ok (r, k') ∧
      Good k' reader inFlight' buf' ∧
      k'.internal.scancodeBuf = k.internal.scancodeBuf ∧
      inFlight' ++ buf'.map .ok = inFlight ++ buf.map .ok ++ (keptOf r.toList).map .ok ∧
      (pressed = false → r = none) ∧ (pressed = true → ∃ p, r = some p ∧ Pressed k key buf p) := by
  have hmods := h.mods.handleKeyStateChanged key pressed
  rw [Ps2Keyboard.handleKeyStateChanged]
  cases pressed with
  | false =>
      exact ⟨none, _, inFlight, buf, rfl, ⟨h.deque, h.waits.congr rfl rfl, hmods, h.framed⟩, rfl,
        (List.append_nil _).symm, fun _ => rfl, fun h => nomatch h⟩
  | true =>
      have hwaits : Waits { k with internal := { k.internal with
          heldKeys := setHeld k.internal.heldKeys key true } } buf reader inFlight :=
        h.waits.congr rfl rfl
      obtain ⟨kept, k', inFlight', buf', hdeliver, hd⟩ :=
        hwaits.deliver h.deque (k.internal.keyPress key)
      dsimp only
      rw [if_pos rfl]
      have hpress : Ps2KeyboardInternals.keyPress { k.internal with
          heldKeys := setHeld k.internal.heldKeys key true } key = k.internal.keyPress key := rfl
      rw [hpress, hdeliver]
      refine ⟨some (k.internal.keyPress key, kept), _, inFlight', buf', rfl,
        ⟨hd.deque, hd.waits.congr rfl rfl, ?_, ?_⟩, ?_, ?_, (fun h => nomatch h),
        fun _ => ⟨_, rfl, rfl, hd.lost⟩⟩
      · dsimp only
        rw [hd.same]
        exact hmods
      · dsimp only
        rw [hd.same]
        exact h.framed
      · dsimp only
        rw [hd.same]
      · rw [hd.order]
        cases kept <;> rfl

/-- **An interrupt** does not panic. A byte is received in the buffer of scancodes, and if it ends
the scancode of a key, the key changes. -/
theorem Good.handleInterrupt {k : Ps2Keyboard} {reader : Option KeyFuture}
    {inFlight : List KeyResult} {buf : List KeyPress} (h : Good k reader inFlight buf)
    (b : Option UInt8) :
    ∃ scancode r k' inFlight' buf', k.handleInterrupt b = .ok (scancode, r, k') ∧
      Good k' reader inFlight' buf' ∧
      inFlight' ++ buf'.map .ok = inFlight ++ buf.map .ok ++ (keptOf r.toList).map .ok ∧
      (∀ p, r = some p → ∃ key, Pressed k key buf p) ∧
      ∀ b', b = some b' →
        k.internal.scancodeBuf.receive b' = .ok (scancode, k'.internal.scancodeBuf) := by
  unfold Ps2Keyboard.handleInterrupt
  cases b with
  | none =>
      exact ⟨none, none, k, inFlight, buf, rfl, h, (List.append_nil _).symm,
        (fun _ h => by cases h), fun _ h => by cases h⟩
  | some b =>
      obtain ⟨scancode, sbuf, hreceive, hframed, -⟩ := h.framed.receive b
      have h' : Good { k with internal := { k.internal with scancodeBuf := sbuf } } reader inFlight
          buf := ⟨h.deque, h.waits.congr rfl rfl, h.mods, hframed⟩
      have hsame : ∀ b', some b = some b' →
          k.internal.scancodeBuf.receive b' = .ok (scancode, sbuf) := by
        rintro b' ⟨⟩
        exact hreceive
      dsimp only
      rw [hreceive]
      cases scancode with
      | none =>
          exact ⟨none, none, _, inFlight, buf, rfl, h', (List.append_nil _).symm,
            (fun _ h => by cases h), hsame⟩
      | some scancode =>
          cases hkey : k.internal.scancodeMap.get scancode.key with
          | none =>
              refine ⟨some scancode, none, _, inFlight, buf, ?_, h', (List.append_nil _).symm,
                (fun _ h => by cases h), hsame⟩
              simp only [liftPanic, ok_bind, hkey]
              rfl
          | some key =>
              obtain ⟨r, k', inFlight', buf', hchanged, hgood, hbuf, horder, hreleased, hpressed⟩ :=
                h'.handleKeyStateChanged key (!scancode.released)
              refine ⟨some scancode, r, k', inFlight', buf', ?_, hgood, horder, ?_, ?_⟩
              · simp only [liftPanic, ok_bind, hkey, hchanged]
                rfl
              · rintro p rfl
                cases hp : !scancode.released with
                | false => cases hreleased hp
                | true =>
                    obtain ⟨p', hp', hpress⟩ := hpressed hp
                    obtain rfl := Option.some.inj hp'
                    exact ⟨key, hpress⟩
              · rw [hbuf]
                exact hsame

/-- **`next_key`** returns the first key that is buffered, or a future that the keyboard has to
resolve. -/
theorem Good.nextKey {k : Ps2Keyboard} {inFlight : List KeyResult} {buf : List KeyPress}
    (h : Good k none inFlight buf) :
    ∃ future k' inFlight' buf', k.nextKey = .ok (future, k') ∧
      Good k' (some future) inFlight' buf' ∧
      inFlight' ++ buf'.map .ok = inFlight ++ buf.map .ok := by
  obtain ⟨hdeque, hwaits, hmods, hframed⟩ := h
  cases hwaits with
  | idle hnone =>
      rw [Ps2Keyboard.nextKey]
      cases buf with
      | nil =>
          rw [hdeque.popFront_nil]
          have hwaits : Waits ⟨{ k.internal with inputFuture := some k.blocks.length },
              k.blocks ++ [.newFuture 0]⟩ [] (some (.handle k.blocks.length 0)) [] :=
            .pending rfl List.getElem?_concat_length rfl
          refine ⟨.handle k.blocks.length 0, ⟨{ k.internal with
            inputFuture := some k.blocks.length }, k.blocks ++ [.newFuture 0]⟩, [], [], ?_,
            ⟨hdeque, hwaits, hmods, hframed⟩, rfl⟩
          simp only [hnone]
          rfl
      | cons keypress buf =>
          obtain ⟨d, hd, hrep⟩ := hdeque.popFront_cons
          rw [hd]
          have hwaits : Waits ⟨{ k.internal with inputBuf := d }, k.blocks⟩ buf
              (some (.done (.ok keypress))) [.ok keypress] := by
            refine .ready ?_ _
            exact hnone
          exact ⟨.done (.ok keypress), ⟨{ k.internal with inputBuf := d }, k.blocks⟩,
            [.ok keypress], buf, rfl, ⟨hrep, hwaits, hmods, hframed⟩, rfl⟩

/-! ### Runs -/

/-- The invariant: what was received, what is on its way and what is buffered are the keys that
were handed over. -/
structure Inv (s : State) (inFlight : List KeyResult) (buf : List KeyPress) : Prop where
  good : Good s.kbd s.reader inFlight buf
  order : s.received ++ (inFlight ++ buf.map .ok) = s.kept.map .ok

/-- The key that is on its way, read off the reader's future. -/
theorem Waits.inFlight_eq {s : State} {buf : List KeyPress} {inFlight : List KeyResult}
    (h : Waits s.kbd buf s.reader inFlight) : s.inFlight = inFlight := by
  generalize hreader : s.reader = reader at h
  rw [State.inFlight]
  rw [hreader]
  cases h with
  | idle hnone => rfl
  | ready hnone r => rfl
  | resolved hnone hblock =>
      dsimp only
      rw [hblock]
      rfl
  | pending hsome hblock hempty =>
      dsimp only
      rw [hblock]
      rfl

/-- The reader waits exactly while the keyboard has a future to resolve. -/
theorem Waits.waiting_iff {s : State} {buf : List KeyPress} {inFlight : List KeyResult}
    (h : Waits s.kbd buf s.reader inFlight) :
    s.Waiting ↔ s.kbd.internal.inputFuture ≠ none := by
  generalize hreader : s.reader = reader at h
  constructor
  · rintro ⟨id, handle, block, w, hs, hblock, hwait, hunresolved⟩
    obtain rfl := hreader.symm.trans hs
    cases h with
    | resolved hnone hblock' =>
        obtain rfl := Option.some.inj (hblock'.symm.trans hblock)
        obtain rfl := Option.some.inj hwait
        cases hunresolved
    | pending hsome hblock' hempty =>
        rw [hsome]
        exact Option.some_ne_none _
  · intro hne
    cases h with
    | idle hnone => exact absurd hnone hne
    | ready hnone r => exact absurd hnone hne
    | resolved hnone hblock => exact absurd hnone hne
    | @pending id hsome hblock hempty => exact ⟨id, 0, _, _, hreader, hblock, rfl, rfl⟩

/-- No key is buffered while the keyboard has a future to resolve. -/
theorem Waits.buf_eq_nil {k : Ps2Keyboard} {buf : List KeyPress} {reader : Option KeyFuture}
    {inFlight : List KeyResult} (h : Waits k buf reader inFlight)
    (hne : k.internal.inputFuture ≠ none) : buf = [] := by
  cases h with
  | idle hnone => exact absurd hnone hne
  | ready hnone r => exact absurd hnone hne
  | resolved hnone hblock => exact absurd hnone hne
  | pending hsome hblock hempty => exact hempty

/-- The keys in the ring buffer, read off it. -/
theorem Inv.buffered_eq {s : State} {inFlight : List KeyResult} {buf : List KeyPress}
    (h : Inv s inFlight buf) : s.buffered = buf := h.good.deque.toList_eq

/-- **The reader waits for its future**, and gets the key that is on its way, if there is one. -/
theorem Inv.await {s : State} {inFlight : List KeyResult} {buf : List KeyPress}
    (h : Inv s inFlight buf) :
    ∃ t inFlight', s.await = .ok t ∧ Inv t inFlight' buf ∧ t.presses = s.presses ∧
      t.received = s.received ++ inFlight := by
  obtain ⟨⟨hdeque, hwaits, hmods, hframed⟩, horder⟩ := h
  obtain ⟨k, reader, received, presses, scancodes⟩ := s
  have hreceived : (received ++ inFlight) ++ ([] ++ buf.map .ok) = (keptOf presses).map .ok := by
    rw [List.nil_append, List.append_assoc]
    exact horder
  rw [State.await]
  cases hwaits with
  | idle hnone =>
      exact ⟨_, [], rfl, ⟨⟨hdeque, .idle hnone, hmods, hframed⟩, horder⟩, rfl,
        (List.append_nil _).symm⟩
  | ready hnone r =>
      exact ⟨_, [], rfl, ⟨⟨hdeque, .idle hnone, hmods, hframed⟩, hreceived⟩, rfl, rfl⟩
  | @resolved hnone id r hblock =>
      obtain ⟨block, hexec⟩ := exec_unwrap_resolved r
      dsimp only
      rw [Ps2Keyboard.onBlock]
      rw [hblock]
      dsimp only
      rw [hexec]
      have hwaits : Waits ⟨k.internal, k.blocks.set id block⟩ buf none [] := .idle hnone
      exact ⟨⟨⟨k.internal, k.blocks.set id block⟩, none, received ++ [r], presses, scancodes⟩, [],
        rfl, ⟨⟨hdeque, hwaits, hmods, hframed⟩, hreceived⟩, rfl, rfl⟩
  | @pending id hsome hblock hempty =>
      obtain ⟨hlt, hget⟩ := List.getElem?_eq_some_iff.mp hblock
      dsimp only
      rw [Ps2Keyboard.onBlock]
      rw [hblock]
      dsimp only
      rw [exec_unwrap_pending]
      have hset : k.blocks.set id (.newFuture 0) = k.blocks := by
        rw [← hget, List.set_getElem_self]
      refine ⟨⟨⟨k.internal, k.blocks.set id (.newFuture 0)⟩, some (.handle id 0), received,
        presses, scancodes⟩, [], rfl, ?_, rfl, (List.append_nil _).symm⟩
      rw [hset]
      exact ⟨⟨hdeque, .pending hsome hblock hempty, hmods, hframed⟩, horder⟩

/-- A key press is recorded: with the locks and the modifiers from before, and as lost exactly if
the reader does not wait and 16 keys are buffered. -/
def Recorded (s t : State) (key : Keycode) : Prop :=
  ∃ kept, t.presses = s.presses ++ [(⟨key, s.kbd.internal.lockState, s.kbd.internal.modState,
      keyText (s.kbd.internal.keycodeMap.get key s.kbd.internal.lockState
        s.kbd.internal.modState)⟩, kept)] ∧
    (kept = false ↔ ¬s.Waiting ∧ s.buffered.length = 16)

/-- What an operation adds to the ledger of key presses. -/
def PressesOf (s t : State) : Op → Prop
  | .key key true => Recorded s t key
  | .interrupt _ => t.presses = s.presses ∨ ∃ key, Recorded s t key
  | _ => t.presses = s.presses

/-- The keys that are handed over are added to the ones before. -/
theorem keptOf_append (presses presses' : List (KeyPress × Bool)) :
    keptOf (presses ++ presses') = keptOf presses ++ keptOf presses' := by
  rw [keptOf, List.filter_append, List.map_append]
  rfl

/-- A key press, in the ledger. -/
theorem Inv.recorded {s t : State} {inFlight : List KeyResult} {buf : List KeyPress}
    (h : Inv s inFlight buf) {key : Keycode} {p : KeyPress × Bool}
    (hp : Pressed s.kbd key buf p) (ht : t.presses = s.presses ++ [p]) : Recorded s t key := by
  obtain ⟨keypress, kept⟩ := p
  obtain ⟨rfl, hlost⟩ := hp
  refine ⟨kept, ht, hlost.trans ?_⟩
  rw [h.buffered_eq, h.good.waits.waiting_iff, not_not]

/-- The keys after an operation that adds to the ledger what it adds to the keys that are on their
way and buffered. -/
theorem Inv.append {s : State} {inFlight inFlight' : List KeyResult} {buf buf' : List KeyPress}
    (h : Inv s inFlight buf) {presses : List (KeyPress × Bool)}
    (horder : inFlight' ++ buf'.map .ok = inFlight ++ buf.map .ok ++ (keptOf presses).map .ok) :
    s.received ++ (inFlight' ++ buf'.map .ok) = (keptOf (s.presses ++ presses)).map .ok := by
  rw [horder, ← List.append_assoc, h.order, keptOf_append, List.map_append]
  rfl

/-- **A key that changes** keeps the invariant, and is recorded if it is pressed. -/
theorem Inv.key {s : State} {inFlight : List KeyResult} {buf : List KeyPress}
    (h : Inv s inFlight buf) (key : Keycode) (pressed : Bool) :
    ∃ t inFlight' buf', perform s (.key key pressed) = .ok t ∧ Inv t inFlight' buf' ∧
      PressesOf s t (.key key pressed) := by
  obtain ⟨r, k, inFlight', buf', hchanged, hgood, -, horder, hreleased, hpressed⟩ :=
    h.good.handleKeyStateChanged key pressed
  refine ⟨{ s with kbd := k, presses := s.presses ++ r.toList }, inFlight', buf', ?_,
    ⟨hgood, h.append horder⟩, ?_⟩
  · rw [perform, hchanged]
    rfl
  · cases pressed with
    | false =>
        rw [hreleased rfl]
        exact List.append_nil _
    | true =>
        obtain ⟨p, rfl, hp⟩ := hpressed rfl
        exact h.recorded hp rfl

/-- **An interrupt** keeps the invariant. A byte is received, and what it ends is recorded. -/
theorem Inv.interrupt {s : State} {inFlight : List KeyResult} {buf : List KeyPress}
    (h : Inv s inFlight buf) (b : Option UInt8) :
    ∃ t inFlight' buf', perform s (.interrupt b) = .ok t ∧ Inv t inFlight' buf' ∧
      PressesOf s t (.interrupt b) ∧ ∀ b', b = some b' → ∃ scancode,
        s.kbd.internal.scancodeBuf.receive b' = .ok (scancode, t.kbd.internal.scancodeBuf) ∧
        t.scancodes = s.scancodes ++ [scancode] := by
  obtain ⟨scancode, r, k, inFlight', buf', hinterrupt, hgood, horder, hpressed, hreceived⟩ :=
    h.good.handleInterrupt b
  refine ⟨{ s with
    kbd := k
    presses := s.presses ++ r.toList
    scancodes := s.scancodes ++ b.toList.map fun _ => scancode }, inFlight', buf', ?_,
    ⟨hgood, h.append horder⟩, ?_, ?_⟩
  · rw [perform, hinterrupt]
    rfl
  · cases r with
    | none => exact .inl (List.append_nil _)
    | some p =>
        obtain ⟨key, hp⟩ := hpressed p rfl
        exact .inr ⟨key, h.recorded hp rfl⟩
  · rintro b' rfl
    exact ⟨scancode, hreceived b' rfl, rfl⟩

/-- **One operation** keeps the invariant, and does not panic. -/
theorem Inv.perform {s : State} {inFlight : List KeyResult} {buf : List KeyPress}
    (h : Inv s inFlight buf) {op : Op} (henabled : Enabled s op) :
    ∃ t inFlight' buf', Keyboard.perform s op = .ok t ∧ Inv t inFlight' buf' ∧
      PressesOf s t op ∧ (op = .await → t.received = s.received ++ s.inFlight) := by
  cases op with
  | key key pressed =>
      obtain ⟨t, inFlight', buf', hperform, hinv, hpresses⟩ := h.key key pressed
      exact ⟨t, inFlight', buf', hperform, hinv, hpresses, fun h => nomatch h⟩
  | interrupt b =>
      obtain ⟨t, inFlight', buf', hperform, hinv, hpresses, -⟩ := h.interrupt b
      exact ⟨t, inFlight', buf', hperform, hinv, hpresses, fun h => nomatch h⟩
  | nextKey =>
      have hgood := h.good
      rw [henabled rfl] at hgood
      obtain ⟨future, k, inFlight', buf', hnext, hgood', horder⟩ := hgood.nextKey
      refine ⟨{ s with kbd := k, reader := some future }, inFlight', buf', ?_, ⟨hgood', ?_⟩, rfl,
        fun h => nomatch h⟩
      · rw [Keyboard.perform, hnext]
        rfl
      · rw [horder]
        exact h.order
  | await =>
      obtain ⟨t, inFlight', hawait, hinv, hpresses, hreceived⟩ := h.await
      refine ⟨t, inFlight', buf, hawait, hinv, hpresses, fun _ => ?_⟩
      rw [hreceived, h.good.waits.inFlight_eq]
  | setLockState lockState =>
      obtain ⟨⟨hdeque, hwaits, hmods, hframed⟩, horder⟩ := h
      exact ⟨{ s with kbd := s.kbd.setLockState lockState }, inFlight, buf, rfl,
        ⟨⟨hdeque, hwaits.congr rfl rfl, hmods, hframed⟩, horder⟩, rfl, fun h => nomatch h⟩
  | setKeymap map =>
      obtain ⟨⟨hdeque, hwaits, hmods, hframed⟩, horder⟩ := h
      exact ⟨{ s with kbd := s.kbd.setKeymap map }, inFlight, buf, rfl,
        ⟨⟨hdeque, hwaits.congr rfl rfl, hmods, hframed⟩, horder⟩, rfl, fun h => nomatch h⟩

/-- **A step** keeps the invariant. -/
theorem Inv.step {s t : State} {inFlight : List KeyResult} {buf : List KeyPress} {op : Op}
    (h : Inv s inFlight buf) (hstep : Step s op t) :
    ∃ inFlight' buf', Inv t inFlight' buf' ∧ PressesOf s t op ∧
      (op = .await → t.received = s.received ++ s.inFlight) := by
  obtain ⟨henabled, hperform⟩ := hstep
  obtain ⟨t', inFlight', buf', hperform', hinv, hpresses, hreceived⟩ := h.perform henabled
  obtain rfl := Except.ok.inj (hperform'.symm.trans hperform)
  exact ⟨inFlight', buf', hinv, hpresses, hreceived⟩

/-- A new keyboard. -/
theorem inv_new (scancodeMap : ScancodeMap) (keycodeMap : KeycodeMap) :
    Inv (.new scancodeMap keycodeMap) [] [] := by
  have hframed : ScancodeBuffer.new.Framed := ScancodeBuffer.framed_of_pos rfl rfl
  exact ⟨⟨ArrayDeque.represents_new, .idle rfl, ⟨rfl, rfl, rfl, rfl, rfl, rfl, rfl, rfl⟩,
    hframed⟩, rfl⟩

/-- **Every reached state** has the invariant. -/
theorem Inv.reached {scancodeMap : ScancodeMap} {keycodeMap : KeycodeMap} {ops : List Op}
    {s : State} (h : Runs Step (.new scancodeMap keycodeMap) ops s) :
    ∃ inFlight buf, Inv s inFlight buf := by
  refine h.invariant (P := fun s => ∃ inFlight buf, Inv s inFlight buf)
    ⟨[], [], inv_new scancodeMap keycodeMap⟩ ?_
  rintro s op t ⟨inFlight, buf, hinv⟩ hstep
  obtain ⟨inFlight', buf', hinv', -⟩ := hinv.step hstep
  exact ⟨inFlight', buf', hinv'⟩

/-- What holds of the keys in a state. -/
structure KeysDelivered (s : State) : Prop where
  returns : ∀ op, Enabled s op → ∃ t, perform s op = .ok t
  pending : s.kbd.internal.inputFuture ≠ none ↔ s.Waiting
  empty : s.kbd.internal.inputFuture ≠ none → s.buffered = []
  order : s.received ++ s.inFlight ++ s.buffered.map .ok = s.kept.map .ok
  awaited : ∀ t, Step s .await t → t.received = s.received ++ s.inFlight
  presses : ∀ op t, Step s op t → PressesOf s t op
  mods : ModsAgree s.kbd.internal.modState s.kbd.internal.heldKeys

/-- **Keys are delivered**: in every reached state no operation panics, a future is pending only
while the ring buffer is empty, and the keys that the reader received, the one on its way and the
buffered ones are the key presses that were not lost, in order. A key press is lost only if the
reader does not wait and 16 are buffered. -/
theorem key_delivery {scancodeMap : ScancodeMap} {keycodeMap : KeycodeMap} {ops : List Op}
    {s : State} (h : Runs Step (.new scancodeMap keycodeMap) ops s) : KeysDelivered s := by
  obtain ⟨inFlight, buf, hinv⟩ := Inv.reached h
  have hwaits := hinv.good.waits
  constructor
  case returns =>
    intro op henabled
    obtain ⟨t, inFlight', buf', hperform, -⟩ := hinv.perform henabled
    exact ⟨t, hperform⟩
  case pending => exact hwaits.waiting_iff.symm
  case empty =>
    intro hne
    rw [hinv.buffered_eq, hwaits.buf_eq_nil hne]
  case order =>
    rw [hwaits.inFlight_eq, hinv.buffered_eq, List.append_assoc]
    exact hinv.order
  case awaited =>
    intro t hstep
    obtain ⟨inFlight', buf', -, -, hreceived⟩ := hinv.step hstep
    exact hreceived rfl
  case presses =>
    intro op t hstep
    obtain ⟨inFlight', buf', -, hpresses, -⟩ := hinv.step hstep
    exact hpresses
  case mods => exact hinv.good.mods

/-! ### Scancodes -/

/-- Bytes that arrive one after another are received as the buffer of scancodes receives them. -/
theorem Inv.interrupts {s : State} {inFlight : List KeyResult} {buf : List KeyPress}
    (h : Inv s inFlight buf) {bytes : List UInt8} {rs : List (Option Scancode)}
    {sbuf : ScancodeBuffer}
    (hreceive : s.kbd.internal.scancodeBuf.receiveAll bytes = .ok (rs, sbuf)) :
    ∃ t, Runs Step s (bytes.map fun b => .interrupt (some b)) t ∧
      t.kbd.internal.scancodeBuf = sbuf ∧ t.scancodes = s.scancodes ++ rs := by
  induction bytes generalizing s inFlight buf rs with
  | nil =>
      obtain ⟨rfl, hsbuf⟩ := Prod.mk.inj (Except.ok.inj hreceive)
      exact ⟨s, .refl, hsbuf, (List.append_nil _).symm⟩
  | cons b bytes ih =>
      obtain ⟨t, inFlight', buf', hperform, hinv, -, hbyte⟩ := h.interrupt (some b)
      obtain ⟨scancode, hfirst, hscancodes⟩ := hbyte b rfl
      rw [ScancodeBuffer.receiveAll, hfirst, ok_bind] at hreceive
      obtain ⟨⟨rest, sbuf'⟩, hrest, hreceive⟩ := bind_eq_ok.mp hreceive
      obtain ⟨rfl, rfl⟩ := Prod.mk.inj (Except.ok.inj hreceive)
      obtain ⟨u, hruns, hsbuf, hrecognized⟩ := ih hinv hrest
      refine ⟨u, .cons ⟨(fun h => by cases h), hperform⟩ hruns, hsbuf, ?_⟩
      rw [hrecognized, hscancodes, List.append_assoc, List.singleton_append]

/-- What holds of the scancodes in a state. -/
structure ScancodesFramed (s : State) : Prop where
  pos : s.kbd.internal.scancodeBuf.pos < 5
  beginning : BeginsScancode s.kbd.internal.scancodeBuf.contents ∨
    Unchecked s.kbd.internal.scancodeBuf.contents
  returns : ∀ b, ∃ t, perform s (.interrupt b) = .ok t
  recognized : s.kbd.internal.scancodeBuf.pos = 0 →
    ∀ scancodes : List Scancode, (∀ scancode ∈ scancodes, scancode.key.Valid) →
      ∃ t, Runs Step s ((scancodes.flatMap Scancode.encode).map fun b => .interrupt (some b)) t ∧
        t.scancodes = s.scancodes ++ scancodes.flatMap Scancode.outputs ∧
        t.kbd.internal.scancodeBuf.pos = 0

/-- **Scancodes are framed**: in every reached state the buffer holds a beginning of a scancode, but
that two bytes of a dual key that is released can be any, no byte panics, and if the buffer is
empty, scancodes are recognized as they are sent, each at its last byte. -/
theorem scancode_framing {scancodeMap : ScancodeMap} {keycodeMap : KeycodeMap} {ops : List Op}
    {s : State} (h : Runs Step (.new scancodeMap keycodeMap) ops s) : ScancodesFramed s := by
  obtain ⟨inFlight, buf, hinv⟩ := Inv.reached h
  have hframed := hinv.good.framed
  refine ⟨hframed.pos, hframed.incomplete.begins, fun b => ?_,
    fun hpos scancodes hvalid => ?_⟩
  · obtain ⟨t, inFlight', buf', hperform, -⟩ := hinv.interrupt b
    exact ⟨t, hperform⟩
  · obtain ⟨sbuf, hreceive, -, hempty⟩ := hframed.receiveAll_encode hpos hvalid
    obtain ⟨t, hruns, hsbuf, hscancodes⟩ := hinv.interrupts hreceive
    refine ⟨t, hruns, hscancodes, ?_⟩
    rw [hsbuf, hempty]

/-- Maps in which the scancode `1C` is the one of the key A, and every key has the text a. -/
def keyA : ScancodeMap × KeycodeMap :=
  (⟨fun b => if b = 0x1C then some (.common .a) else none, fun _ => none, []⟩,
    ⟨fun _ => .simple (.char 'a')⟩)

/-- A key that arrives while the reader waits, and one while it does not. -/
theorem key_delivery_waiting :
    ∃ s, Runs Step (.new keyA.1 keyA.2)
        [.nextKey, .await, .key (.common .a) true, .key (.common .b) true, .await, .nextKey] s ∧
      s.received.length = 1 ∧ s.inFlight.length = 1 ∧ KeysDelivered s := by
  have hrun : Runs Step (.new keyA.1 keyA.2) [.nextKey, .await, .key (.common .a) true,
      .key (.common .b) true, .await, .nextKey] _ :=
    .cons ⟨fun _ => rfl, rfl⟩ (.cons ⟨(fun h => nomatch h), rfl⟩
      (.cons ⟨(fun h => nomatch h), rfl⟩ (.cons ⟨(fun h => nomatch h), rfl⟩
        (.cons ⟨(fun h => nomatch h), rfl⟩ (.cons ⟨fun _ => rfl, rfl⟩ .refl)))))
  exact ⟨_, hrun, rfl, rfl, key_delivery hrun⟩

/-- A key that is pressed and released. -/
theorem scancode_framing_key :
    ∃ s, Runs Step (.new keyA.1 keyA.2)
        [.interrupt (some 0x1C), .interrupt (some 0xF0), .interrupt (some 0x1C)] s ∧
      s.scancodes = [some ⟨.basic 0x1C, false⟩, none, some ⟨.basic 0x1C, true⟩] ∧
      s.presses.length = 1 ∧ ScancodesFramed s := by
  have hrun : Runs Step (.new keyA.1 keyA.2)
      [.interrupt (some 0x1C), .interrupt (some 0xF0), .interrupt (some 0x1C)] _ :=
    .cons ⟨(fun h => nomatch h), rfl⟩ (.cons ⟨(fun h => nomatch h), rfl⟩
      (.cons ⟨(fun h => nomatch h), rfl⟩ .refl))
  exact ⟨_, hrun, rfl, rfl, scancode_framing hrun⟩

/-- **The buffer can hold bytes that begin no scancode** of any key. -/
theorem scancode_begins_nothing :
    ∃ s, Runs Step (.new keyA.1 keyA.2) [.interrupt (some 0xE1), .interrupt (some 0xF0),
        .interrupt (some 0x14), .interrupt (some 0x00)] s ∧
      s.kbd.internal.scancodeBuf.contents = [0xE1, 0xF0, 0x14, 0x00] ∧
      ∀ (scancode : Scancode) rest,
        scancode.encode ≠ s.kbd.internal.scancodeBuf.contents ++ rest := by
  have hrun : Runs Step (.new keyA.1 keyA.2) [.interrupt (some 0xE1), .interrupt (some 0xF0),
      .interrupt (some 0x14), .interrupt (some 0x00)] _ :=
    .cons ⟨(fun h => by cases h), rfl⟩ (.cons ⟨(fun h => by cases h), rfl⟩
      (.cons ⟨(fun h => by cases h), rfl⟩ (.cons ⟨(fun h => by cases h), rfl⟩ .refl)))
  refine ⟨_, hrun, rfl, fun scancode rest heq => ?_⟩
  obtain ⟨key, released⟩ := scancode
  cases key <;> cases released <;> cases heq

end HydroxKernel.Keyboard
