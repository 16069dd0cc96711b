import HydroxKernel.Dev.KeyDelivery

/-!
# Key Events

What an interrupt of the keyboard does, taken apart: a byte either ends no scancode of a key, and
then only the buffer of scancodes changes, or a key changes. A key that is pressed is handed over,
which changes the ring buffer and the futures but nothing else.

## Main results

* `handleInterrupt_cases`: what an interrupt does.
-/

namespace HydroxKernel.Keyboard

/-- The keys that are held, the locks and the modifiers, after a key has changed. -/
def Ps2KeyboardInternals.changed (i : Ps2KeyboardInternals) (key : Keycode) (pressed : Bool) :
    Ps2KeyboardInternals :=
  { i with
    heldKeys := setHeld i.heldKeys key pressed
    lockState := if pressed then (i.lockState.handleKeyPressed key).2 else i.lockState
    modState := (i.modState.handleKeyStateChanged key pressed).2 }

/-- The keyboard with a key changed. -/
def Ps2Keyboard.changed (k : Ps2Keyboard) (key : Keycode) (pressed : Bool) : Ps2Keyboard :=
  { k with internal := k.internal.changed key pressed }

/-- The keyboard with other bytes in the buffer of scancodes. -/
def Ps2Keyboard.setScancodeBuf (k : Ps2Keyboard) (buf : ScancodeBuffer) : Ps2Keyboard :=
  { k with internal := { k.internal with scancodeBuf := buf } }

/-- The two keyboards have the same keys to hand over, and the same futures. -/
structure SameKeys (k k' : Ps2Keyboard) : Prop where
  inputBuf : k'.internal.inputBuf = k.internal.inputBuf
  inputFuture : k'.internal.inputFuture = k.internal.inputFuture
  blocks : k'.blocks = k.blocks

variable {k k' : Ps2Keyboard} {key : Keycode} {kept : Bool}

/-- Handing a key press over does not depend on the keys that are held. -/
theorem deliver_setHeld (k : Ps2Keyboard) (held : CommonKeycode → Bool) (keypress : KeyPress) :
    Ps2Keyboard.deliver { k with internal := { k.internal with heldKeys := held } } keypress =
      (k.deliver keypress).map fun r =>
        (r.1, { r.2 with internal := { r.2.internal with heldKeys := held } }) := by
  unfold Ps2Keyboard.deliver
  dsimp only
  cases k.internal.inputFuture with
  | none =>
      dsimp only
      cases k.internal.inputBuf.pushBack keypress <;> rfl
  | some id =>
      dsimp only
      unfold Ps2Keyboard.onBlock
      dsimp only
      cases k.blocks[id]? with
      | none => rfl
      | some block =>
          dsimp only
          cases Future.exec true block (.finish (.ok keypress)) <;> rfl

/-- **Handing a key press over** leaves the rest of the keyboard. -/
theorem same_of_deliver {keypress : KeyPress} (h : k.deliver keypress = .ok (kept, k')) :
    k'.internal = { k.internal with
      inputBuf := k'.internal.inputBuf, inputFuture := k'.internal.inputFuture } := by
  unfold Ps2Keyboard.deliver at h
  cases hfuture : k.internal.inputFuture with
  | none =>
      rw [hfuture] at h
      obtain ⟨r, -, h⟩ := bind_eq_ok.mp h
      obtain ⟨-, rfl⟩ := Prod.mk.inj (Except.ok.inj h)
      rfl
  | some id =>
      rw [hfuture] at h
      obtain ⟨⟨k₁, outcome⟩, hblock, h⟩ := bind_eq_ok.mp h
      obtain ⟨-, rfl⟩ := Prod.mk.inj (Except.ok.inj h)
      unfold Ps2Keyboard.onBlock at hblock
      split at hblock
      · cases hblock
      · obtain ⟨r, -, hblock⟩ := bind_eq_ok.mp hblock
        obtain ⟨rfl, -⟩ := Prod.mk.inj (Except.ok.inj hblock)
        rfl

/-- A key that is released changes only the keys that are held and the modifiers. -/
theorem handleKeyStateChanged_released (k : Ps2Keyboard) (key : Keycode) :
    k.handleKeyStateChanged key false = .ok (none, k.changed key false) := rfl

/-- **A key that is pressed** is handed over, with the locks and the modifiers from before. -/
theorem handleKeyStateChanged_pressed
    (h : k.deliver (k.internal.keyPress key) = .ok (kept, k')) :
    k.handleKeyStateChanged key true =
      .ok (some (k.internal.keyPress key, kept), k'.changed key true) := by
  have hheld : k'.internal.heldKeys = k.internal.heldKeys := by rw [same_of_deliver h]
  rw [Ps2Keyboard.handleKeyStateChanged]
  dsimp only
  rw [if_pos rfl]
  have hpress : Ps2KeyboardInternals.keyPress { k.internal with
      heldKeys := setHeld k.internal.heldKeys key true } key = k.internal.keyPress key := rfl
  rw [hpress, deliver_setHeld, h, Ps2Keyboard.changed, Ps2KeyboardInternals.changed, hheld]
  rfl

/-! ### Interrupts -/

variable {b : UInt8} {scancode : Scancode} {sbuf : ScancodeBuffer}

/-- A byte that ends no scancode only goes to the buffer of scancodes. -/
theorem handleInterrupt_incomplete
    (hreceive : k.internal.scancodeBuf.receive b = .ok (none, sbuf)) :
    k.handleInterrupt (some b) = .ok (none, none, k.setScancodeBuf sbuf) := by
  rw [Ps2Keyboard.handleInterrupt]
  dsimp only
  rw [hreceive]
  rfl

/-- A scancode that is not the one of a key is passed over. -/
theorem handleInterrupt_unmapped
    (hreceive : k.internal.scancodeBuf.receive b = .ok (some scancode, sbuf))
    (hkey : k.internal.scancodeMap.get scancode.key = none) :
    k.handleInterrupt (some b) = .ok (some scancode, none, k.setScancodeBuf sbuf) := by
  rw [Ps2Keyboard.handleInterrupt]
  dsimp only
  rw [hreceive]
  simp only [liftPanic, ok_bind, hkey]
  rfl

/-- The scancode of a key changes the key. -/
theorem handleInterrupt_mapped {r : Option (KeyPress × Bool)}
    (hreceive : k.internal.scancodeBuf.receive b = .ok (some scancode, sbuf))
    (hkey : k.internal.scancodeMap.get scancode.key = some key)
    (hchanged : (k.setScancodeBuf sbuf).handleKeyStateChanged key (!scancode.released) =
      .ok (r, k')) :
    k.handleInterrupt (some b) = .ok (some scancode, r, k') := by
  rw [Ps2Keyboard.handleInterrupt]
  dsimp only
  rw [hreceive]
  simp only [liftPanic, ok_bind, hkey]
  rw [show ({ k with internal := { k.internal with scancodeBuf := sbuf } } : Ps2Keyboard) =
    k.setScancodeBuf sbuf from rfl, hchanged]
  rfl

/-- What an interrupt does to the keys that are to be handed over: nothing, or it hands one over
and says whether it was not lost. -/
inductive Interrupted (k : Ps2Keyboard) : Option (KeyPress × Bool) → Ps2Keyboard → Prop
  | quiet {k' : Ps2Keyboard} (hsame : SameKeys k k') : Interrupted k none k'
  | pressed {k₁ k₂ k' : Ps2Keyboard} {kept : Bool} (key : Keycode) (hsame : SameKeys k k₁)
      (hdeliver : k₁.deliver (k.internal.keyPress key) = .ok (kept, k₂)) (hsame' : SameKeys k₂ k') :
      Interrupted k (some (k.internal.keyPress key, kept)) k'

/-- **An interrupt** does not panic, if handing a key press over does not. -/
theorem handleInterrupt_cases (hframed : k.internal.scancodeBuf.Framed)
    (hdeliver : ∀ k₁, SameKeys k k₁ → ∀ keypress, ∃ kept k₂,
      k₁.deliver keypress = .ok (kept, k₂)) (b : Option UInt8) :
    ∃ scancode r k', k.handleInterrupt b = .ok (scancode, r, k') ∧ Interrupted k r k' ∧
      k'.internal.scancodeBuf.Framed := by
  cases b with
  | none => exact ⟨none, none, k, rfl, .quiet ⟨rfl, rfl, rfl⟩, hframed⟩
  | some b =>
      obtain ⟨scancode, sbuf, hreceive, hframed', -⟩ := hframed.receive b
      cases scancode with
      | none => exact ⟨none, none, _, handleInterrupt_incomplete hreceive, .quiet ⟨rfl, rfl, rfl⟩,
          hframed'⟩
      | some scancode =>
          cases hkey : k.internal.scancodeMap.get scancode.key with
          | none => exact ⟨some scancode, none, _, handleInterrupt_unmapped hreceive hkey,
              .quiet ⟨rfl, rfl, rfl⟩, hframed'⟩
          | some key =>
              cases hreleased : scancode.released with
              | true =>
                  refine ⟨some scancode, none, (k.setScancodeBuf sbuf).changed key false,
                    handleInterrupt_mapped hreceive hkey ?_, .quiet ⟨rfl, rfl, rfl⟩, hframed'⟩
                  rw [hreleased]
                  rfl
              | false =>
                  have hsame : SameKeys k (k.setScancodeBuf sbuf) := ⟨rfl, rfl, rfl⟩
                  obtain ⟨kept, k₂, hd⟩ := hdeliver _ hsame (k.internal.keyPress key)
                  refine ⟨some scancode, some (k.internal.keyPress key, kept), k₂.changed key true,
                    handleInterrupt_mapped hreceive hkey ?_,
                    .pressed key hsame hd ⟨rfl, rfl, rfl⟩, ?_⟩
                  · rw [hreleased]
                    exact handleKeyStateChanged_pressed hd
                  · have hsbuf : k₂.internal.scancodeBuf = sbuf := by
                      rw [same_of_deliver hd]
                      rfl
                    change k₂.internal.scancodeBuf.Framed
                    rw [hsbuf]
                    exact hframed'

end HydroxKernel.Keyboard
