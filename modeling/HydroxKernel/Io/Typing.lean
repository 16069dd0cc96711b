import HydroxKernel.Dev.KeyTables
import HydroxKernel.Io.Console

/-!
# Typing

A text is typed on a US keyboard: for every character the scancodes of its key arrive, pressed and
released, within those of a shift key if it needs one, and the soft interrupts run. What can then
be read from the terminal is the text.

## Main results

* `Idle.strike`: what one scancode does.
* `console_typing`: what is typed is read.
-/

namespace HydroxKernel.Console

open HydroxKernel.Keyboard (KeyPress KeyResult Ps2Keyboard ScancodeBuffer Scancode ScancodeKey
  Keycode KeycodeMap ModifierState KeyboardLockState Stroke)
open HydroxKernel.Vga

/-- The interrupts of a scancode, and the soft interrupt after them. -/
def scancodeOps (scancode : Scancode) : List Op :=
  scancode.encode.map (fun b => .interrupt (some b)) ++ [.soft]

/-- The scancode of the left shift key. -/
def leftShift (released : Bool) : Scancode := ⟨.basic 0x12, released⟩

/-- The scancodes of a stroke. -/
def strokeScancodes (p : Stroke) : List Scancode :=
  let key := [⟨.basic p.code, false⟩, ⟨.basic p.code, true⟩]
  if p.shift then leftShift false :: key ++ [leftShift true] else key

/-- What happens when a text is typed. -/
def typeOps (text : List Char) : List Op :=
  text.flatMap fun c => (Keyboard.stroke c).toList.flatMap fun p =>
    (strokeScancodes p).flatMap scancodeOps

variable {w h : ℕ} {hw : 0 < w} {hh : 0 < h} {s t : System} {vt : VirtualTerminal}
  {buf : List KeyPress} {unread : List UInt8} {key : Keycode}

/-! ### The interrupts of a scancode -/

/-- A byte that ends no scancode only goes to the buffer of scancodes. -/
theorem perform_incomplete {b : UInt8} {sbuf : ScancodeBuffer}
    (h : s.kbd.internal.scancodeBuf.receive b = .ok (none, sbuf)) :
    perform s (.interrupt (some b)) = .ok { s with kbd := s.kbd.setScancodeBuf sbuf } := by
  rw [perform, System.interrupt, Keyboard.handleInterrupt_incomplete h]
  dsimp only [Except.mapError, ok_bind]
  rw [show (s.kbd.setScancodeBuf sbuf).blocks = s.kbd.blocks from rfl, enqueued_self,
    List.append_nil, Option.toList_none, List.append_nil]
  rfl

/-- The bytes of a scancode before the last one only go to the buffer of scancodes. -/
theorem runs_beginning {bytes : List UInt8} {n : ℕ} {scancode : Scancode} {sbuf : ScancodeBuffer}
    (hframed : s.kbd.internal.scancodeBuf.Framed)
    (h : s.kbd.internal.scancodeBuf.receiveAll bytes =
      .ok (List.replicate n none ++ [some scancode], sbuf)) :
    ∃ bytes' b sbuf', bytes = bytes' ++ [b] ∧ sbuf'.receive b = .ok (some scancode, sbuf) ∧
      sbuf'.Framed ∧ Runs Step s (bytes'.map fun b => .interrupt (some b))
        { s with kbd := s.kbd.setScancodeBuf sbuf' } := by
  induction bytes generalizing s n with
  | nil =>
      obtain ⟨heq, -⟩ := Prod.mk.inj (Except.ok.inj h)
      cases n <;> cases heq
  | cons b bytes ih =>
      rw [ScancodeBuffer.receiveAll] at h
      obtain ⟨⟨r, sbuf₁⟩, hfirst, h⟩ := bind_eq_ok.mp h
      obtain ⟨⟨rs, sbuf₂⟩, hrest, h⟩ := bind_eq_ok.mp h
      obtain ⟨heq, rfl⟩ := Prod.mk.inj (Except.ok.inj h)
      cases n with
      | zero =>
          obtain ⟨rfl, rfl⟩ := List.cons.inj heq
          cases bytes with
          | nil =>
              obtain ⟨-, rfl⟩ := Prod.mk.inj (Except.ok.inj hrest)
              exact ⟨[], b, s.kbd.internal.scancodeBuf, rfl, hfirst, hframed, .refl⟩
          | cons b' bytes =>
              obtain ⟨⟨r', sbuf₃⟩, -, hrest⟩ := bind_eq_ok.mp hrest
              obtain ⟨⟨rs', sbuf₄⟩, -, hrest⟩ := bind_eq_ok.mp hrest
              obtain ⟨hnil, -⟩ := Prod.mk.inj (Except.ok.inj hrest)
              cases hnil
      | succ n =>
          obtain ⟨rfl, rfl⟩ := List.cons.inj heq
          obtain ⟨r', sbuf'', hreceive, hframed', -⟩ := hframed.receive b
          obtain ⟨-, rfl⟩ := Prod.mk.inj (Except.ok.inj (hreceive.symm.trans hfirst))
          obtain ⟨bytes', b₁, sbuf', rfl, hlast, hsbuf', hruns⟩ :=
            @ih { s with kbd := s.kbd.setScancodeBuf sbuf'' } n hframed' hrest
          exact ⟨b :: bytes', b₁, sbuf', rfl, hlast, hsbuf',
            .cons ⟨trivial, perform_incomplete hfirst⟩ hruns⟩

/-- The settings of a keyboard that decide what a key does. -/
structure SameSettings (i j : Keyboard.Ps2KeyboardInternals) : Prop where
  lockState : j.lockState = i.lockState
  modState : j.modState = i.modState
  scancodeMap : j.scancodeMap = i.scancodeMap
  keycodeMap : j.keycodeMap = i.keycodeMap

/-- The console waits for a key, between scancodes. -/
structure Idle (hw : 0 < w) (hh : 0 < h) (s : System) (unread : List UInt8) : Prop where
  inv : ∃ vt, Inv hw hh s true vt [] unread
  soft : s.soft = []
  pos : s.kbd.internal.scancodeBuf.pos = 0

/-- What a scancode does to an idle console: the key changes, and if it is pressed and there is
room for its text, that enters the read queue. -/
structure Struck (s t : System) (unread unread' : List UInt8) (key : Keycode) (pressed : Bool) :
    Prop where
  settings : SameSettings (s.kbd.internal.changed key pressed) t.kbd.internal
  handled : (pressed = true → (asBytes (s.kbd.internal.keyPress key).str).length < 64 ∧
      (asBytes (s.kbd.internal.keyPress key).str).length ≤ 64 - unread.length) →
    entered t.handled = entered s.handled ++
      if pressed then asBytes (s.kbd.internal.keyPress key).str else []
  length : unread'.length ≤ unread.length +
    if pressed then (asBytes (s.kbd.internal.keyPress key).str).length else 0

/-- A key that is released leaves the console idle. -/
theorem Idle.released (hs : Idle hw hh s unread) {sbuf : ScancodeBuffer} (hframed : sbuf.Framed)
    (hpos : sbuf.pos = 0) (key : Keycode) :
    Idle hw hh { s with kbd := (s.kbd.setScancodeBuf sbuf).changed key false } unread := by
  obtain ⟨vt, hinv⟩ := hs.inv
  exact ⟨⟨vt, hinv.setKbd ⟨rfl, rfl, rfl⟩ hframed⟩, hs.soft, hpos⟩

/-- The console has no key to handle while it is idle, and waits for one. -/
theorem Idle.waiting (hs : Idle hw hh s unread) : s.kbd.internal.inputFuture ≠ none := by
  obtain ⟨vt, hinv⟩ := hs.inv
  have hlistens := hinv.listens
  rw [hs.soft] at hlistens
  cases hlistens with
  | waiting hsome hblock hempty =>
      rw [hsome]
      exact Option.some_ne_none _

/-- The interrupt of a key that is released. -/
theorem perform_released {b : UInt8} {scancode : Scancode} {sbuf : ScancodeBuffer}
    (hreceive : s.kbd.internal.scancodeBuf.receive b = .ok (some scancode, sbuf))
    (hkey : s.kbd.internal.scancodeMap.get scancode.key = some key)
    (hreleased : scancode.released = true) :
    perform s (.interrupt (some b)) =
      .ok { s with kbd := (s.kbd.setScancodeBuf sbuf).changed key false } := by
  have hchanged : (s.kbd.setScancodeBuf sbuf).handleKeyStateChanged key (!scancode.released) =
      .ok (none, (s.kbd.setScancodeBuf sbuf).changed key false) := by
    rw [hreleased]
    rfl
  rw [perform, System.interrupt, Keyboard.handleInterrupt_mapped hreceive hkey hchanged]
  dsimp only [Except.mapError, ok_bind]
  rw [show ((s.kbd.setScancodeBuf sbuf).changed key false).blocks = s.kbd.blocks from rfl,
    enqueued_self, List.append_nil, Option.toList_none, List.append_nil]
  rfl

/-- **The interrupt of a key that is pressed** enqueues its soft interrupt, if the console is
idle. -/
theorem perform_pressed (hinv : Inv hw hh s true vt [] unread) (hsoft : s.soft = [])
    (hwaiting : s.kbd.internal.inputFuture ≠ none) {b : UInt8} {scancode : Scancode}
    {sbuf : ScancodeBuffer}
    (hreceive : s.kbd.internal.scancodeBuf.receive b = .ok (some scancode, sbuf))
    (hkey : s.kbd.internal.scancodeMap.get scancode.key = some key)
    (hpressed : scancode.released = false) :
    ∃ t, perform s (.interrupt (some b)) = .ok t ∧ Inv hw hh t true vt [] unread ∧
      t.soft = [(0, .ok (s.kbd.internal.keyPress key))] ∧ t.handled = s.handled ∧
      t.kbd.internal.scancodeBuf = sbuf ∧
      SameSettings (s.kbd.internal.changed key true) t.kbd.internal := by
  have hsame : Keyboard.SameKeys s.kbd (s.kbd.setScancodeBuf sbuf) := ⟨rfl, rfl, rfl⟩
  obtain ⟨kept, k, buf', hdeliver, -, hlistens, horder, hlost⟩ := (hinv.listens.congr hsame).deliver
    hinv.deque (s.kbd.internal.keyPress key)
  have hkept : kept = true := by
    rw [← Bool.not_eq_false, hlost]
    exact fun h => hwaiting h.1
  subst hkept
  rw [hsoft, List.nil_append, if_pos rfl] at horder
  rw [hsoft, List.nil_append] at hlistens
  have hchanged : (s.kbd.setScancodeBuf sbuf).handleKeyStateChanged key (!scancode.released) =
      .ok (some (s.kbd.internal.keyPress key, true), k.changed key true) := by
    rw [hpressed]
    exact Keyboard.handleKeyStateChanged_pressed hdeliver
  have hperform : perform s (.interrupt (some b)) = .ok { s with
      kbd := k.changed key true
      soft := s.soft ++ enqueued s.kbd.blocks k.blocks
      presses := s.presses ++ [(s.kbd.internal.keyPress key, true)] } := by
    rw [perform, System.interrupt, Keyboard.handleInterrupt_mapped hreceive hkey hchanged]
    rfl
  have henqueued : enqueued s.kbd.blocks k.blocks = [(0, .ok (s.kbd.internal.keyPress key))] ∧
      buf' = [] := by
    generalize hsoft' : enqueued (s.kbd.setScancodeBuf sbuf).blocks k.blocks = soft'
    rw [hsoft'] at hlistens horder
    have hblocks : enqueued s.kbd.blocks k.blocks = soft' := hsoft'
    rw [hblocks]
    cases hlistens with
    | handling hnone keypress =>
        obtain ⟨heq, hbuf⟩ := List.cons.inj horder
        obtain rfl := Except.ok.inj heq
        exact ⟨rfl, List.map_eq_nil_iff.mp hbuf⟩
    | waiting hsome hblock hempty =>
        subst hempty
        cases horder
  obtain ⟨henqueued, -⟩ := henqueued
  obtain ⟨t, buf'', hperform', hinv', -⟩ := hinv.interrupt (some b)
  obtain rfl := Except.ok.inj (hperform'.symm.trans hperform)
  have hbuf : buf'' = [] := by
    have hbefore := congrArg List.length hinv.order
    have hafter := congrArg List.length hinv'.order
    dsimp only at hafter
    rw [hsoft, henqueued, Keyboard.keptOf_append] at hafter
    rw [hsoft] at hbefore
    have hone : (Keyboard.keptOf [(s.kbd.internal.keyPress key, true)]).length = 1 := rfl
    simp only [List.length_append, List.length_map, List.length_nil, List.length_singleton,
      List.nil_append, hone] at hbefore hafter
    exact List.length_eq_zero_iff.mp (by omega)
  subst hbuf
  have hsame := Keyboard.same_of_deliver hdeliver
  have hlock : k.internal.lockState = s.kbd.internal.lockState := by
    rw [hsame]
    rfl
  have hmods : k.internal.modState = s.kbd.internal.modState := by
    rw [hsame]
    rfl
  refine ⟨_, hperform, hinv', ?_, rfl, ?_, ⟨?_, ?_, ?_, ?_⟩⟩
  · dsimp only
    rw [hsoft, henqueued]
    rfl
  · change k.internal.scancodeBuf = sbuf
    rw [hsame]
    rfl
  · change (k.internal.changed key true).lockState = _
    rw [Keyboard.Ps2KeyboardInternals.changed, hlock]
    rfl
  · change (k.internal.changed key true).modState = _
    rw [Keyboard.Ps2KeyboardInternals.changed, hmods]
    rfl
  · change k.internal.scancodeMap = _
    rw [hsame]
    rfl
  · change k.internal.keycodeMap = _
    rw [hsame]
    rfl

/-- What holds when the soft interrupt of a key has run. -/
theorem runSoft_idle (hinv : Inv hw hh s true vt [] unread) {keypress : KeyPress}
    (hsoft : s.soft = [(0, .ok keypress)]) (hpos : s.kbd.internal.scancodeBuf.pos = 0) :
    ∃ t unread' room, perform s .soft = .ok t ∧ Idle hw hh t unread' ∧
      SameInternal s.kbd t.kbd ∧ t.handled = s.handled ++ [(keypress, room)] ∧
      unread'.length ≤ unread.length + (asBytes keypress.str).length ∧
      (room = true ↔ (asBytes keypress.str).length < 64 ∧
        (asBytes keypress.str).length ≤ 64 - unread.length) := by
  obtain ⟨t, vt', buf', unread', hperform, hinv', hsame, hlength, hpresses, hhandled⟩ :=
    hinv.runSoft
  obtain ⟨room, hroom, hfits⟩ := hhandled 0 keypress [] hsoft
  have hbefore := congrArg List.length hinv.order
  have hafter := congrArg List.length hinv'.order
  rw [hpresses, hroom] at hafter
  rw [hsoft] at hbefore
  simp only [List.length_append, List.length_map, List.length_nil, List.length_singleton]
    at hbefore hafter
  obtain rfl : buf' = [] := List.length_eq_zero_iff.mp (by omega)
  refine ⟨t, unread', room, hperform, ⟨⟨vt', hinv'⟩, List.length_eq_zero_iff.mp (by omega), ?_⟩,
    hsame, hroom, hlength 0 keypress [] hsoft, hfits⟩
  rw [hsame]
  exact hpos

/-- More text entered the read queue. -/
theorem entered_append (handled : List (KeyPress × Bool)) (keypress : KeyPress) (room : Bool) :
    entered (handled ++ [(keypress, room)]) =
      entered handled ++ if room then asBytes keypress.str else [] := by
  rw [entered, List.filter_append, List.flatMap_append]
  cases room with
  | false => rfl
  | true => exact congrArg (_ ++ ·) (List.append_nil _)

/-- An interrupt is a step. -/
theorem step_interrupt {b : Option UInt8} (h : perform s (.interrupt b) = .ok t) :
    Step s (.interrupt b) t := ⟨trivial, h⟩

/-- A soft interrupt is a step. -/
theorem step_soft (h : perform s .soft = .ok t) : Step s .soft t := ⟨trivial, h⟩

/-- No soft interrupt runs if none is enqueued. -/
theorem perform_soft_nil (h : s.soft = []) : perform s .soft = .ok s := by
  rw [perform, System.runSoft, h]

/-- **A scancode** changes its key. If it is pressed, the text of it enters the read queue, and the
console is idle again. -/
theorem Idle.strike (hs : Idle hw hh s unread) (scancode : Scancode)
    (hvalid : scancode.key.Valid)
    (hkey : s.kbd.internal.scancodeMap.get scancode.key = some key) :
    ∃ t unread', Runs Step s (scancodeOps scancode) t ∧ Idle hw hh t unread' ∧
      Struck s t unread unread' key (!scancode.released) := by
  obtain ⟨vt, hinv⟩ := hs.inv
  obtain ⟨sbuf, hreceive, hframed, hpos⟩ := hinv.framed.receiveAll_encode hs.pos
    (List.forall_mem_singleton.mpr hvalid)
  rw [List.flatMap_singleton, List.flatMap_singleton] at hreceive
  obtain ⟨bytes, b, sbuf', hbytes, hlast, hframed', hruns⟩ :=
    runs_beginning hinv.framed hreceive
  rw [scancodeOps, hbytes, List.map_append]
  cases hreleased : scancode.released with
  | true =>
      have hperform := perform_released
        (s := { s with kbd := s.kbd.setScancodeBuf sbuf' }) hlast hkey hreleased
      have hidle := hs.released hframed hpos key
      refine ⟨_, unread, (hruns.trans (.cons (step_interrupt hperform) .refl)).trans
        (.cons (step_soft (perform_soft_nil hs.soft)) .refl), hidle,
        ⟨⟨rfl, rfl, rfl, rfl⟩, fun _ => ?_, Nat.le_refl _⟩⟩
      exact (List.append_nil _).symm
  | false =>
      have hinv' : Inv hw hh { s with kbd := s.kbd.setScancodeBuf sbuf' } true vt [] unread :=
        hinv.setKbd ⟨rfl, rfl, rfl⟩ hframed'
      obtain ⟨t₁, hperform, hinv₁, hsoft₁, hhandled₁, hsbuf₁, hsettings₁⟩ := perform_pressed
        hinv' hs.soft hs.waiting hlast hkey hreleased
      obtain ⟨t, unread', room, hsoft, hidle, hsame, hhandled, hlength, hroom⟩ :=
        runSoft_idle hinv₁ hsoft₁ (by rw [hsbuf₁]; exact hpos)
      refine ⟨t, unread', (hruns.trans (.cons (step_interrupt hperform) .refl)).trans
        (.cons (step_soft hsoft) .refl), hidle, ⟨?_, fun hfits => ?_, hlength⟩⟩
      · rw [hsame]
        exact ⟨hsettings₁.lockState, hsettings₁.modState, hsettings₁.scancodeMap,
          hsettings₁.keycodeMap⟩
      · rw [hhandled, entered_append, hhandled₁, hroom.mpr (hfits rfl)]
        rfl

/-! ### Strokes -/

/-- A key that is not a lock leaves the locks. -/
theorem handleKeyPressed_of_not_lock {key : Keycode}
    (h : (KeyboardLockState.none.handleKeyPressed key).1 = false) (s : KeyboardLockState) :
    (s.handleKeyPressed key).2 = s := by
  unfold KeyboardLockState.handleKeyPressed at h ⊢
  split at h
  · cases h
  · cases h
  · cases h
  · rfl

/-- A key that is not a modifier leaves the modifiers. -/
theorem handleKeyStateChanged_of_not_modifier {key : Keycode} {pressed : Bool}
    (h : (ModifierState.none.handleKeyStateChanged key pressed).1 = false) (s : ModifierState) :
    (s.handleKeyStateChanged key pressed).2 = s := by
  unfold ModifierState.handleKeyStateChanged at h ⊢
  split at h
  all_goals first | rfl | cases h

/-- The modifiers while only the left shift key may be pressed. -/
def shiftOnly (shift : Bool) : ModifierState := { ModifierState.none with leftShift := shift }

/-- The console waits for a key of the US keyboard, with no modifier but shift and without caps
lock. -/
structure Ready (hw : 0 < w) (hh : 0 < h) (map : KeycodeMap) (s : System) (unread : List UInt8)
    (shift : Bool) : Prop extends Idle hw hh s unread where
  caps : s.kbd.internal.lockState.capsLock = false
  mods : s.kbd.internal.modState = shiftOnly shift
  scancodeMap : s.kbd.internal.scancodeMap = Keyboard.scancode2Map
  keycodeMap : s.kbd.internal.keycodeMap = map

variable {map : KeycodeMap} {shift : Bool} {p : Stroke}

/-- What entered the read queue and what is left in it, after text has entered. -/
def Enters (s t : System) (unread unread' : List UInt8) (text : List Char) : Prop :=
  entered t.handled = entered s.handled ++ asBytes text ∧
    unread'.length ≤ unread.length + (asBytes text).length

/-- Text after text. -/
theorem Enters.trans {u : System} {unread' unread'' : List UInt8} {text text' : List Char}
    (h : Enters s t unread unread' text) (h' : Enters t u unread' unread'' text') :
    Enters s u unread unread'' (text ++ text') := by
  obtain ⟨hentered, hlength⟩ := h
  obtain ⟨hentered', hlength'⟩ := h'
  refine ⟨?_, ?_⟩
  · rw [hentered', hentered, asBytes_append, List.append_assoc]
  · rw [asBytes_append, List.length_append]
    omega

/-- A key that is struck enters its text, if there is room for it. -/
theorem Struck.enters {unread' : List UInt8} {pressed : Bool} {text : List Char}
    (h : Struck s t unread unread' key pressed) (htext : (s.kbd.internal.keyPress key).str = text)
    (hfits : pressed = true →
      (asBytes text).length < 64 ∧ (asBytes text).length + unread.length ≤ 64) :
    Enters s t unread unread' (if pressed then text else []) := by
  subst htext
  refine ⟨?_, ?_⟩
  · rw [h.handled fun hpressed => ⟨(hfits hpressed).1, Nat.le_sub_of_add_le (hfits hpressed).2⟩]
    cases pressed <;> rfl
  · have hlength := h.length
    cases pressed with
    | false => exact hlength
    | true => exact hlength

/-- **The shift key** changes whether shift is pressed, and enters nothing. -/
theorem Ready.strikeShift (hs : Ready hw hh map s unread shift)
    (hmap : Keyboard.qwertyUs = .ok map) (hroom : unread.length ≤ 64) (released : Bool) :
    ∃ t unread', Runs Step s (scancodeOps (leftShift released)) t ∧
      Ready hw hh map t unread' (!released) ∧ Enters s t unread unread' [] := by
  have hkey : s.kbd.internal.scancodeMap.get (leftShift released).key =
      some (.common .leftShift) := by
    rw [hs.scancodeMap]
    rfl
  obtain ⟨t, unread', hruns, hidle, hstruck⟩ := hs.toIdle.strike
    (leftShift released) ⟨by decide, by decide, by decide⟩ hkey
  have hentry : map.common .leftShift = .simple .none := by
    rw [Keyboard.qwertyUs_spec hmap]
    rfl
  have htext : (s.kbd.internal.keyPress (.common .leftShift)).str = [] := by
    change Keyboard.keyText (s.kbd.internal.keycodeMap.get (.common .leftShift) _ _) = []
    rw [hs.keycodeMap, KeycodeMap.get, hentry]
    split <;> rfl
  refine ⟨t, unread', hruns, ⟨hidle, ?_, ?_, ?_, ?_⟩, ?_⟩
  · rw [hstruck.settings.lockState, Keyboard.Ps2KeyboardInternals.changed]
    cases released <;> exact hs.caps
  · rw [hstruck.settings.modState, Keyboard.Ps2KeyboardInternals.changed, hs.mods]
    cases released <;> rfl
  · rw [hstruck.settings.scancodeMap]
    exact hs.scancodeMap
  · rw [hstruck.settings.keycodeMap]
    exact hs.keycodeMap
  · have henters := hstruck.enters htext fun _ =>
      ⟨Nat.zero_lt_succ 63, (Nat.zero_add unread.length).trans_le hroom⟩
    rw [ite_self] at henters
    exact henters

/-- **The key of a stroke** enters its character when it is pressed. -/
theorem Ready.strikeKey (hs : Ready hw hh map s unread p.shift)
    (hmap : Keyboard.qwertyUs = .ok map) (hp : p ∈ Keyboard.strokes)
    (hch : (asBytes [p.ch]).length = 1) (released : Bool)
    (hroom : released = false → unread.length < 64) :
    ∃ t unread', Runs Step s (scancodeOps ⟨.basic p.code, released⟩) t ∧
      Ready hw hh map t unread' p.shift ∧
      Enters s t unread unread' (if !released then [p.ch] else []) := by
  obtain ⟨hvalid, hlookup, hmodifier, hlock⟩ := Keyboard.plain_of_mem_strokes p hp
  have hkey : s.kbd.internal.scancodeMap.get (.basic p.code) = some (.common p.key) := by
    rw [hs.scancodeMap]
    change (Keyboard.basicKeys.lookup p.code).map _ = _
    rw [hlookup]
    rfl
  obtain ⟨t, unread', hruns, hidle, hstruck⟩ := hs.toIdle.strike
    ⟨.basic p.code, released⟩ hvalid hkey
  have hget : s.kbd.internal.keycodeMap.get (.common p.key) s.kbd.internal.lockState
      s.kbd.internal.modState = some (.char p.ch) := by
    rw [hs.keycodeMap, hs.mods]
    refine Keyboard.get_of_typed hmap hp hs.caps rfl rfl rfl ?_
    rw [ModifierState.shift, shiftOnly]
    exact Bool.or_false p.shift
  have htext : (s.kbd.internal.keyPress (.common p.key)).str = [p.ch] := by
    change Keyboard.keyText _ = _
    rw [hget]
    rfl
  refine ⟨t, unread', hruns, ⟨hidle, ?_, ?_, ?_, ?_⟩, ?_⟩
  · rw [hstruck.settings.lockState, Keyboard.Ps2KeyboardInternals.changed]
    dsimp only
    rw [handleKeyPressed_of_not_lock hlock, ite_self]
    exact hs.caps
  · rw [hstruck.settings.modState, Keyboard.Ps2KeyboardInternals.changed]
    dsimp only
    rw [handleKeyStateChanged_of_not_modifier (hmodifier _)]
    exact hs.mods
  · rw [hstruck.settings.scancodeMap]
    exact hs.scancodeMap
  · rw [hstruck.settings.keycodeMap]
    exact hs.keycodeMap
  · refine hstruck.enters htext fun hpressed => ?_
    have hlt := hroom (by simpa using hpressed)
    omega

/-- **A stroke** enters its character. -/
theorem Ready.stroke (hs : Ready hw hh map s unread false) (hmap : Keyboard.qwertyUs = .ok map)
    (hp : p ∈ Keyboard.strokes) (hch : (asBytes [p.ch]).length = 1) (hroom : unread.length < 64) :
    ∃ t unread', Runs Step s ((strokeScancodes p).flatMap scancodeOps) t ∧
      Ready hw hh map t unread' false ∧ Enters s t unread unread' [p.ch] := by
  rw [strokeScancodes]
  cases hshift : p.shift with
  | false =>
      rw [← hshift] at hs
      obtain ⟨s₁, unread₁, hruns₁, hs₁, henters₁⟩ :=
        hs.strikeKey hmap hp hch false fun _ => hroom
      obtain ⟨s₂, unread₂, hruns₂, hs₂, henters₂⟩ :=
        hs₁.strikeKey hmap hp hch true fun h => by cases h
      rw [hshift] at hs₂
      refine ⟨s₂, unread₂, ?_, hs₂, henters₁.trans henters₂⟩
      exact hruns₁.trans (hruns₂.trans .refl)
  | true =>
      obtain ⟨s₀, unread₀, hruns₀, hs₀, henters₀⟩ :=
        hs.strikeShift hmap (Nat.le_of_lt hroom) false
      have hlength₀ := henters₀.2
      change Ready hw hh map s₀ unread₀ true at hs₀
      rw [← hshift] at hs₀
      obtain ⟨s₁, unread₁, hruns₁, hs₁, henters₁⟩ :=
        hs₀.strikeKey hmap hp hch false fun _ => Nat.lt_of_le_of_lt hlength₀ hroom
      have hlength₁ := henters₁.2
      obtain ⟨s₂, unread₂, hruns₂, hs₂, henters₂⟩ :=
        hs₁.strikeKey hmap hp hch true fun h => by cases h
      have hlength₂ := henters₂.2
      obtain ⟨s₃, unread₃, hruns₃, hs₃, henters₃⟩ := hs₂.strikeShift hmap (by
        change unread₁.length ≤ unread₀.length + (asBytes [p.ch]).length at hlength₁
        change unread₂.length ≤ unread₁.length + 0 at hlength₂
        change unread₀.length ≤ unread.length + 0 at hlength₀
        omega) true
      refine ⟨s₃, unread₃, ?_, hs₃, henters₀.trans (henters₁.trans (henters₂.trans henters₃))⟩
      exact hruns₀.trans (hruns₁.trans (hruns₂.trans (hruns₃.trans .refl)))

/-! ### Texts -/

/-- A printable character is one byte long. -/
theorem length_asBytes_printable {c : Char} (hc : Keyboard.Printable c) :
    (asBytes [c]).length = 1 := by
  have hlt : c.toNat < 128 := by
    rcases hc with rfl | rfl | ⟨-, hle⟩
    · decide
    · decide
    · exact Nat.lt_of_le_of_lt hle (by decide)
  rw [length_asBytes, Str.byteLen_cons, Str.byteLen_nil, Nat.add_zero]
  exact Char.utf8Size_eq_one_iff.mpr (UInt32.le_iff_toNat_le.mpr (Nat.le_of_lt_succ hlt))

/-- **A text that is typed** enters the read queue. -/
theorem Ready.type (hs : Ready hw hh map s unread false) (hmap : Keyboard.qwertyUs = .ok map)
    {text : List Char} (htext : ∀ c ∈ text, Keyboard.Printable c)
    (hroom : text.length + unread.length ≤ 64) :
    ∃ t unread', Runs Step s (typeOps text) t ∧ Ready hw hh map t unread' false ∧
      Enters s t unread unread' text := by
  induction text generalizing s unread with
  | nil => exact ⟨s, unread, .refl, hs, (List.append_nil _).symm, Nat.le_refl _⟩
  | cons c text ih =>
      obtain ⟨hc, hrest⟩ := List.forall_mem_cons.mp htext
      rw [List.length_cons] at hroom
      obtain ⟨p, hstroke, hp, rfl⟩ := Keyboard.stroke_printable hc
      have hch := length_asBytes_printable hc
      obtain ⟨s₁, unread₁, hruns₁, hs₁, henters₁⟩ := hs.stroke hmap hp hch (by omega)
      have hlength₁ := henters₁.2
      obtain ⟨s₂, unread₂, hruns₂, hs₂, henters₂⟩ := ih hs₁ hrest (by omega)
      refine ⟨s₂, unread₂, ?_, hs₂, henters₁.trans henters₂⟩
      rw [typeOps, List.flatMap_cons, hstroke]
      exact (hruns₁.trans .refl).trans hruns₂

/-- The keyboard of the console rests: it is attached, no key is about to be handled, no scancode
is incomplete, and neither a modifier nor caps lock is in effect. -/
structure Resting (map : KeycodeMap) (s : System) : Prop where
  attached : ∃ info ∈ s.manager.displays, info.keyboard = true
  soft : s.soft = []
  pos : s.kbd.internal.scancodeBuf.pos = 0
  caps : s.kbd.internal.lockState.capsLock = false
  mods : s.kbd.internal.modState = ModifierState.none
  scancodeMap : s.kbd.internal.scancodeMap = Keyboard.scancode2Map
  keycodeMap : s.kbd.internal.keycodeMap = map

/-- A console whose keyboard rests is ready for a stroke. -/
theorem Resting.ready (hs : Resting map s) (hgood : Good hw hh s) :
    Ready hw hh map s s.readable false := by
  obtain ⟨attached, vt, buf, unread, hinv⟩ := hgood
  obtain ⟨info, hmem, hkeyboard⟩ := hs.attached
  obtain ⟨info', hdisplays, hattached, -⟩ := hinv.display
  rw [hdisplays] at hmem
  obtain rfl := List.mem_singleton.mp hmem
  obtain rfl : attached = true := hattached.symm.trans hkeyboard
  rcases hinv.keysHandled.awake hs.attached with hone | ⟨-, hbuf, -⟩
  · rw [hs.soft] at hone
    cases hone
  · rw [hinv.deque.toList_eq] at hbuf
    subst hbuf
    rw [hinv.readable_eq]
    exact ⟨⟨⟨vt, hinv⟩, hs.soft, hs.pos⟩, hs.caps, hs.mods, hs.scancodeMap, hs.keycodeMap⟩

/-- A console that is ready for a stroke without shift is at rest. -/
theorem Ready.resting (hs : Ready hw hh map s unread false) : Resting map s := by
  obtain ⟨vt, hinv⟩ := hs.inv
  obtain ⟨info, hdisplays, hattached, -⟩ := hinv.display
  refine ⟨⟨info, ?_, hattached⟩, hs.soft, hs.pos, hs.caps, hs.mods, hs.scancodeMap, hs.keycodeMap⟩
  rw [hdisplays]
  exact List.mem_singleton_self info

/-- What readers got and can still get entered the read queue. -/
theorem Idle.stream (hs : Idle hw hh s unread) : s.delivered ++ s.readable = entered s.handled := by
  obtain ⟨vt, hinv⟩ := hs.inv
  exact hinv.keysHandled.stream

/-- **What is typed is read**: in every state that the console with the fallback keymap reaches and
in which its keyboard rests, typing a text of printable characters for which there is room adds it
to what is read from the terminal, and the keyboard rests again. -/
theorem console_typing {b : VgaTextBuffer} (hb : b.buf.length = b.width * b.height)
    (hw : 0 < b.width) (hh : 0 < b.height) (hwh : b.width * b.height < 2 ^ 64) {map : KeycodeMap}
    (hmap : KeycodeMap.fallback = .ok map) :
    ∃ s₀, System.boot b Keyboard.scancode2Map map = .ok s₀ ∧
      ∀ ops s, Runs Step s₀ ops s → Resting map s →
        ∀ text, (∀ c ∈ text, Keyboard.Printable c) → text.length + s.readable.length ≤ 64 →
          ∃ t, Runs Step s (typeOps text) t ∧ Resting map t ∧
            t.delivered ++ t.readable = s.delivered ++ s.readable ++ asBytes text := by
  obtain ⟨cells, hcells⟩ := exists_holds hb
  obtain ⟨s₀, hboot, hgood⟩ := good_boot hw hh hcells hwh Keyboard.scancode2Map map
  refine ⟨s₀, hboot, fun ops s hruns hresting text htext hroom => ?_⟩
  have hready := hresting.ready (hgood.runs hruns)
  obtain ⟨t, unread, htyped, hready', henters⟩ := hready.type hmap htext hroom
  refine ⟨t, htyped, hready'.resting, ?_⟩
  rw [hready'.toIdle.stream, hready.toIdle.stream]
  exact henters.1

/-- A word is typed after the keyboard is attached. -/
theorem console_typing_word :
    ∃ map s₀ s t, KeycodeMap.fallback = .ok map ∧
      System.boot twoCells Keyboard.scancode2Map map = .ok s₀ ∧
      Runs Step s₀ [.attachKeyboard 0] s ∧ Runs Step s (typeOps ['H', 'i']) t ∧
      t.delivered ++ t.readable = [72, 105] := by
  obtain ⟨map, hmap⟩ := Keyboard.fallback_ok
  obtain ⟨s₀, hboot, htyping⟩ := console_typing (b := twoCells) rfl (by decide) (by decide)
    (by decide) hmap
  obtain ⟨s, hruns, hresting, hempty⟩ : ∃ s, Runs Step s₀ [.attachKeyboard 0] s ∧
      Resting map s ∧ s.delivered ++ s.readable = [] := by
    have hbooted : System.boot twoCells Keyboard.scancode2Map map = .ok _ := rfl
    obtain rfl := Except.ok.inj (hboot.symm.trans hbooted)
    exact ⟨_, .cons ⟨⟨_, rfl, rfl⟩, rfl⟩ .refl,
      ⟨⟨_, List.mem_singleton_self _, rfl⟩, rfl, rfl, rfl, rfl, rfl, rfl⟩, rfl⟩
  have hroom : ['H', 'i'].length + s.readable.length ≤ 64 := by
    rw [(List.append_eq_nil_iff.mp hempty).2]
    decide
  have hprintable : ∀ c ∈ ['H', 'i'], Keyboard.Printable c := by
    rintro c (_ | ⟨_, _ | ⟨_, ⟨⟩⟩⟩)
    · exact .inr (.inr ⟨by decide, by decide⟩)
    · exact .inr (.inr ⟨by decide, by decide⟩)
  obtain ⟨t, htyped, -, hstream⟩ := htyping _ s hruns hresting _ hprintable hroom
  rw [hempty] at hstream
  exact ⟨map, s₀, s, t, hmap, hboot, hruns, htyped, hstream⟩

end HydroxKernel.Console
