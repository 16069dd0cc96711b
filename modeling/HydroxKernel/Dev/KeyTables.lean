import HydroxKernel.Dev.Keyboard
import Mathlib.Data.List.Nodup

/-!
# The Tables of Keys

The scancodes of the set 2, and the map of keys of a US keyboard. A map of keys is made by setting
the entries of one that has none, which panics if an entry is set twice.

## Main results

* `build_spec`: a map of keys has the entries that were set.
* `stroke_printable`: every printable character is the text of some key.
-/

namespace HydroxKernel.Keyboard

/-! ### Scancodes -/

/-- The keys of `scancode_2_map::MAP` with a scancode of one byte. -/
def basicKeys : List (UInt8 × CommonKeycode) :=
  [(0x01, .f9), (0x03, .f5), (0x04, .f3), (0x05, .f1), (0x06, .f2), (0x07, .f12), (0x09, .f10),
   (0x0A, .f8), (0x0B, .f6), (0x0C, .f4), (0x0D, .tab), (0x0E, .tilde), (0x11, .leftAlt),
   (0x12, .leftShift), (0x14, .leftCtrl), (0x15, .q), (0x16, .num1), (0x1A, .z), (0x1B, .s),
   (0x1C, .a), (0x1D, .w), (0x1E, .num2), (0x21, .c), (0x22, .x), (0x23, .d), (0x24, .e),
   (0x25, .num4), (0x26, .num3), (0x29, .space), (0x2A, .v), (0x2B, .f), (0x2C, .t), (0x2D, .r),
   (0x2E, .num5), (0x31, .n), (0x32, .b), (0x33, .h), (0x34, .g), (0x35, .y), (0x36, .num6),
   (0x3A, .m), (0x3B, .j), (0x3C, .u), (0x3D, .num7), (0x3E, .num8), (0x41, .comma), (0x42, .k),
   (0x43, .i), (0x44, .o), (0x45, .num0), (0x46, .num9), (0x49, .period), (0x4A, .slash),
   (0x4B, .l), (0x4C, .colon), (0x4D, .p), (0x4E, .minus), (0x52, .quote), (0x54, .leftBracket),
   (0x55, .equal), (0x58, .capsLock), (0x59, .rightShift), (0x5A, .enter), (0x5B, .rightBracket),
   (0x5D, .backslash), (0x66, .backspace), (0x69, .numpad1), (0x6B, .numpad4), (0x6C, .numpad7),
   (0x70, .numpad0), (0x71, .numpadDot), (0x72, .numpad2), (0x73, .numpad5), (0x74, .numpad6),
   (0x75, .numpad8), (0x76, .esc), (0x77, .numLock), (0x78, .f11), (0x79, .numpadPlus),
   (0x7A, .numpad3), (0x7B, .numpadMinus), (0x7C, .numpadTimes), (0x7D, .numpad9),
   (0x7E, .scrollLock), (0x83, .f7)]

/-- The keys of `scancode_2_map::MAP` with an extended scancode. -/
def extendedKeys : List (UInt8 × CommonKeycode) :=
  [(0x11, .rightAlt), (0x12, .printScreen), (0x14, .rightCtrl), (0x1F, .leftSuper),
   (0x27, .rightSuper), (0x2F, .menu), (0x4A, .numpadSlash), (0x5A, .numpadEnter),
   (0x69, .endKey), (0x6B, .leftArrow), (0x6C, .home), (0x70, .insert), (0x71, .delete),
   (0x72, .downArrow), (0x74, .rightArrow), (0x75, .upArrow), (0x7A, .pageDown), (0x7D, .pageUp)]

/-- `scancode_2_map::MAP`. -/
def scancode2Map : ScancodeMap where
  basic b := (basicKeys.lookup b).map .common
  extended b := (extendedKeys.lookup b).map .common
  dualExtended := [(0x14, 0x77, .common .pause)]

/-! ### Maps of keys -/

/-- `KeycodeMap::new`. -/
def KeycodeMap.new : KeycodeMap := ⟨fun _ => .simple .none⟩

/-- An entry that is not set. -/
def KeycodeMapEntry.isUnset : KeycodeMapEntry → Bool
  | .simple .none => true
  | _ => false

/-- `KeycodeMap::set_common`. The error is the panic of an entry that is already set. -/
def KeycodeMap.setCommon (map : KeycodeMap) (key : CommonKeycode) (entry : KeycodeMapEntry) :
    Except Unit KeycodeMap := do
  ensure ((map.common key).isUnset = true) ()
  return ⟨Function.update map.common key entry⟩

/-- A map of keys with the entries set one after another. -/
def KeycodeMap.build (entries : List (CommonKeycode × KeycodeMapEntry)) :
    Except Unit KeycodeMap :=
  entries.foldlM (fun map e => map.setCommon e.1 e.2) KeycodeMap.new

/-- The entries of `qwerty_us::KEYMAP`. -/
def qwertyUsEntries : List (CommonKeycode × KeycodeMapEntry) :=
  [(.tilde, .shift (.char (Char.ofNat 0x60)) (.char '~')),
   (.num1, .shift (.char '1') (.char '!')), (.num2, .shift (.char '2') (.char '@')),
   (.num3, .shift (.char '3') (.char '#')), (.num4, .shift (.char '4') (.char '$')),
   (.num5, .shift (.char '5') (.char '%')), (.num6, .shift (.char '6') (.char '^')),
   (.num7, .shift (.char '7') (.char '&')), (.num8, .shift (.char '8') (.char '*')),
   (.num9, .shift (.char '9') (.char '(')), (.num0, .shift (.char '0') (.char ')')),
   (.minus, .shift (.char '-') (.char '_')), (.equal, .shift (.char '=') (.char '+')),
   (.backspace, .simple (.char '\x7f')), (.leftBracket, .shift (.char '[') (.char '{')),
   (.rightBracket, .shift (.char ']') (.char '}')), (.backslash, .shift (.char '\\') (.char '|')),
   (.colon, .shift (.char ';') (.char ':')), (.quote, .shift (.char '\'') (.char '"')),
   (.enter, .simple (.char '\n')), (.comma, .shift (.char ',') (.char '<')),
   (.period, .shift (.char '.') (.char '>')), (.slash, .shift (.char '/') (.char '?')),
   (.space, .simple (.char ' ')), (.a, .shiftCaps (.char 'a') (.char 'A')),
   (.b, .shiftCaps (.char 'b') (.char 'B')), (.c, .shiftCaps (.char 'c') (.char 'C')),
   (.d, .shiftCaps (.char 'd') (.char 'D')), (.e, .shiftCaps (.char 'e') (.char 'E')),
   (.f, .shiftCaps (.char 'f') (.char 'F')), (.g, .shiftCaps (.char 'g') (.char 'G')),
   (.h, .shiftCaps (.char 'h') (.char 'H')), (.i, .shiftCaps (.char 'i') (.char 'I')),
   (.j, .shiftCaps (.char 'j') (.char 'J')), (.k, .shiftCaps (.char 'k') (.char 'K')),
   (.l, .shiftCaps (.char 'l') (.char 'L')), (.m, .shiftCaps (.char 'm') (.char 'M')),
   (.n, .shiftCaps (.char 'n') (.char 'N')), (.o, .shiftCaps (.char 'o') (.char 'O')),
   (.p, .shiftCaps (.char 'p') (.char 'P')), (.q, .shiftCaps (.char 'q') (.char 'Q')),
   (.r, .shiftCaps (.char 'r') (.char 'R')), (.s, .shiftCaps (.char 's') (.char 'S')),
   (.t, .shiftCaps (.char 't') (.char 'T')), (.u, .shiftCaps (.char 'u') (.char 'U')),
   (.v, .shiftCaps (.char 'v') (.char 'V')), (.w, .shiftCaps (.char 'w') (.char 'W')),
   (.x, .shiftCaps (.char 'x') (.char 'X')), (.y, .shiftCaps (.char 'y') (.char 'Y')),
   (.z, .shiftCaps (.char 'z') (.char 'Z')), (.numpadSlash, .simple (.char '/')),
   (.numpadTimes, .simple (.char '*')), (.numpadMinus, .simple (.char '-')),
   (.numpadPlus, .simple (.char '+')), (.numpadDot, .numLock .none (.char '.')),
   (.numpadEnter, .simple (.char '\n')), (.numpad0, .numLock .none (.char '0')),
   (.numpad1, .numLock .none (.char '1')), (.numpad2, .numLock .none (.char '2')),
   (.numpad3, .numLock .none (.char '3')), (.numpad4, .numLock .none (.char '4')),
   (.numpad5, .numLock .none (.char '5')), (.numpad6, .numLock .none (.char '6')),
   (.numpad7, .numLock .none (.char '7')), (.numpad8, .numLock .none (.char '8')),
   (.numpad9, .numLock .none (.char '9')), (.upArrow, .simple (.str "\x1b[A".toList)),
   (.downArrow, .simple (.str "\x1b[B".toList)), (.leftArrow, .simple (.str "\x1b[D".toList)),
   (.rightArrow, .simple (.str "\x1b[C".toList))]

/-- `qwerty_us::KEYMAP`. -/
def qwertyUs : Except Unit KeycodeMap := KeycodeMap.build qwertyUsEntries

/-- `get_keymap`. -/
def getKeymap (name : List Char) : Option (Except Unit KeycodeMap) :=
  if name = "qwerty-us".toList then some qwertyUs else none

/-- `KeycodeMap::fallback`. -/
def KeycodeMap.fallback : Except Unit KeycodeMap := qwertyUs

/-- The loop that sets the entries sets those that were not set before. -/
theorem foldlM_setCommon {entries : List (CommonKeycode × KeycodeMapEntry)} {map : KeycodeMap}
    (hnodup : (entries.map Prod.fst).Nodup)
    (hunset : ∀ key ∈ entries.map Prod.fst, (map.common key).isUnset = true) :
    ∃ map', entries.foldlM (fun map e => map.setCommon e.1 e.2) map = .ok map' ∧
      ∀ key, map'.common key = (entries.lookup key).getD (map.common key) := by
  induction entries generalizing map with
  | nil => exact ⟨map, rfl, fun key => rfl⟩
  | cons e entries ih =>
      rw [List.map_cons, List.nodup_cons] at hnodup
      rw [List.map_cons, List.forall_mem_cons] at hunset
      obtain ⟨map', hmap', hcommon⟩ := @ih ⟨Function.update map.common e.1 e.2⟩ hnodup.2 (by
        intro key hkey
        have hne : key ≠ e.1 := fun heq => hnodup.1 (heq ▸ hkey)
        dsimp only
        rw [Function.update_of_ne hne]
        exact hunset.2 key hkey)
      refine ⟨map', ?_, fun key => ?_⟩
      · rw [List.foldlM_cons, KeycodeMap.setCommon, ensure_pos hunset.1]
        exact hmap'
      · rw [hcommon key, List.lookup_cons]
        by_cases heq : key = e.1
        · have hnone : entries.lookup key = none := by
            rw [List.lookup_eq_none_iff]
            intro p hp
            have hne : key ≠ p.1 := fun hkey =>
              hnodup.1 (heq ▸ hkey ▸ List.mem_map_of_mem hp)
            simpa using hne
          rw [hnone, heq, BEq.rfl, Option.getD_none]
          dsimp only
          rw [Function.update_self]
          rfl
        · rw [beq_false_of_ne heq]
          dsimp only
          rw [Function.update_of_ne heq]

/-- **Setting different entries** makes a map of keys that has them. -/
theorem build_spec {entries : List (CommonKeycode × KeycodeMapEntry)}
    (hnodup : (entries.map Prod.fst).Nodup) :
    ∃ map, KeycodeMap.build entries = .ok map ∧
      ∀ key, map.common key = (entries.lookup key).getD (.simple .none) :=
  foldlM_setCommon hnodup fun _ _ => rfl

/-- No entry of the US keyboard is set twice. -/
theorem nodup_qwertyUsEntries : (qwertyUsEntries.map Prod.fst).Nodup := by
  decide +kernel

/-- The map of keys of the US keyboard. -/
theorem qwertyUs_spec {map : KeycodeMap} (hmap : qwertyUs = .ok map) (key : CommonKeycode) :
    map.common key = (qwertyUsEntries.lookup key).getD (.simple .none) := by
  obtain ⟨map', hmap', hcommon⟩ := build_spec nodup_qwertyUsEntries
  obtain rfl := Except.ok.inj (hmap.symm.trans hmap')
  exact hcommon key

/-- The fallback map can be built. -/
theorem fallback_ok : ∃ map, KeycodeMap.fallback = .ok map := by
  obtain ⟨map, hmap, -⟩ := build_spec nodup_qwertyUsEntries
  exact ⟨map, hmap⟩

/-! ### Typing characters -/

/-- The character that an entry types without locks, if it types one. -/
def KeycodeMapEntry.typed (shift : Bool) : KeycodeMapEntry → Option Char
  | .simple (.char c) => some c
  | .shift (.char no) (.char yes) => some (if shift then yes else no)
  | .shiftCaps (.char no) (.char yes) => some (if shift then yes else no)
  | _ => none

/-- A key, with its scancode and whether shift is pressed, and the character that it types. -/
structure Stroke where
  code : UInt8
  key : CommonKeycode
  shift : Bool
  ch : Char
  deriving DecidableEq

/-- The strokes of the US keyboard. -/
def strokes : List Stroke :=
  basicKeys.flatMap fun p => [false, true].filterMap fun shift =>
    ((qwertyUsEntries.lookup p.2).bind fun e => e.typed shift).map fun c => ⟨p.1, p.2, shift, c⟩

/-- The first stroke that types a character. -/
def stroke (c : Char) : Option Stroke := strokes.find? fun p => p.ch = c

/-- The characters of a US keyboard: printable ones, newline, and delete. -/
def Printable (c : Char) : Prop := c = '\n' ∨ c = '\x7f' ∨ (' ' ≤ c ∧ c ≤ '~')

instance (c : Char) : Decidable (Printable c) := inferInstanceAs (Decidable (_ ∨ _))

/-- A key of a stroke can be sent, is not a modifier and not a lock. -/
def Stroke.Plain (p : Stroke) : Prop :=
  (p.code ≠ 0xE0 ∧ p.code ≠ 0xE1 ∧ p.code ≠ 0xF0) ∧ basicKeys.lookup p.code = some p.key ∧
    (∀ pressed, (ModifierState.none.handleKeyStateChanged (.common p.key) pressed).1 = false) ∧
    (KeyboardLockState.none.handleKeyPressed (.common p.key)).1 = false

instance (p : Stroke) : Decidable p.Plain := inferInstanceAs (Decidable (_ ∧ _))

/-- All strokes are plain. -/
theorem plain_of_mem_strokes : ∀ p ∈ strokes, p.Plain := by
  decide +kernel

/-- A stroke types its character. -/
theorem typed_of_mem_strokes {p : Stroke} (hp : p ∈ strokes) :
    ((qwertyUsEntries.lookup p.key).bind fun e => e.typed p.shift) = some p.ch := by
  obtain ⟨q, -, hp⟩ := List.mem_flatMap.mp hp
  obtain ⟨shift, -, hp⟩ := List.mem_filterMap.mp hp
  obtain ⟨c, hc, rfl⟩ := Option.map_eq_some_iff.mp hp
  exact hc

/-- **Every printable character** is typed by some key. -/
theorem stroke_printable {c : Char} (hc : Printable c) :
    ∃ p, stroke c = some p ∧ p ∈ strokes ∧ p.ch = c := by
  have hall : ∀ n < 128, Printable (Char.ofNat n) → (stroke (Char.ofNat n)).isSome = true := by
    decide +kernel
  have hlt : c.toNat < 128 := by
    rcases hc with rfl | rfl | ⟨-, hle⟩
    · decide
    · decide
    · exact Nat.lt_of_le_of_lt hle (by decide)
  have hsome := hall c.toNat hlt
  rw [Char.ofNat_toNat] at hsome
  obtain ⟨p, hp⟩ := Option.isSome_iff_exists.mp (hsome hc)
  refine ⟨p, hp, List.mem_of_find?_eq_some hp, ?_⟩
  have hch := List.find?_some (p := fun p : Stroke => decide (p.ch = c)) hp
  exact of_decide_eq_true hch

/-- The character that a key types, if only shift can be pressed and caps lock is off. -/
theorem get_of_typed {map : KeycodeMap} (hmap : qwertyUs = .ok map) {p : Stroke}
    (hp : p ∈ strokes) {lockState : KeyboardLockState} {mods : ModifierState}
    (hcaps : lockState.capsLock = false) (hctrl : mods.ctrl = false) (halt : mods.alt = false)
    (hsuper : mods.superKey = false) (hshift : mods.shift = p.shift) :
    map.get (.common p.key) lockState mods = some (.char p.ch) := by
  have htyped := typed_of_mem_strokes hp
  rw [KeycodeMap.get, hctrl, halt, hsuper, hshift, hcaps, if_neg (by simp),
    qwertyUs_spec hmap]
  obtain ⟨e, hlookup, htyped⟩ := Option.bind_eq_some_iff.mp htyped
  rw [hlookup, Option.getD_some]
  unfold KeycodeMapEntry.typed at htyped
  split at htyped
  · obtain rfl := Option.some.inj htyped
    rfl
  · rw [← Option.some.inj htyped]
    cases p.shift <;> rfl
  · rw [← Option.some.inj htyped]
    cases p.shift <;> rfl
  · cases htyped

end HydroxKernel.Keyboard
