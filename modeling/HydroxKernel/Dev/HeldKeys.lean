import HydroxKernel.Dev.KeyEvents
import HydroxKernel.Dev.KeyTables

/-!
# Held Keys

The keys that are held are kept as one flag for each common key, and reported in the order of the
keys: they are collected in a buffer of 32, which is handed to a callback whenever it is full and
once more at the end. A key is held from the scancode of its being pressed to the one of its being
released.

## Main results

* `forAllHeldImpl_spec`: what is reported, and in which batches.
* `held_keys`: in every reached state, the keys that are reported are those whose last scancode was
  the one of their being pressed.
-/

namespace HydroxKernel.Keyboard

/-- What reporting the keys that are held panics with. -/
inductive HeldPanic
  | index
  | keycode
  deriving DecidableEq

/-- `CommonKeycode::NUM_KEYCODES`. -/
def CommonKeycode.numKeycodes : ℕ := CommonKeycode.numpad9.ctorIdx + 1

/-- `CommonKeycode::try_from`, of a `usize`. -/
def CommonKeycode.tryFrom (value : ℕ) : Option CommonKeycode :=
  if value < 256 then
    if value < numKeycodes then some (.ofNat value) else none
  else none

/-- `Ps2KeyboardHeldKeys::is_held`. -/
def isHeld (held : CommonKeycode → Bool) : Keycode → Bool
  | .common key => held key
  | .deviceSpecific _ => false

variable {σ : Type}

/-- The variables of the loop of `for_all_held_impl`, and the state of its callback. -/
structure HeldLoop (σ : Type) where
  buf : List Keycode
  len : ℕ
  state : σ

/-- One turn of the loop of `for_all_held_impl`. The flag with the number `i` is that of the key
with this number. -/
def heldTurn (held : CommonKeycode → Bool) (f : σ → List Keycode → σ) (v : HeldLoop σ) (i : ℕ) :
    Except HeldPanic (HeldLoop σ) :=
  if held (.ofNat i) then
    match CommonKeycode.tryFrom i with
    | none => .error .keycode
    | some key => do
        ensure (v.len < v.buf.length) .index
        let v := { v with buf := v.buf.set v.len (.common key), len := v.len + 1 }
        if v.len = v.buf.length then return { v with len := 0, state := f v.state v.buf }
        else return v
  else return v

/-- `Ps2KeyboardHeldKeys::for_all_held_impl`, with a callback that changes a state. -/
def forAllHeldImpl (held : CommonKeycode → Bool) (f : σ → List Keycode → σ) (a : σ) :
    Except HeldPanic σ := do
  let v ← (List.range CommonKeycode.numKeycodes).foldlM (heldTurn held f)
    ⟨List.replicate 32 (.deviceSpecific 0), 0, a⟩
  if v.len ≠ 0 then return f v.state (v.buf.take v.len) else return v.state

/-- `KeyboardHeldKeysExt::for_all_held`. -/
def forAllHeld (held : CommonKeycode → Bool) (f : σ → Keycode → σ) (a : σ) : Except HeldPanic σ :=
  forAllHeldImpl held (fun a keys => keys.foldl f a) a

/-! ### Reporting -/

/-- The first `n` common keys that satisfy `p`, in their order. -/
def keysBelow (n : ℕ) (p : Keycode → Bool) : List Keycode :=
  ((List.range n).map fun i => Keycode.common (.ofNat i)).filter p

/-- All common keys that satisfy `p`, in their order. -/
def keysWith (p : Keycode → Bool) : List Keycode := keysBelow CommonKeycode.numKeycodes p

/-- The keys below one more. -/
theorem keysBelow_succ (n : ℕ) (p : Keycode → Bool) :
    keysBelow (n + 1) p = keysBelow n p ++ if p (.common (.ofNat n)) then [.common (.ofNat n)]
      else [] := by
  rw [keysBelow, List.range_succ, List.map_append, List.filter_append, List.map_singleton,
    List.filter_singleton, Bool.cond_eq_ite]
  rfl

/-- A list in batches of `n`, of which only the last one may be shorter, but not empty. -/
structure IsBatches {α : Type} (n : ℕ) (l : List α) (batches : List (List α)) : Prop where
  flatten : batches.flatten = l
  full : ∀ b ∈ batches.dropLast, b.length = n
  last : ∀ b ∈ batches, 0 < b.length ∧ b.length ≤ n

/-- Full batches, and a last one that is not full. -/
theorem IsBatches.append {α : Type} {n : ℕ} {batches : List (List α)} {rest : List α}
    (hn : 0 < n) (hbatches : ∀ b ∈ batches, b.length = n) (hrest : rest.length < n) :
    IsBatches n (batches.flatten ++ rest) (batches ++ if rest.length ≠ 0 then [rest] else []) := by
  by_cases h : rest.length ≠ 0
  · rw [if_pos h]
    refine ⟨?_, ?_, ?_⟩
    · rw [List.flatten_append, List.flatten_singleton]
    · rw [List.dropLast_concat]
      exact hbatches
    · rintro b hb
      rcases List.mem_append.mp hb with hb | hb
      · rw [hbatches b hb]
        exact ⟨hn, Nat.le_refl n⟩
      · obtain rfl := List.mem_singleton.mp hb
        exact ⟨Nat.pos_of_ne_zero h, Nat.le_of_lt hrest⟩
  · rw [if_neg h, List.append_nil, List.length_eq_zero_iff.mp (not_not.mp h), List.append_nil]
    refine ⟨rfl, fun b hb => hbatches b (List.dropLast_subset _ hb), fun b hb => ?_⟩
    rw [hbatches b hb]
    exact ⟨hn, Nat.le_refl n⟩

/-- The loop of `for_all_held_impl` after `n` flags: the callback got full batches, and the rest is
in the buffer. -/
def HeldLoop.Reported (held : CommonKeycode → Bool) (f : σ → List Keycode → σ) (a : σ) (n : ℕ)
    (v : HeldLoop σ) : Prop :=
  v.buf.length = 32 ∧ v.len < 32 ∧ ∃ batches : List (List Keycode),
    (∀ b ∈ batches, b.length = 32) ∧ v.state = batches.foldl f a ∧
      batches.flatten ++ v.buf.take v.len = keysBelow n (isHeld held)

/-- **A turn of the loop** does not panic, and reports one more flag. -/
theorem HeldLoop.Reported.turn {held : CommonKeycode → Bool} {f : σ → List Keycode → σ} {a : σ}
    {n : ℕ} {v : HeldLoop σ} (hv : v.Reported held f a n) (hn : n < CommonKeycode.numKeycodes) :
    ∃ v', heldTurn held f v n = .ok v' ∧ v'.Reported held f a (n + 1) := by
  obtain ⟨hbuf, hlen, batches, hfull, hstate, hkeys⟩ := hv
  rw [heldTurn]
  by_cases hheld : held (.ofNat n) = true
  · have hkey : CommonKeycode.tryFrom n = some (.ofNat n) := by
      rw [CommonKeycode.tryFrom, if_pos (Nat.lt_trans hn (by decide)), if_pos hn]
    have htake : (v.buf.set v.len (.common (.ofNat n))).take (v.len + 1) =
        v.buf.take v.len ++ [.common (.ofNat n)] := by
      rw [List.take_add_one, List.getElem?_set_self (hbuf ▸ hlen),
        List.take_set_of_le (Nat.le_refl _), Option.toList_some]
    have hnext : batches.flatten ++ (v.buf.set v.len (.common (.ofNat n))).take (v.len + 1) =
        keysBelow (n + 1) (isHeld held) := by
      rw [htake, ← List.append_assoc, hkeys, keysBelow_succ, isHeld, if_pos hheld]
    rw [if_pos hheld, hkey]
    dsimp only
    rw [ensure_pos (hbuf ▸ hlen), ok_bind, List.length_set]
    by_cases hlast : v.len + 1 = v.buf.length
    · rw [if_pos hlast]
      refine ⟨_, rfl, (List.length_set).trans hbuf, Nat.zero_lt_succ 31,
        batches ++ [v.buf.set v.len (.common (.ofNat n))], ?_, ?_, ?_⟩
      · intro b hb
        rcases List.mem_append.mp hb with hb | hb
        · exact hfull b hb
        · rw [List.mem_singleton.mp hb, List.length_set, hbuf]
      · rw [List.foldl_concat, ← hstate]
      · rw [List.take_zero, List.append_nil, List.flatten_append, List.flatten_singleton, ← hnext,
          List.take_of_length_le]
        rw [List.length_set, hlast]
    · rw [if_neg hlast]
      exact ⟨_, rfl, (List.length_set).trans hbuf, by dsimp only; omega, batches, hfull, hstate,
        hnext⟩
  · rw [if_neg hheld]
    refine ⟨v, rfl, hbuf, hlen, batches, hfull, hstate, ?_⟩
    rw [hkeys, keysBelow_succ, isHeld, if_neg hheld, List.append_nil]

/-- **The keys that are held** are reported in their order, in batches of 32. -/
theorem forAllHeldImpl_spec (held : CommonKeycode → Bool) (f : σ → List Keycode → σ) (a : σ) :
    ∃ batches, forAllHeldImpl held f a = .ok (batches.foldl f a) ∧
      IsBatches 32 (keysWith (isHeld held)) batches := by
  have hstart : HeldLoop.Reported held f a 0 ⟨List.replicate 32 (.deviceSpecific 0), 0, a⟩ :=
    ⟨rfl, Nat.zero_lt_succ 31, [], fun b hb => absurd hb List.not_mem_nil, rfl, rfl⟩
  obtain ⟨v, hloop, hbuf, hlen, batches, hfull, hstate, hkeys⟩ := foldlM_invariant
    (HeldLoop.Reported held f a) hstart fun i hi v hv => by
      rw [List.getElem_range]
      rw [List.length_range] at hi
      exact hv.turn hi
  rw [List.length_range] at hkeys
  have hlength : (v.buf.take v.len).length = v.len := by
    rw [List.length_take, hbuf]
    exact Nat.min_eq_left (Nat.le_of_lt hlen)
  have hbatches := IsBatches.append (Nat.zero_lt_succ 31) hfull (hlength.trans_lt hlen)
  rw [hkeys, hlength] at hbatches
  refine ⟨_, ?_, hbatches⟩
  rw [forAllHeldImpl, hloop, ok_bind, List.foldl_append, ← hstate]
  by_cases hne : v.len ≠ 0
  · rw [if_pos hne, if_pos hne]
    rfl
  · rw [if_neg hne, if_neg hne]
    rfl

/-- A callback for one key gets every key that is held once. -/
theorem forAllHeld_spec (held : CommonKeycode → Bool) (f : σ → Keycode → σ) (a : σ) :
    forAllHeld held f a = .ok ((keysWith (isHeld held)).foldl f a) := by
  obtain ⟨batches, hreport, hbatches⟩ := forAllHeldImpl_spec held (fun a keys => keys.foldl f a) a
  rw [forAllHeld, hreport, ← hbatches.flatten, List.foldl_flatten]

/-! ### Runs -/

/-- Whether the last of the scancodes of a key was the one of its being pressed. -/
def heldAfter (map : ScancodeMap) (scancodes : List (Option Scancode)) (key : Keycode) : Bool :=
  ((scancodes.filterMap id).reverse.find? fun scancode => map.get scancode.key = some key).any
    fun scancode => !scancode.released

variable {k k' : Ps2Keyboard} {s t : State} {map : ScancodeMap}

/-- A scancode changes its key. -/
theorem heldAfter_concat (scancodes : List (Option Scancode)) (scancode : Scancode)
    (key : Keycode) :
    heldAfter map (scancodes ++ [some scancode]) key =
      if map.get scancode.key = some key then !scancode.released
      else heldAfter map scancodes key := by
  have happend : (scancodes ++ [some scancode]).filterMap id =
      scancodes.filterMap id ++ [scancode] := List.filterMap_append
  rw [heldAfter, happend, List.reverse_concat, List.find?_cons]
  by_cases h : map.get scancode.key = some key
  · rw [if_pos h, decide_eq_true h]
    rfl
  · rw [if_neg h, decide_eq_false h]
    rfl

/-- A byte that ends no scancode changes no key. -/
theorem heldAfter_concat_none (scancodes : List (Option Scancode)) (key : Keycode) :
    heldAfter map (scancodes ++ [none]) key = heldAfter map scancodes key := by
  have happend : (scancodes ++ [none]).filterMap id = scancodes.filterMap id ++ [] :=
    List.filterMap_append
  rw [heldAfter, happend, List.append_nil, heldAfter]

/-- A key that changes is held if it is pressed, and the others are as before. -/
theorem setHeld_common (held : CommonKeycode → Bool) (key : Keycode) (pressed : Bool)
    (other : CommonKeycode) :
    setHeld held key pressed other = if key = .common other then pressed else held other := by
  cases key with
  | deviceSpecific code => exact (if_neg fun h => by cases h).symm
  | common key =>
      rw [setHeld, Function.update_apply]
      exact if_congr ⟨fun h => h ▸ rfl, fun h => (Keycode.common.inj h).symm⟩ rfl rfl

/-- What the operations besides interrupts leave alone. -/
structure SameHeld (k k' : Ps2Keyboard) : Prop where
  heldKeys : k'.internal.heldKeys = k.internal.heldKeys
  scancodeMap : k'.internal.scancodeMap = k.internal.scancodeMap

/-- An operation on a block leaves the internals. -/
theorem internal_of_onBlock {id : ℕ} {op : Future.Op KeyResult} {outcome : Future.Outcome KeyResult}
    (h : k.onBlock id op = .ok (k', outcome)) : k'.internal = k.internal := by
  unfold Ps2Keyboard.onBlock at h
  split at h
  · cases h
  · obtain ⟨r, -, h⟩ := bind_eq_ok.mp h
    obtain ⟨rfl, -⟩ := Prod.mk.inj (Except.ok.inj h)
    rfl

/-- A key that changes is the only one. -/
theorem held_of_handleKeyStateChanged {key : Keycode} {pressed : Bool}
    {r : Option (KeyPress × Bool)} (h : k.handleKeyStateChanged key pressed = .ok (r, k')) :
    k'.internal.heldKeys = setHeld k.internal.heldKeys key pressed ∧
      k'.internal.scancodeMap = k.internal.scancodeMap := by
  cases pressed with
  | false =>
      rw [handleKeyStateChanged_released] at h
      obtain ⟨-, rfl⟩ := Prod.mk.inj (Except.ok.inj h)
      exact ⟨rfl, rfl⟩
  | true =>
      unfold Ps2Keyboard.handleKeyStateChanged at h
      obtain ⟨⟨kept, k₁⟩, hdeliver, h⟩ := bind_eq_ok.mp h
      obtain ⟨-, rfl⟩ := Prod.mk.inj (Except.ok.inj h)
      refine ⟨?_, ?_⟩
      · dsimp only
        rw [same_of_deliver hdeliver]
      · dsimp only
        rw [same_of_deliver hdeliver]

/-- **An interrupt** changes the key whose scancode it ends. -/
theorem held_of_handleInterrupt {b : UInt8} {scancode : Option Scancode}
    {r : Option (KeyPress × Bool)} (h : k.handleInterrupt (some b) = .ok (scancode, r, k'))
    {scancodes : List (Option Scancode)}
    (hheld : ∀ code,
      k.internal.heldKeys code = heldAfter k.internal.scancodeMap scancodes (.common code)) :
    (∀ code, k'.internal.heldKeys code =
      heldAfter k.internal.scancodeMap (scancodes ++ [scancode]) (.common code)) ∧
      k'.internal.scancodeMap = k.internal.scancodeMap := by
  unfold Ps2Keyboard.handleInterrupt at h
  obtain ⟨⟨scancode', sbuf⟩, -, h⟩ := bind_eq_ok.mp h
  cases scancode' with
  | none =>
      obtain ⟨rfl, hk⟩ := Prod.mk.inj (Except.ok.inj h)
      obtain ⟨-, rfl⟩ := Prod.mk.inj hk
      refine ⟨fun code => ?_, rfl⟩
      rw [heldAfter_concat_none]
      exact hheld code
  | some scancode' =>
      dsimp only at h
      cases hkey : k.internal.scancodeMap.get scancode'.key with
      | none =>
          rw [hkey] at h
          obtain ⟨rfl, hk⟩ := Prod.mk.inj (Except.ok.inj h)
          obtain ⟨-, rfl⟩ := Prod.mk.inj hk
          refine ⟨fun code => ?_, rfl⟩
          rw [heldAfter_concat, if_neg (by rw [hkey]; exact Option.some_ne_none _ ∘ Eq.symm)]
          exact hheld code
      | some key =>
          rw [hkey] at h
          obtain ⟨⟨r', k₁⟩, hchanged, h⟩ := bind_eq_ok.mp h
          obtain ⟨rfl, hk⟩ := Prod.mk.inj (Except.ok.inj h)
          obtain ⟨-, rfl⟩ := Prod.mk.inj hk
          obtain ⟨hset, hmap⟩ := held_of_handleKeyStateChanged hchanged
          refine ⟨fun code => ?_, hmap⟩
          rw [hset, setHeld_common, heldAfter_concat, hkey]
          exact if_congr ⟨fun h => h ▸ rfl, Option.some.inj⟩ rfl (hheld code)

/-- A call of `next_key` leaves the keys that are held. -/
theorem same_of_nextKey {future : KeyFuture} (h : k.nextKey = .ok (future, k')) :
    SameHeld k k' := by
  unfold Ps2Keyboard.nextKey at h
  obtain ⟨⟨front, buf⟩, -, h⟩ := bind_eq_ok.mp h
  dsimp only at h
  split at h
  · obtain ⟨-, rfl⟩ := Prod.mk.inj (Except.ok.inj h)
    exact ⟨rfl, rfl⟩
  · obtain ⟨⟨k₁, outcome⟩, hblock, h⟩ := bind_eq_ok.mp h
    obtain ⟨-, rfl⟩ := Prod.mk.inj (Except.ok.inj h)
    have hinternal := internal_of_onBlock hblock
    exact ⟨by rw [hinternal], by rw [hinternal]⟩
  · obtain ⟨-, rfl⟩ := Prod.mk.inj (Except.ok.inj h)
    exact ⟨rfl, rfl⟩

/-- A reader that waits leaves the keys that are held, and the scancodes. -/
theorem same_of_await (h : s.await = .ok t) :
    SameHeld s.kbd t.kbd ∧ t.scancodes = s.scancodes := by
  unfold State.await at h
  split at h
  · obtain rfl := Except.ok.inj h
    exact ⟨⟨rfl, rfl⟩, rfl⟩
  · obtain rfl := Except.ok.inj h
    exact ⟨⟨rfl, rfl⟩, rfl⟩
  · obtain ⟨⟨k₁, outcome⟩, hblock, h⟩ := bind_eq_ok.mp h
    have hinternal := internal_of_onBlock hblock
    dsimp only at h
    split at h
    all_goals
      obtain rfl := Except.ok.inj h
      exact ⟨⟨by rw [hinternal], by rw [hinternal]⟩, rfl⟩

/-- The keys that are held are those that the scancodes say are. -/
structure HeldInv (map : ScancodeMap) (s : State) : Prop where
  map_eq : s.kbd.internal.scancodeMap = map
  held : ∀ code, s.kbd.internal.heldKeys code = heldAfter map s.scancodes (.common code)

/-- What leaves the keys that are held and the scancodes keeps the invariant. -/
theorem HeldInv.congr (hs : HeldInv map s) (hsame : SameHeld s.kbd t.kbd)
    (hscancodes : t.scancodes = s.scancodes) : HeldInv map t := by
  refine ⟨hsame.scancodeMap.trans hs.map_eq, fun code => ?_⟩
  rw [hsame.heldKeys, hscancodes]
  exact hs.held code

/-- **A step** by which no key changes but through an interrupt keeps the invariant. -/
theorem HeldInv.step (hs : HeldInv map s) {op : Op} (hop : ∀ key pressed, op ≠ .key key pressed)
    (h : Step s op t) : HeldInv map t := by
  obtain ⟨-, h⟩ := h
  cases op with
  | key key pressed => exact absurd rfl (hop key pressed)
  | interrupt b =>
      obtain ⟨⟨scancode, r, k'⟩, hinterrupt, h⟩ := bind_eq_ok.mp h
      obtain rfl := Except.ok.inj h
      cases b with
      | none =>
          obtain ⟨-, hk⟩ := Prod.mk.inj (Except.ok.inj hinterrupt)
          obtain ⟨-, rfl⟩ := Prod.mk.inj hk
          exact hs.congr ⟨rfl, rfl⟩ (List.append_nil _)
      | some b =>
          have hheld := hs.held
          rw [← hs.map_eq] at hheld
          obtain ⟨hheld', hmap⟩ := held_of_handleInterrupt hinterrupt hheld
          rw [hs.map_eq] at hheld' hmap
          exact ⟨hmap, hheld'⟩
  | nextKey =>
      obtain ⟨⟨future, k'⟩, hnext, h⟩ := bind_eq_ok.mp h
      obtain rfl := Except.ok.inj h
      exact hs.congr (same_of_nextKey hnext) rfl
  | await =>
      obtain ⟨hsame, hscancodes⟩ := same_of_await h
      exact hs.congr hsame hscancodes
  | setLockState lockState =>
      obtain rfl := Except.ok.inj h
      exact hs.congr ⟨rfl, rfl⟩ rfl
  | setKeymap keymap =>
      obtain rfl := Except.ok.inj h
      exact hs.congr ⟨rfl, rfl⟩ rfl

/-- The invariant at the end of a run. -/
theorem HeldInv.runs (hs : HeldInv map s) {ops : List Op}
    (hops : ∀ op ∈ ops, ∀ key pressed, op ≠ .key key pressed) (h : Runs Step s ops t) :
    HeldInv map t := by
  induction h with
  | refl => exact hs
  | snoc _ hlast ih =>
      obtain ⟨hops, hop⟩ := List.forall_mem_append.mp hops
      exact (ih hops).step (hop _ (List.mem_singleton_self _)) hlast

/-- What holds of the keys that are reported as held in a state. -/
structure HeldReported (map : ScancodeMap) (s : State) : Prop where
  isHeld : ∀ code,
    isHeld s.kbd.internal.heldKeys (.common code) = heldAfter map s.scancodes (.common code)
  batches : ∀ {σ : Type} (f : σ → List Keycode → σ) (a : σ), ∃ batches,
    forAllHeldImpl s.kbd.internal.heldKeys f a = .ok (batches.foldl f a) ∧
      IsBatches 32 (keysWith (heldAfter map s.scancodes)) batches
  keys : ∀ {σ : Type} (f : σ → Keycode → σ) (a : σ), forAllHeld s.kbd.internal.heldKeys f a =
    .ok ((keysWith (heldAfter map s.scancodes)).foldl f a)

/-- Only common keys are reported. -/
theorem keysWith_congr {p q : Keycode → Bool} (h : ∀ code, p (.common code) = q (.common code)) :
    keysWith p = keysWith q := by
  refine List.filter_congr fun key hkey => ?_
  obtain ⟨i, -, rfl⟩ := List.mem_map.mp hkey
  exact h _

/-- **Held keys**: in every state that a new keyboard reaches by interrupts, calls of `next_key`,
waits of its reader and changes of its settings, the keys that are reported as held are those of
which the last scancode that arrived was that of their being pressed, each once, in the order of
the keys, and without a panic. -/
theorem held_keys {scancodeMap : ScancodeMap} {keycodeMap : KeycodeMap} {ops : List Op} {s : State}
    (hops : ∀ op ∈ ops, ∀ key pressed, op ≠ .key key pressed)
    (h : Runs Step (.new scancodeMap keycodeMap) ops s) : HeldReported scancodeMap s := by
  have hinv := @HeldInv.runs _ _ scancodeMap ⟨rfl, fun code => rfl⟩ _ hops h
  have hkeys : keysWith (Keyboard.isHeld s.kbd.internal.heldKeys) =
      keysWith (heldAfter scancodeMap s.scancodes) := keysWith_congr hinv.held
  constructor
  case isHeld => exact hinv.held
  case batches =>
    intro σ f a
    rw [← hkeys]
    exact forAllHeldImpl_spec _ f a
  case keys =>
    intro σ f a
    rw [← hkeys]
    exact forAllHeld_spec _ f a

/-- Interrupts that do not panic make a run. -/
theorem runs_of_interrupts {bytes : List UInt8}
    (h : (bytes.map fun b => Op.interrupt (some b)).foldlM perform s = .ok t) :
    Runs Step s (bytes.map fun b => Op.interrupt (some b)) t := by
  induction bytes generalizing s with
  | nil =>
      obtain rfl := Except.ok.inj h
      exact .refl
  | cons b bytes ih =>
      obtain ⟨u, hfirst, hrest⟩ := bind_eq_ok.mp h
      exact .cons ⟨(fun h => by cases h), hfirst⟩ (ih hrest)

/-- The bytes of forty keys that are pressed, and of the first one that is released. -/
def fortyKeys : List UInt8 := ((basicKeys.take 40).map Prod.fst) ++ [0xF0, 0x01]

/-- The state after these bytes. -/
def fortyKeysHeld : State :=
  ((fortyKeys.map fun b => Op.interrupt (some b)).foldlM perform
    (.new scancode2Map keyA.2)).toOption.getD (.new scancode2Map keyA.2)

/-- More keys are held than are reported at once. -/
theorem held_keys_fortyKeys :
    Runs Step (.new scancode2Map keyA.2) (fortyKeys.map fun b => .interrupt (some b))
        fortyKeysHeld ∧
      (keysWith (heldAfter scancode2Map fortyKeysHeld.scancodes)).length = 39 ∧
      HeldReported scancode2Map fortyKeysHeld := by
  have hok : ((fortyKeys.map fun b => Op.interrupt (some b)).foldlM perform
      (.new scancode2Map keyA.2)).isOk = true := by
    decide +kernel
  have hrun : Runs Step (.new scancode2Map keyA.2) (fortyKeys.map fun b => .interrupt (some b))
      fortyKeysHeld := runs_of_interrupts (eq_ok_of_isOk hok _)
  refine ⟨hrun, by decide +kernel, held_keys ?_ hrun⟩
  intro op hop key pressed
  obtain ⟨b, -, rfl⟩ := List.mem_map.mp hop
  exact Op.noConfusion

end HydroxKernel.Keyboard
