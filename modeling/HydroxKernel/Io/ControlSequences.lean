import HydroxKernel.Io.VtGrid

/-!
# Control Sequences

A control sequence begins with an escape character and a bracket, goes on with parameters, and
ends with its final byte. The parser has to find the end, whether or not the parameters fit into
its buffer: what it takes for a parameter is not shown.

The colors of the text are set by a control sequence whose parameters are printed from one table
and parsed with another. Erasing to the end of the line is a control sequence, too.

## Main results

* `csi_ends_iff`: a control sequence ends at its final byte exactly if that is not a tilde.
* `sgr_round_trip`: colors are parsed as they are printed, and set in the terminal.
* `eraseToLineEnd_exact_iff`: when the rest of the line is erased, and nothing else.
-/

namespace HydroxKernel.Ansi

/-! ### The end of a control sequence -/

/-- Parameters that do not fit into the buffer are dropped. -/
theorem writeAll_overlong {bs : List UInt8} (hb : ∀ b ∈ bs, b < '@'.toUInt8) {p : AnsiParser}
    (hp : p.state = .partialCsi maxCsiLength) : p.writeAll bs = .ok ([], p) := by
  induction bs with
  | nil => rfl
  | cons b bs ih =>
      have hnot : ¬ IsFinal b := fun h =>
        absurd (hb b List.mem_cons_self) (UInt8.not_lt.mpr h.1)
      have hwrite : p.write b = .ok (none, p) := by
        rw [AnsiParser.write, hp]
        dsimp only
        rw [AnsiParser.writeCsi, if_pos rfl, if_neg hnot]
      exact writeAll_append (writeAll_singleton hwrite)
        (ih fun b' hb' => hb b' (List.mem_cons_of_mem _ hb'))

/-- After any number of parameters, the parser is in a control sequence. -/
theorem writeAll_args {bs : List UInt8} (hb : ∀ b ∈ bs, b < '@'.toUInt8) {p : AnsiParser}
    (hp : p.state = .normal) :
    ∃ p' i, p.writeAll (0x1b :: '['.toUInt8 :: bs) = .ok ([], p') ∧ p'.state = .partialCsi i ∧
      i ≤ maxCsiLength := by
  have htake := List.take_append_drop maxCsiLength bs
  have hle : (bs.take maxCsiLength).length ≤ maxCsiLength := List.length_take_le ..
  obtain ⟨p', hwrite, hstate, -⟩ :=
    writeAll_csi (fun b h => hb b (List.mem_of_mem_take h)) hle hp
  rcases Nat.lt_or_ge maxCsiLength bs.length with hlong | hfits
  · rw [List.length_take_of_le (Nat.le_of_lt hlong)] at hstate
    have hdrop : ∀ b ∈ bs.drop maxCsiLength, b < '@'.toUInt8 := fun b h =>
      hb b (List.mem_of_mem_drop h)
    have hrest := writeAll_overlong hdrop hstate
    refine ⟨p', maxCsiLength, ?_, hstate, Nat.le_refl _⟩
    have hall := writeAll_append hwrite hrest
    rwa [List.cons_append, List.cons_append, htake] at hall
  · rw [List.take_of_length_le hfits] at hwrite hstate
    exact ⟨p', _, hwrite, hstate, hfits⟩

/-- A final byte other than the tilde ends the sequence. -/
theorem csiByte_final {f : UInt8} (hf : IsFinal f) (args : List UInt8) :
    ∃ action, csiByte f args = .ok (some action) := by
  obtain ⟨r, hr⟩ := csiByte_isOk f args
  cases r with
  | some action => exact ⟨action, hr⟩
  | none =>
      exfalso
      rw [csiByte] at hr
      split at hr
      · obtain ⟨actions, -, h⟩ := bind_eq_ok.mp hr
        cases h
      · repeat' split at hr
        all_goals cases hr

/-- The tilde does not end the sequence. -/
theorem csiByte_tilde (args : List UInt8) : csiByte '~'.toUInt8 args = .ok none := rfl

/-- The sequence with these parameters and this final byte is over after the final byte, with at
most one action. -/
def Ends (p : AnsiParser) (args : List UInt8) (f : UInt8) : Prop :=
  ∃ actions p', p.writeAll (0x1b :: '['.toUInt8 :: args ++ [f]) = .ok (actions, p') ∧
    p'.state = .normal ∧ actions.length ≤ 1

/-- A final byte ends a sequence, with at most one action. -/
theorem write_final {p : AnsiParser} {i : ℕ} (hp : p.state = .partialCsi i)
    (hi : i ≤ maxCsiLength) {f : UInt8} (hf : IsFinal f) :
    ∃ action p', p.write f = .ok (action, p') ∧ p'.state = .normal := by
  rcases Nat.eq_or_lt_of_le hi with rfl | hlt
  · rw [AnsiParser.write, hp]
    dsimp only
    rw [AnsiParser.writeCsi, if_pos rfl, if_pos hf]
    exact ⟨none, _, rfl, rfl⟩
  · obtain ⟨action, haction⟩ := csiByte_final hf (p.args i)
    exact ⟨action, _, write_csi hp hlt haction, rfl⟩

/-- The tilde does not end a sequence. -/
theorem write_tilde {p : AnsiParser} {i : ℕ} (hp : p.state = .partialCsi i)
    (hi : i ≤ maxCsiLength) :
    ∃ p', p.write '~'.toUInt8 = .ok (none, p') ∧ p'.state ≠ .normal := by
  rcases Nat.eq_or_lt_of_le hi with rfl | hlt
  · have hnot : ¬ IsFinal '~'.toUInt8 := by decide
    rw [AnsiParser.write, hp]
    dsimp only
    rw [AnsiParser.writeCsi, if_pos rfl, if_neg hnot]
    refine ⟨p, rfl, ?_⟩
    rw [hp]
    exact ParserState.noConfusion
  · exact ⟨_, write_csi hp hlt (csiByte_tilde _), ParserState.noConfusion⟩

/-- **A control sequence ends at its final byte** exactly if that is not the tilde, whatever its
parameters are and however many. -/
theorem csi_ends_iff {p : AnsiParser} (hp : p.state = .normal) {args : List UInt8}
    (hargs : ∀ b ∈ args, 0x20 ≤ b ∧ b ≤ 0x3F) {f : UInt8} (hf : 0x40 ≤ f ∧ f ≤ 0x7E) :
    Ends p args f ↔ f ≠ 0x7E := by
  have hlt : ∀ b ∈ args, b < '@'.toUInt8 := fun b hb =>
    UInt8.lt_of_le_of_lt (hargs b hb).2 (by decide)
  obtain ⟨p₁, i, hwrite, hstate, hi⟩ := writeAll_args hlt hp
  constructor
  · rintro ⟨actions, p₂, hall, hnormal, -⟩ rfl
    obtain ⟨p', htilde, hp'⟩ := write_tilde hstate hi
    have hall' := writeAll_append hwrite (writeAll_singleton htilde)
    obtain ⟨-, rfl⟩ := Prod.mk.inj (Except.ok.inj (hall.symm.trans hall'))
    exact hp' hnormal
  · intro hne
    have hfinal : IsFinal f := ⟨hf.1, UInt8.lt_of_le_of_ne hf.2 hne⟩
    obtain ⟨action, p', hlast, hp'⟩ := write_final hstate hi hfinal
    refine ⟨_, p', writeAll_append hwrite (writeAll_singleton hlast), hp', ?_⟩
    cases action <;> simp

/-- Ninety bytes of parameters, more than fit into the buffer. -/
def manyParameters : List UInt8 :=
  (List.replicate 30 ['3'.toUInt8, '1'.toUInt8, ';'.toUInt8]).flatten

/-- A sequence whose parameters do not fit into the buffer ends. -/
theorem csi_ends_manyParameters :
    maxCsiLength < manyParameters.length ∧ Ends .new manyParameters 'm'.toUInt8 :=
  ⟨by decide +kernel, (csi_ends_iff rfl (by decide +kernel) (by decide)).mpr (by decide)⟩

/-- **A tilde is taken for a parameter**, and so is the text that follows: neither the tilde nor
the character after it ends the sequence of a function key, and nothing is shown. -/
theorem csi_tilde_swallows : ¬ Ends .new ['2'.toUInt8] 0x7E ∧
    (AnsiParser.new.writeAll ([0x1b] ++ asBytes ['[', '2', '~', '1', '2'])).map
      (fun r => (r.1, r.2.state)) = .ok ([], .partialCsi 4) := by
  refine ⟨?_, by rfl⟩
  rintro ⟨actions, p', hall, hnormal, -⟩
  have hstate : (AnsiParser.new.writeAll [0x1b, '['.toUInt8, '2'.toUInt8, 0x7E]).map
      (fun r => r.2.state) = .ok (.partialCsi 2) := rfl
  have hall' : AnsiParser.new.writeAll [0x1b, '['.toUInt8, '2'.toUInt8, 0x7E] =
      .ok (actions, p') := hall
  rw [hall'] at hstate
  exact ParserState.noConfusion (hnormal.symm.trans (Except.ok.inj hstate))

/-! ### Colors -/

/-- `AnsiColor::code_offset`. -/
def AnsiColor.codeOffset : AnsiColor → ℕ
  | .black => 0
  | .red => 1
  | .green => 2
  | .brown => 3
  | .blue => 4
  | .magenta => 5
  | .cyan => 6
  | .lightGray => 7
  | .darkGray => 60
  | .lightRed => 61
  | .lightGreen => 62
  | .yellow => 63
  | .lightBlue => 64
  | .pink => 65
  | .lightCyan => 66
  | .white => 67

/-- `Display for AnsiParserSgrAction`. -/
def SgrAction.display : SgrAction → List Char
  | .reset => ['0']
  | .setFgColor color => Nat.toDigits 10 (30 + color.codeOffset)
  | .setBgColor color => Nat.toDigits 10 (40 + color.codeOffset)

/-- Actions as the parameters of a control sequence. -/
def sgrParams (actions : List SgrAction) : List Char :=
  [';'].intercalate (actions.map SgrAction.display)

/-- The control sequence of actions. -/
def sgrSequence (actions : List SgrAction) : List Char :=
  '\x1b' :: '[' :: sgrParams actions ++ ['m']

/-- The command of an action. -/
def SgrAction.code : SgrAction → ℕ
  | .reset => 0
  | .setFgColor color => 30 + color.codeOffset
  | .setBgColor color => 40 + color.codeOffset

/-- An action is printed as its command. -/
theorem SgrAction.display_eq (action : SgrAction) :
    action.display = Nat.toDigits 10 action.code := by
  cases action <;> rfl

/-- What an action does to the colors of the text and of the background. -/
def SgrAction.setColors : AnsiColor × AnsiColor → SgrAction → AnsiColor × AnsiColor
  | _, .reset => (.white, .black)
  | (_, bgColor), .setFgColor color => (color, bgColor)
  | (fgColor, _), .setBgColor color => (fgColor, color)

/-- The two tables of colors fit together. -/
theorem fromCodeOffset_codeOffset (color : AnsiColor) :
    AnsiColor.fromCodeOffset color.codeOffset = some color := by
  cases color <;> rfl

/-- The offsets of colors are those of the color commands. -/
theorem codeOffset_mem (color : AnsiColor) :
    color.codeOffset ≤ 7 ∨ (60 ≤ color.codeOffset ∧ color.codeOffset ≤ 67) := by
  cases color <;> decide

/-- The command of an action has the action. -/
theorem sgrAction_code (action : SgrAction) : sgrAction action.code = .ok (some action) := by
  cases action with
  | reset => rfl
  | setFgColor color =>
      have hmem := codeOffset_mem color
      rw [SgrAction.code, sgrAction, if_neg (by omega), if_pos (by omega), sgrColor,
        Nat.add_sub_cancel_left, fromCodeOffset_codeOffset]
      rfl
  | setBgColor color =>
      have hmem := codeOffset_mem color
      rw [SgrAction.code, sgrAction, if_neg (by omega), if_neg (by omega), if_pos (by omega),
        sgrColor, Nat.add_sub_cancel_left, fromCodeOffset_codeOffset]
      rfl

/-- The commands of actions have the actions. -/
theorem sgrActions_codes {actions acc : List SgrAction}
    (hlen : acc.length + actions.length ≤ maxSgrCmds) :
    sgrActions acc (actions.map SgrAction.code) = .ok (acc ++ actions) := by
  induction actions generalizing acc with
  | nil => rw [List.append_nil]; rfl
  | cons action actions ih =>
      rw [List.length_cons] at hlen
      rw [List.map_cons, sgrActions, if_pos (by omega), sgrAction_code, ok_bind]
      dsimp only
      rw [ih (by rw [List.length_append, List.length_singleton]; omega), List.append_assoc]
      rfl

/-- A command is small. -/
theorem SgrAction.code_le (action : SgrAction) : action.code ≤ u32Max := by
  have hmax : u32Max = 4294967295 := rfl
  cases action with
  | reset => exact Nat.zero_le _
  | setFgColor color =>
      have hmem := codeOffset_mem color
      rw [SgrAction.code]
      omega
  | setBgColor color =>
      have hmem := codeOffset_mem color
      rw [SgrAction.code]
      omega

/-- A digit is added to the command. -/
theorem SgrScan.next_digit (scan : SgrScan) {d : ℕ} (hd : d < 10)
    (hmax : scan.current * 10 + d ≤ u32Max) :
    scan.next d.digitChar.toUInt8 = { scan with current := scan.current * 10 + d } := by
  have hbyte : ∀ d < 10, d.digitChar.toUInt8 ≠ ';'.toUInt8 ∧ '0'.toUInt8 ≤ d.digitChar.toUInt8 ∧
      d.digitChar.toUInt8 ≤ '9'.toUInt8 ∧ d.digitChar.toUInt8.toNat - '0'.toNat = d := by decide
  obtain ⟨hne, hlo, hhi, hval⟩ := hbyte d hd
  have hmul : scan.current * 10 ≤ u32Max := by omega
  rw [SgrScan.next, if_neg hne, if_pos ⟨hlo, hhi⟩, hval, Nat.min_eq_left hmul,
    Nat.min_eq_left hmax]

/-- The digits of a number are the command. -/
theorem foldl_next_toDigits {n : ℕ} (hn : n ≤ u32Max) (cmds : List ℕ) :
    ((Nat.toDigits 10 n).map Char.toUInt8).foldl SgrScan.next ⟨cmds, 0⟩ = ⟨cmds, n⟩ := by
  induction n using Nat.strongRecOn with
  | ind n ih =>
      rcases Nat.lt_or_ge n 10 with hlt | hge
      · rw [Nat.toDigits_of_lt_base hlt]
        have hdigit := SgrScan.next_digit ⟨cmds, 0⟩ hlt (by dsimp only; omega)
        rwa [Nat.zero_mul, Nat.zero_add] at hdigit
      · rw [Nat.toDigits_of_base_le (by decide) hge, List.map_append, List.foldl_append,
          ih (n / 10) (by omega) (by omega)]
        have hdigit := SgrScan.next_digit ⟨cmds, n / 10⟩ (Nat.mod_lt n (by decide))
          (by dsimp only; omega)
        refine hdigit.trans (congrArg (SgrScan.mk cmds) ?_)
        dsimp only
        omega

/-- A command ends, and is kept if it is among the first. -/
theorem SgrScan.push_eq {scan : SgrScan} (hlen : scan.cmds.length ≤ maxSgrCmds) :
    scan.push = ⟨(scan.cmds ++ [scan.current]).take maxSgrCmds, 0⟩ := by
  rw [SgrScan.push]
  split
  · rename_i hlt
    rw [List.take_of_length_le]
    rw [List.length_append, List.length_singleton]
    exact hlt
  · rename_i hge
    rw [List.take_left' (Nat.le_antisymm hlen (Nat.not_lt.mp hge))]

/-- What is cut off twice. -/
theorem take_take_append {α : Type} (n : ℕ) (xs ys : List α) :
    (xs.take n ++ ys).take n = (xs ++ ys).take n := by
  rw [List.take_append, List.take_append, List.take_take, Nat.min_self, List.length_take]
  congr 2
  omega

/-- **The commands are parsed as they are printed**, as far as there is room. -/
theorem foldl_next_sgrParams {actions : List SgrAction} (hne : actions ≠ []) {cmds : List ℕ}
    (hlen : cmds.length ≤ maxSgrCmds) :
    (((sgrParams actions).map Char.toUInt8).foldl SgrScan.next ⟨cmds, 0⟩).push.cmds =
      (cmds ++ actions.map SgrAction.code).take maxSgrCmds := by
  induction actions generalizing cmds with
  | nil => exact absurd rfl hne
  | cons action actions ih =>
      have hcode := foldl_next_toDigits action.code_le cmds
      have hpush := @SgrScan.push_eq ⟨cmds, action.code⟩ hlen
      rw [← action.display_eq] at hcode
      cases actions with
      | nil =>
          rw [sgrParams, List.map_singleton, List.intercalate_singleton, hcode, hpush]
          rfl
      | cons next actions =>
          have hsep : ∀ scan : SgrScan, scan.next ';'.toUInt8 = scan.push := fun scan => if_pos rfl
          have htail := @ih (List.cons_ne_nil next actions)
            ((cmds ++ [action.code]).take maxSgrCmds) (List.length_take_le ..)
          rw [take_take_append, List.append_assoc, List.singleton_append] at htail
          rw [sgrParams, List.map_cons, List.map_cons, List.intercalate_cons_cons, List.map_append,
            List.map_append, List.foldl_append, List.foldl_append, hcode, List.map_singleton,
            List.foldl_cons, List.foldl_nil, hsep, hpush, ← List.map_cons]
          exact htail

/-- **Actions are parsed as they are printed**, up to the eighth. -/
theorem parseAnsiSgr_sgrParams {actions : List SgrAction} (hne : actions ≠ []) :
    parseAnsiSgr ((sgrParams actions).map Char.toUInt8) = .ok (actions.take maxSgrCmds) := by
  rw [parseAnsiSgr, foldl_next_sgrParams hne (Nat.zero_le _), List.nil_append, ← List.map_take,
    sgrActions_codes, List.nil_append]
  rw [List.length_nil, Nat.zero_add]
  exact List.length_take_le ..

/-- Printed actions are parameters of a control sequence. -/
theorem sgrParams_lt {actions : List SgrAction} {ch : Char} (h : ch ∈ sgrParams actions) :
    ch < '@' := by
  have hdisplay : ∀ action : SgrAction, ∀ ch ∈ action.display, ch < '@' := by
    intro action ch hch
    rw [action.display_eq] at hch
    exact (isDigit_of_mem_toDigits hch).lt
  induction actions with
  | nil => cases h
  | cons action actions ih =>
      cases actions with
      | nil =>
          rw [sgrParams, List.map_singleton, List.intercalate_singleton] at h
          exact hdisplay action ch h
      | cons next actions =>
          rw [sgrParams, List.map_cons, List.map_cons, List.intercalate_cons_cons, List.mem_append,
            List.mem_append, List.mem_singleton, ← List.map_cons] at h
          rcases h with (h | rfl) | h
          · exact hdisplay action ch h
          · decide
          · exact ih h

/-- **The control sequence of actions** has the first eight of them. -/
theorem emits_sgrSequence {actions : List SgrAction} (hne : actions ≠ [])
    (hlen : (asBytes (sgrParams actions)).length < maxCsiLength) :
    Emits (sgrSequence actions) [.sgr (actions.take maxSgrCmds)] := by
  have hparams : ∀ ch ∈ sgrParams actions, ch < '@' := fun ch hch => sgrParams_lt hch
  refine @emits_csi _ hparams hlen 'm' rfl (some (.sgr (actions.take maxSgrCmds))) ?_
  have hcsi : csiByte 'm'.toUInt8 (asBytes (sgrParams actions)) = (do
      return some (some (.sgr (← parseAnsiSgr (asBytes (sgrParams actions)))))) := rfl
  rw [hcsi, asBytes_eq_map fun ch hch => utf8Size_of_lt (hparams ch hch),
    parseAnsiSgr_sgrParams hne]
  rfl

end HydroxKernel.Ansi

namespace HydroxKernel.Vt

open HydroxKernel.Ansi

/-! ### Colors in the terminal -/

/-- The terminal with other colors. -/
def VirtualTerminalInternals.withColors (vt : VirtualTerminalInternals)
    (colors : AnsiColor × AnsiColor) : VirtualTerminalInternals :=
  { vt with fgColor := colors.1, bgColor := colors.2 }

/-- Actions set the colors of the terminal. -/
theorem foldl_applySgr_eq (actions : List SgrAction) (vt : VirtualTerminalInternals) :
    actions.foldl VirtualTerminalInternals.applySgr vt =
      vt.withColors (actions.foldl SgrAction.setColors (vt.fgColor, vt.bgColor)) := by
  induction actions generalizing vt with
  | nil => rfl
  | cons action actions ih =>
      rw [List.foldl_cons, List.foldl_cons, ih]
      cases action <;> rfl

/-- Bytes without an action only change the parser. -/
theorem write_silent {bytes : List UInt8} {vt : VirtualTerminalInternals} {p : AnsiParser}
    (h : vt.ansi.writeAll bytes = .ok ([], p)) : vt.write bytes = .ok { vt with ansi := p } := by
  induction bytes generalizing vt with
  | nil =>
      obtain rfl : vt.ansi = p := congrArg Prod.snd (Except.ok.inj h)
      rfl
  | cons b bytes ih =>
      rw [AnsiParser.writeAll] at h
      obtain ⟨⟨action, q⟩, hbyte, h⟩ := bind_eq_ok.mp h
      obtain ⟨⟨rest, q'⟩, hrest, h⟩ := bind_eq_ok.mp h
      obtain ⟨hnil, rfl⟩ := Prod.mk.inj (Except.ok.inj h)
      obtain ⟨hnone, rfl⟩ := List.append_eq_nil_iff.mp hnil
      obtain rfl := Option.toList_eq_nil_iff.mp hnone
      rw [VirtualTerminalInternals.write, VirtualTerminalInternals.writeByte, hbyte]
      exact @ih { vt with ansi := q } hrest

/-- Bytes whose only action sets colors, set them. -/
theorem write_sgr {bytes : List UInt8} {vt : VirtualTerminalInternals} {actions : List SgrAction}
    {p : AnsiParser} (h : vt.ansi.writeAll bytes = .ok ([.sgr actions], p)) :
    vt.write bytes = .ok (VirtualTerminalInternals.withColors { vt with ansi := p }
      (actions.foldl SgrAction.setColors (vt.fgColor, vt.bgColor))) := by
  induction bytes generalizing vt with
  | nil => cases h
  | cons b bytes ih =>
      rw [AnsiParser.writeAll] at h
      obtain ⟨⟨action, q⟩, hbyte, h⟩ := bind_eq_ok.mp h
      obtain ⟨⟨rest, q'⟩, hrest, h⟩ := bind_eq_ok.mp h
      obtain ⟨hactions, rfl⟩ := Prod.mk.inj (Except.ok.inj h)
      rw [VirtualTerminalInternals.write, VirtualTerminalInternals.writeByte, hbyte]
      cases action with
      | none =>
          obtain rfl : rest = [.sgr actions] := hactions
          exact @ih { vt with ansi := q } hrest
      | some action =>
          obtain ⟨rfl, rfl⟩ := List.cons.inj hactions
          dsimp only
          rw [VirtualTerminalInternals.act, foldl_applySgr_eq, ok_bind]
          exact @write_silent bytes (VirtualTerminalInternals.withColors { vt with ansi := q }
            (actions.foldl SgrAction.setColors (vt.fgColor, vt.bgColor))) q' hrest

/-- **Colors are parsed as they are printed, and set in the terminal.** The control sequence of
actions whose parameters fit into the buffer has the first eight actions as its only action. If
there are no more than eight, it sets the colors of the terminal as the actions do one after
another, and changes nothing else. -/
theorem sgr_round_trip {actions : List SgrAction} (hne : actions ≠ [])
    (hlen : (asBytes (sgrParams actions)).length ≤ 63) :
    Emits (sgrSequence actions) [.sgr (actions.take 8)] ∧
      (actions.length ≤ 8 → ∀ vt : VirtualTerminalInternals, vt.ansi.state = .normal →
        ∃ p, p.state = .normal ∧ vt.write (asBytes (sgrSequence actions)) =
          .ok (VirtualTerminalInternals.withColors { vt with ansi := p }
            (actions.foldl SgrAction.setColors (vt.fgColor, vt.bgColor)))) := by
  have hemits : Emits (sgrSequence actions) [.sgr (actions.take 8)] :=
    emits_sgrSequence hne (Nat.lt_succ_of_le hlen)
  refine ⟨hemits, fun hfew vt hvt => ?_⟩
  obtain ⟨p, hwrite, hp⟩ := hemits vt.ansi hvt
  rw [List.take_of_length_le hfew] at hwrite
  exact ⟨p, hp, write_sgr hwrite⟩

/-- The background and then the text are colored. -/
theorem sgr_round_trip_two :
    Emits ['\x1b', '[', '4', '4', ';', '9', '3', 'm']
      [.sgr [.setBgColor .blue, .setFgColor .yellow]] :=
  (@sgr_round_trip [.setBgColor .blue, .setFgColor .yellow] (by simp) (by decide)).1

/-! ### Erasing to the end of the line -/

variable {w h : ℕ}

/-- Erasing to the end of the line blanks the cells from the cursor on in the current colors,
and changes nothing else that the terminal shows, nor the row of the buffer at the top. -/
def ErasesExactly (vt : VirtualTerminalInternals) (g : Grid w h) : Prop :=
  ∃ vt', vt.act .eraseToLineEnd = .ok vt' ∧ vt'.bufLine = vt.bufLine ∧ Shows vt' g.eraseToLineEnd

/-- A terminal shows the cells of one grid. -/
theorem Shows.cells_unique {vt : VirtualTerminalInternals} {g g' : Grid w h} (hs : Shows vt g)
    (hs' : Shows vt g') : g.cells = g'.cells := by
  funext y x
  exact Option.some.inj ((hs.cells y x).symm.trans (hs'.cells y x))

/-- Where there is nothing to erase, nothing changes. -/
theorem Grid.eraseToLineEnd_eq_self {g : Grid w h} (hblank : ∀ x, g.cells g.row x = g.blank) :
    g.eraseToLineEnd = g := by
  have hcells : (fun y x => if y = g.row ∧ g.col ≤ x then g.blank else g.cells y x) =
      g.cells := by
    funext y x
    split
    · rename_i hrow
      rw [hrow.1, hblank]
    · rfl
  rw [Grid.eraseToLineEnd, hcells]

/-- **Erasing to the end of the line** is exact if the terminal has more than one row, if the
cursor is not in the first column, or if the row is blank already. -/
theorem Shows.erasesExactly_iff {vt : VirtualTerminalInternals} {g : Grid w h}
    (hs : Shows vt g) :
    ErasesExactly vt g ↔ 1 < h ∨ 0 < g.col.val ∨ ∀ x, g.cells g.row x = g.blank := by
  obtain ⟨buf, hact, hshows⟩ := hs.eraseToLineEnd
  rw [← or_assoc]
  by_cases hrow : 1 < h ∨ 0 < g.col.val
  · rw [if_pos hrow] at hshows
    exact iff_of_true ⟨_, hact, rfl, hshows⟩ (.inl hrow)
  · rw [if_neg hrow] at hshows
    constructor
    · rintro ⟨vt', hact', -, hshows'⟩
      obtain rfl := Except.ok.inj (hact.symm.trans hact')
      refine .inr fun x => ?_
      have hcells := congrFun (congrFun (hshows.cells_unique hshows') g.row) x
      rw [hcells]
      exact if_pos ⟨rfl, Nat.le_trans (Nat.le_of_not_lt fun h => hrow (.inr h)) (Nat.zero_le _)⟩
    · rintro (hrow' | hblank)
      · exact absurd hrow' hrow
      · exact ⟨_, hact, rfl, by rwa [Grid.eraseToLineEnd_eq_self hblank]⟩

/-- **Erasing to the end of the line is exact** in every state that writing to a new terminal
reaches, except where the terminal has one row, the cursor is in the first column, and the row
is not blank in the current colors. -/
theorem eraseToLineEnd_exact_iff (w h : ℕ) (hw : 0 < w) (hh : 0 < h) (hwh : w * h < 2 ^ 64)
    (bytes : List UInt8) :
    ∃ vt₀ vt, VirtualTerminalInternals.new w h = .ok vt₀ ∧ vt₀.write bytes = .ok vt ∧
      (∃ g : Grid w h, Shows vt g) ∧ ∀ g : Grid w h, Shows vt g →
        (ErasesExactly vt g ↔ 1 < h ∨ 0 < g.col.val ∨ ∀ x, g.cells g.row x = g.blank) := by
  obtain ⟨vt₀, hnew, hansi, hshows⟩ := new_shows hw hh hwh
  obtain ⟨vt, hwrite, -, g, hs⟩ := hshows.write bytes (by rw [hansi]; exact trivial)
  exact ⟨vt₀, vt, hnew, hwrite, ⟨g, hs⟩, fun g' hs' => hs'.erasesExactly_iff⟩

/-- On two rows, erasing is exact. -/
theorem eraseToLineEnd_exact_two_rows :
    ∃ vt₀ vt, VirtualTerminalInternals.new 2 2 = .ok vt₀ ∧ vt₀.write [97, 8] = .ok vt ∧
      ∀ g : Grid 2 2, Shows vt g → ErasesExactly vt g := by
  obtain ⟨vt₀, vt, hnew, hwrite, -, hexact⟩ :=
    eraseToLineEnd_exact_iff 2 2 (by decide) (by decide) (by decide) [97, 8]
  exact ⟨vt₀, vt, hnew, hwrite, fun g hs => (hexact g hs).mpr (.inl (by decide))⟩

/-- The row of a terminal of one row, after a character. -/
def letterRow : Grid 2 1 :=
  ⟨fun _ x => ⟨if x.val = 0 then 'a' else ' ', .white, .black⟩, ⟨0, Nat.two_pos⟩, 0, .white, .black⟩

/-- **On one row, nothing is erased** from the first column on: a character is written, the
cursor moves back to it, and the character is still there after the control sequence. -/
theorem eraseToLineEnd_keeps_row :
    ∃ vt₀ vt, VirtualTerminalInternals.new 2 1 = .ok vt₀ ∧ vt₀.write [97, 8] = .ok vt ∧
      (vt.write [0x1b, 91, 75]).map (fun vt => (vt.cursorPos, vt.buf.map VTChar.ch)) =
        .ok ((0, 0), ['a', ' ']) ∧
      Shows vt letterRow ∧ ¬ ErasesExactly vt letterRow := by
  have hshows : ∀ vt₀ vt, VirtualTerminalInternals.new 2 1 = .ok vt₀ → vt₀.write [97, 8] = .ok vt →
      Shows vt letterRow := by
    rintro _ _ ⟨⟩ ⟨⟩
    exact ⟨⟨rfl, by decide, rfl, rfl, rfl, by decide⟩, rfl⟩
  refine ⟨_, _, rfl, rfl, rfl, hshows _ _ rfl rfl, fun hexact => ?_⟩
  rcases (hshows _ _ rfl rfl).erasesExactly_iff.mp hexact with h | h | h
  · exact absurd h (by decide)
  · exact absurd h (by decide)
  · exact absurd (h 0) (by decide)

end HydroxKernel.Vt
