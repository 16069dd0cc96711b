import HydroxKernel.Io.AnsiText
import Mathlib.Data.Nat.Find

/-!
# Reading Characters from a Terminal

`TtyCharReader::next_char` reads one byte at a time and stops when what it has read is valid
UTF-8. A terminal delivers an endless stream of bytes, so a call is given by where in the
stream it begins.

Bytes that continue a character are skipped at the beginning, and bytes that are never part of
UTF-8 end the call. Between these, nothing bounds what is read: the buffer has four bytes, and
the slice for the fifth is out of its bounds.

## Main results

* `returns_of_stops`, `Returns.exists_stops`: when a call returns, and with which character.
* `nextChar_robust_iff`: every call returns a character exactly if every call begins with one,
  or with a byte that is never part of UTF-8, after the bytes that are skipped.
* `decoders_invert_encoding`: the parser of the terminal and the reader give back a string from
  its bytes.
-/

namespace HydroxKernel.CharReader

/-- The ways in which `next_char` can fail to return. -/
inductive Panic
  /-- A slice of the buffer is out of its bounds. -/
  | outOfBounds
  /-- An `unwrap` of `None`. -/
  | unwrapNone
  /-- The loop does not end. -/
  | diverged
  deriving DecidableEq

/-- `is_valid_start_byte`. -/
def isValidStartByte (b : UInt8) : Bool := b &&& 0xC0 != 0x80

variable (stream : ℕ → UInt8)

/-- The loop of `next_char`, when `n` bytes of the stream have been read: `buf` is
`buf[..pos]`. The result is the character and how many bytes have been read then. -/
def nextChar.loop : ℕ → ℕ → List UInt8 → Except Panic (Char × ℕ)
  | 0, _, _ => .error .diverged
  | fuel + 1, n, buf => do
      ensure (buf.length < 4) .outOfBounds
      let b := stream n
      if buf = [] ∧ isValidStartByte b = false then loop fuel (n + 1) buf
      else if 0xF8 ≤ b then .ok ('\uFFFD', n + 1)
      else
        match fromUtf8 (buf ++ [b]) with
        | some (c :: _) => .ok (c, n + 1)
        | some [] => .error .unwrapNone
        | none => loop fuel (n + 1) (buf ++ [b])

/-- `TtyCharReader::next_char`, when `n` bytes of the stream have been read. -/
def nextChar (fuel n : ℕ) : Except Panic (Char × ℕ) := nextChar.loop stream fuel n []

/-- The call that begins after `n` bytes returns `c` and has then read `k` bytes. -/
def Returns (n : ℕ) (c : Char) (k : ℕ) : Prop := ∃ fuel, nextChar stream fuel n = .ok (c, k)

/-- A call begins after `n` bytes: all calls before it have returned. -/
inductive Calls : ℕ → Prop
  | first : Calls 0
  | next {n k : ℕ} {c : Char} (h : Calls n) (hr : Returns stream n c k) : Calls k

/-- The bytes of the stream from `m` on. -/
def bytesFrom (m k : ℕ) : List UInt8 := (List.range k).map fun i => stream (m + i)

/-- The first byte from `n` on that does not continue a character is at `m`. -/
structure Starts (n m : ℕ) : Prop where
  le : n ≤ m
  skipped : ∀ i, n ≤ i → i < m → isValidStartByte (stream i) = false
  start : isValidStartByte (stream m) = true

/-- A call that begins after `n` bytes returns a character: the one that its bytes encode,
or the replacement character if they are malformed. -/
def Robust (n : ℕ) : Prop :=
  ∃ c k m, Returns stream n c k ∧ Starts stream n m ∧ m < k ∧
    (bytesFrom stream m (k - m) = String.utf8EncodeChar c ∨
      fromUtf8 (bytesFrom stream m (k - m)) = none ∧ c = '\uFFFD')

/-- From `n` on, there is a byte that does not continue a character, and the bytes from it on
begin with a character, or one of the first four is never part of UTF-8. -/
def Decodable (n : ℕ) : Prop :=
  ∃ m, Starts stream n m ∧ ((∃ c : Char, bytesFrom stream m c.utf8Size = String.utf8EncodeChar c) ∨
    ∃ j < 4, 0xF8 ≤ stream (m + j))

variable {stream}

/-! ### The rounds of the loop -/

/-- The bytes from `m` on, and the next one. -/
theorem bytesFrom_succ (m k : ℕ) :
    bytesFrom stream m (k + 1) = bytesFrom stream m k ++ [stream (m + k)] := by
  rw [bytesFrom, List.range_succ, List.map_append]
  rfl

/-- The number of bytes. -/
@[simp] theorem length_bytesFrom (m k : ℕ) : (bytesFrom stream m k).length = k := by
  simp [bytesFrom]

/-- The bytes from `m` on, in two parts. -/
theorem bytesFrom_add (m j k : ℕ) :
    bytesFrom stream m (j + k) = bytesFrom stream m j ++ bytesFrom stream (m + j) k := by
  rw [bytesFrom, List.range_add, List.map_append, List.map_map]
  refine congrArg _ (List.map_congr_left fun i _ => ?_)
  rw [Function.comp_apply, Nat.add_assoc]

/-- The bytes from `m` on begin with the encoding of a character. -/
theorem bytesFrom_of_append {m k : ℕ} {c : Char} {bs : List UInt8}
    (h : bytesFrom stream m k = String.utf8EncodeChar c ++ bs) :
    bytesFrom stream m c.utf8Size = String.utf8EncodeChar c := by
  have hlen := congrArg List.length h
  rw [List.length_append, String.length_utf8EncodeChar, length_bytesFrom] at hlen
  have htake := congrArg (List.take c.utf8Size) h
  rwa [bytesFrom, ← List.map_take, List.take_range, Nat.min_eq_left (by omega),
    List.take_left' (String.length_utf8EncodeChar c)] at htake

/-- More fuel does not change what the loop returns. -/
theorem loop_mono {fuel n : ℕ} {buf : List UInt8} {r : Char × ℕ}
    (h : nextChar.loop stream fuel n buf = .ok r) (d : ℕ) :
    nextChar.loop stream (fuel + d) n buf = .ok r := by
  induction fuel generalizing n buf with
  | zero => cases h
  | succ fuel ih =>
      have hfuel : fuel + 1 + d = fuel + d + 1 := by omega
      rw [nextChar.loop] at h
      rw [hfuel, nextChar.loop]
      obtain ⟨hlen, h⟩ := ensure_bind_eq_ok.mp h
      rw [ensure_pos hlen, ok_bind]
      dsimp only at h ⊢
      split at h
      · rename_i hskip
        rw [if_pos hskip]
        exact ih h
      · rename_i hskip
        rw [if_neg hskip]
        split at h
        · rename_i hbad
          rw [if_pos hbad]
          exact h
        · rename_i hbad
          rw [if_neg hbad]
          split at h
          · exact h
          · cases h
          · exact ih h

/-- Bytes that continue a character are skipped. -/
theorem loop_skip {n d : ℕ} (hskip : ∀ i < d, isValidStartByte (stream (n + i)) = false)
    (fuel : ℕ) :
    nextChar.loop stream (fuel + d) n [] = nextChar.loop stream fuel (n + d) [] := by
  induction d generalizing fuel with
  | zero => rfl
  | succ d ih =>
      have hfuel : fuel + (d + 1) = fuel + 1 + d := by omega
      rw [hfuel, ih fun i hi => hskip i (by omega), nextChar.loop,
        ensure_pos (show ([] : List UInt8).length < 4 by simp), ok_bind]
      exact if_pos ⟨rfl, hskip d (Nat.lt_succ_self d)⟩

/-- Without a byte that does not continue a character, the loop does not end. -/
theorem loop_diverged {n : ℕ} (hskip : ∀ i, isValidStartByte (stream (n + i)) = false)
    (fuel : ℕ) : nextChar.loop stream fuel n [] = .error .diverged := by
  have h := loop_skip (d := fuel) (fun i _ => hskip i) 0
  rwa [Nat.zero_add] at h

/-- The loop ends with the byte after the first `j` bytes from `m` on. -/
def Stops (stream : ℕ → UInt8) (m j : ℕ) : Prop :=
  0xF8 ≤ stream (m + j) ∨ fromUtf8 (bytesFrom stream m (j + 1)) ≠ none

instance (m j : ℕ) : Decidable (Stops stream m j) := inferInstanceAs (Decidable (_ ∨ _))

/-- The first byte that ends the loop. -/
theorem exists_first_stop {m : ℕ} (h : ∃ j < 4, Stops stream m j) :
    ∃ j < 4, (∀ i < j, ¬ Stops stream m i) ∧ Stops stream m j := by
  obtain ⟨hj, hstop⟩ := Nat.find_spec h
  exact ⟨Nat.find h, hj, fun i hi hi' => Nat.find_min h hi ⟨by omega, hi'⟩, hstop⟩

/-- The byte that the call begins with is not skipped, and neither are those after it. -/
theorem not_skipped {m j : ℕ} (hstart : isValidStartByte (stream m) = true) :
    ¬ (bytesFrom stream m j = [] ∧ isValidStartByte (stream (m + j)) = false) := by
  rintro ⟨hnil, hfalse⟩
  have hzero := congrArg List.length hnil
  rw [length_bytesFrom, List.length_nil] at hzero
  rw [hzero, Nat.add_zero, hstart] at hfalse
  cases hfalse

/-- The first rounds after a byte that does not continue a character, while the loop does not
end. -/
theorem loop_rounds {m j : ℕ} (hstart : isValidStartByte (stream m) = true) (hj : j ≤ 4)
    (hgo : ∀ i < j, ¬ Stops stream m i) (fuel : ℕ) :
    nextChar.loop stream (fuel + j) m [] =
      nextChar.loop stream fuel (m + j) (bytesFrom stream m j) := by
  induction j generalizing fuel with
  | zero => rfl
  | succ j ih =>
      have hfuel : fuel + (j + 1) = fuel + 1 + j := by omega
      have hlen : (bytesFrom stream m j).length < 4 := by rw [length_bytesFrom]; omega
      have hnot := hgo j (Nat.lt_succ_self j)
      rw [Stops, not_or, not_not] at hnot
      rw [hfuel, ih (by omega) fun i hi => hgo i (by omega), nextChar.loop, ensure_pos hlen,
        ok_bind]
      dsimp only
      rw [if_neg (not_skipped hstart), if_neg hnot.1, ← bytesFrom_succ, hnot.2]
      rfl

/-- The character that the loop ends with. -/
theorem loop_stops {m j : ℕ} (hj : j < 4) (hstart : isValidStartByte (stream m) = true)
    (hgo : ∀ i < j, ¬ Stops stream m i) (hstop : Stops stream m j) (fuel : ℕ) :
    ∃ c, nextChar.loop stream (fuel + 1) (m + j) (bytesFrom stream m j) = .ok (c, m + j + 1) ∧
      (bytesFrom stream m (j + 1) = String.utf8EncodeChar c ∨
        fromUtf8 (bytesFrom stream m (j + 1)) = none ∧ c = '\uFFFD') := by
  have hlen : (bytesFrom stream m j).length < 4 := by rwa [length_bytesFrom]
  rw [nextChar.loop, ensure_pos hlen, ok_bind]
  dsimp only
  rw [if_neg (not_skipped hstart)]
  by_cases hbad : 0xF8 ≤ stream (m + j)
  · rw [if_pos hbad]
    refine ⟨_, rfl, .inr ⟨?_, rfl⟩⟩
    rw [Option.eq_none_iff_forall_not_mem]
    intro s hs
    rw [Option.mem_def, fromUtf8_eq_some_iff] at hs
    have hmem : stream (m + j) ∈ asBytes s := by
      rw [← hs, bytesFrom_succ]
      simp
    have hlt := toNat_lt_of_mem_asBytes hmem
    have hge : (0xF8 : UInt8).toNat ≤ (stream (m + j)).toNat := hbad
    simp only [UInt8.reduceToNat] at hge
    omega
  · rw [if_neg hbad, ← bytesFrom_succ]
    have hsome := hstop.resolve_left hbad
    cases hs : fromUtf8 (bytesFrom stream m (j + 1)) with
    | none => exact absurd hs hsome
    | some s =>
        rw [fromUtf8_eq_some_iff] at hs
        cases s with
        | nil =>
            have hzero := congrArg List.length hs
            rw [length_bytesFrom] at hzero
            cases hzero
        | cons c s =>
            refine ⟨c, rfl, .inl ?_⟩
            -- if the bytes encode more than `c`, the loop has ended with `c`
            rw [asBytes_cons] at hs
            have hsize := bytesFrom_of_append hs
            have hlen := congrArg List.length hs
            rw [List.length_append, String.length_utf8EncodeChar, length_bytesFrom] at hlen
            rcases Nat.eq_or_lt_of_le (show c.utf8Size ≤ j + 1 by omega) with heq | hlt
            · rw [← heq, hsize]
            · have hpos := c.utf8Size_pos
              refine absurd (.inr ?_) (hgo (c.utf8Size - 1) (by omega))
              rw [Nat.sub_add_cancel hpos, hsize, fromUtf8_utf8EncodeChar]
              exact Option.some_ne_none _

/-! ### Calls -/

/-- The rounds of a call up to the byte that it begins with. -/
theorem Starts.nextChar_eq {n m : ℕ} (hs : Starts stream n m) (fuel : ℕ) :
    nextChar stream (fuel + (m - n)) n = nextChar.loop stream fuel m [] := by
  have hle := hs.le
  have hskip : ∀ i < m - n, isValidStartByte (stream (n + i)) = false := fun i hi =>
    hs.skipped (n + i) (Nat.le_add_right _ _) (by omega)
  rw [nextChar, loop_skip hskip, Nat.add_sub_cancel' hle]

/-- **A call returns** with the byte that ends the loop. -/
theorem returns_of_stops {n m j : ℕ} (hs : Starts stream n m) (hj : j < 4)
    (hgo : ∀ i < j, ¬ Stops stream m i) (hstop : Stops stream m j) :
    ∃ c, Returns stream n c (m + j + 1) ∧
      (bytesFrom stream m (j + 1) = String.utf8EncodeChar c ∨
        fromUtf8 (bytesFrom stream m (j + 1)) = none ∧ c = '\uFFFD') := by
  obtain ⟨c, hloop, hval⟩ := loop_stops hj hs.start hgo hstop 0
  refine ⟨c, ⟨1 + j + (m - n), ?_⟩, hval⟩
  rw [hs.nextChar_eq, loop_rounds hs.start (Nat.le_of_lt hj) hgo]
  exact hloop

/-- **A call that returns** begins with some byte, and one of the first four ends the loop. -/
theorem Returns.exists_stops {n k : ℕ} {c : Char} (h : Returns stream n c k) :
    ∃ m j, Starts stream n m ∧ j < 4 ∧ (∀ i < j, ¬ Stops stream m i) ∧ Stops stream m j := by
  obtain ⟨fuel, h⟩ := h
  by_cases hstart : ∃ d, isValidStartByte (stream (n + d)) = true
  · have hs : Starts stream n (n + Nat.find hstart) :=
      { le := Nat.le_add_right _ _
        skipped := fun i hi hlt => by
          obtain ⟨d, rfl⟩ := Nat.exists_eq_add_of_le hi
          exact Bool.eq_false_iff.mpr (Nat.find_min hstart (by omega))
        start := Nat.find_spec hstart }
    generalize n + Nat.find hstart = m at hs
    by_cases hstop : ∃ j < 4, Stops stream m j
    · obtain ⟨j, hj, hgo, hfirst⟩ := exists_first_stop hstop
      exact ⟨m, j, hs, hj, hgo, hfirst⟩
    · -- the fifth round takes a slice that is out of bounds
      exfalso
      have hgo : ∀ i < 4, ¬ Stops stream m i := fun i hi hi' => hstop ⟨i, hi, hi'⟩
      have hmono := loop_mono h (1 + 4 + (m - n))
      have heq := hs.nextChar_eq (fuel + 1 + 4)
      rw [loop_rounds hs.start (Nat.le_refl 4) hgo, nextChar.loop,
        ensure_neg (by rw [length_bytesFrom]; omega), error_bind] at heq
      rw [← nextChar, show fuel + (1 + 4 + (m - n)) = fuel + 1 + 4 + (m - n) by omega, heq] at hmono
      cases hmono
  · exfalso
    have hskip : ∀ i, isValidStartByte (stream (n + i)) = false := fun i =>
      Bool.eq_false_iff.mpr fun hi => hstart ⟨i, hi⟩
    rw [nextChar, loop_diverged hskip] at h
    cases h

/-- A character, or a byte that is never part of UTF-8, ends the loop, and nothing else does. -/
theorem exists_stops_iff {m : ℕ} : (∃ j < 4, Stops stream m j) ↔
    (∃ c : Char, bytesFrom stream m c.utf8Size = String.utf8EncodeChar c) ∨
      ∃ j < 4, 0xF8 ≤ stream (m + j) := by
  constructor
  · rintro ⟨j, hj, hbad | hsome⟩
    · exact .inr ⟨j, hj, hbad⟩
    · obtain ⟨s, hs⟩ := Option.ne_none_iff_exists'.mp hsome
      rw [fromUtf8_eq_some_iff] at hs
      cases s with
      | nil =>
          have hzero := congrArg List.length hs
          rw [length_bytesFrom] at hzero
          cases hzero
      | cons c s =>
          rw [asBytes_cons] at hs
          exact .inl ⟨c, bytesFrom_of_append hs⟩
  · rintro (⟨c, hc⟩ | ⟨j, hj, hbad⟩)
    · have hpos := c.utf8Size_pos
      have hle := c.utf8Size_le_four
      refine ⟨c.utf8Size - 1, by omega, .inr ?_⟩
      rw [Nat.sub_add_cancel hpos, hc, fromUtf8_utf8EncodeChar]
      exact Option.some_ne_none _
    · exact ⟨j, hj, .inl hbad⟩

/-- **One call**: it returns a character exactly if its bytes begin with one, or with a byte
that is never part of UTF-8. -/
theorem robust_iff {n : ℕ} : Robust stream n ↔ Decodable stream n := by
  constructor
  · rintro ⟨c, k, -, hr, -⟩
    obtain ⟨m, j, hs, hj, -, hstop⟩ := hr.exists_stops
    exact ⟨m, hs, exists_stops_iff.mp ⟨j, hj, hstop⟩⟩
  · rintro ⟨m, hs, hend⟩
    obtain ⟨j, hj, hgo, hstop⟩ := exists_first_stop (exists_stops_iff.mpr hend)
    obtain ⟨c, hr, hval⟩ := returns_of_stops hs hj hgo hstop
    refine ⟨c, m + j + 1, m, hr, hs, by omega, ?_⟩
    rwa [show m + j + 1 - m = j + 1 by omega]

/-- **Every call returns a character** exactly if every call begins, after the bytes that it
skips, with the encoding of a character, or has a byte that is never part of UTF-8 among its
first four. Both are what one call does, at every place of the stream where it may begin. -/
theorem nextChar_robust_iff (stream : ℕ → UInt8) :
    (∀ n, Robust stream n ↔ Decodable stream n) ∧
      ((∀ n, Calls stream n → Robust stream n) ↔ ∀ n, Calls stream n → Decodable stream n) :=
  ⟨fun _ => robust_iff, forall₂_congr fun _ _ => robust_iff⟩

/-- The lead byte of a character of two bytes, and no byte that continues it. -/
def truncated (n : ℕ) : UInt8 := if n = 0 then 0xC3 else 'A'.toUInt8

/-- **A truncated character panics**: the fifth round takes a slice behind the buffer. -/
theorem nextChar_panics :
    nextChar truncated 5 0 = .error .outOfBounds ∧ Calls truncated 0 ∧
      ¬ ∀ n, Calls truncated n → Robust truncated n := by
  refine ⟨by decide +kernel, .first, fun h => ?_⟩
  obtain ⟨m, hs, hend⟩ := robust_iff.mp (h 0 .first)
  have hzero : m = 0 := by
    by_contra hne
    have hskip := hs.skipped 0 (Nat.le_refl 0) (Nat.pos_of_ne_zero hne)
    exact absurd hskip (by decide)
  rw [hzero] at hend
  have hno : ¬ ∃ j < 4, Stops truncated 0 j := by decide +kernel
  exact hno (exists_stops_iff.mpr hend)

/-! ### Text -/

/-- From `n` on, successive calls return the characters, each after exactly the bytes of the
character. -/
inductive ReadsExactly (stream : ℕ → UInt8) : ℕ → List Char → Prop
  | nil (n : ℕ) : ReadsExactly stream n []
  | cons {n : ℕ} {c : Char} {s : List Char} (hr : Returns stream n c (n + c.utf8Size))
      (h : ReadsExactly stream (n + c.utf8Size) s) : ReadsExactly stream n (c :: s)

/-- A byte that does not continue a character is one that a call can begin with. -/
theorem isValidStartByte_iff (b : UInt8) :
    isValidStartByte b = true ↔ b.toNat < 0x80 ∨ 0xC0 ≤ b.toNat := by
  have h : ∀ n < 256, isValidStartByte (UInt8.ofNat n) = true ↔ n < 0x80 ∨ 0xC0 ≤ n := by
    decide +kernel
  have hb := h b.toNat b.toNat_lt
  rwa [UInt8.ofNat_toNat] at hb

/-- Calls begin with the first byte of a character. -/
theorem isValidStartByte_of_encodes {c : Char} {b : UInt8} {bs : List UInt8}
    (h : Encodes c (b :: bs)) : isValidStartByte b = true := by
  rw [isValidStartByte_iff]
  cases h <;> omega

/-- **A call on the bytes of a character** returns the character after its last byte. -/
theorem returns_of_encoding {n : ℕ} {c : Char}
    (h : bytesFrom stream n c.utf8Size = String.utf8EncodeChar c) :
    Returns stream n c (n + c.utf8Size) := by
  have hpos := c.utf8Size_pos
  have hle := c.utf8Size_le_four
  have hget : ∀ i < c.utf8Size, stream (n + i) ∈ asBytes [c] := by
    intro i hi
    rw [asBytes_cons, ← h]
    exact List.mem_append_left _ (List.mem_map_of_mem (List.mem_range.mpr hi))
  have hstart : isValidStartByte (stream n) = true := by
    have henc := encodes_utf8EncodeChar c
    rw [← h] at henc
    obtain ⟨k, hk⟩ := Nat.exists_eq_succ_of_ne_zero (Nat.ne_of_gt hpos)
    rw [hk, bytesFrom, List.range_succ_eq_map, List.map_cons] at henc
    exact isValidStartByte_of_encodes henc
  have hs : Starts stream n n := ⟨Nat.le_refl n, fun i hi hlt => by omega, hstart⟩
  have hgo : ∀ i < c.utf8Size - 1, ¬ Stops stream n i := by
    rintro i hi (hbad | hsome)
    · have hlt := toNat_lt_of_mem_asBytes (hget i (by omega))
      have hge : (0xF8 : UInt8).toNat ≤ (stream (n + i)).toNat := hbad
      simp only [UInt8.reduceToNat] at hge
      omega
    · refine hsome ?_
      have hnone := fromUtf8_take_eq_none (c := c) (n := i + 1) (by omega) (by omega)
      rwa [← h, bytesFrom, ← List.map_take, List.take_range, Nat.min_eq_left (by omega)] at hnone
  have hstop : Stops stream n (c.utf8Size - 1) := by
    right
    rw [Nat.sub_add_cancel hpos, h, fromUtf8_utf8EncodeChar]
    exact Option.some_ne_none _
  obtain ⟨c', hr, hval⟩ := returns_of_stops hs (by omega) hgo hstop
  rw [Nat.add_assoc, Nat.sub_add_cancel hpos] at hr
  rw [Nat.sub_add_cancel hpos, h] at hval
  have hdecode := fromUtf8_utf8EncodeChar c
  rcases hval with heq | ⟨hnone, -⟩
  · rw [heq, fromUtf8_utf8EncodeChar] at hdecode
    obtain rfl : c' = c := by simpa using hdecode
    exact hr
  · rw [hnone] at hdecode
    cases hdecode

/-- **Reading a string** returns its characters, each after exactly its bytes. -/
theorem readsExactly_of_asBytes {s : List Char} {n : ℕ}
    (h : bytesFrom stream n (asBytes s).length = asBytes s) : ReadsExactly stream n s := by
  induction s generalizing n with
  | nil => exact .nil n
  | cons c s ih =>
      have hlen : (asBytes (c :: s)).length = c.utf8Size + (asBytes s).length := by
        rw [asBytes_cons, List.length_append, String.length_utf8EncodeChar]
      rw [hlen, asBytes_cons] at h
      refine .cons (returns_of_encoding (bytesFrom_of_append h)) (ih ?_)
      rw [bytesFrom_add] at h
      exact (List.append_inj h (by rw [length_bytesFrom, String.length_utf8EncodeChar])).2

/-- **The two decoders invert the encoding** of a string: the parser of the terminal writes its
characters, each at its last byte, if none begins an escape sequence, and the calls on a stream
that goes on with its bytes return its characters, each after exactly its bytes. -/
theorem decoders_invert_encoding (s : List Char) :
    ('\x1b' ∉ s → ∀ p : Ansi.AnsiParser, p.state = .normal →
      ∃ p', p.outputs (asBytes s) = .ok (s.flatMap Ansi.charOutputs, p') ∧ p'.state = .normal) ∧
    ∀ (stream : ℕ → UInt8) (n : ℕ), bytesFrom stream n (asBytes s).length = asBytes s →
      ReadsExactly stream n s :=
  ⟨fun hs _ hp => Ansi.outputs_chars hs hp, fun _ _ h => readsExactly_of_asBytes h⟩

/-- A character of two bytes and one of three are written and read. -/
theorem decoders_invert_encoding_accents :
    (∃ p', Ansi.AnsiParser.new.outputs [0xC3, 0xA9, 0xE2, 0x82, 0xAC] =
      .ok ([none, some (.writeChar 'é'), none, none, some (.writeChar '€')], p') ∧
        p'.state = .normal) ∧
    ReadsExactly (fun n => [0xC3, 0xA9, 0xE2, 0x82, 0xAC].getD n 0) 0 ['é', '€'] :=
  ⟨(decoders_invert_encoding ['é', '€']).1 (by decide) .new rfl,
    (decoders_invert_encoding ['é', '€']).2 _ 0 (by decide)⟩

end HydroxKernel.CharReader
