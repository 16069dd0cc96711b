import HydroxKernel.Lib.Str

/-!
# Parsing Commands

`parse_command` splits a command at its spaces. An argument in double quotes can have spaces or
be empty. The loop keeps the part of the command that it has not read and, for its errors, the
byte offset of this part in the whole command.

## Main results

* `parseCommand_spec`: parsing undoes writing arguments with one space between them; it always
  returns; and it fails exactly at a quote that opens an argument and is not closed, with the
  byte offset of this quote.
-/

namespace HydroxKernel.Command

open Str

/-- The error of `parse_command`: a byte offset and a message. -/
abbrev ParseError := ℕ × String

/-- The loop of `parse_command` that skips spaces. -/
def skipSpaces : List Char → ℕ → List Char × ℕ
  | ' ' :: cmd, idx => skipSpaces cmd (idx + 1)
  | cmd, idx => (cmd, idx)

/-- The body of the loop of `parse_command`, behind the spaces: the argument, the string behind
it, and the index of this string. -/
def parseArgument (cmd : List Char) (idx : ℕ) :
    Except Panic (Except ParseError (List Char × List Char × ℕ)) :=
  if cmd.head? = some '"' then do
    match find (fun c => c = '"') (← cut (sliceFrom cmd 1)) with
    | some quoteLen =>
        let arg ← cut (slice cmd 1 (quoteLen + 1))
        let cmd ← cut (sliceFrom cmd (quoteLen + 2))
        return .ok (arg, cmd, idx + (quoteLen + 2))
    | none => return .error (idx, "unterminated quoted argument")
  else
    match splitOnce ' ' cmd with
    | some (cmdA, cmdB) => return .ok (cmdA, cmdB, idx + (byteLen cmdA + 1))
    | none => do
        let rest ← cut (sliceFrom cmd (byteLen cmd))
        return .ok (cmd, rest, idx)

/-- The loop of `parse_command`. -/
def parseLoop : ℕ → List (List Char) → List Char → ℕ →
    Except Panic (Except ParseError (List (List Char)))
  | 0, _, _, _ => .error .diverged
  | fuel + 1, result, cmd, idx =>
      if cmd = [] then .ok (.ok result)
      else do
        let (cmd, idx) := skipSpaces cmd idx
        match ← parseArgument cmd idx with
        | .ok (arg, cmd, idx) => parseLoop fuel (result ++ [arg]) cmd idx
        | .error e => return .error e

/-- `parse_command`. Every round of the loop takes at least one character. -/
def parseCommand (cmd : List Char) : Except Panic (Except ParseError (List (List Char))) := do
  match ← parseLoop (cmd.length + 1) [] cmd 0 with
  | .ok result => return .ok (if result = [] then [[]] else result)
  | .error e => return .error e

/-! ### The text of a command -/

/-- An argument that can be written without quotes. -/
structure IsBare (arg : List Char) : Prop where
  ne_nil : arg ≠ []
  space : ' ' ∉ arg
  quote : arg.head? ≠ some '"'

/-- An argument as it is written. -/
inductive Token
  | bare (arg : List Char) (h : IsBare arg)
  | quoted (arg : List Char) (h : '"' ∉ arg)

/-- The argument. -/
def Token.arg : Token → List Char
  | .bare arg _ => arg
  | .quoted arg _ => arg

/-- What is written for it. -/
def Token.text : Token → List Char
  | .bare arg _ => arg
  | .quoted arg _ => '"' :: (arg ++ ['"'])

/-- The arguments with one space between them. -/
def joined (ts : List Token) : List Char := [' '].intercalate (ts.map Token.text)

/-- An argument up to the character that ends it: a space, or the quote that closes it. -/
def Token.closed : Token → List Char
  | .bare arg _ => arg ++ [' ']
  | .quoted arg _ => '"' :: (arg ++ ['"'])

/-- Spaces. -/
def spaces (k : ℕ) : List Char := List.replicate k ' '

/-- Where an argument can begin: the string is made of spaces and of arguments that have
ended. -/
inductive Between : List Char → Prop
  | spaces (k : ℕ) : Between (spaces k)
  | token {p : List Char} (k : ℕ) (t : Token) (h : Between p) :
      Between (Command.spaces k ++ (t.closed ++ p))

/-- Scanning reaches a quote that opens an argument and is not closed, and `idx` is its byte
offset. -/
def OpensAt (s : List Char) (idx : ℕ) : Prop :=
  ∃ p u, s = p ++ '"' :: u ∧ Between p ∧ '"' ∉ u ∧ byteLen p = idx

/-- What the scanner finds in front of what it has found already: an argument of `n` bytes. -/
def after (arg : List Char) (n : ℕ) :
    Except ℕ (List (List Char)) → Except ℕ (List (List Char))
  | .ok args => .ok (arg :: args)
  | .error idx => .error (n + idx)

/-- What a string is scanned to: arguments, or the byte offset of a quote that is not closed. -/
inductive Scans : List Char → Except ℕ (List (List Char)) → Prop
  | nil : Scans [] (.ok [])
  | blank (k : ℕ) : Scans (spaces (k + 1)) (.ok [[]])
  | last (k : ℕ) {arg : List Char} (harg : IsBare arg) : Scans (spaces k ++ arg) (.ok [arg])
  | opens (k : ℕ) {u : List Char} (hu : '"' ∉ u) : Scans (spaces k ++ '"' :: u) (.error k)
  | token (k : ℕ) (t : Token) {s : List Char} {r : Except ℕ (List (List Char))} (h : Scans s r) :
      Scans (spaces k ++ (t.closed ++ s)) (after t.arg (k + byteLen t.closed) r)

variable {s cmd rest u arg : List Char} {idx : ℕ}

/-- A space is one byte. -/
@[simp] theorem byteLen_spaces (k : ℕ) : byteLen (spaces k) = k := by
  induction k with
  | zero => rfl
  | succ k ih =>
      rw [spaces, List.replicate_succ, byteLen_cons, ← spaces, ih, Nat.add_comm]
      rfl

/-- Spaces are skipped, up to a character that is none. -/
theorem skipSpaces_spaces (hcmd : cmd.head? ≠ some ' ') (k idx : ℕ) :
    skipSpaces (spaces k ++ cmd) idx = (cmd, idx + k) := by
  induction k generalizing idx with
  | zero =>
      cases cmd with
      | nil => rfl
      | cons c cmd =>
          have hc : c ≠ ' ' := fun h => hcmd (by rw [h]; rfl)
          simp [skipSpaces, spaces, hc]
  | succ k ih =>
      rw [spaces, List.replicate_succ, List.cons_append, skipSpaces, ← spaces, ih]
      congr 1
      omega

/-- An argument in quotes. -/
theorem parseArgument_quoted (harg : '"' ∉ arg) :
    parseArgument ('"' :: (arg ++ '"' :: rest)) idx =
      .ok (.ok (arg, rest, idx + (byteLen arg + 2))) := by
  have hfind : find (fun c => c = '"') (arg ++ '"' :: rest) = some (byteLen arg) :=
    find_append (fun c hc => decide_eq_false fun h => harg (h ▸ hc)) (by simp)
  have hsize : byteLen ['"'] = 1 := rfl
  have hslice : slice ('"' :: (arg ++ '"' :: rest)) 1 (byteLen arg + 1) = some arg := by
    have h := slice_append ['"'] arg ('"' :: rest)
    rwa [hsize, Nat.add_comm 1] at h
  have hcut : sliceFrom ('"' :: (arg ++ '"' :: rest)) (byteLen arg + 2) = some rest := by
    have h := sliceFrom_append ('"' :: (arg ++ ['"'])) rest
    rw [byteLen_cons, byteLen_append, hsize] at h
    have hlen : Char.utf8Size '"' + (byteLen arg + 1) = byteLen arg + 2 := by
      rw [Nat.add_comm]
      rfl
    rw [hlen] at h
    simpa using h
  have hone : sliceFrom ('"' :: (arg ++ '"' :: rest)) 1 = some (arg ++ '"' :: rest) :=
    sliceFrom_one rfl _
  simp only [parseArgument, List.head?_cons, if_true, hone, cut, ok_bind, hfind, hslice, hcut]
  rfl

/-- A quote that is not closed. -/
theorem parseArgument_opens (hu : '"' ∉ u) :
    parseArgument ('"' :: u) idx = .ok (.error (idx, "unterminated quoted argument")) := by
  have hfind : find (fun c => c = '"') u = none :=
    find_eq_none_iff.mpr fun c hc => decide_eq_false fun h => hu (h ▸ hc)
  have hone : sliceFrom ('"' :: u) 1 = some u := sliceFrom_one rfl u
  simp only [parseArgument, List.head?_cons, if_true, hone, cut, ok_bind, hfind]
  rfl

/-- An argument without quotes, up to a space. -/
theorem parseArgument_bare (harg : IsBare arg) :
    parseArgument (arg ++ ' ' :: rest) idx = .ok (.ok (arg, rest, idx + (byteLen arg + 1))) := by
  have hhead : (arg ++ ' ' :: rest).head? ≠ some '"' := by
    rw [List.head?_append_of_ne_nil _ harg.ne_nil]
    exact harg.quote
  rw [parseArgument, if_neg hhead, splitOnce_append harg.space]
  rfl

/-- The last argument, without quotes and without a space behind it. -/
theorem parseArgument_last (hspace : ' ' ∉ arg) (hquote : arg.head? ≠ some '"') :
    parseArgument arg idx = .ok (.ok (arg, [], idx)) := by
  rw [parseArgument, if_neg hquote, splitOnce_eq_none_iff.mpr hspace]
  simp only [sliceFrom_byteLen, cut, ok_bind]
  rfl

/-- What the argument is parsed to, up to the character that ends it. -/
theorem parseArgument_closed (t : Token) (rest : List Char) (idx : ℕ) :
    parseArgument (t.closed ++ rest) idx = .ok (.ok (t.arg, rest, idx + byteLen t.closed)) := by
  cases t with
  | bare arg harg =>
      rw [Token.closed, List.append_assoc, List.singleton_append, parseArgument_bare harg,
        byteLen_append]
      rfl
  | quoted arg harg =>
      rw [Token.closed, List.cons_append, List.append_assoc, List.singleton_append,
        parseArgument_quoted harg, byteLen_cons, byteLen_append, Nat.add_comm (Char.utf8Size _)]
      rfl

/-- An argument up to its end does not begin with a space. -/
theorem Token.head_closed (t : Token) (rest : List Char) :
    (t.closed ++ rest).head? ≠ some ' ' := by
  cases t with
  | bare arg harg =>
      obtain ⟨c, arg, rfl⟩ := List.exists_cons_of_ne_nil harg.ne_nil
      intro h
      exact harg.space (List.mem_cons.mpr (Or.inl (Option.some.inj h).symm))
  | quoted arg harg =>
      intro h
      cases h

/-- An argument without quotes does not begin with a space. -/
theorem IsBare.head (h : IsBare arg) : arg.head? ≠ some ' ' :=
  fun hhead => h.space (List.mem_of_mem_head? hhead)

/-- A token has a character. -/
theorem Token.length_closed_pos (t : Token) : 0 < t.closed.length := by
  cases t with
  | bare arg harg => simp [Token.closed]
  | quoted arg harg => simp [Token.closed]

/-! ### The loop -/

/-- A round of the loop on a string that is not empty. -/
theorem parseLoop_succ (fuel : ℕ) (result : List (List Char)) {k : ℕ} (hhead : cmd.head? ≠ some ' ')
    (hne : spaces k ++ cmd ≠ []) :
    parseLoop (fuel + 1) result (spaces k ++ cmd) idx =
      (parseArgument cmd (idx + k) >>= fun r => match r with
        | .ok (arg, cmd, idx) => parseLoop fuel (result ++ [arg]) cmd idx
        | .error e => .ok (.error e)) := by
  rw [parseLoop, if_neg hne, skipSpaces_spaces hhead]
  rfl

/-- What the loop returns for what a string is scanned to. -/
def finish (result : List (List Char)) (idx : ℕ) :
    Except ℕ (List (List Char)) → Except ParseError (List (List Char))
  | .ok args => .ok (result ++ args)
  | .error n => .error (idx + n, "unterminated quoted argument")

/-- **The loop scans**: it returns the arguments behind those that it has, or the byte offset of
a quote that is not closed. -/
theorem Scans.parseLoop_eq {r : Except ℕ (List (List Char))} (h : Scans s r) {fuel : ℕ}
    (hfuel : s.length < fuel) (result : List (List Char)) (idx : ℕ) :
    parseLoop fuel result s idx = .ok (finish result idx r) := by
  obtain ⟨fuel, rfl⟩ : ∃ k, fuel = k + 1 := ⟨fuel - 1, by omega⟩
  have hnil : ∀ (fuel : ℕ) (result : List (List Char)) (idx : ℕ),
      parseLoop (fuel + 1) result [] idx = .ok (.ok result) := fun _ _ _ => rfl
  induction h generalizing fuel result idx with
  | nil => simp [hnil, finish]
  | blank k =>
      obtain ⟨fuel, rfl⟩ : ∃ k, fuel = k + 1 := ⟨fuel - 1, by simp [spaces] at hfuel; omega⟩
      have h := @parseLoop_succ [] idx (fuel + 1) result (k + 1) (by simp) (by simp [spaces])
      rw [List.append_nil] at h
      rw [h, parseArgument_last (by simp) (by simp)]
      exact hnil fuel _ (idx + (k + 1))
  | @last k arg harg =>
      obtain ⟨fuel, rfl⟩ : ∃ k, fuel = k + 1 :=
        ⟨fuel - 1, by have := List.length_pos_iff.mpr harg.ne_nil; simp at hfuel; omega⟩
      rw [parseLoop_succ _ _ harg.head (by simp [harg.ne_nil]),
        parseArgument_last harg.space harg.quote]
      exact hnil fuel _ (idx + k)
  | opens k hu =>
      rw [parseLoop_succ _ _ (by simp) (by simp), parseArgument_opens hu]
      rfl
  | @token k t s r h ih =>
      have hpos := t.length_closed_pos
      simp only [List.length_append] at hfuel
      obtain ⟨fuel, rfl⟩ : ∃ k, fuel = k + 1 := ⟨fuel - 1, by omega⟩
      have hne : t.closed ≠ [] := List.length_pos_iff.mp hpos
      rw [parseLoop_succ _ _ (t.head_closed s) (by simp [hne]), parseArgument_closed]
      refine (ih (result ++ [t.arg]) _ fuel (by omega)).trans ?_
      cases r with
      | ok args => simp [finish, after]
      | error n => simp [finish, after, Nat.add_assoc]

/-- Every string is scanned to something. -/
theorem exists_scans (s : List Char) : ∃ r, Scans s r := by
  induction hn : s.length using Nat.strongRecOn generalizing s with
  | ind n ih =>
      obtain ⟨l, cmd, rfl, hl, hcmd⟩ := exists_first_part (fun c => c ≠ ' ') s
      obtain ⟨k, rfl⟩ : ∃ k, l = spaces k :=
        ⟨l.length, List.eq_replicate_of_mem fun c hc => by simpa using hl c hc⟩
      have hrest : ∀ (t : Token) (rest : List Char), cmd = t.closed ++ rest →
          ∃ r, Scans (spaces k ++ cmd) r := by
        rintro t rest rfl
        have hpos := t.length_closed_pos
        simp only [List.length_append] at hn
        obtain ⟨r, hr⟩ := ih rest.length (by omega) rest rfl
        exact ⟨_, .token k t hr⟩
      by_cases hquote : cmd.head? = some '"'
      · obtain ⟨u, rfl⟩ := List.head?_eq_some_iff.mp hquote
        by_cases hu : '"' ∈ u
        · obtain ⟨arg, rest, rfl, harg⟩ := List.eq_append_cons_of_mem hu
          exact hrest (.quoted arg harg) rest (by simp [Token.closed])
        · exact ⟨_, .opens k hu⟩
      by_cases hspace : ' ' ∈ cmd
      · obtain ⟨arg, rest, rfl, harg⟩ := List.eq_append_cons_of_mem hspace
        have hne : arg ≠ [] := by
          rintro rfl
          simpa using hcmd ' ' rfl
        rw [List.head?_append_of_ne_nil _ hne] at hquote
        exact hrest (.bare arg ⟨hne, harg, hquote⟩) rest (by simp [Token.closed])
      · by_cases hne : cmd = []
        · subst hne
          cases k with
          | zero => exact ⟨_, .nil⟩
          | succ k => exact ⟨_, by rw [List.append_nil]; exact .blank k⟩
        · exact ⟨_, .last k ⟨hne, hspace, hquote⟩⟩

/-- What `parse_command` returns for what its string is scanned to. -/
def returned : Except ℕ (List (List Char)) → Except ParseError (List (List Char))
  | .ok args => .ok (if args = [] then [[]] else args)
  | .error n => .error (n, "unterminated quoted argument")

/-- **Parsing scans.** -/
theorem Scans.parseCommand_eq {r : Except ℕ (List (List Char))} (h : Scans s r) :
    parseCommand s = .ok (returned r) := by
  rw [parseCommand, h.parseLoop_eq (Nat.lt_succ_self _) [] 0]
  cases r with
  | ok args => rfl
  | error n => simp [finish, returned]; rfl

/-! ### The quote that is not closed -/

/-- Scanning fails exactly at a quote that opens an argument and is not closed. -/
theorem exists_scans_error_iff : Scans s (.error idx) ↔ OpensAt s idx := by
  constructor
  · intro h
    generalize hr : Except.error idx = r at h
    induction h generalizing idx with
    | nil | blank | last => cases hr
    | @opens k u hu =>
        obtain rfl := Except.error.inj hr
        exact ⟨spaces idx, u, rfl, .spaces idx, hu, byteLen_spaces idx⟩
    | @token k t s r h ih =>
        cases r with
        | ok args => cases hr
        | error n =>
            obtain rfl := Except.error.inj hr
            obtain ⟨p, u, rfl, hp, hu, rfl⟩ := ih rfl
            refine ⟨spaces k ++ (t.closed ++ p), u, by simp, .token k t hp, hu, ?_⟩
            simp [Nat.add_assoc]
  · rintro ⟨p, u, rfl, hp, hu, rfl⟩
    induction hp with
    | spaces k =>
        rw [byteLen_spaces]
        exact .opens k hu
    | @token p k t hp ih =>
        have h := Scans.token k t ih
        simpa [after, Nat.add_assoc] using h

/-! ### Writing arguments -/

/-- Behind an argument that is followed by a space, at most this space is left. -/
theorem Token.text_space (t : Token) (s : List Char) :
    ∃ k, t.text ++ ' ' :: s = t.closed ++ (spaces k ++ s) := by
  cases t with
  | bare arg harg => exact ⟨0, by simp [Token.text, Token.closed, spaces]⟩
  | quoted arg harg => exact ⟨1, by simp [Token.text, Token.closed, spaces]⟩

/-- The last argument, without a space behind it. -/
theorem Token.scans_text (t : Token) (k : ℕ) : Scans (spaces k ++ t.text) (.ok [t.arg]) := by
  cases t with
  | bare arg harg => exact .last k harg
  | quoted arg harg =>
      have h := Scans.token k (.quoted arg harg) .nil
      rwa [List.append_nil] at h

/-- Arguments with one space between them are scanned to the arguments. -/
theorem scans_joined (t : Token) (ts : List Token) (k : ℕ) :
    Scans (spaces k ++ joined (t :: ts)) (.ok ((t :: ts).map Token.arg)) := by
  induction ts generalizing t k with
  | nil =>
      have h : joined [t] = t.text := by simp [joined]
      rw [h]
      exact t.scans_text k
  | cons t' ts ih =>
      have h : joined (t :: t' :: ts) = t.text ++ ' ' :: joined (t' :: ts) := by
        simp [joined, List.intercalate]
      obtain ⟨k', hk'⟩ := t.text_space (joined (t' :: ts))
      rw [h, hk']
      exact .token k t (ih t' k')

/-- **Parsing a command.** Arguments that are written with one space between them are parsed to
the arguments, none of them to one empty argument. Every string is parsed to something. And
parsing fails exactly if scanning reaches a quote that opens an argument and is not closed, with
the byte offset of this quote. -/
theorem parseCommand_spec :
    (∀ ts : List Token, parseCommand (joined ts) =
      .ok (.ok (if ts = [] then [[]] else ts.map Token.arg))) ∧
    (∀ s, ∃ r, parseCommand s = .ok r) ∧
    ∀ s idx, (∃ msg, parseCommand s = .ok (.error (idx, msg))) ↔ OpensAt s idx := by
  refine ⟨fun ts => ?_, fun s => ?_, fun s idx => ?_⟩
  · cases ts with
    | nil => rfl
    | cons t ts =>
        have h := (scans_joined t ts 0).parseCommand_eq
        simpa [spaces, returned] using h
  · obtain ⟨r, hr⟩ := exists_scans s
    exact ⟨_, hr.parseCommand_eq⟩
  · rw [← exists_scans_error_iff]
    obtain ⟨r, hr⟩ := exists_scans s
    rw [hr.parseCommand_eq]
    constructor
    · rintro ⟨msg, heq⟩
      cases r with
      | ok args => cases heq
      | error n =>
          obtain rfl : n = idx := by simpa [returned] using And.left (by simpa [returned] using heq)
          exact hr
    · intro h
      have heq := hr.parseCommand_eq.symm.trans h.parseCommand_eq
      exact ⟨_, congrArg _ (Except.ok.inj heq)⟩

end HydroxKernel.Command
