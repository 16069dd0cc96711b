import HydroxKernel.Cmd.ParseCommand
import Mathlib.Data.List.Forall2

/-!
# Spaces in Commands

More spaces before, between or behind the arguments of a command should not change what it is
parsed to. The loop of `parse_command` skips spaces before it takes an argument. But when no
argument is behind the spaces, it takes an empty one.

## Main results

* `Layout.parseCommand_eq`: what a command is parsed to.
* `parseCommand_widened_iff`: more spaces do not change it exactly if they do not leave any
  behind the last argument, or if some were left before.
-/

namespace HydroxKernel.Command

open Str

/-- Whether the argument is written without quotes. -/
def Token.isBare : Token → Bool
  | .bare .. => true
  | .quoted .. => false

/-- The spaces behind an argument that are left for the next round of the loop. The first one
ends an argument without quotes. -/
def Token.left : Token → ℕ → ℕ
  | .bare .., n => n - 1
  | .quoted .., n => n

/-- A command as it is written: spaces, and arguments, each with the number of the spaces behind
it. An argument without quotes is followed by a space, if it is not the last one. -/
structure Layout where
  leading : ℕ
  tokens : List (Token × ℕ)
  separated : ∀ p ∈ tokens.dropLast, p.1.isBare = true → p.2 ≠ 0

/-- Arguments and the spaces behind them. -/
def body (ts : List (Token × ℕ)) : List Char := ts.flatMap fun p => p.1.text ++ spaces p.2

/-- The command. -/
def Layout.text (L : Layout) : List Char := spaces L.leading ++ body L.tokens

/-- The arguments. -/
def args (ts : List (Token × ℕ)) : List (List Char) := ts.map fun p => p.1.arg

/-- Spaces are left behind the last argument. -/
def Layout.Trails (L : Layout) : Prop := ∃ p ∈ L.tokens.getLast?, p.1.left p.2 ≠ 0

instance (L : Layout) : Decidable L.Trails :=
  inferInstanceAs (Decidable (∃ p ∈ L.tokens.getLast?, p.1.left p.2 ≠ 0))

/-- Spaces are inserted before, between or behind the arguments. -/
structure Widened (L L' : Layout) : Prop where
  leading : L.leading ≤ L'.leading
  tokens : L.tokens.Forall₂ (fun p q => p.1 = q.1 ∧ p.2 ≤ q.2) L'.tokens

/-- What is found in arguments behind `k` spaces. -/
def found : ℕ → List (Token × ℕ) → List (List Char)
  | k, [] => if k = 0 then [] else [[]]
  | _, p :: ts => p.1.arg :: found (p.1.left p.2) ts

variable {L L' : Layout} {s : List Char} {ts : List (Token × ℕ)}

/-- An argument and the spaces behind it: what ends it is taken, and the other spaces are left. -/
theorem Token.text_append {t : Token} {n : ℕ} (h : t.isBare = true → n ≠ 0) (s : List Char) :
    t.text ++ spaces n ++ s = t.closed ++ (spaces (t.left n) ++ s) := by
  cases t with
  | bare arg harg =>
      obtain ⟨n, rfl⟩ := Nat.exists_eq_succ_of_ne_zero (h rfl)
      simp [Token.text, Token.closed, Token.left, spaces, List.replicate_succ]
  | quoted arg harg => simp [Token.text, Token.closed, Token.left]

/-- What a command is scanned to. -/
theorem scans_body (hts : ∀ p ∈ ts.dropLast, p.1.isBare = true → p.2 ≠ 0) (k : ℕ) :
    Scans (spaces k ++ body ts) (.ok (found k ts)) := by
  induction ts generalizing k with
  | nil =>
      rw [body, List.flatMap_nil, List.append_nil]
      cases k with
      | zero => exact .nil
      | succ k => exact .blank k
  | cons p ts ih =>
      obtain ⟨t, n⟩ := p
      have hbody : body ((t, n) :: ts) = t.text ++ spaces n ++ body ts := by simp [body]
      by_cases hlast : t.isBare = true ∧ n = 0
      · obtain ⟨hbare, rfl⟩ := hlast
        have hnil : ts = [] := by
          by_contra hne
          refine hts (t, 0) ?_ hbare rfl
          rw [List.dropLast_cons_of_ne_nil hne]
          exact List.mem_cons_self
        subst hnil
        cases t with
        | bare arg harg =>
            have h := Scans.last k harg
            simpa [body, Token.text, spaces, found, Token.left, Token.arg] using h
        | quoted arg harg => cases hbare
      · have hn : t.isBare = true → n ≠ 0 := fun hbare hn => hlast ⟨hbare, hn⟩
        rw [hbody, Token.text_append hn]
        refine .token k t (ih (fun p hp => hts p ?_) (t.left n))
        cases ts with
        | nil => simp at hp
        | cons q ts => exact List.mem_cons_of_mem _ hp

/-- What is found: the arguments, and an empty one if spaces are left behind the last. -/
theorem found_eq (hne : ts ≠ []) (k : ℕ) :
    found k ts = args ts ++ if (∃ p ∈ ts.getLast?, p.1.left p.2 ≠ 0) then [[]] else [] := by
  induction ts generalizing k with
  | nil => exact absurd rfl hne
  | cons p ts ih =>
      cases ts with
      | nil => by_cases h : p.1.left p.2 = 0 <;> simp [found, args, h]
      | cons q ts =>
          rw [found, ih (List.cons_ne_nil _ _), List.getLast?_cons_cons]
          rfl

/-- **What a command is parsed to**: its arguments, and an empty one if spaces are left behind
the last, or if there is no other. -/
theorem Layout.parseCommand_eq (L : Layout) :
    parseCommand L.text = .ok (.ok (if L.tokens = [] then [[]]
      else args L.tokens ++ if L.Trails then [[]] else [])) := by
  rw [Layout.text, (scans_body L.separated L.leading).parseCommand_eq]
  by_cases hne : L.tokens = []
  · by_cases hk : L.leading = 0 <;> simp [returned, hne, found, hk]
  · have hfound : found L.leading L.tokens ≠ [] := by
      obtain ⟨p, ts, hts⟩ := List.exists_cons_of_ne_nil hne
      simp [hts, found]
    rw [returned, if_neg hfound, if_neg hne, found_eq hne]
    rfl

/-- Every string that can be scanned is written in some way. -/
theorem Scans.exists_layout {r : Except ℕ (List (List Char))} (h : Scans s r)
    (hr : r.isOk = true) : ∃ L : Layout, L.text = s := by
  induction h with
  | nil => exact ⟨⟨0, [], by simp⟩, rfl⟩
  | blank k => exact ⟨⟨k + 1, [], by simp⟩, by simp [Layout.text, body]⟩
  | @last k arg harg =>
      exact ⟨⟨k, [(.bare arg harg, 0)], by simp⟩, by simp [Layout.text, body, Token.text, spaces]⟩
  | opens => cases hr
  | @token k t s r h ih =>
      obtain ⟨L, rfl⟩ := ih (by cases r <;> first | rfl | cases hr)
      -- the space that ends an argument without quotes is written behind it
      obtain ⟨n, hn, hleft⟩ : ∃ n, (t.isBare = true → n ≠ 0) ∧ t.left n = L.leading := by
        cases t with
        | bare arg harg => exact ⟨L.leading + 1, fun _ => Nat.succ_ne_zero _, rfl⟩
        | quoted arg harg => exact ⟨L.leading, fun h => (by cases h), rfl⟩
      refine ⟨⟨k, (t, n) :: L.tokens, fun p hp => ?_⟩, ?_⟩
      · cases hts : L.tokens with
        | nil => simp [hts] at hp
        | cons q ts =>
            rw [hts, List.dropLast_cons_cons, List.mem_cons] at hp
            rcases hp with rfl | hp
            · exact hn
            · exact L.separated p (hts ▸ hp)
      · have h := Token.text_append hn (body L.tokens)
        rw [hleft] at h
        rw [Layout.text, Layout.text, ← h]
        simp [body]

/-- More spaces do not change the arguments. -/
theorem Widened.args_eq (h : Widened L L') : args L'.tokens = args L.tokens := by
  have htokens := h.tokens
  generalize L.tokens = ts at htokens
  generalize L'.tokens = ts' at htokens
  induction htokens with
  | nil => rfl
  | cons hp _ ih =>
      rw [args, List.map_cons, ← args, ih, ← hp.1]
      rfl

/-- Wider spaces add no argument to none. -/
theorem Widened.nil_iff (h : Widened L L') : L'.tokens = [] ↔ L.tokens = [] := by
  have hlen := h.tokens.length_eq
  rw [← List.length_eq_zero_iff, ← List.length_eq_zero_iff, hlen]

/-- More spaces are not fewer behind the last argument. -/
theorem Widened.trails (h : Widened L L') (hL : L.Trails) : L'.Trails := by
  obtain ⟨p, hp, hleft⟩ := hL
  have hlast : ∀ {ts ts' : List (Token × ℕ)},
      ts.Forall₂ (fun p q => p.1 = q.1 ∧ p.2 ≤ q.2) ts' → p ∈ ts.getLast? →
        ∃ q ∈ ts'.getLast?, p.1 = q.1 ∧ p.2 ≤ q.2 := by
    intro ts ts' hts hp
    induction hts with
    | nil => cases hp
    | @cons a b ts ts' hab hrest ih =>
        cases hrest with
        | nil =>
            obtain rfl := Option.some.inj hp
            exact ⟨b, rfl, hab⟩
        | cons => exact ih hp
  obtain ⟨q, hq, heq, hle⟩ := hlast h.tokens hp
  refine ⟨q, hq, fun hzero => hleft ?_⟩
  rw [← heq] at hzero
  cases ht : p.1 with
  | bare =>
      rw [ht] at hzero
      simp only [Token.left] at hzero ⊢
      omega
  | quoted =>
      rw [ht] at hzero
      simp only [Token.left] at hzero ⊢
      omega

/-- **When more spaces do not change the arguments.** A command that is parsed is written in
some way, and inserting spaces before, between or behind its arguments does not change what it
is parsed to exactly if the spaces behind the last argument are all taken as before, or if some
were left before. -/
theorem parseCommand_widened_iff {parsed : List (List Char)}
    (h : parseCommand s = .ok (.ok parsed)) :
    (∃ L : Layout, L.text = s) ∧ ∀ L : Layout, L.text = s → ∀ L', Widened L L' →
      (parseCommand L'.text = .ok (.ok parsed) ↔ (L'.Trails → L.Trails)) := by
  refine ⟨?_, ?_⟩
  · obtain ⟨r, hr⟩ := exists_scans s
    refine hr.exists_layout ?_
    rw [hr.parseCommand_eq] at h
    cases r with
    | ok args => rfl
    | error n => cases h
  · rintro L rfl L' hwide
    rw [← h, L.parseCommand_eq, L'.parseCommand_eq, hwide.args_eq]
    by_cases hne : L.tokens = []
    · have hno : ¬ L'.Trails := by
        rintro ⟨p, hp, -⟩
        rw [hwide.nil_iff.mpr hne] at hp
        cases hp
      simp [hne, hwide.nil_iff.mpr hne, hno]
    · have hne' : L'.tokens ≠ [] := fun h => hne (hwide.nil_iff.mp h)
      by_cases hL : L.Trails
      · simp [hne, hne', hL, hwide.trails hL]
      · by_cases hL' : L'.Trails <;> simp [hne, hne', hL, hL']

/-- One more space behind `a b` changes nothing, and neither do more between its arguments. -/
theorem parseCommand_widened_a_b :
    (∃ L : Layout, L.text = ['a', ' ', 'b']) ∧
      ∀ L : Layout, L.text = ['a', ' ', 'b'] → ∀ L', Widened L L' →
        (parseCommand L'.text = .ok (.ok [['a'], ['b']]) ↔ (L'.Trails → L.Trails)) :=
  parseCommand_widened_iff rfl

/-- **Two more spaces** behind `a` add an empty argument. -/
theorem widened_adds_argument :
    ∃ L L' : Layout, L.text = ['a'] ∧ L'.text = ['a', ' ', ' '] ∧ Widened L L' ∧
      parseCommand L.text = .ok (.ok [['a']]) ∧ parseCommand L'.text = .ok (.ok [['a'], []]) := by
  have ha : IsBare ['a'] := ⟨by simp, by simp, by simp⟩
  exact ⟨⟨0, [(.bare ['a'] ha, 0)], by simp⟩, ⟨0, [(.bare ['a'] ha, 2)], by simp⟩, rfl, rfl,
    ⟨Nat.le_refl 0, by simp⟩, rfl, rfl⟩

end HydroxKernel.Command
