import Mathlib.Data.List.Basic
import Mathlib.Tactic.Common

/-!
# Texts in lines

A text is split at a separator, into a bounded number of parts or into terminated
lines. Parts joined again give the text, and lines that do not contain the
separator are read back as they were written.
-/
namespace FrankenSim.Library

variable {α : Type*} [DecidableEq α]

/-- The parts before and after the first separator. -/
def splitFirst (sep : α) : List α → Option (List α × List α)
  | [] => none
  | x :: xs =>
    if x = sep then some ([], xs)
    else (splitFirst sep xs).map fun parts => (x :: parts.1, parts.2)

/-- At most `n` parts; the last one keeps the separators that are left. -/
def splitN (sep : α) : ℕ → List α → List (List α)
  | 0, _ => []
  | 1, text => [text]
  | n + 2, text =>
    match splitFirst sep text with
    | none => [text]
    | some (first, rest) => first :: splitN sep (n + 1) rest

/-- The lines of a text; the last one need not be terminated. -/
def splitTerminator (sep : α) : List α → List (List α)
  | [] => []
  | x :: xs =>
    if x = sep then [] :: splitTerminator sep xs
    else
      match splitTerminator sep xs with
      | [] => [[x]]
      | line :: lines => (x :: line) :: lines

/-- Every line with its terminator. -/
def terminated (sep : α) (lines : List (List α)) : List α := lines.flatMap (· ++ [sep])

/-- The parts before and after the first occurrence of a pattern. -/
def splitOnce (pattern : List α) : List α → Option (List α × List α)
  | [] => if pattern = [] then some ([], []) else none
  | x :: xs =>
    if pattern.isPrefixOf (x :: xs) then some ([], (x :: xs).drop pattern.length)
    else (splitOnce pattern xs).map fun parts => (x :: parts.1, parts.2)

/-- The rest of a text after a required beginning. -/
def stripPrefix (start text : List α) : Option (List α) :=
  if start.isPrefixOf text then some (text.drop start.length) else none

variable {sep : α}

theorem eq_append_of_stripPrefix {start text rest : List α}
    (h : stripPrefix start text = some rest) : text = start ++ rest := by
  unfold stripPrefix at h
  split at h
  case isTrue hstart =>
    obtain ⟨rest', rfl⟩ := List.isPrefixOf_iff_prefix.1 hstart
    rw [List.drop_left] at h
    rw [Option.some.inj h]
  case isFalse => cases h

theorem eq_of_splitFirst {text first rest : List α} (h : splitFirst sep text = some (first, rest)) :
    text = first ++ sep :: rest := by
  induction text generalizing first with
  | nil => cases h
  | cons x xs ih =>
    unfold splitFirst at h
    split at h
    case isTrue hx =>
      obtain ⟨rfl, rfl⟩ := Prod.mk.inj (Option.some.inj h)
      rw [hx, List.nil_append]
    case isFalse =>
      obtain ⟨⟨first', rest'⟩, hparts, heq⟩ := Option.map_eq_some_iff.1 h
      obtain ⟨rfl, rfl⟩ := Prod.mk.inj heq
      rw [ih hparts, List.cons_append]

theorem splitFirst_append {first : List α} (h : sep ∉ first) (rest : List α) :
    splitFirst sep (first ++ sep :: rest) = some (first, rest) := by
  induction first with
  | nil => simp [splitFirst]
  | cons x first ih =>
    obtain ⟨hx, hfirst⟩ := List.ne_and_not_mem_of_not_mem_cons h
    simp [splitFirst, Ne.symm hx, ih hfirst]

/-- The first parts are terminated and the last one is the rest of the text. -/
theorem eq_of_splitN {n : ℕ} {text rest : List α} {parts : List (List α)}
    (hlength : parts.length = n) (h : splitN sep (n + 1) text = parts ++ [rest]) :
    text = terminated sep parts ++ rest := by
  induction n generalizing text parts with
  | zero =>
    obtain rfl := List.length_eq_zero_iff.1 hlength
    exact (List.cons.inj h).1
  | succ n ih =>
    obtain ⟨first, parts, rfl⟩ := List.exists_cons_of_length_eq_add_one hlength
    unfold splitN at h
    cases hfirst : splitFirst sep text with
    | none =>
      rw [hfirst] at h
      have hshort := congrArg List.length h
      simp at hshort
    | some split =>
      rw [hfirst] at h
      obtain ⟨rfl, hrest⟩ := List.cons.inj h
      rw [eq_of_splitFirst hfirst, ih (Nat.succ.inj hlength) hrest]
      simp [terminated]

theorem splitN_length_le (n : ℕ) (text : List α) : (splitN sep n text).length ≤ n := by
  induction n generalizing text with
  | zero => exact Nat.le_refl _
  | succ n ih =>
    cases n with
    | zero => exact Nat.le_refl _
    | succ n =>
      unfold splitN
      split
      · simp
      · exact Nat.succ_le_succ (ih _)

/-- Terminated lines are the first parts of a text. -/
theorem splitN_terminated {lines : List (List α)} (h : ∀ line ∈ lines, sep ∉ line) (rest : List α) :
    splitN sep (lines.length + 1) (terminated sep lines ++ rest) = lines ++ [rest] := by
  induction lines with
  | nil => rfl
  | cons line lines ih =>
    obtain ⟨hline, hlines⟩ := List.forall_mem_cons.1 h
    have htext : terminated sep (line :: lines) ++ rest =
        line ++ sep :: (terminated sep lines ++ rest) := by
      simp [terminated]
    rw [htext, List.length_cons, splitN, splitFirst_append hline]
    exact congrArg (line :: ·) (ih hlines)

theorem splitTerminator_append {line : List α} (h : sep ∉ line) (rest : List α) :
    splitTerminator sep (line ++ sep :: rest) = line :: splitTerminator sep rest := by
  induction line with
  | nil => simp [splitTerminator]
  | cons x line ih =>
    obtain ⟨hx, hline⟩ := List.ne_and_not_mem_of_not_mem_cons h
    simp [splitTerminator, Ne.symm hx, ih hline]

/-- Terminated lines are read back. -/
theorem splitTerminator_terminated {lines : List (List α)} (h : ∀ line ∈ lines, sep ∉ line) :
    splitTerminator sep (terminated sep lines) = lines := by
  induction lines with
  | nil => rfl
  | cons line lines ih =>
    obtain ⟨hline, hlines⟩ := List.forall_mem_cons.1 h
    have htext : terminated sep (line :: lines) = line ++ sep :: terminated sep lines := by
      simp [terminated]
    rw [htext, splitTerminator_append hline, ih hlines]

end FrankenSim.Library
