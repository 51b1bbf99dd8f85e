import Homoicon.Proofs.Reading.Tokens

/-! Regular expressions at the front of a text, whose alternatives are tried in order. -/
namespace Homoicon

inductive Regex
  | empty
  | one (p : Char → Bool)
  | many (p : Char → Bool)
  | seq (first second : Regex)
  | either (first second : Regex)

namespace Regex
open Numeral (leading)

abbrev char (c : Char) : Regex := one (· = c)

/-- A letter in either case. No letter beyond ASCII is another case of those it is used for. -/
abbrev letter (c : Char) : Regex := one (·.toLower = c)

def several (p : Char → Bool) : Regex := seq (one p) (many p)

def optional (r : Regex) : Regex := either r empty

/-- The lengths that an expression can match, the preferred ones first: more of a class before less,
and the first alternative before the second. -/
def lengths : Regex → List Char → List Nat
  | empty, _ => [0]
  | one p, text => if text.head?.any p then [1] else []
  | many p, text => (List.range (leading p text + 1)).reverse
  | seq first second, text =>
    (lengths first text).flatMap fun n => (lengths second (text.drop n)).map (n + ·)
  | either first second, text => lengths first text ++ lengths second text

def found? (r : Regex) (text : List Char) : Option Nat := (r.lengths text).head?

def nonzero (n : Nat) : Option Nat := if n = 0 then none else some n

theorem nonzero_of_pos {n : Nat} (h : 0 < n) : nonzero n = some n := if_neg (Nat.ne_of_gt h)

theorem nonzero_eq_some {m n : Nat} : nonzero m = some n ↔ m ≠ 0 ∧ m = n := by
  unfold nonzero
  split <;> simp_all

theorem nonzero_or (m n : Nat) : (nonzero m).or (nonzero n) = nonzero (if m ≠ 0 then m else n) := by
  unfold nonzero
  split <;> simp_all

variable {p : Char → Bool} {r first second : Regex} {text rest : List Char} {c : Char} {m n : Nat}

theorem found?_one : (one p).found? (c :: rest) = if p c then some 1 else none := by
  rw [found?, lengths, List.head?_cons, Option.any_some]
  split <;> rfl

theorem found?_many : (many p).found? text = some (leading p text) := by
  rw [found?, lengths, List.head?_reverse, List.getLast?_range]
  exact if_neg (Nat.succ_ne_zero _)

theorem found?_either : (either first second).found? text =
    (first.found? text).or (second.found? text) := List.head?_append

theorem found?_optional : r.optional.found? text = some ((r.found? text).getD 0) := by
  rw [optional, found?_either]
  cases r.found? text <;> rfl

theorem found?_seq : (seq first second).found? text =
    (first.lengths text).findSome? fun n => (second.found? (text.drop n)).map (n + ·) := by
  simp only [found?, lengths, List.head?_flatMap, List.head?_map]

theorem found?_seq_of_some (hfirst : first.found? text = some n)
    (hsecond : second.found? (text.drop n) = some m) :
    (seq first second).found? text = some (n + m) := by
  obtain ⟨others, hlengths⟩ := List.head?_eq_some_iff.mp hfirst
  rw [found?_seq, hlengths, List.findSome?_cons, hsecond]
  rfl

theorem found?_seq_of_none (hfirst : first.found? text = none) :
    (seq first second).found? text = none := by
  rw [found?_seq, List.head?_eq_none_iff.mp hfirst, List.findSome?_nil]

theorem found?_one_seq : (seq (one p) second).found? (c :: rest) =
    if p c then (second.found? rest).map (1 + ·) else none := by
  rw [found?_seq, lengths, List.head?_cons, Option.any_some]
  split
  · rw [List.findSome?_singleton]
    rfl
  · rfl

theorem found?_one_seq_nil : (seq (one p) second).found? [] = none := found?_seq_of_none rfl

theorem found?_char_seq_of_ne {d : Char} (h : ∀ rest, text ≠ d :: rest) :
    (seq (char d) second).found? text = none := by
  cases text with
  | nil => exact found?_one_seq_nil
  | cons c rest =>
    have hc : c ≠ d := fun heq => h rest (heq ▸ rfl)
    rw [found?_one_seq, decide_eq_false hc]
    rfl

theorem found?_optional_seq :
    (seq r.optional second).found? text = ((seq r second).found? text).or (second.found? text) := by
  have hlengths : r.optional.lengths text = r.lengths text ++ [0] := rfl
  rw [found?_seq, found?_seq, hlengths, List.findSome?_append, List.findSome?_singleton]
  simp

theorem found?_several : (several p).found? text = nonzero (leading p text) := by
  cases text with
  | nil => exact found?_one_seq_nil
  | cons c rest =>
    rw [several, found?_one_seq, found?_many]
    cases hc : p c with
    | true =>
      rw [Numeral.leading_of_pos hc, nonzero_of_pos (Nat.succ_pos _)]
      exact congrArg some (Nat.add_comm ..)
    | false =>
      rw [Numeral.leading_of_neg hc]
      rfl

end Regex
end Homoicon
