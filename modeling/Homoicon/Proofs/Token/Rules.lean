import Homoicon.Proofs.Reading.Lines
import Homoicon.Proofs.Token.Regex

/-! The rules by which a text is cut into tokens, tried in order at each place. What a rule makes of
its match may turn out to be no token, and the next rule is tried then; this never happens. -/
namespace Homoicon
open Text (Position isAlphabetic isBit isHexDigit isPunctuation)

namespace Decimal

def withoutSign : List Char → List Char
  | '+' :: text | '-' :: text => text
  | text => text

/-- Nothing, or the letter `e` in either case, a sign or none, and digits. -/
def isExponent : List Char → Bool
  | [] => true
  | e :: text =>
    e.toLower = 'e' && !(withoutSign text).isEmpty && (withoutSign text).all Char.isDigit

/-- Digits with a point or none, at least one of them, and an exponent. -/
def isNumeral (text : List Char) : Bool :=
  match text.dropWhile Char.isDigit with
  | '.' :: rest =>
    !(text.takeWhile Char.isDigit ++ rest.takeWhile Char.isDigit).isEmpty &&
      isExponent (rest.dropWhile Char.isDigit)
  | rest => !(text.takeWhile Char.isDigit).isEmpty && isExponent rest

def ofUnsigned? (text : List Char) : Option Float :=
  if text.map Char.toLower ∈ ["inf".toList, "infinity".toList] then some (1.0 / 0.0)
  else if text.map Char.toLower = "nan".toList then some (0.0 / 0.0)
  else if isNumeral text then some (value text)
  else none

/-- The double that a text stands for, if it does for one. -/
def ofText? : List Char → Option Float
  | '+' :: text => ofUnsigned? text
  | '-' :: text => (ofUnsigned? text).map (- ·)
  | text => ofUnsigned? text

end Decimal

namespace Numeral

theorem signLength_cons (c : Char) (rest : List Char) :
    signLength (c :: rest) = if c = '+' ∨ c = '-' then 1 else 0 := by
  unfold signLength
  split <;> simp_all

theorem mantissaLength_point {text rest : List Char}
    (h : text.drop (leading Char.isDigit text) = '.' :: rest) :
    mantissaLength text =
      if leading Char.isDigit text = 0 ∧ leading Char.isDigit rest = 0 then 0
      else leading Char.isDigit text + 1 + leading Char.isDigit rest := by
  unfold mantissaLength
  dsimp only
  rw [h]
  rfl

theorem mantissaLength_whole {text : List Char}
    (h : ∀ rest, text.drop (leading Char.isDigit text) ≠ '.' :: rest) :
    mantissaLength text = leading Char.isDigit text := by
  unfold mantissaLength
  dsimp only
  split
  · next rest heq => exact absurd heq (h rest)
  · rfl

theorem leading_drop_leading (p : Char → Bool) (text : List Char) :
    leading p (text.drop (leading p text)) = 0 := by
  rw [drop_leading, leading, List.length_eq_zero_iff]
  induction text with
  | nil => rfl
  | cons c rest ih =>
    cases hc : p c with
    | true => rwa [List.dropWhile_cons_of_pos hc]
    | false =>
      have hneg := Bool.eq_false_iff.mp hc
      rw [List.dropWhile_cons_of_neg hneg, List.takeWhile_cons_of_neg hneg]

end Numeral

/-- A rule for the text at a place, and what it makes of a match. -/
structure Token.Rule where
  pattern : Regex
  transform : List Char → Location → Option Node

namespace Token.Rule
open Regex (char letter many one optional several)

/-- Digits in the base that a marker in either case stands for. -/
def digitsAfter (marker : Char) (digits : List Char) : Option Float :=
  if marker.toLower = 'x' then
    if digits.all isHexDigit then some (Decimal.valueInBase 16 digits) else none
  else if marker.toLower = 'b' then
    if digits.all isBit then some (Decimal.valueInBase 2 digits) else none
  else none

/-- The marker is the second character, and the second byte. -/
def magnitude : List Char → Option Float
  | zero :: marker :: digits => if zero.utf8Size = 1 then digitsAfter marker digits else none
  | _ => none

def radixValue : List Char → Option Float
  | '-' :: text => (magnitude text).map (- ·)
  | text => magnitude text

/-- A number by its value, if it has one. -/
def number (value : List Char → Option Float) (text : List Char) (location : Location) :
    Option Node :=
  (value text).map fun x => .number x (String.ofList text) location

/-- A symbol, which any text can be. -/
def symbol (kind : Kind) (text : List Char) (location : Location) : Option Node :=
  some (.symbol kind (String.ofList text) location)

def radix : Rule where
  pattern := .either (.seq (char '0') (.seq (letter 'x') (several isHexDigit)))
    (.seq (optional (char '-')) (.seq (char '0') (.seq (letter 'b') (several isBit))))
  transform := number radixValue

def mantissa : Regex :=
  .either (.seq (char '.') (several Char.isDigit))
    (.seq (several Char.isDigit) (.seq (optional (char '.')) (many Char.isDigit)))

def exponent : Regex :=
  .seq (letter 'e') (.seq (optional (one fun c => c = '+' || c = '-')) (several Char.isDigit))

def decimal : Rule where
  pattern := .seq mantissa (optional exponent)
  transform := number Decimal.ofText?

def punctuation : Rule where
  pattern := one isPunctuation
  transform := symbol .operatorSymbol

def name : Rule where
  pattern := .seq (one isAlphabetic) (many isNamePart)
  transform := symbol .nameSymbol

def blank : Rule where
  pattern := .either (char '\n') (several isInlineBlank)
  transform := symbol .spaceSymbol

def other : Rule where
  pattern := one fun _ => true
  transform := symbol .operatorSymbol

def all : List Rule := [radix, decimal, punctuation, name, blank, other]

/-- The token that a rule makes of the front of a text, and its length. -/
def produce? (rule : Rule) (location : Location) (text : List Char) : Option (Node × Nat) :=
  match rule.pattern.found? text with
  | none | some 0 => none
  | some (n + 1) => (rule.transform (text.take (n + 1)) location).map (·, n + 1)

def first? (location : Location) (text : List Char) : Option (Node × Nat) :=
  all.findSome? (·.produce? location text)

section Pattern
open Regex (nonzero nonzero_or nonzero_of_pos found?_either found?_one_seq found?_one_seq_nil
  found?_char_seq_of_ne found?_optional found?_optional_seq found?_seq_of_none found?_seq_of_some
  found?_several found?_many)
open Numeral (leading)

theorem found?_marked (marker : Char) (isDigit : Char → Bool) (text : List Char) :
    (Regex.seq (char '0') (.seq (letter marker) (several isDigit))).found? text =
      nonzero (Numeral.markedLength marker isDigit text) := by
  match text with
  | [] => exact found?_one_seq_nil
  | c :: rest =>
    rw [found?_one_seq]
    by_cases hc : c = '0'
    · subst hc
      cases rest with
      | nil =>
        rw [found?_one_seq_nil]
        rfl
      | cons m rest =>
        rw [found?_one_seq, found?_several, Numeral.markedLength]
        by_cases hm : m.toLower = marker <;> by_cases hdigits : leading isDigit rest = 0 <;>
          simp [nonzero, hm, hdigits]
        omega
    · rw [Numeral.markedLength_of_ne hc]
      simp [hc, nonzero]

theorem found?_radix (text : List Char) :
    radix.pattern.found? text = nonzero (Numeral.radixLength text) := by
  rw [radix, found?_either, found?_optional_seq, found?_marked, found?_marked]
  cases text with
  | nil => rfl
  | cons c rest =>
    rw [found?_one_seq, found?_marked]
    by_cases hc : c = '-'
    · subst hc
      rw [Numeral.radixLength, Numeral.markedLength_of_ne (by decide : '-' ≠ '0'),
        Numeral.markedLength_of_ne (by decide : '-' ≠ '0')]
      by_cases hbits : Numeral.markedLength 'b' isBit rest = 0 <;> simp [nonzero, hbits]
      omega
    · simp only [hc, decide_false, Bool.false_eq_true, if_false, Option.none_or]
      rw [nonzero_or, Numeral.radixLength]
      exact fun _ heq => hc (List.cons.inj heq).1

/-- A sign is no digit, so digits are found after it or where there is none. -/
theorem found?_signed (text : List Char) :
    (Regex.seq (optional (one fun c => c = '+' || c = '-')) (several Char.isDigit)).found? text =
      (nonzero (leading Char.isDigit (text.drop (Numeral.signLength text)))).map
        (Numeral.signLength text + ·) := by
  rw [found?_optional_seq, found?_several]
  cases text with
  | nil => rfl
  | cons c rest =>
    rw [found?_one_seq, found?_several, Numeral.signLength_cons]
    by_cases hsign : c = '+' ∨ c = '-'
    · have hdigit : c.isDigit = false := by rcases hsign with rfl | rfl <;> rfl
      rw [Numeral.leading_of_neg hdigit, if_pos (by simpa using hsign), if_pos hsign]
      exact Option.or_none
    · rw [if_neg (by simpa using hsign), if_neg hsign, Option.none_or]
      simp

theorem found?_exponent (text : List Char) :
    exponent.found? text = nonzero (Numeral.exponentLength text) := by
  cases text with
  | nil => exact found?_one_seq_nil
  | cons e rest =>
    rw [exponent, found?_one_seq, found?_signed, Numeral.exponentLength_cons]
    by_cases he : e.toLower = 'e'
    · by_cases hdigits : leading Char.isDigit (rest.drop (Numeral.signLength rest)) = 0 <;>
        simp [nonzero, he, hdigits]
      omega
    · simp [nonzero, he]

theorem found?_point {text : List Char} (h : leading Char.isDigit text = 0) :
    (Regex.seq (char '.') (several Char.isDigit)).found? text =
      nonzero (Numeral.mantissaLength text) := by
  by_cases hpoint : ∃ rest, text = '.' :: rest
  · obtain ⟨rest, rfl⟩ := hpoint
    rw [found?_one_seq, found?_several, Numeral.mantissaLength_point (by rw [h]; rfl), h]
    by_cases hfraction : leading Char.isDigit rest = 0 <;> simp [nonzero, hfraction]
  · have hne := not_exists.mp hpoint
    rw [found?_char_seq_of_ne hne, Numeral.mantissaLength_whole (by rwa [h]), h]
    rfl

/-- All digits are found before a point is looked for, which need not be there. -/
theorem found?_whole {text : List Char} (h : leading Char.isDigit text ≠ 0) :
    (Regex.seq (several Char.isDigit)
      (.seq (optional (char '.')) (many Char.isDigit))).found? text =
        nonzero (Numeral.mantissaLength text) := by
  have hpos := Nat.pos_of_ne_zero h
  have hdigits : (several Char.isDigit).found? text = some (leading Char.isDigit text) := by
    rw [found?_several, nonzero_of_pos hpos]
  by_cases hpoint : ∃ rest, text.drop (leading Char.isDigit text) = '.' :: rest
  · obtain ⟨rest, hrest⟩ := hpoint
    have hfraction : (Regex.seq (optional (char '.')) (many Char.isDigit)).found?
        (text.drop (leading Char.isDigit text)) = some (1 + leading Char.isDigit rest) := by
      rw [hrest, found?_optional_seq, found?_one_seq, found?_many]
      rfl
    rw [found?_seq_of_some hdigits hfraction, Numeral.mantissaLength_point hrest,
      if_neg (fun hzero => h hzero.1), nonzero_of_pos (by omega), Nat.add_assoc]
  · have hne := not_exists.mp hpoint
    have hnone : (Regex.seq (optional (char '.')) (many Char.isDigit)).found?
        (text.drop (leading Char.isDigit text)) = some 0 := by
      rw [found?_optional_seq, found?_char_seq_of_ne hne, found?_many,
        Numeral.leading_drop_leading]
      rfl
    rw [found?_seq_of_some hdigits hnone, Numeral.mantissaLength_whole hne, nonzero_of_pos hpos,
      Nat.add_zero]

theorem found?_mantissa (text : List Char) :
    mantissa.found? text = nonzero (Numeral.mantissaLength text) := by
  rw [mantissa, found?_either]
  by_cases hwhole : leading Char.isDigit text = 0
  · have hdigits : (several Char.isDigit).found? text = none := by
      rw [found?_several, hwhole]
      rfl
    rw [found?_seq_of_none hdigits, Option.or_none, found?_point hwhole]
  · have hpoint : ∀ rest, text ≠ '.' :: rest := by
      rintro rest rfl
      exact hwhole (Numeral.leading_of_neg rfl)
    rw [found?_char_seq_of_ne hpoint, Option.none_or, found?_whole hwhole]

theorem found?_decimal (text : List Char) :
    decimal.pattern.found? text = nonzero (Numeral.decimalLength text) := by
  rw [decimal, Numeral.decimalLength]
  dsimp only
  split
  · next h => exact found?_seq_of_none (by rw [found?_mantissa, h]; rfl)
  · next h =>
    have hpos := Nat.pos_of_ne_zero h
    rw [nonzero_of_pos (Nat.lt_add_right _ hpos)]
    refine found?_seq_of_some (by rw [found?_mantissa, nonzero_of_pos hpos]) ?_
    rw [found?_optional, found?_exponent]
    unfold nonzero
    split <;> simp_all

end Pattern

end Token.Rule
end Homoicon
