import Homoicon.Proofs.Token.Cutting
import Homoicon.Proofs.Token.Longest

/-! Every token goes as far as the text at its place allows. -/
namespace Homoicon
open Numeral (IsLiteral IsRun isLongest_length isLongest_leading leading)
open Text (Ranges isAlphabetic isBlank isPunctuation)

namespace Text
variable {c : Char}

theorem Ranges.holds_eq_false {table other : Ranges} (h : table.holds c = true)
    (hapart : ∀ range ∈ table, ∀ range' ∈ other, range.2 < range'.1 ∨ range'.2 < range.1) :
    other.holds c = false := by
  obtain ⟨range, hrange, hle⟩ := (holds_iff table c).mp h
  refine Bool.eq_false_iff.mpr fun hother => ?_
  obtain ⟨range', hrange', hle'⟩ := (holds_iff other c).mp hother
  have := hapart range hrange range' hrange'
  omega

theorem isPunctuation_of_isBlank (h : isBlank c = true) : isPunctuation c = false := by
  unfold isBlank Ranges.beyondAscii at h
  unfold isPunctuation Ranges.beyondAscii
  split at h
  · next hascii =>
    rw [if_pos hascii]
    refine Bool.eq_false_iff.mpr fun hpunctuation => ?_
    have hapart : isAsciiBlank c = false :=
      of_mem (P := (isAsciiBlank · = false)) (by decide) (of_decide_eq_true hpunctuation)
    cases h.symm.trans hapart
  · next hascii =>
    rw [if_neg hascii]
    exact Ranges.holds_eq_false h (by decide +kernel)

end Text

/-- The longest prefix of a text that is of a class. -/
def Longest (P : List Char → Prop) (text chunk : List Char) : Prop :=
  P chunk ∧ chunk <+: text ∧ ∀ other, P other → other <+: text → other.length ≤ chunk.length

section Longest
variable {P : List Char → Prop} {text chunk later more : List Char} {n : Nat}

theorem IsLongest.longest (h : IsLongest P text n) (hn : n ≠ 0) (hle : n ≤ text.length) :
    Longest P text (text.take n) := by
  refine ⟨h.holds hn, List.take_prefix n text, fun other hother hprefix => ?_⟩
  rw [List.length_take_of_le hle]
  exact h.le hother hprefix

theorem Longest.not_append (h : Longest P (chunk ++ later) chunk) (hmore : more <+: later)
    (hne : more ≠ []) : ¬P (chunk ++ more) := by
  intro hlonger
  have hle := h.2.2 _ hlonger ((List.prefix_append_right_inj chunk).mpr hmore)
  have hpos := List.length_pos_iff.mpr hne
  rw [List.length_append] at hle
  omega

theorem Longest.head?_not {p : Char → Bool} (h : Longest (IsRun p) (chunk ++ later) chunk) :
    ∀ c ∈ later.head?, p c = false := by
  intro c hc
  obtain ⟨rest, rfl⟩ := List.head?_eq_some_iff.mp hc
  refine Bool.eq_false_iff.mpr fun hp => ?_
  have hprefix : [c] <+: c :: rest := ⟨rest, rfl⟩
  refine h.not_append hprefix (List.cons_ne_nil _ _) ⟨by simp, ?_⟩
  exact List.forall_mem_append.mpr ⟨h.1.2, List.forall_mem_singleton.mpr hp⟩

end Longest

namespace Token

/-- Whether a token is the one that a text begins with: the longest numeric literal; where there is
none, the longest run of a name after a letter that is not punctuation; else a newline, or the
longest run of other blanks; else one character. -/
inductive IsNext (token : Node) : List Char → Prop
  | finish (hkind : token.kind = .endOfInput) : IsNext token []
  | number {text : List Char} (hkind : token.kind = .number)
      (h : Longest IsLiteral text token.fragments.before.toList) : IsNext token text
  | name {c : Char} {rest : List Char} (hnumber : ∀ chunk, chunk <+: c :: rest → ¬IsLiteral chunk)
      (hname : isAlphabetic c = true ∧ isPunctuation c = false) (hkind : token.kind = .nameSymbol)
      (h : Longest (IsRun isNamePart) (c :: rest) token.fragments.before.toList) :
      IsNext token (c :: rest)
  | newline {rest : List Char} (hkind : token.kind = .spaceSymbol)
      (h : token.fragments.before = "\n") : IsNext token ('\n' :: rest)
  | blank {c : Char} {rest : List Char} (hnumber : ∀ chunk, chunk <+: c :: rest → ¬IsLiteral chunk)
      (hname : ¬(isAlphabetic c = true ∧ isPunctuation c = false)) (hblank : isInlineBlank c = true)
      (hkind : token.kind = .spaceSymbol)
      (h : Longest (IsRun isInlineBlank) (c :: rest) token.fragments.before.toList) :
      IsNext token (c :: rest)
  | operator {c : Char} {rest : List Char}
      (hnumber : ∀ chunk, chunk <+: c :: rest → ¬IsLiteral chunk)
      (hname : ¬(isAlphabetic c = true ∧ isPunctuation c = false)) (hblank : isBlank c = false)
      (hkind : token.kind = .operatorSymbol) (h : token.fragments.before.toList = [c]) :
      IsNext token (c :: rest)

variable {token next : Node} {text rest : List Char} {c : Char}

theorem longest_run {p : Char → Bool} (hc : p c = true) (lexeme : Lexeme) (location : Location) :
    Longest (IsRun p) (c :: rest)
      (lexeme.token ((c :: rest).take (leading p rest + 1)) location).fragments.before.toList := by
  rw [Lexeme.before_token, String.toList_ofList, ← Numeral.leading_of_pos hc]
  refine (isLongest_leading p _).longest ?_ (Numeral.leading_le ..)
  rw [Numeral.leading_of_pos hc]
  exact Nat.succ_ne_zero _

theorem isNext_scanChar (hnumber : ∀ chunk, chunk <+: c :: rest → ¬IsLiteral chunk)
    (location : Location) :
    IsNext ((Lexeme.scanChar c rest).1.token ((c :: rest).take (Lexeme.scanChar c rest).2) location)
      (c :: rest) := by
  unfold Lexeme.scanChar
  split_ifs with hpunctuation hletter hnewline hblank
  · refine .operator hnumber (fun hname => ?_) ?_ rfl ?_
    · cases hpunctuation.symm.trans hname.2
    · exact Bool.eq_false_iff.mpr fun hblank => by
        cases hpunctuation.symm.trans (Text.isPunctuation_of_isBlank hblank)
    · rw [Lexeme.before_token, String.toList_ofList]
      rfl
  · have hpart : isNamePart c = true := by
      rw [isNamePart, hletter]
      rfl
    exact .name hnumber ⟨hletter, Bool.eq_false_iff.mpr hpunctuation⟩ rfl (longest_run hpart _ _)
  · subst hnewline
    exact .newline rfl rfl
  · exact .blank hnumber (fun hname => hletter hname.1) hblank rfl (longest_run hblank _ _)
  · refine .operator hnumber (fun hname => hletter hname.1) ?_ rfl ?_
    · simpa [isInlineBlank, hnewline] using hblank
    · rw [Lexeme.before_token, String.toList_ofList]
      rfl

theorem isNext_scan (c : Char) (rest : List Char) (location : Location) :
    IsNext ((Lexeme.scan c rest).1.token ((c :: rest).take (Lexeme.scan c rest).2) location)
      (c :: rest) := by
  have hlongest := isLongest_length (c :: rest)
  unfold Lexeme.scan
  split
  · next hnumeral =>
    refine .number rfl ?_
    rw [Lexeme.before_token, String.toList_ofList]
    exact hlongest.longest hnumeral (Numeral.length_le _)
  · next hnumeral =>
    refine isNext_scanChar (fun chunk hprefix hliteral => ?_) location
    have hle := hlongest.le hliteral hprefix
    have hpos := hliteral.length_pos
    omega

theorem isNext_of_ofChars {file : String} {position : Text.Position} {front back : List Node}
    (h : ofChars file position text = front ++ token :: back) :
    IsNext token (token.fragments.before ++ source back).toList := by
  have hrest := ofChars_rest h (List.cons_ne_nil _ _)
  rw [source_cons] at hrest
  cases hsource : (token.fragments.before ++ source back).toList with
  | nil =>
    rw [hsource, ofChars] at hrest
    rw [(List.cons.inj hrest).1]
    exact .finish rfl
  | cons c rest =>
    rw [hsource, ofChars] at hrest
    rw [(List.cons.inj hrest).1]
    exact isNext_scan c rest _

theorem IsNext.of_name (h : IsNext token text) (hkind : token.kind = .nameSymbol) :
    Longest (IsRun isNamePart) text token.fragments.before.toList := by
  cases h with
  | name _ _ _ h => exact h
  | _ => simp_all

theorem IsNext.of_number (h : IsNext token text) (hkind : token.kind = .number) :
    Longest IsLiteral text token.fragments.before.toList := by
  cases h with
  | number _ h => exact h
  | _ => simp_all

theorem IsNext.of_space (h : IsNext token text) (hkind : token.kind = .spaceSymbol) :
    token.fragments.before = "\n" ∨ (∃ c ∈ text.head?, isInlineBlank c = true) ∧
      Longest (IsRun isInlineBlank) text token.fragments.before.toList := by
  cases h with
  | newline _ h => exact .inl h
  | blank _ _ hblank _ h => exact .inr ⟨⟨_, rfl, hblank⟩, h⟩
  | _ => simp_all

end Token

/-- Every token is the one that the text at its place begins with: the longest literal, name or run
of blanks, a newline, or one character. No name or number could go on with what comes after it, and
of two adjacent blanks at least one is a newline. -/
theorem tokenize_maximal {text file : String} {front back : List Node} {token : Node}
    (h : tokenize text file = front ++ token :: back) :
    text = Token.source front ++ (token.fragments.before ++ Token.source back) ∧
    Token.IsNext token (token.fragments.before ++ Token.source back).toList ∧
    (token.kind = .nameSymbol → ∀ c ∈ (Token.source back).toList.head?, isNamePart c = false) ∧
    (token.kind = .number → ∀ more, more <+: (Token.source back).toList → more ≠ [] →
      ¬IsLiteral (token.fragments.before.toList ++ more)) ∧
    (token.kind = .spaceSymbol → ∀ next ∈ back.head?, next.kind = .spaceSymbol →
      token.fragments.before = "\n" ∨ next.fragments.before = "\n") := by
  have hnext := Token.isNext_of_ofChars h
  refine ⟨?_, hnext, ?_⟩
  · rw [← Token.source_cons, ← Token.source_append, ← h]
    exact (String.toList_inj.mp Token.source_ofChars).symm
  rw [String.toList_append] at hnext
  refine ⟨fun hkind => (hnext.of_name hkind).head?_not,
    fun hkind more => (hnext.of_number hkind).not_append, fun hkind next hhead hspace => ?_⟩
  obtain ⟨later, rfl⟩ := List.head?_eq_some_iff.mp hhead
  have hafter := Token.isNext_of_ofChars (h.trans (List.append_cons ..))
  rw [← Token.source_cons] at hafter
  rcases hafter.of_space hspace with hnewline | ⟨⟨c, hc, hblank⟩, -⟩
  · exact .inr hnewline
  rcases hnext.of_space hkind with hnewline | ⟨-, hrun⟩
  · exact .inl hnewline
  · cases hblank.symm.trans (hrun.head?_not c hc)

/-- An exponent without digits is not part of the number. -/
theorem tokenize_maximal_exponent :
    ∃ token back, tokenize "1.5e+x" "main" = token :: back ∧ token.kind = .number ∧
      token.fragments.before = "1.5" ∧ ¬IsLiteral "1.5e".toList ∧ ¬IsLiteral "1.5e+".toList := by
  have htokens : (tokenize "1.5e+x" "main").map (fun token =>
      (token.kind, token.fragments.before)) =
      [(.number, "1.5"), (.nameSymbol, "e"), (.operatorSymbol, "+"), (.nameSymbol, "x"),
        (.endOfInput, "")] := by decide +kernel
  obtain ⟨token, back, hsplit, htoken, hback⟩ := List.map_eq_cons_iff.mp htokens
  obtain ⟨hkind, hbefore⟩ := Prod.mk.inj htoken
  obtain ⟨htext, -, -, hnumber, -⟩ := @tokenize_maximal _ _ [] _ _ hsplit
  have hlater : (Token.source back).toList = "e+x".toList := by
    have hchars := congrArg String.toList htext
    rw [hbefore] at hchars
    simpa [Token.source] using hchars.symm
  have hmore := hnumber hkind
  rw [hbefore, hlater] at hmore
  exact ⟨token, back, hsplit, hkind, hbefore, hmore ['e'] (by decide) (by decide),
    hmore ['e', '+'] (by decide) (by decide)⟩

end Homoicon
