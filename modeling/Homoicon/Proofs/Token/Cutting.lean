import Homoicon.Proofs.Reading.Places
import Homoicon.Proofs.Token.Acceptance

/-! A text cut by the rules. Nothing of it is lost, and every token says where it begins. -/
namespace Homoicon
open Text (Position isAlphabetic isPunctuation)

/-- The point after a chunk of text, counted from the chunk's last newline if it has one. -/
def Text.Position.past (p : Position) (chunk : List Char) : Position :=
  if '\n' ∈ chunk then ⟨p.line + chunk.count '\n', (chunk.reverse.takeWhile (· ≠ '\n')).length⟩
  else ⟨p.line, p.column + chunk.length⟩

theorem Text.Position.past_eq_after (p : Position) (chunk : List Char) :
    p.past chunk = p.after chunk := by
  induction chunk using List.reverseRecOn with
  | nil => rfl
  | append_singleton chunk c ih =>
    rw [after_append, ← ih]
    change _ = next _ c
    unfold past next
    by_cases hc : c = '\n'
    · subst hc
      by_cases hchunk : '\n' ∈ chunk
      · simp [hchunk, Nat.add_assoc]
      · simp [hchunk, List.count_eq_zero.mpr hchunk]
    · by_cases hchunk : '\n' ∈ chunk <;> simp [hc, hchunk, Ne.symm hc, Nat.add_assoc]

namespace Token.Rule
open Regex (nonzero nonzero_of_pos found?_either found?_one found?_one_seq found?_many
  found?_several)
open Numeral (leading)

section First
variable {rule : Rule} {location : Location} {text : List Char} {n : Nat} {token : Node}

theorem produce?_of_none (h : rule.pattern.found? text = none) :
    rule.produce? location text = none := by
  rw [produce?, h]

theorem produce?_of_some (hfound : rule.pattern.found? text = some n) (hpos : 0 < n)
    (htransform : rule.transform (text.take n) location = some token) :
    rule.produce? location text = some (token, n) := by
  obtain ⟨m, rfl⟩ := Nat.exists_eq_succ_of_ne_zero (Nat.ne_of_gt hpos)
  rw [produce?, hfound]
  simp only [htransform, Option.map_some]

theorem produce?_pos (h : rule.produce? location text = some (token, n)) : 0 < n := by
  unfold produce? at h
  split at h
  · cases h
  · cases h
  · obtain ⟨_, -, heq⟩ := Option.map_eq_some_iff.mp h
    cases heq
    exact Nat.succ_pos _

theorem first?_pos (h : first? location text = some (token, n)) : 0 < n := by
  obtain ⟨rule, -, hrule⟩ := List.exists_of_findSome?_eq_some h
  exact produce?_pos hrule

end First

/-- Cuts a text by the rules. There are no tokens if none of the rules makes one of what is left. -/
def cut (file : String) (position : Position) : List Char → Option (List Node)
  | [] => some [.endOfInput (.new file position.line position.column)]
  | c :: rest =>
    match _h : first? (.new file position.line position.column) (c :: rest) with
    | none => none
    | some (token, length) =>
      (token :: ·) <$> cut file (position.past ((c :: rest).take length)) ((c :: rest).drop length)
termination_by text => text.length
decreasing_by
  have := first?_pos _h
  simp only [List.length_drop, List.length_cons]
  omega

section Scan
variable (location : Location) (c : Char) (rest : List Char)

theorem produce?_punctuation : punctuation.produce? location (c :: rest) =
    if isPunctuation c = true then some (Lexeme.operator.token [c] location, 1) else none := by
  split
  · next h => exact produce?_of_some (found?_one.trans (if_pos h)) Nat.one_pos rfl
  · next h => exact produce?_of_none (found?_one.trans (if_neg h))

theorem produce?_name : name.produce? location (c :: rest) =
    if isAlphabetic c = true then
      some (Lexeme.name.token ((c :: rest).take (leading isNamePart rest + 1)) location,
        leading isNamePart rest + 1)
    else none := by
  have hfound : name.pattern.found? (c :: rest) =
      if isAlphabetic c = true then some (leading isNamePart rest + 1) else none := by
    rw [name, found?_one_seq, found?_many, Option.map_some, Nat.add_comm]
  split
  · next h => exact produce?_of_some (hfound.trans (if_pos h)) (Nat.succ_pos _) rfl
  · next h => exact produce?_of_none (hfound.trans (if_neg h))

theorem produce?_blank : blank.produce? location (c :: rest) =
    if c = '\n' then some (Lexeme.blank.token [c] location, 1)
    else if isInlineBlank c = true then
      some (Lexeme.blank.token ((c :: rest).take (leading isInlineBlank rest + 1)) location,
        leading isInlineBlank rest + 1)
    else none := by
  have hfound : blank.pattern.found? (c :: rest) =
      (if c = '\n' then some 1 else none).or (nonzero (leading isInlineBlank (c :: rest))) := by
    rw [blank, found?_either, found?_one, found?_several]
    simp only [decide_eq_true_eq]
  split
  · next h =>
    rw [if_pos h] at hfound
    exact produce?_of_some hfound Nat.one_pos rfl
  · next h =>
    rw [if_neg h, Option.none_or] at hfound
    split
    · next hblank =>
      rw [Numeral.leading_of_pos hblank, nonzero_of_pos (Nat.succ_pos _)] at hfound
      exact produce?_of_some hfound (Nat.succ_pos _) rfl
    · next hblank =>
      rw [Numeral.leading_of_neg (Bool.eq_false_iff.mpr hblank)] at hfound
      exact produce?_of_none hfound

theorem produce?_other : other.produce? location (c :: rest) =
    some (Lexeme.operator.token [c] location, 1) :=
  produce?_of_some (found?_one.trans (if_pos rfl)) Nat.one_pos rfl

/-- Where no literal begins, the first character says which rule is the first to find anything. -/
theorem findSome?_symbols :
    [punctuation, name, blank, other].findSome? (·.produce? location (c :: rest)) =
      some ((Lexeme.scanChar c rest).1.token ((c :: rest).take (Lexeme.scanChar c rest).2) location,
        (Lexeme.scanChar c rest).2) := by
  rw [List.findSome?_cons, List.findSome?_cons, List.findSome?_cons, List.findSome?_cons,
    produce?_punctuation, produce?_name, produce?_blank, produce?_other]
  unfold Lexeme.scanChar
  split_ifs <;> rfl

theorem first?_cons :
    first? location (c :: rest) =
      some ((Lexeme.scan c rest).1.token ((c :: rest).take (Lexeme.scan c rest).2) location,
        (Lexeme.scan c rest).2) := by
  unfold first? all Lexeme.scan Numeral.length
  rw [List.findSome?_cons, List.findSome?_cons]
  by_cases hradix : Numeral.radixLength (c :: rest) = 0
  · rw [produce?_of_none (by rw [found?_radix, hradix]; rfl), if_neg (not_not_intro hradix)]
    by_cases hdecimal : Numeral.decimalLength (c :: rest) = 0
    · rw [produce?_of_none (by rw [found?_decimal, hdecimal]; rfl), if_neg (not_not_intro hdecimal)]
      exact findSome?_symbols location c rest
    · have hpos := Nat.pos_of_ne_zero hdecimal
      rw [produce?_of_some (by rw [found?_decimal, nonzero_of_pos hpos]) hpos
        (transform_decimal hdecimal), if_pos hdecimal]
  · have hpos := Nat.pos_of_ne_zero hradix
    rw [produce?_of_some (by rw [found?_radix, nonzero_of_pos hpos]) hpos
      (transform_radix hradix), if_pos hradix, if_pos hradix]

end Scan

theorem cut_eq (file : String) (position : Position) (text : List Char) :
    cut file position text = some (Token.ofChars file position text) := by
  fun_induction Token.ofChars file position text with
  | case1 position => rw [cut]
  | case2 position c rest found text ih =>
    rw [cut]
    split
    · next heq =>
      rw [first?_cons] at heq
      cases heq
    · next token length heq =>
      rw [first?_cons] at heq
      cases heq
      rw [Position.past_eq_after]
      exact congrArg (Option.map _) ih

end Token.Rule

namespace Token

def source (tokens : List Node) : String := String.join (tokens.map (·.fragments.before))

theorem source_cons (token : Node) (tokens : List Node) :
    source (token :: tokens) = token.fragments.before ++ source tokens := String.join_cons ..

theorem source_append (tokens others : List Node) :
    source (tokens ++ others) = source tokens ++ source others := by
  unfold source
  rw [List.map_append, String.join_append]

variable {file : String} {position : Position} {text : List Char} {token : Node}
  {front back : List Node}

theorem source_ofChars : (source (ofChars file position text)).toList = text := by
  fun_induction ofChars file position text with
  | case1 position => rfl
  | case2 position c rest found text ih =>
    rw [source_cons, String.toList_append, ih, Lexeme.before_token, String.toList_ofList,
      List.take_append_drop]

/-- A text is cut further as if it began where its first tokens end. -/
theorem ofChars_rest {later : List Node} (h : ofChars file position text = front ++ later)
    (hlater : later ≠ []) :
    later = ofChars file (position.after (source front).toList) (source later).toList := by
  induction front generalizing position text with
  | nil =>
    obtain rfl : ofChars file position text = later := h
    rw [source_ofChars]
    rfl
  | cons first front ih =>
    cases text with
    | nil =>
      rw [ofChars] at h
      exact absurd (List.append_eq_nil_iff.mp (List.cons.inj h).2.symm).2 hlater
    | cons c rest =>
      rw [ofChars] at h
      obtain ⟨rfl, hrest⟩ := List.cons.inj h
      rw [source_cons, Lexeme.before_token, String.toList_append, String.toList_ofList,
        Position.after_append]
      exact ih hrest

theorem location_ofChars (h : ofChars file position text = front ++ token :: back) :
    token.location = .new file (position.after (source front).toList).line
      (position.after (source front).toList).column := by
  have hhead := head?_ofChars file (position.after (source front).toList)
    (source (token :: back)).toList
  rw [← ofChars_rest h (List.cons_ne_nil _ _)] at hhead
  exact Option.some.inj hhead

theorem bare_of_mem_ofChars :
    ∀ token ∈ ofChars file position text, token.fragments.after = "" ∧ token.children = [] := by
  refine forall_mem_ofChars (fun _ => ⟨rfl, rfl⟩) fun c rest _ => ?_
  cases (Lexeme.scan c rest).1 <;> exact ⟨rfl, rfl⟩

end Token

/-- A text is cut into tokens by the rules, of which none declines what it finds. The tokens spell
the text, the end of the input comes last, and each is where the newlines before it and the
characters since the last of these say. -/
theorem tokenize_lossless (text file : String) :
    Token.Rule.cut file {} text.toList = some (tokenize text file) ∧
    (∀ rule ∈ Token.Rule.all, ∀ (rest : List Char) (n : Nat) (location : Location),
      rule.pattern.found? rest = some n → (rule.transform (rest.take n) location).isSome = true) ∧
    Token.source (tokenize text file) = text ∧
    (∃ tokens location, tokenize text file = tokens ++ [.endOfInput location] ∧
      ∀ token ∈ tokens, token.kind ≠ .endOfInput ∧ token.fragments.before ≠ "" ∧
        token.fragments.after = "" ∧ token.children = []) ∧
    ∀ front token back, tokenize text file = front ++ token :: back →
      token.location = .new file ((Token.source front).toList.count '\n')
        ((Token.source front).toList.reverse.takeWhile (· ≠ '\n')).length := by
  refine ⟨Token.Rule.cut_eq file {} text.toList,
    fun rule hrule rest n location hfound => Token.Rule.transform_isSome hrule hfound location,
    String.toList_inj.mp Token.source_ofChars, ?_, fun front token back h => ?_⟩
  · obtain ⟨tokens, location, htokens, hall, -⟩ := Token.ofChars_eq_append file {} text.toList
    refine ⟨tokens, location, htokens, fun token htoken => ?_⟩
    have hmem : token ∈ Token.ofChars file {} text.toList := by
      rw [htokens]
      exact List.mem_append_left _ htoken
    have hkind := (hall token htoken).kind_ne
    have hblock := Bool.eq_false_iff.mp (hall token htoken).not_isBlock
    exact ⟨hkind, (fills_of_mem_ofChars token hmem hkind).resolve_left hblock,
      Token.bare_of_mem_ofChars token hmem⟩
  · rw [Token.location_ofChars h, Position.after_eq]

/-- The fifth token is the second of its line. The minus belongs to the number in base two, which
the rule for these finds and does not decline. -/
theorem tokenize_lossless_second_line :
    let tokens := tokenize "é-0b1\n1e" "main"
    Token.source (tokens.take 4) = "é-0b1\n1" ∧
      tokens[4]?.map (·.location) = some (.new "main" 1 1) ∧
      (Token.Rule.radix.transform "-0b1".toList .unknown).isSome = true := by
  intro tokens
  obtain ⟨-, haccepts, -, -, hlocation⟩ := tokenize_lossless "é-0b1\n1e" "main"
  have hlength : 4 < tokens.length := by decide +kernel
  have hsource : Token.source (tokens.take 4) = "é-0b1\n1" := by decide +kernel
  have hsplit : tokens = tokens.take 4 ++ tokens[4] :: tokens.drop 5 := by
    rw [← List.drop_eq_getElem_cons hlength, List.take_append_drop]
  refine ⟨hsource, ?_, haccepts _ List.mem_cons_self "-0b1\n1e".toList 4 _ (by decide +kernel)⟩
  rw [List.getElem?_eq_getElem hlength, Option.map_some, hlocation _ _ _ hsplit, hsource]
  decide +kernel

end Homoicon
