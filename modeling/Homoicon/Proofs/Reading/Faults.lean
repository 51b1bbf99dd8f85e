import Homoicon.Proofs.Reading.Places
import Homoicon.Proofs.Reading.Trace
import Mathlib.Data.List.TakeWhile

/-! What is wrong with a text that cannot be read, and where the error says that it is. -/
namespace Homoicon
open Node (AllPlaced unparseAll)

/-- The causes of an error that are about an escape alone. -/
def ParseError.Cause.IsEscape (cause : Cause) : Prop :=
  cause = .unknownEscape ∨ cause = .invalidEscape ∨ cause = .escapeOutOfRange

namespace Escape
variable {cause : ParseError.Cause}

theorem isEscape_codePoint {digits : List Char} (h : codePoint digits = .error cause) :
    cause.IsEscape := by
  unfold codePoint at h
  dsimp only at h
  split at h <;> cases h
  exact .inr (.inr rfl)

theorem isEscape_decode {chars : List Char} (h : decode chars = .error cause) :
    cause.IsEscape := by
  unfold decode at h
  split at h
  · cases h
    exact .inr (.inl rfl)
  · split at h
    · split at h
      · cases h
        exact .inr (.inl rfl)
      · exact isEscape_codePoint (map_eq_error.mp h)
    · split at h <;> cases h
      exact .inl rfl

theorem isEscape_decodeBraced {chars : List Char} (h : decodeBraced chars = .error cause) :
    cause.IsEscape := by
  unfold decodeBraced at h
  split at h
  · split at h
    · exact isEscape_codePoint h
    · cases h
      exact .inr (.inl rfl)
  · cases h
    exact .inr (.inl rfl)

end Escape

namespace Piece
variable {string : Location} {item : Node} {items : List Node} {e : ParseError}

/-- What can be wrong with the items of a string that begins at `string`: an escape, or that the
letter of an escape with braces is followed by the end of the string or by an item that is no block.
-/
inductive Fault (string : Location) (items : List Node) : ParseError → Prop
  | escape {cause : ParseError.Cause} {item : Node} (hcause : cause.IsEscape)
      (hitem : item ∈ items) : Fault string items ⟨cause, item.location⟩
  | brace {before after : List Node} {slash next : Node}
      (hitems : items = before ++ slash :: next :: after) (hslash : ¬slash.kind.isBlock = true)
      (hbackslash : slash.fragments.before = "\\") (hnext : ¬next.kind.isBlock = true)
      (hletter : next.fragments.before = "u" ∨ next.fragments.before = "U")
      (hafter : ∀ item ∈ after.head?, ¬item.kind.isBlock = true) :
      Fault string items
        ⟨.expectedBrace next.fragments.before string, (after.head?.getD next).location⟩

/-- Why the items of a string are refused, from the escape that is wrong on. -/
inductive Refuses (string : Location) : List Node → ParseError → Prop
  | last {slash : Node} (htext : ¬slash.kind.isBlock = true)
      (hslash : slash.fragments.before = "\\") :
      Refuses string [slash] ⟨.invalidEscape, slash.location⟩
  | escape {cause : ParseError.Cause} {slash next : Node} {items : List Node}
      (htext : ¬slash.kind.isBlock = true) (hslash : slash.fragments.before = "\\")
      (hcause : cause.IsEscape) : Refuses string (slash :: next :: items) ⟨cause, next.location⟩
  | braced {cause : ParseError.Cause} {slash next block : Node} {items : List Node}
      (hnext : ¬next.kind.isBlock = true)
      (hletter : next.fragments.before = "u" ∨ next.fragments.before = "U")
      (hcause : cause.IsEscape) :
      Refuses string (slash :: next :: block :: items) ⟨cause, block.location⟩
  | unbraced {slash next : Node} {items : List Node} (htext : ¬slash.kind.isBlock = true)
      (hslash : slash.fragments.before = "\\") (hnext : ¬next.kind.isBlock = true)
      (hletter : next.fragments.before = "u" ∨ next.fragments.before = "U")
      (hafter : ∀ item ∈ items.head?, ¬item.kind.isBlock = true) :
      Refuses string (slash :: next :: items)
        ⟨.expectedBrace next.fragments.before string, (items.head?.getD next).location⟩

theorem escaped_eq_error {value : Except ParseError.Cause (List Char)} {raw : String}
    {location blamed : Location} (h : escaped value raw location blamed = .error e) :
    ∃ cause, value = .error cause ∧ e = ⟨cause, blamed⟩ := by
  cases value with
  | ok chars => cases h
  | error cause =>
    cases h
    exact ⟨cause, rfl, rfl⟩

theorem not_isBlock_of_symbol (h : ¬(!item.kind.isSymbol) = true) : ¬item.kind.isBlock = true := by
  cases hkind : item.kind <;> simp_all [Kind.isSymbol, Kind.isBlock]

theorem refuses_of_ofItems (h : ofItems string items = .error e) :
    ∃ earlier later, items = earlier ++ later ∧ Refuses string later e := by
  -- what is wrong after some items is wrong after more of them
  have hlonger : ∀ (first : List Node) {rest : List Node},
      (∃ earlier later, rest = earlier ++ later ∧ Refuses string later e) →
        ∃ earlier later, first ++ rest = earlier ++ later ∧ Refuses string later e :=
    fun first _ ⟨earlier, later, hrest, hrefuses⟩ =>
      ⟨first ++ earlier, later, by rw [hrest, List.append_assoc], hrefuses⟩
  fun_induction ofItems string items with
  | case1 => cases h
  | case2 item rest hblock ih => exact hlonger [item] (ih (map_eq_error.mp h))
  | case3 item rest htext hplain ih => exact hlonger [item] (ih (map_eq_error.mp h))
  | case4 item htext hslash =>
    cases h
    exact ⟨[], _, rfl, .last htext (Decidable.of_not_not hslash)⟩
  | case5 =>
    rename_i item htext hslash next rest text hsign ih
    exact hlonger [item, next] (ih (map_eq_error.mp h))
  | case6 =>
    rename_i item htext hslash next rest text hsign hsymbol
    cases h
    exact ⟨[], _, rfl, .escape htext (Decidable.of_not_not hslash) (.inr (.inl rfl))⟩
  | case7 =>
    rename_i item htext hslash next text hsign hsymbol hletter
    cases h
    exact ⟨[], _, rfl, .unbraced htext (Decidable.of_not_not hslash)
      (not_isBlock_of_symbol hsymbol) hletter fun item hitem => absurd hitem (by simp)⟩
  | case8 =>
    rename_i item htext hslash next text hsign hsymbol hletter block rest hblock ih
    rcases bind_eq_error.mp h with h | ⟨piece, -, h⟩
    · obtain ⟨cause, hcause, rfl⟩ := escaped_eq_error h
      exact ⟨[], _, rfl, .braced (not_isBlock_of_symbol hsymbol) hletter
        (Escape.isEscape_decodeBraced (map_eq_error.mp hcause))⟩
    · exact hlonger [item, next, block] (ih (map_eq_error.mp h))
  | case9 =>
    rename_i item htext hslash next text hsign hsymbol hletter block rest hblock
    cases h
    have hafter : ∀ item ∈ (block :: rest).head?, ¬item.kind.isBlock = true :=
      fun item hitem => Option.some.inj hitem ▸ hblock
    exact ⟨[], _, rfl, .unbraced htext (Decidable.of_not_not hslash)
      (not_isBlock_of_symbol hsymbol) hletter hafter⟩
  | case10 =>
    rename_i item htext hslash next rest text hsign hsymbol hletter ih
    rcases bind_eq_error.mp h with h | ⟨piece, -, h⟩
    · obtain ⟨cause, hcause, rfl⟩ := escaped_eq_error h
      exact ⟨[], _, rfl, .escape htext (Decidable.of_not_not hslash)
        (Escape.isEscape_decode hcause)⟩
    · exact hlonger [item, next] (ih (map_eq_error.mp h))

theorem fault_of_ofItems (h : ofItems string items = .error e) : Fault string items e := by
  obtain ⟨earlier, later, rfl, hrefuses⟩ := refuses_of_ofItems h
  cases hrefuses with
  | last => exact .escape (.inr (.inl rfl)) (by simp)
  | escape _ _ hcause => exact .escape hcause (by simp)
  | braced _ _ hcause => exact .escape hcause (by simp)
  | unbraced htext hslash hnext hletter hafter =>
    exact .brace rfl htext hslash hnext hletter hafter

end Piece

namespace Form
variable {form : Form} {items : List Node} {opener closer : String} {location : Location}
  {e : ParseError}

/-- Nothing but a string has contents that may be wrong. -/
theorem ofItems_of_node (h : form.node items opener closer location = .error e) :
    form = .string ∧ Piece.ofItems location items.reverse = .error e := by
  cases form with
  | string =>
    change Assembly.string items.reverse opener location = _ at h
    rcases bind_eq_error.mp h with h | ⟨pieces, -, h⟩
    · exact ⟨rfl, h⟩
    · dsimp only at h
      split at h <;> cases h
  | _ => cases h

theorem node_ne_error (h : form.endsWithInput = true) :
    form.node items opener closer location ≠ .error e := by
  intro hnode
  rw [(ofItems_of_node hnode).1] at h
  cases h

end Form

namespace Reading
open Form (Nested)
open OpenBlock (AllGrounded AllLocated sourceAll)

variable {start : Location} {reading : Reading} {token : Node} {tokens : List Node}
  {e : ParseError} {opener file text : String} {location : Location} {outer : List OpenBlock}

/-- A token that cannot be read is the closing quote of a string whose contents are wrong. -/
theorem Standing.unread (h : reading.Standing start)
    (halone : ∀ form : Form, StandsAlone form.lead token.fragments.before)
    (hnext : Reading.next .standard reading token = .error e) :
    ∃ b outer, reading = .inside b outer ∧ outer ≠ [] ∧ b.rule.assembly = .interpolated ∧
      Piece.ofItems b.location b.items.reverse = .error e := by
  cases h with
  | @inside form opener location outer hnested items pending =>
    change step .standard _ outer token = _ at hnext
    rw [Form.step_opened outer (halone form)] at hnext
    split at hnext
    · cases hnext
    · next mark action hmark =>
      cases action with
      | keep => cases hnext
      | enter inner => cases hnext
      | close =>
        rcases bind_eq_error.mp hnext with hnode | ⟨node, -, hnext⟩
        · obtain ⟨rfl, hitems⟩ := Form.ofItems_of_node hnode
          have hmore := Form.more_of_string (List.mem_of_find?_eq_some hmark) nofun
          rw [hmore] at hitems
          have houter : outer ≠ [] := by
            cases hnested
            exact List.cons_ne_nil _ _
          exact ⟨_, _, rfl, houter, rfl, hitems⟩
        · cases hnext

theorem Standing.fault (h : reading.Standing start)
    (halone : ∀ form : Form, StandsAlone form.lead token.fragments.before)
    (hnext : Reading.next .standard reading token = .error e) :
    ∃ b outer, reading = .inside b outer ∧ b.rule.assembly = .interpolated ∧
      Piece.Fault b.location b.items.reverse e := by
  obtain ⟨b, outer, hreading, -, hassembly, hitems⟩ := h.unread halone hnext
  exact ⟨b, outer, hreading, hassembly, Piece.fault_of_ofItems hitems⟩

/-- At the end of the input, nothing can be wrong but that a block is still open. -/
theorem unclosed_of_closeAll {form : Form} (hnested : Nested start form opener location outer)
    {items : List Node} {pending : Bool}
    (h : closeAll (form.opened opener location items pending) outer = .error e) :
    ∃ inner b rest, form.opened opener location items pending :: outer = inner ++ b :: rest ∧
      rest ≠ [] ∧ e = ⟨.unclosed b.opener, b.location⟩ := by
  induction hnested generalizing items pending with
  | outermost =>
    rw [Form.closeAll_opened rfl] at h
    rcases bind_eq_error.mp h with hnode | ⟨node, -, h⟩
    · exact absurd hnode (Form.node_ne_error rfl)
    · cases h
  | @inner form parent opener before location outerLocation outer hform hparent houter others ih =>
    by_cases hends : form.endsWithInput = true
    · rw [Form.closeAll_opened hends] at h
      rcases bind_eq_error.mp h with hnode | ⟨node, -, h⟩
      · exact absurd hnode (Form.node_ne_error hends)
      · obtain ⟨inner, b, rest, hstack, hrest, he⟩ := ih h
        cases inner with
        | nil =>
          -- the block is the one around, which had not been given the node before
          obtain ⟨rfl, rfl⟩ := List.cons.inj hstack
          exact ⟨[_], _, outer, rfl, hrest, he⟩
        | cons first inner =>
          obtain ⟨-, rfl⟩ := List.cons.inj hstack
          exact ⟨_ :: _ :: inner, b, rest, rfl, hrest, he⟩
    · rw [Form.closeAll_unclosed hends] at h
      cases h
      exact ⟨[], _, _, rfl, List.cons_ne_nil _ _, rfl⟩

theorem upTo_eq_error (h : upTo start tokens = .error e) :
    ∃ before token after reading, tokens = before ++ token :: after ∧
      upTo start before = .ok reading ∧ next .standard reading token = .error e := by
  induction tokens using List.reverseRecOn with
  | nil => cases h
  | append_singleton tokens token ih =>
    rw [upTo_concat] at h
    rcases bind_eq_error.mp h with h | ⟨reading, hreading, h⟩
    · obtain ⟨before, first, after, reading, rfl, hreading, hnext⟩ := ih h
      exact ⟨before, first, after ++ [token], reading, List.append_assoc .., hreading, hnext⟩
    · exact ⟨tokens, token, [], reading, rfl, hreading, h⟩

theorem located_upTo (htokens : ∀ token ∈ tokens, token.IsToken ∧ token.Fills)
    (hplaced : AllPlaced file "" tokens) (h : upTo (.new file 0 0) tokens = .ok reading) :
    reading.Located file := by
  have hstart : (Form.toplevel.opened "" (.new file 0 0) [] false).Located file "" :=
    ⟨rfl, trivial, fun _ => List.forall_mem_nil _⟩
  exact located_foldlM Grammar.standard_lossless htokens hplaced spells_start ⟨hstart, trivial⟩ h

theorem sourceAll_append (inner outer : List OpenBlock) :
    ∃ rest, sourceAll (inner ++ outer) = sourceAll outer ++ rest := by
  induction inner with
  | nil => exact ⟨"", String.append_empty.symm⟩
  | cons b inner ih =>
    obtain ⟨rest, hrest⟩ := ih
    exact ⟨rest ++ b.source, by rw [List.cons_append, sourceAll, hrest, String.append_assoc]⟩

theorem allLocated_of_append {inner : List OpenBlock} (h : AllLocated file (inner ++ outer)) :
    AllLocated file outer := by
  induction inner with
  | nil => exact h
  | cons b inner ih => exact ih h.2

end Reading

theorem Grammar.parse_standard {start : Location} {tokens : List Node}
    (htokens : ∀ token ∈ tokens, token.IsToken)
    (hstart : tokens.head?.map (·.location) = some start) :
    standard.parse tokens = Reading.upTo start tokens >>= Reading.finish := by
  have hrule : standard.rule? standard.toplevel = some Form.toplevel.rule :=
    Form.rule?_name .toplevel
  have hall : tokens.takeWhile (·.kind != .endOfInput) = tokens :=
    List.takeWhile_eq_self_iff.mpr fun token h => by simpa using (htokens token h).kind_ne
  unfold parse
  dsimp only
  rw [hrule, hstart, hall]
  dsimp only
  rw [Option.getD_some, Form.new_rule]
  rfl

/-- The string that a token began is open and innermost after some tokens: if these were all, it
would be found unclosed. -/
theorem IsInnermost.parse_eq {start : Location} {front body items : List Node} {quote : Node}
    {outer : List OpenBlock} (h : IsInnermost start front quote outer body items)
    (htokens : ∀ token ∈ front ++ quote :: body, token.IsToken)
    (hstart : (front ++ quote :: body).head?.map (·.location) = some start) :
    Grammar.standard.parse (front ++ quote :: body) =
      .error ⟨.unclosed "\"", quote.location⟩ := by
  obtain ⟨pending, hreading⟩ := h
  rw [Grammar.parse_standard htokens hstart, hreading]
  exact Form.closeAll_unclosed Bool.false_ne_true

/-- Where an escape of a string lacks its braces, the backslash and the letter are two tokens of the
string that come one after the other. -/
theorem Interior.of_brace {start string location : Location} {front body items : List Node}
    {quote : Node} {outer : List OpenBlock} {letter : String} {other : Location}
    (h : Interior start front quote outer body items)
    (hfault : Piece.Fault other items.reverse ⟨.expectedBrace letter string, location⟩) :
    ∃ before slash next after, body = before ++ slash :: next :: after ∧
      slash.fragments.before = "\\" ∧ next.fragments.before = letter ∧
      (letter = "u" ∨ letter = "U") ∧ string = other ∧
      (location = next.location ∨ after.head?.map (·.location) = some location) ∧
      (∃ items, IsInnermost start front quote outer before items) ∧
      ∃ items, IsInnermost start front quote outer (before ++ [slash, next]) items := by
  generalize he : ParseError.mk (.expectedBrace letter string) location = e at hfault
  cases hfault with
  | escape hcause =>
    cases he
    rcases hcause with h | h | h <;> cases h
  | @brace earlier later slash next hitems hslash hbackslash hnext hletter hlater =>
    cases he
    have hitems : items = later.reverse ++ next :: slash :: earlier.reverse := by
      rw [List.reverse_eq_iff.mp hitems]
      simp
    rw [hitems] at h
    obtain ⟨upto, rest, rfl, hupto, hlocation⟩ : ∃ upto rest, body = upto ++ rest ∧
        Interior start front quote outer upto (next :: slash :: earlier.reverse) ∧
        ((later.head?.getD next).location = next.location ∨
          rest.head?.map (·.location) = some (later.head?.getD next).location) := by
      cases later with
      | nil => exact ⟨body, [], (List.append_nil body).symm, h, .inl rfl⟩
      | cons item later =>
        rw [List.reverse_cons, List.append_assoc] at h
        obtain ⟨before, after, rfl, hbefore⟩ := h.of_append
        obtain ⟨earlier, rfl, hearlier⟩ := hbefore.of_text (hlater item rfl)
        exact ⟨earlier, item :: after, List.append_assoc .., hearlier, .inr rfl⟩
    obtain ⟨middle, rfl, hmiddle⟩ := hupto.of_text hnext
    obtain ⟨before, rfl, hbefore⟩ := hmiddle.of_text hslash
    rw [List.append_assoc, List.append_assoc]
    refine ⟨before, slash, next, rest, rfl, hbackslash, rfl, hletter, rfl, hlocation,
      ⟨_, hbefore.isInnermost⟩, next :: slash :: earlier.reverse, ?_⟩
    have hinnermost := hupto.isInnermost
    rwa [List.append_assoc] at hinnermost

/-- Where an error says that something is wrong with a text, and what is to be found there. -/
structure ParseError.Pointed (text file : String) (e : ParseError) : Prop where
  /-- No rule is missing. -/
  known : ∀ name, e.cause ≠ .unknownRule name
  /-- A token begins there, which is not the end of the text. -/
  token : ∃ front token back, tokenize text file = front ++ token :: back ∧
    token.kind ≠ .endOfInput ∧ e.location = token.location ∧
    e.location = .after file (unparseAll front)
  /-- What is not closed begins there. -/
  unclosed : ∀ opener, e.cause = .unclosed opener → opener ≠ "" ∧
    ∃ front back, text = front ++ opener ++ back ∧ e.location = .after file front
  /-- An escape that lacks its braces is at a backslash and a letter, and the note is at the quote
  that opens the string they are in: if the text ended after the quote, before the escape or after
  it, that quote would be what is not closed. -/
  brace : ∀ letter string, e.cause = .expectedBrace letter string →
    e.notes.map (·.location) = [string] ∧
    ∃ front quote before slash next after,
      tokenize text file = front ++ quote :: (before ++ slash :: next :: after) ∧
      quote.fragments.before = "\"" ∧ string = quote.location ∧
      string = .after file (unparseAll front) ∧
      slash.fragments.before = "\\" ∧ next.fragments.before = letter ∧
      (letter = "u" ∨ letter = "U") ∧
      (e.location = next.location ∨ after.head?.map (·.location) = some e.location) ∧
      ∀ body ∈ [[], before, before ++ [slash, next]],
        Grammar.standard.parse (front ++ quote :: body) = .error ⟨.unclosed "\"", string⟩

namespace Piece
variable {string : Location} {items : List Node} {e : ParseError}

theorem Fault.exists_item (h : Fault string items e) :
    ∃ item ∈ items, e.location = item.location := by
  cases h with
  | escape hcause hitem => exact ⟨_, hitem, rfl⟩
  | @brace before after slash next hitems =>
    rw [hitems]
    cases after with
    | nil => exact ⟨next, by simp, rfl⟩
    | cons item after => exact ⟨item, by simp, rfl⟩

theorem Fault.cause_ne (h : Fault string items e) :
    (∀ name, e.cause ≠ .unknownRule name) ∧ ∀ opener, e.cause ≠ .unclosed opener := by
  cases h with
  | escape hcause hitem => rcases hcause with h | h | h <;> cases h <;> exact ⟨nofun, nofun⟩
  | brace => exact ⟨nofun, nofun⟩

end Piece

theorem location_of_split {text file : String} {front back : List Node} {token : Node}
    (h : tokenize text file = front ++ token :: back) :
    token.location = .after file (unparseAll front) := by
  have hplaced : AllPlaced file "" (tokenize text file) := allPlaced_ofChars rfl
  rw [h, Node.allPlaced_append, String.empty_append] at hplaced
  exact hplaced.2.1.location_eq

section Text
open OpenBlock (sourceAll)

variable {text file : String} {tokens : List Node} {stop : Location} {e : ParseError}
  {b : OpenBlock} {outer : List OpenBlock}
  (hcut : tokenize text file = tokens ++ [.endOfInput stop])
  (htokens : ∀ token ∈ tokens, token.IsToken)
include hcut

theorem leadsAlone_of_cut : LeadsAlone tokens :=
  have halone : LeadsAlone (tokenize text file) := leadsAlone_ofChars file {} text.toList
  halone.of_subset (hcut ▸ List.subset_append_left ..)

theorem allPlaced_of_cut : AllPlaced file "" tokens := by
  have hplaced : AllPlaced file "" (tokenize text file) := allPlaced_ofChars rfl
  rw [hcut, Node.allPlaced_append] at hplaced
  exact hplaced.1

include htokens

theorem fills_of_cut : ∀ token ∈ tokens, token.IsToken ∧ token.Fills := by
  intro token htoken
  have hmem : token ∈ tokenize text file := hcut ▸ List.mem_append_left _ htoken
  have hisToken := htokens token htoken
  exact ⟨hisToken, fills_of_mem_ofChars token hmem hisToken.kind_ne⟩

theorem exists_token {location : Location} (h : location ∈ tokens.map (·.location)) :
    ∃ front token back, tokenize text file = front ++ token :: back ∧
      token.kind ≠ .endOfInput ∧ location = token.location ∧
      location = .after file (unparseAll front) := by
  obtain ⟨token, htoken, rfl⟩ := List.mem_map.mp h
  obtain ⟨front, back, rfl⟩ := List.append_of_mem htoken
  have hsplit : tokenize text file = front ++ token :: (back ++ [.endOfInput stop]) := by
    rw [hcut, List.append_assoc, List.cons_append]
  exact ⟨front, token, _, hsplit, (htokens token htoken).kind_ne, rfl, location_of_split hsplit⟩

theorem IsInnermost.parse_of_cut {front body more rest items : List Node} {quote : Node}
    (h : IsInnermost (.new file 0 0) front quote outer body items)
    (htext : tokens = front ++ quote :: (body ++ more) ++ rest) :
    Grammar.standard.parse (front ++ quote :: body) =
      .error ⟨.unclosed "\"", quote.location⟩ := by
  have hhead := Token.head?_ofChars file {} text.toList
  change (tokenize text file).head?.map _ = _ at hhead
  have htext : tokens = front ++ quote :: body ++ (more ++ rest) := by
    rw [htext]
    simp
  rw [hcut, htext, List.append_assoc] at hhead
  refine h.parse_eq (List.forall_mem_append.mp (htext ▸ htokens)).1 ?_
  cases front <;> exact hhead

/-- What is wrong with a string is said to be where it is. -/
theorem pointed_of_fault {before after : List Node} (hbefore : tokens = before ++ after)
    (hreading : Reading.upTo (.new file 0 0) before = .ok (.inside b outer))
    (hassembly : b.rule.assembly = .interpolated)
    (hfault : Piece.Fault b.location b.items.reverse e) : e.Pointed text file := by
  subst hbefore
  have halone := (leadsAlone_of_cut hcut).of_subset (List.subset_append_left before after)
  have hall := (List.forall_mem_append.mp htokens).1
  have hgrounded := Reading.grounded_upTo halone hreading
  obtain ⟨front, quote, body, rfl, hquote, -, hlocation, hinterior⟩ :=
    (Reading.traced_upTo halone hall hreading).1 hassembly
  refine ⟨hfault.cause_ne.1, ?_, fun opener h => absurd h (hfault.cause_ne.2 opener),
    fun letter string hcause => ?_⟩
  · obtain ⟨item, hitem, heq⟩ := hfault.exists_item
    refine exists_token hcut htokens ?_
    rw [heq, List.map_append]
    exact List.mem_append_left _ (hgrounded.1.items item (List.mem_reverse.mp hitem))
  · obtain ⟨cause, location⟩ := e
    obtain rfl : cause = .expectedBrace letter string := hcause
    obtain ⟨before, slash, next, rest, rfl, hslash, hnext, hletter, rfl, hplace, ⟨_, hstart⟩, _,
      hend⟩ := hinterior.of_brace hfault
    have hsplit : tokenize text file = front ++ quote ::
        (before ++ slash :: next :: (rest ++ (after ++ [.endOfInput stop]))) := by
      rw [hcut]
      simp
    refine ⟨rfl, front, quote, before, slash, next, _, hsplit, hquote, hlocation,
      hlocation.trans (location_of_split hsplit), hslash, hnext, hletter, ?_, ?_⟩
    · refine hplace.imp_right fun hhead => ?_
      cases rest with
      | nil => cases hhead
      | cons item rest => exact hhead
    · rw [hlocation]
      refine List.forall_mem_cons.mpr ⟨?_, List.forall_mem_cons.mpr ⟨?_, ?_⟩⟩
      · exact hinterior.isInnermost_nil.parse_of_cut hcut htokens rfl
      · exact hstart.parse_of_cut hcut htokens rfl
      · rw [List.append_cons before, List.append_cons (before ++ [slash]),
          List.append_assoc before [slash] [next]] at hcut htokens
        exact List.forall_mem_singleton.mpr (hend.parse_of_cut hcut htokens rfl)

/-- What is not closed is said to be where it begins. -/
theorem pointed_of_unclosed (htext : unparseAll tokens = text) {inner rest : List OpenBlock}
    {current : OpenBlock}
    (hreading : Reading.upTo (.new file 0 0) tokens = .ok (.inside current outer))
    (hstack : current :: outer = inner ++ b :: rest) (hrest : rest ≠ []) :
    ParseError.Pointed text file ⟨.unclosed b.opener, b.location⟩ := by
  have hgrounded : OpenBlock.AllGrounded tokens (current :: outer) :=
    Reading.grounded_upTo (leadsAlone_of_cut hcut) hreading
  rw [hstack] at hgrounded
  obtain ⟨hne, hmem⟩ := hgrounded.of_append.1.opener hrest
  have hlocated : OpenBlock.AllLocated file (current :: outer) :=
    Reading.located_upTo (fills_of_cut hcut htokens) (allPlaced_of_cut hcut) hreading
  obtain ⟨-, -, hsource⟩ := Reading.spells_upTo htokens hreading
  rw [hstack] at hlocated hsource
  obtain ⟨more, hmore⟩ := Reading.sourceAll_append inner (b :: rest)
  refine ⟨nofun, exists_token hcut htokens hmem, ?_, nofun⟩
  rintro opener ⟨⟩
  refine ⟨hne, sourceAll rest, unparseAll b.items.reverse ++ more, ?_,
    (Reading.allLocated_of_append hlocated).1.location⟩
  rw [← htext, ← hsource, hmore, sourceAll, OpenBlock.source]
  simp only [String.append_assoc]

end Text

/-- Every text that cannot be read is said to be wrong at one of its tokens. What is not closed
begins there; and where an escape lacks its braces, the note is at the quote of the string that the
escape is in. -/
theorem pointed_of_parse {text file : String} {e : ParseError} (h : parse text file = .error e) :
    e.Pointed text file := by
  obtain ⟨tokens, stop, hcut, htokens, htext⟩ := Token.ofChars_eq_append file {} text.toList
  have htext : unparseAll tokens = text := String.toList_inj.mp htext
  change tokenize text file = _ at hcut
  have halone := leadsAlone_of_cut hcut
  rw [parse_eq_resume_dropLast, hcut, List.dropLast_concat] at h
  rcases bind_eq_error.mp h with h | ⟨reading, hreading, h⟩
  · obtain ⟨before, token, after, reading, rfl, hreading, hnext⟩ := Reading.upTo_eq_error h
    have hbefore := halone.of_subset (List.subset_append_left ..)
    obtain ⟨b, outer, rfl, hassembly, hfault⟩ := (Reading.standing_upTo hbefore hreading).fault
      (halone token (List.mem_append_right _ (.head _))) hnext
    exact pointed_of_fault hcut htokens rfl hreading hassembly hfault
  · cases Reading.standing_upTo halone hreading with
    | inside hnested items pending =>
      obtain ⟨inner, b, rest, hstack, hrest, rfl⟩ := Reading.unclosed_of_closeAll hnested h
      exact pointed_of_unclosed hcut htokens htext hreading hstack hrest

/-- Here a string stands in the code of another one. -/
theorem pointed_of_parse_unbraced :
    ∃ e, parse "f(\"a \x7b\"\\u 41\"\x7d\")" "main" = .error e ∧
      e.cause = .expectedBrace "u" (.new "main" 0 6) ∧ e.location = .new "main" 0 9 ∧
      e.Pointed "f(\"a \x7b\"\\u 41\"\x7d\")" "main" := by
  have hshape : (((parse "f(\"a \x7b\"\\u 41\"\x7d\")" "main").map fun _ => none).tryCatch
      fun e => .ok (some e)).toOption =
        some (some ⟨.expectedBrace "u" (.new "main" 0 6), .new "main" 0 9⟩) := by decide +kernel
  cases h : parse "f(\"a \x7b\"\\u 41\"\x7d\")" "main" with
  | ok tree =>
    rw [h] at hshape
    cases hshape
  | error e =>
    rw [h] at hshape
    cases hshape
    exact ⟨_, rfl, rfl, rfl, pointed_of_parse h⟩

end Homoicon
