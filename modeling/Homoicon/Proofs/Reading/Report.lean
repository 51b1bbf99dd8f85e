import Homoicon.Proofs.Reading.Faults
import Homoicon.Proofs.Render.Excerpt

/-! What people are shown of a text that cannot be read. -/
namespace Homoicon
open Node (unparseAll)

/-- A point of a text with more text after it, which is not between a carriage return and its
newline. -/
def Location.InText (file text : String) (l : Location) : Prop :=
  ∃ front back, text = front ++ back ∧ l = .after file front ∧ back ≠ "" ∧
    (front.toList.getLast? = some '\r' → back.toList.head? ≠ some '\n')

/-- The excerpt for such a point shows the line that it is on. -/
theorem Location.InText.shown {file text : String} {l : Location} (h : l.InText file text) :
    l.toPlace.Shown text (excerpt l.toPlace text .identity) := by
  obtain ⟨front, back, rfl, rfl, hback, hinside⟩ := h
  have hne : back.toList ≠ [] := fun hnil => hback (String.toList_eq_nil_iff.mp hnil)
  obtain ⟨line, hline, hcolumn, hlisted⟩ := Text.exists_hasLine hne hinside
  rw [← String.toList_append] at hline hlisted
  exact Place.shown_excerpt hline hlisted hcolumn

theorem Location.inText_of_head (file front : String) {next : String} (hne : next ≠ "")
    (hhead : next.toList.head? ≠ some '\n') (back : String) :
    (Location.after file front).InText file (front ++ (next ++ back)) := by
  refine ⟨front, next ++ back, rfl, rfl, fun hempty => hne ?_, fun _ => ?_⟩
  · exact (String.append_eq_empty_iff.mp hempty).1
  · obtain ⟨c, rest, hnext⟩ := List.exists_cons_of_ne_nil (mt String.toList_eq_nil_iff.mp hne)
    rw [String.toList_append, hnext]
    rwa [hnext] at hhead

namespace OpenBlock
variable {g : Grammar} {b : OpenBlock} {outer : List OpenBlock}

/-- What opened a block is a trigger of the block around it. -/
def Triggered (b : OpenBlock) : List OpenBlock → Prop
  | [] => True
  | parent :: _ => b.opener ∈ parent.rule.triggers.map Prod.fst

def AllTriggered : List OpenBlock → Prop
  | [] => True
  | b :: outer => b.Triggered outer ∧ AllTriggered outer

theorem AllTriggered.of_append {inner : List OpenBlock} (h : AllTriggered (inner ++ outer)) :
    AllTriggered outer := by
  induction inner with
  | nil => exact h
  | cons b inner ih => exact ih h.2

end OpenBlock

namespace Reading
open OpenBlock (AllLocated AllTriggered sourceAll)

variable {g : Grammar} {b : OpenBlock} {outer : List OpenBlock} {token : Node} {tokens : List Node}
  {reading : Reading}

def Triggered : Reading → Prop
  | inside b outer => AllTriggered (b :: outer)
  | finished _ => True

theorem triggered_giveBack {node : Node} (h : AllTriggered outer) :
    (giveBack node outer).Triggered := by
  cases outer with
  | nil => trivial
  | cons parent outer =>
    obtain ⟨hparent, houter⟩ := h
    refine ⟨?_, houter⟩
    cases outer <;> exact hparent

theorem Triggered.step (hb : b.Sound g) (h : AllTriggered (b :: outer))
    (hstep : step g b outer token = .ok reading) : reading.Triggered := by
  obtain ⟨hblock, houter⟩ := h
  have hkept : ∀ later : OpenBlock, later.opener = b.opener → later.Triggered outer := by
    intro later hopener
    cases outer with
    | nil => trivial
    | cons parent outer =>
      change later.opener ∈ _
      rw [hopener]
      exact hblock
  rcases step_cases hstep with ⟨-, rfl⟩ | ⟨-, ⟨marker, node, -, -, -, -, rfl⟩ |
    ⟨trigger, inner, -, -, hmem, -, -, rfl⟩ | rfl⟩
  · exact ⟨hkept _ rfl, houter⟩
  · exact triggered_giveBack houter
  · have hknown : (trigger.marker, trigger.meaning) ∈ b.rule.triggers :=
      OpenBlock.mem_rule_triggers hb hmem
    exact ⟨List.mem_map.mpr ⟨_, hknown, rfl⟩, hkept _ rfl, houter⟩
  · exact ⟨hkept _ rfl, houter⟩

theorem triggered_upTo {start : Location} (htokens : ∀ token ∈ tokens, token.IsToken)
    (h : upTo start tokens = .ok reading) : reading.Triggered := by
  induction tokens using List.reverseRecOn generalizing reading with
  | nil =>
    cases h
    exact ⟨trivial, trivial⟩
  | append_singleton tokens token ih =>
    have hbefore : ∀ token ∈ tokens, token.IsToken := fun t ht =>
      htokens t (List.mem_append_left _ ht)
    rw [upTo_concat] at h
    obtain ⟨earlier, hearlier, h⟩ := bind_eq_ok.mp h
    have htriggered := ih hbefore hearlier
    have hspells := spells_upTo hbefore hearlier
    cases earlier with
    | inside b outer => exact Triggered.step hspells.1 htriggered h
    | finished tree => exact hspells.elim

end Reading

theorem Escapes.unparse_of_mem {pending last : Bool} {items : List Node}
    (h : Escapes pending items last) {item : Node} (hitem : item ∈ items)
    (hplain : ¬item.kind.isBlock = true) : item.unparse = item.fragments.before := by
  induction items generalizing pending with
  | nil => cases hitem
  | cons first items ih =>
    by_cases hblock : first.kind.isBlock = true
    · rcases List.mem_cons.mp hitem with rfl | hitem
      · exact absurd hblock hplain
      · exact ih (h.of_code hblock).2 hitem
    · rcases List.mem_cons.mp hitem with rfl | hitem
      · exact (h.of_text hblock).1
      · exact ih (h.of_text hblock).2 hitem

namespace Piece
variable {string location : Location} {items : List Node} {e : ParseError}

/-- A place among the items of a string: at a backslash, or right after one or after the letter of
an escape with braces. -/
def Site (items : List Node) (location : Location) : Prop :=
  ∃ before item after, items = before ++ item :: after ∧ location = item.location ∧
    (¬item.kind.isBlock = true ∧ item.fragments.before = "\\" ∨
      ∃ earlier previous, before = earlier ++ [previous] ∧ ¬previous.kind.isBlock = true ∧
        previous.fragments.before ∈ ["\\", "u", "U"])

theorem site_after (earlier : List Node) {previous item : Node} {after : List Node}
    (hplain : ¬previous.kind.isBlock = true)
    (htext : previous.fragments.before ∈ ["\\", "u", "U"]) :
    Site (earlier ++ previous :: item :: after) item.location :=
  ⟨earlier ++ [previous], item, after, by simp, rfl, .inr ⟨earlier, previous, rfl, hplain, htext⟩⟩

/-- What is wrong with the items of a string is so at a backslash or right after an escape has
begun. -/
theorem site_of_ofItems (h : ofItems string items = .error e) : Site items e.location := by
  obtain ⟨earlier, later, rfl, hrefuses⟩ := refuses_of_ofItems h
  cases hrefuses with
  | @last slash htext hslash => exact ⟨earlier, slash, [], rfl, rfl, .inl ⟨htext, hslash⟩⟩
  | escape htext hslash _ => exact site_after earlier htext (by simp [hslash])
  | @braced _ slash next block items hnext hletter _ =>
    rw [List.append_cons]
    exact site_after (earlier ++ [slash]) hnext (List.mem_cons_of_mem _ (by simpa using hletter))
  | @unbraced slash next items htext hslash hnext hletter _ =>
    cases items with
    | nil => exact site_after earlier htext (by simp [hslash])
    | cons block items =>
      rw [List.append_cons]
      exact site_after (earlier ++ [slash]) hnext (List.mem_cons_of_mem _ (by simpa using hletter))

/-- Such a place is not between a carriage return and its newline. -/
theorem Site.inText {file before rest : String} {last : Bool} (h : Site items location)
    (hescapes : Escapes false items last) (hplaced : Node.AllPlaced file before items)
    (hrest : rest ≠ "") :
    location.InText file (before ++ unparseAll items ++ rest) := by
  obtain ⟨front, item, after, rfl, rfl, hsite⟩ := h
  rw [Node.allPlaced_append] at hplaced
  rw [hplaced.2.1.location_eq]
  rcases hsite with ⟨hplain, htext⟩ | ⟨earlier, previous, rfl, hplain, htext⟩
  · have hslash : item.unparse = "\\" := (hescapes.unparse_of_mem (by simp) hplain).trans htext
    have hsplit : before ++ unparseAll (front ++ item :: after) ++ rest =
        before ++ unparseAll front ++ ("\\" ++ (unparseAll after ++ rest)) := by
      rw [Node.unparseAll_append, Node.unparseAll_cons, hslash]
      simp only [String.append_assoc]
    rw [hsplit]
    exact Location.inText_of_head file _ (by decide) (by decide) _
  · have hprevious : previous.unparse = previous.fragments.before :=
      hescapes.unparse_of_mem (by simp) hplain
    have hback : unparseAll (item :: after) ++ rest ≠ "" := fun hempty =>
      hrest (String.append_eq_empty_iff.mp hempty).2
    refine ⟨_, _, ?_, rfl, hback, fun hreturn => ?_⟩
    · rw [Node.unparseAll_append]
      simp only [String.append_assoc]
    · -- what stands before the place ends with a backslash or with the letter
      rw [Node.unparseAll_append, Node.unparseAll_cons, Node.unparseAll_nil, hprevious] at hreturn
      simp only [List.mem_cons, List.not_mem_nil, or_false] at htext
      rcases htext with htext | htext | htext <;> simp [htext] at hreturn

theorem Fault.location_of_note (h : Fault string items e) :
    ∀ note ∈ e.notes, note.location = string := by
  cases h with
  | escape hcause hitem => rcases hcause with rfl | rfl | rfl <;> exact List.forall_mem_nil _
  | brace => exact List.forall_mem_singleton.mpr rfl

end Piece

theorem OpenBlock.sound_of_mem_stack {g : Grammar} {rule : Rule} {outer : List OpenBlock}
    (h : Stack g rule outer) : ∀ b ∈ outer, b.Sound g := by
  induction outer generalizing rule with
  | nil => exact List.forall_mem_nil _
  | cons parent outer ih => exact List.forall_mem_cons.mpr ⟨h.1.sound, ih h.2⟩

theorem Grammar.head?_of_mem_triggers : ∀ named ∈ standard.rules, ∀ trigger ∈ named.2.triggers,
    trigger.1 ≠ "" ∧ trigger.1.toList.head? ≠ some '\n' := by
  decide

section Blocks
open OpenBlock (sourceAll)

variable {file text later : String} {current b : OpenBlock} {outer inner rest : List OpenBlock}
  (hspells : (Reading.inside current outer).Spells .standard text)
  (hlocated : (Reading.inside current outer).Located file)
include hspells hlocated

/-- A block that something opened begins where that is. -/
theorem inText_of_opened (htriggered : (Reading.inside current outer).Triggered)
    (hstack : current :: outer = inner ++ b :: rest) (hrest : rest ≠ []) (later : String) :
    b.location.InText file (text ++ later) := by
  obtain ⟨-, hblocks, htext⟩ := hspells
  obtain ⟨parent, around, rfl⟩ := List.exists_cons_of_ne_nil hrest
  change OpenBlock.AllLocated file (current :: outer) at hlocated
  change OpenBlock.AllTriggered (current :: outer) at htriggered
  rw [hstack] at hlocated htriggered htext
  have hopener : b.opener ∈ parent.rule.triggers.map Prod.fst := htriggered.of_append.1
  have hparent : parent ∈ outer := by
    have hmem : parent ∈ (current :: outer).tail := by
      rw [hstack]
      cases inner <;> simp
    exact hmem
  obtain ⟨name, hname⟩ := (OpenBlock.sound_of_mem_stack hblocks parent hparent).known
  obtain ⟨⟨_, target⟩, htrigger, rfl⟩ := List.mem_map.mp hopener
  obtain ⟨hne, hhead⟩ := Grammar.head?_of_mem_triggers _ hname _ htrigger
  obtain ⟨more, hmore⟩ := Reading.sourceAll_append inner (b :: parent :: around)
  have hsplit : text ++ later = sourceAll (parent :: around) ++
      (b.opener ++ (unparseAll b.items.reverse ++ more ++ later)) := by
    rw [← htext, hmore, sourceAll, OpenBlock.source]
    simp only [String.append_assoc]
  rw [hsplit, (Reading.allLocated_of_append hlocated).1.location]
  exact Location.inText_of_head file _ hne hhead _

/-- What is wrong with the innermost block, a string, is where its contents are, and a note about it
is where the string begins. -/
theorem inText_of_unread (htriggered : (Reading.inside current outer).Triggered)
    (houter : outer ≠ []) (hassembly : current.rule.assembly = .interpolated) {e : ParseError}
    (hitems : Piece.ofItems current.location current.items.reverse = .error e)
    (hlater : later ≠ "") :
    ∀ l ∈ e.location :: e.notes.map (·.location), l.InText file (text ++ later) := by
  obtain ⟨last, hescapes, -⟩ := hspells.1.escapes hassembly
  have hsource : sourceAll outer ++ current.opener ++ unparseAll current.items.reverse = text := by
    rw [← hspells.2.2, sourceAll, OpenBlock.source, String.append_assoc]
  have hsite := (Piece.site_of_ofItems hitems).inText hescapes hlocated.1.items hlater
  rw [hsource] at hsite
  refine List.forall_mem_cons.mpr ⟨hsite, fun l hl => ?_⟩
  obtain ⟨note, hnote, rfl⟩ := List.mem_map.mp hl
  rw [(Piece.fault_of_ofItems hitems).location_of_note note hnote]
  exact inText_of_opened hspells hlocated htriggered (List.nil_append _).symm houter later

end Blocks

/-- Where something is wrong with a text, and where a note about it points, is in the text. -/
theorem inText_of_parse {text file : String} {e : ParseError} (h : parse text file = .error e) :
    ∀ l ∈ e.location :: e.notes.map (·.location), l.InText file text := by
  obtain ⟨tokens, stop, hcut, htokens, htext⟩ := Token.ofChars_eq_append file {} text.toList
  obtain rfl : unparseAll tokens = text := String.toList_inj.mp htext
  change tokenize _ file = _ at hcut
  have halone := leadsAlone_of_cut hcut
  have hplaced := allPlaced_of_cut hcut
  have hfills := fills_of_cut hcut htokens
  rw [parse_eq_resume_dropLast, hcut, List.dropLast_concat] at h
  rcases bind_eq_error.mp h with h | ⟨reading, hreading, h⟩
  · obtain ⟨before, token, after, reading, rfl, hreading, hnext⟩ := Reading.upTo_eq_error h
    have hbefore := (List.forall_mem_append.mp htokens).1
    have hstanding :=
      Reading.standing_upTo (halone.of_subset (List.subset_append_left ..)) hreading
    obtain ⟨b, outer, rfl, houter, hassembly, hitems⟩ :=
      hstanding.unread (halone token (List.mem_append_right _ (.head _))) hnext
    have hlocated : (Reading.inside b outer).Located file :=
      Reading.located_upTo (fun t ht => hfills t (List.mem_append_left _ ht))
        (Node.allPlaced_append.mp hplaced).1 hreading
    have hlater : unparseAll (token :: after) ≠ "" := by
      obtain ⟨htoken, hfill⟩ := hfills token (List.mem_append_right _ (.head _))
      have hfull : token.fragments.before ≠ "" :=
        hfill.resolve_left (by simp [htoken.not_isBlock])
      rw [Node.unparseAll_cons, htoken.unparse_eq]
      exact fun hempty => hfull (String.append_eq_empty_iff.mp hempty).1
    rw [Node.unparseAll_append]
    exact inText_of_unread (Reading.spells_upTo hbefore hreading) hlocated
      (Reading.triggered_upTo hbefore hreading) houter hassembly hitems hlater
  · cases Reading.standing_upTo halone hreading with
    | inside hnested items pending =>
      obtain ⟨inner, b, rest, hstack, hrest, rfl⟩ := Reading.unclosed_of_closeAll hnested h
      have hopened := inText_of_opened (Reading.spells_upTo htokens hreading)
        (Reading.located_upTo hfills hplaced hreading)
        (Reading.triggered_upTo htokens hreading) hstack hrest ""
      rw [String.append_empty] at hopened
      exact List.forall_mem_singleton.mpr hopened

/-- The details of an error show an excerpt for its place and one for each of its notes. Every
excerpt shows the line of the text that the place is on, with three bars in one column and a caret
under the place. -/
theorem shown_of_parse {text file : String} {e : ParseError} (h : parse text file = .error e) :
    e.toDiagnostic.full text .identity =
      "error: " ++ e.location.display ++ " " ++ e.message ++ "\n\n" ++
        excerpt e.location.toPlace text .identity ++ "\n\n" ++ e.cause.details ++
        String.join (e.notes.map fun note =>
          "\n\n" ++ note.location.display ++ " " ++ note.message ++ "\n\n" ++
            excerpt note.location.toPlace text .identity) ∧
    ∀ l ∈ e.location :: e.notes.map (·.location),
      l.toPlace.Shown text (excerpt l.toPlace text .identity) := by
  have hinText := inText_of_parse h
  obtain ⟨⟨front, back, -, hlocation, -⟩, hnotes⟩ := List.forall_mem_cons.mp hinText
  refine ⟨?_, fun l hl => (hinText l hl).shown⟩
  have hcauses : e.location.causes = [] := by rw [hlocation, Location.after, Location.new]
  have hfile : e.location.file = file := by rw [hlocation, Location.after, Location.new]
  have hsame : ∀ note ∈ e.notes, note.location.file = file := by
    intro note hnote
    obtain ⟨before, _, -, hplace, -⟩ := hnotes _ (List.mem_map_of_mem hnote)
    rw [hplace, Location.after, Location.new]
  have hshown : e.notes.map (e.toDiagnostic.noteText text .identity) = e.notes.map fun note =>
      "\n\n" ++ note.location.display ++ " " ++ note.message ++ "\n\n" ++
        excerpt note.location.toPlace text .identity := by
    refine List.map_congr_left fun note hnote => ?_
    have hfiles : note.location.file = e.toDiagnostic.location.file :=
      (hsame note hnote).trans hfile.symm
    rw [Diagnostic.noteText, if_pos hfiles]
    simp only [String.append_assoc]
  have hconcise : e.toDiagnostic.concise .identity =
      "error: " ++ e.location.display ++ " " ++ e.message := by
    have hlead : "error" ++ ": " = "error: " := by decide
    rw [← hlead]
    rfl
  have hnone : e.toDiagnostic.location.causes = [] := hcauses
  rw [Diagnostic.full, hconcise, hnone, List.map_nil, String.join_nil, String.append_empty]
  exact congrArg _ (congrArg String.join hshown)

/-- The second line begins with the string that lacks its braces. -/
theorem shown_of_parse_unbraced :
    ∃ e, parse "f(\r\n\"a\\u 41\")" "main" = .error e ∧ e.location = .new "main" 1 4 ∧
      e.notes.map (·.location) = [.new "main" 1 0] ∧
      ∀ l ∈ [Location.new "main" 1 4, .new "main" 1 0], l.toPlace.Shown "f(\r\n\"a\\u 41\")"
        (excerpt l.toPlace "f(\r\n\"a\\u 41\")" .identity) := by
  have hshape : (((parse "f(\r\n\"a\\u 41\")" "main").map fun _ => none).tryCatch
      fun e => .ok (some e)).toOption =
        some (some ⟨.expectedBrace "u" (.new "main" 1 0), .new "main" 1 4⟩) := by decide +kernel
  cases h : parse "f(\r\n\"a\\u 41\")" "main" with
  | ok tree =>
    rw [h] at hshape
    cases hshape
  | error e =>
    rw [h] at hshape
    cases hshape
    exact ⟨_, rfl, rfl, rfl, (shown_of_parse h).2⟩

end Homoicon
