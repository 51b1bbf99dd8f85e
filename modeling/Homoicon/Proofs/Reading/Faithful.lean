import Homoicon.Proofs.Reading.Denotation
import Homoicon.Proofs.Reading.Occurrence
import Homoicon.Proofs.Reading.Quoting
import Homoicon.Proofs.Reading.Reflexive
import Homoicon.Proofs.Token.Cutting

/-! Every string in a tree that has been read has the value that its source text stands for. -/
namespace Homoicon

namespace Escape
variable {text chars block : List Char} {c letter : Char}

theorem Stands.ne_nil (h : Stands text c) : text ≠ [] := by
  cases h <;> exact List.cons_ne_nil _ _

/-- Whether a text that holds a special character is just that character. -/
def Lone (text : String) : Prop := ∀ c ∈ special, c ∈ text.toList → text = .singleton c

theorem denotes_sign {text : String} (h : text ∈ ["'", "\"", "\x7b", "\x7d"]) :
    Denotes ("\\" ++ text).toList text.toList := by
  simp only [List.mem_cons, List.not_mem_nil, or_false] at h
  rcases h with rfl | rfl | rfl | rfl
  all_goals exact .escape (.sign (by decide)) .nil

/-- What follows the escape in its token stands for itself. -/
theorem denotes_decode {text : String} (hlone : Lone text) (h : decode text.toList = .ok chars) :
    Denotes ("\\" ++ text).toList chars := by
  obtain ⟨escape, c, rest, htext, rfl, hstands, -⟩ := decode_eq_ok_iff.mp h
  have hrest : ∀ d ∈ rest, d ∉ special := by
    intro d hd hspecial
    have hmem : d ∈ text.toList := htext ▸ List.mem_append_right _ hd
    have hlength : (escape ++ rest).length = 1 := by
      rw [← htext, hlone d hspecial hmem, String.toList_singleton, List.length_singleton]
    have hescape := List.length_pos_iff.mpr hstands.ne_nil
    have hpos := List.length_pos_of_mem hd
    rw [List.length_append] at hlength
    omega
  have hdenotes : Denotes ('\\' :: (escape ++ rest)) (c :: rest) :=
    .escape hstands (denotes_of_plain hrest)
  rw [String.toList_append, htext]
  exact hdenotes

theorem denotes_decodeBraced {text block : String} (hletter : text = "u" ∨ text = "U")
    (h : decodeBraced block.toList = .ok c) :
    Denotes ("\\" ++ (text ++ block)).toList [c] := by
  obtain ⟨digits, hblock, hne, hdigits, hscalar⟩ := decodeBraced_eq_ok_iff.mp h
  have hdenotes : ∀ letter, letter = 'u' ∨ letter = 'U' →
      Denotes ('\\' :: letter :: '\x7b' :: (digits ++ ['\x7d'])) [c] := by
    intro letter hletter
    have hwhole := Denotes.escape (.braced hletter hne hdigits hscalar) .nil
    rwa [List.append_nil] at hwhole
  rw [String.toList_append, String.toList_append, hblock]
  rcases hletter with rfl | rfl
  · exact hdenotes 'u' (.inl rfl)
  · exact hdenotes 'U' (.inr rfl)

/-- The items of a string: blocks of code, tokens that stand for themselves, and escapes. -/
inductive Legible : List Node → Prop
  | nil : Legible []
  | code {block : Node} {items : List Node} (hblock : block.kind.isBlock = true)
      (h : Legible items) : Legible (block :: items)
  | plain {token : Node} {items : List Node}
      (hplain : ∀ c ∈ token.fragments.before.toList, c ∉ special) (h : Legible items) :
      Legible (token :: items)
  | escape {slash sign : Node} {items : List Node} (htext : ¬slash.kind.isBlock = true)
      (hslash : slash.fragments.before = "\\") (hsign : Lone sign.fragments.before)
      (h : Legible items) : Legible (slash :: sign :: items)

namespace Legible
variable {item next : Node} {items others : List Node}

theorem append (h : Legible items) (hothers : Legible others) : Legible (items ++ others) := by
  induction h with
  | nil => exact hothers
  | code hblock h ih => exact .code hblock ih
  | plain hplain h ih => exact .plain hplain ih
  | escape htext hslash hsign h ih => exact .escape htext hslash hsign ih

theorem of_code (h : Legible (item :: items)) (hitem : item.kind.isBlock = true) :
    Legible items := by
  cases h with
  | code hblock h => exact h
  | plain hplain h => exact h
  | escape htext => exact absurd hitem htext

theorem of_text (h : Legible (item :: items)) (hitem : ¬item.kind.isBlock = true)
    (hplain : item.fragments.before ≠ "\\") :
    (∀ c ∈ item.fragments.before.toList, c ∉ special) ∧ Legible items := by
  cases h with
  | code hblock h => exact absurd hblock hitem
  | plain hplain h => exact ⟨hplain, h⟩
  | escape htext hslash => exact absurd hslash hplain

theorem of_backslash (h : Legible (item :: next :: items)) (hitem : ¬item.kind.isBlock = true)
    (hslash : item.fragments.before = "\\") : Lone next.fragments.before ∧ Legible items := by
  cases h with
  | code hblock h => exact absurd hblock hitem
  | plain hplain h =>
    have hmem : '\\' ∈ item.fragments.before.toList := by
      rw [hslash]
      decide
    exact absurd (List.mem_cons_self ..) (hplain '\\' hmem)
  | escape htext hslash hsign h => exact ⟨hsign, h⟩

end Legible

/-- What has been read of a string, the latest item first; `pending` tells whether that is the
backslash of an escape. -/
inductive UpTo : Bool → List Node → Prop
  | settled {items : List Node} (h : Legible items.reverse) : UpTo false items
  | pending {slash : Node} {items : List Node} (htext : ¬slash.kind.isBlock = true)
      (hslash : slash.fragments.before = "\\") (h : Legible items.reverse) :
      UpTo true (slash :: items)

namespace UpTo
variable {pending : Bool} {token block : Node} {items tokens : List Node} {mark : Mark}
  {next? : Option String}

theorem legible (h : UpTo false items) : Legible items.reverse := by
  cases h
  assumption

theorem code (h : UpTo false items) (hblock : block.kind.isBlock = true) :
    UpTo false (block :: items) := by
  refine .settled ?_
  rw [List.reverse_cons]
  exact h.legible.append (.code hblock .nil)

/-- A token that no mark begins with is text, or the backslash of an escape. -/
theorem push (h : UpTo pending items) (htext : ¬token.kind.isBlock = true)
    (hlone : Lone token.fragments.before)
    (hmark : Form.string.markAt? token.fragments.before next? = none) :
    UpTo (!pending && token.fragments.before == .singleton Form.string.lead) (token :: items) := by
  cases h with
  | @pending slash items hcode hslash h =>
    refine .settled ?_
    rw [List.reverse_cons, List.reverse_cons, List.append_assoc]
    exact h.append (.escape hcode hslash hlone .nil)
  | settled h =>
    by_cases hslash : token.fragments.before = "\\"
    · rw [hslash]
      exact .pending htext hslash h
    · have hplain : ∀ c ∈ token.fragments.before.toList, c ∉ special := by
        intro c hc hspecial
        have heq := hlone c hspecial hc
        rw [heq] at hmark hslash
        simp only [special, List.mem_cons, List.not_mem_nil, or_false] at hspecial
        rcases hspecial with rfl | rfl | rfl
        · exact hslash rfl
        · cases hmark
        · cases hmark
      have hother : (token.fragments.before == .singleton Form.string.lead) = false :=
        beq_false_of_ne hslash
      rw [hother]
      refine .settled ?_
      rw [List.reverse_cons]
      exact h.append (.plain hplain .nil)

/-- Where a mark begins, no backslash is pending. -/
theorem of_mark {text : String} {action : Action} (h : UpTo pending items)
    (hsettled : Form.string.Settled pending (some text))
    (hmark : Form.string.markAt? text next? = some (mark, action)) : UpTo false items := by
  have hfalse : pending = false := by
    refine Bool.eq_false_iff.mpr fun hpending => ?_
    have hnone : Form.string.markAt? text next? = none := by
      refine Quote.markAt?_plain (q := .double) fun c hc htext => ?_
      have hpair : Form.string.markAt? "\\" (some (.singleton c)) = some (.two '\\' c, .keep) :=
        Quote.markAt?_pair (q := .double) hc
      have hlead := hsettled hpending
      rw [htext] at hlead
      cases hpair.symm.trans hlead
    cases hmark.symm.trans hnone
  exact hfalse ▸ h

/-- A mark that means nothing but its tokens is a backslash and what it takes the meaning from. -/
theorem pair (h : UpTo false items) (htext : ¬token.kind.isBlock = true)
    (hlone : ∀ token ∈ tokens, Lone token.fragments.before)
    (hmark : Form.string.markAt? token.fragments.before (tokens.head?.map (·.fragments.before)) =
      some (mark, .keep)) : UpTo false ((tokens.take mark.more).reverse ++ token :: items) := by
  have hmem : (mark, .keep) ∈ Form.string.marks := List.mem_of_find?_eq_some hmark
  have hat := List.find?_some (p := fun entry : Mark × Action => entry.1.isAt _ _) hmark
  have hpairs : ∀ entry ∈ Form.string.marks, entry.2 = .keep → entry.1.more = 1 := by decide
  cases mark with
  | one c => cases hpairs _ hmem rfl
  | two c sign =>
    have hlead : c = '\\' := Form.fits_of_mem_marks _ hmem
    obtain ⟨hslash, hnext⟩ := Bool.and_eq_true_iff.mp hat
    obtain ⟨second, hhead, -⟩ := Option.map_eq_some_iff.mp (beq_iff_eq.mp hnext)
    obtain ⟨rest, rfl⟩ := List.head?_eq_some_iff.mp hhead
    have hslash : token.fragments.before = "\\" := by
      rw [beq_iff_eq.mp hslash, hlead]
      decide
    refine .settled ?_
    have hitems : ((second :: rest).take (Mark.two c sign).more).reverse ++ token :: items =
        second :: token :: items := rfl
    rw [hitems, List.reverse_cons, List.reverse_cons, List.append_assoc]
    exact h.legible.append (.escape htext hslash (hlone second (.head _)) .nil)

end UpTo
end Escape

open Escape (Legible Denotes)

def Piece.Faithful : Piece → Prop
  | literal value raw _ => Denotes raw.toList value.toList
  | code _ => True

def Segment.Faithful (segment : Segment) : Prop :=
  Denotes segment.raw.toList segment.value.toList

namespace Piece
variable {string fallback : Location} {items : List Node} {pieces : List Piece} {segment : Segment}

theorem faithful_literal {raw : String} {chars : List Char} (location : Location)
    (h : Denotes raw.toList chars) : (literal (String.ofList chars) raw location).Faithful := by
  rwa [← String.toList_ofList (l := chars)] at h

/-- The pieces of a string have the values that its items stand for. -/
theorem Reads.faithful (h : Reads items pieces) (hitems : Legible items) :
    ∀ piece ∈ pieces, piece.Faithful := by
  induction h with
  | nil => exact List.forall_mem_nil _
  | code hblock h ih => exact List.forall_mem_cons.mpr ⟨trivial, ih (hitems.of_code hblock)⟩
  | text htext hplain h ih =>
    obtain ⟨hspecial, hrest⟩ := hitems.of_text htext hplain
    exact List.forall_mem_cons.mpr ⟨Escape.denotes_of_plain hspecial, ih hrest⟩
  | sign htext hslash hsign h ih =>
    obtain ⟨-, hrest⟩ := hitems.of_backslash htext hslash
    exact List.forall_mem_cons.mpr ⟨Escape.denotes_sign hsign, ih hrest⟩
  | letter htext hslash hchars h ih =>
    obtain ⟨hlone, hrest⟩ := hitems.of_backslash htext hslash
    have hdenotes := Escape.denotes_decode hlone hchars
    exact List.forall_mem_cons.mpr ⟨faithful_literal _ hdenotes, ih hrest⟩
  | braced htext hslash hletter hblock hc h ih =>
    obtain ⟨-, hrest⟩ := hitems.of_backslash htext hslash
    have hdenotes := Escape.denotes_decodeBraced hletter hc
    exact List.forall_mem_cons.mpr ⟨faithful_literal _ hdenotes, ih (hrest.of_code hblock)⟩

end Piece

namespace Segment
variable {segment : Segment}

theorem Faithful.push {value raw : String} (h : segment.Faithful)
    (hdenotes : Denotes raw.toList value.toList) (location : Location) :
    (segment.push value raw location).Faithful := by
  unfold Faithful Segment.push
  rw [String.toList_append, String.toList_append]
  exact Denotes.append h hdenotes

theorem Faithful.rest (h : segment.Faithful) : segment.rest.Faithful := by
  unfold Segment.rest
  split
  · exact h
  · exact .nil

end Segment

namespace Node

/-- Whether a node is a string that has the value its source stands for, unless it stands between
single quotes. -/
def Faithful (node : Node) : Prop :=
  ∃ value raw quote location, node = .string value raw quote location ∧
    quote ∈ ["\"", "'", ""] ∧ (quote ≠ "'" → Denotes raw.toList value.toList)

def AllFaithful (tree : Node) : Prop :=
  ∀ node front back, tree.Occurs node front back → node.kind = .string → node.Faithful

theorem allFaithful_of_children {node : Node} (hnode : node.kind = .string → node.Faithful)
    (hchildren : ∀ child ∈ node.children, child.AllFaithful) : node.AllFaithful :=
  fun _ _ _ h => forall_occurs hnode hchildren h

theorem allFaithful_string {value raw quote : String} (location : Location)
    (hquote : quote ∈ ["\"", "'", ""]) (h : quote ≠ "'" → Denotes raw.toList value.toList) :
    (string value raw quote location).AllFaithful :=
  allFaithful_of_children (fun _ => ⟨value, raw, quote, location, rfl, hquote, h⟩)
    (List.forall_mem_nil _)

end Node

theorem Segment.Faithful.nodes {segment : Segment} (h : segment.Faithful) (fallback : Location) :
    ∀ node ∈ segment.nodes fallback, node.AllFaithful := by
  unfold Segment.nodes
  split
  · exact List.forall_mem_nil _
  · exact List.forall_mem_singleton.mpr (Node.allFaithful_string _ (by decide) fun _ => h)

/-- What is made of the pieces of a string: children that are code or have the values that their
sources stand for, and such a segment. -/
theorem Piece.gather_faithful (fallback : Location) {segment : Segment} {pieces : List Piece}
    (hsegment : segment.Faithful) (hpieces : ∀ piece ∈ pieces, piece.Faithful)
    (hcode : ∀ block, code block ∈ pieces → block.AllFaithful) :
    (∀ node ∈ (gather fallback segment pieces).1, node.AllFaithful) ∧
      (gather fallback segment pieces).2.Faithful := by
  fun_induction gather fallback segment pieces with
  | case1 segment => exact ⟨List.forall_mem_nil _, hsegment⟩
  | case2 segment value raw location pieces ih =>
    obtain ⟨hliteral, hpieces⟩ := List.forall_mem_cons.mp hpieces
    exact ih (hsegment.push hliteral location) hpieces fun block h => hcode block (.tail _ h)
  | case3 segment block pieces nodes last hgather ih =>
    obtain ⟨-, hpieces⟩ := List.forall_mem_cons.mp hpieces
    have hlater := ih hsegment.rest hpieces fun block h => hcode block (.tail _ h)
    rw [hgather] at hlater
    obtain ⟨hnodes, hlast⟩ := hlater
    refine ⟨List.forall_mem_append.mpr ⟨hsegment.nodes fallback, ?_⟩, hlast⟩
    exact List.forall_mem_cons.mpr ⟨hcode block (.head _), hnodes⟩

namespace Assembly
variable {kind : Kind} {items : List Node} {opener closer : String} {location : Location}
  {node : Node}

theorem allFaithful_of_string (hlegible : Legible items)
    (hitems : ∀ item ∈ items, item.AllFaithful)
    (h : string items "\"" location = .ok node) : node.AllFaithful := by
  obtain ⟨pieces, hreads, hnode⟩ := string_cases h
  have hcode : ∀ block, Piece.code block ∈ pieces → block.AllFaithful := fun block hblock =>
    hitems block (hreads.mem hblock).1
  have hempty : ({} : Segment).Faithful := .nil
  obtain ⟨hnodes, hlast⟩ :=
    Piece.gather_faithful location hempty (hreads.faithful hlegible) hcode
  rcases hnode with ⟨-, rfl⟩ | ⟨-, rfl⟩
  · exact Node.allFaithful_string location (by decide) fun _ => hlast
  · refine Node.allFaithful_of_children (fun hkind => nomatch hkind) ?_
    exact List.forall_mem_append.mpr ⟨hnodes, hlast.nodes location⟩

end Assembly

namespace Form
variable {form inner : Form} {mark : Mark} {action : Action} {opener : String}

/-- Whether the opener is the quote of a string, if the block is one. -/
def OpenedBy (form : Form) (opener : String) : Prop :=
  (form = .string → opener = "\"") ∧ (form = .rawString → opener = "'")

theorem EnteredBy.openedBy (h : form.EnteredBy opener) : form.OpenedBy opener := by
  rcases h with ⟨rfl, rfl⟩ | ⟨outer, mark, hmark, rfl⟩
  · exact ⟨nofun, nofun⟩
  have hall : ∀ entry ∈ outer.marks,
      (entry.2 = .enter .string → entry.1 = .one '"') ∧
        (entry.2 = .enter .rawString → entry.1 = .one '\'') := by
    cases outer <;> decide
  constructor
  · rintro rfl
    have hquote : mark = .one '"' := (hall _ hmark).1 rfl
    rw [hquote]
    rfl
  · rintro rfl
    have hquote : mark = .one '\'' := (hall _ hmark).2 rfl
    rw [hquote]
    rfl

/-- The node of a closed block is faithful if its items are. -/
theorem allFaithful_of_node {items : List Node} {closer : String} {location : Location}
    {node : Node} (hopener : form.EnteredBy opener) (hitems : ∀ item ∈ items, item.AllFaithful)
    (hlegible : form = .string → Legible items.reverse)
    (h : form.node items opener closer location = .ok node) : node.AllFaithful := by
  have hreverse : ∀ item ∈ items.reverse, item.AllFaithful := fun item hitem =>
    hitems item (List.mem_reverse.mp hitem)
  cases form with
  | string =>
    rw [hopener.openedBy.1 rfl] at h
    exact Assembly.allFaithful_of_string (hlegible rfl) hreverse h
  | rawString =>
    rw [hopener.openedBy.2 rfl] at h
    cases h
    exact Node.allFaithful_string location (by decide) fun hquote => absurd rfl hquote
  | comment | lineComment =>
    cases h
    exact Node.allFaithful_of_children (fun hkind => nomatch hkind) (List.forall_mem_nil _)
  | toplevel | round | square | curly | interpolation =>
    cases h
    exact Node.allFaithful_of_children (fun hkind => nomatch hkind) hreverse

theorem kind_of_node {items : List Node} {closer : String} {location : Location} {node : Node}
    (hform : form.assembly = .block) (h : form.node items opener closer location = .ok node) :
    node.kind = form.kind := by
  unfold Form.node at h
  rw [hform] at h
  cases h
  rfl

theorem eq_interpolation_of_enter (h : (mark, .enter inner) ∈ string.marks) :
    inner = .interpolation := by
  have hall : ∀ entry ∈ string.marks,
      entry.2 = .keep ∨ entry.2 = .close ∨ entry.2 = .enter .interpolation := by
    decide
  rcases hall _ h with heq | heq | heq
  · cases heq
  · cases heq
  · exact Action.enter.inj heq

/-- What has been read of a block: all strings in it are faithful, and if the block is a string
itself, its items can be taken apart. Elsewhere a backslash takes no sign with it. -/
def Sincere (form : Form) (items : List Node) (next? : Option String) : Prop :=
  (∀ item ∈ items, item.AllFaithful) ∧
    (form = .string → ∃ pending, Escape.UpTo pending items ∧ form.Settled pending next?)

/-- Where a mark begins in a string, no escape does. -/
theorem Sincere.upTo {items : List Node} {text : String} {next? : Option String} {action : Action}
    (h : string.Sincere items (some text))
    (hmark : string.markAt? text next? = some (mark, action)) : Escape.UpTo false items := by
  obtain ⟨pending, hread, hsettled⟩ := h.2 rfl
  exact hread.of_mark hsettled hmark

/-- All strings in what is read have the values that their sources stand for. -/
theorem sincere_progress : Progress
    (fun token => token.AllFaithful ∧ ¬token.kind.isBlock = true ∧
      Escape.Lone token.fragments.before)
    Sincere
    fun form node => node.AllFaithful ∧ (form.assembly = .block → node.kind = form.kind) where
  start _ _ := ⟨List.forall_mem_nil _, fun _ => ⟨false, .settled .nil, settled_false _⟩⟩
  text := by
    rintro form items token next? ⟨hitems, hstring⟩ ⟨hfaithful, htext, hlone⟩ hmark
    refine ⟨List.forall_mem_cons.mpr ⟨hfaithful, hitems⟩, ?_⟩
    rintro rfl
    obtain ⟨pending, hread, -⟩ := hstring rfl
    refine ⟨_, hread.push htext hlone hmark, fun hpending => ?_⟩
    rw [← beq_iff_eq.mp (Bool.and_eq_true_iff.mp hpending).2]
    exact hmark
  keep := by
    intro form items token tokens mark next? hitems htokens hmark
    obtain ⟨⟨hfaithful, htext, -⟩, htokens⟩ := List.forall_mem_cons.mp htokens
    constructor
    · refine List.forall_mem_append.mpr ⟨fun item hitem => ?_,
        List.forall_mem_cons.mpr ⟨hfaithful, hitems.1⟩⟩
      exact (htokens item (List.mem_of_mem_take (List.mem_reverse.mp hitem))).1
    · rintro rfl
      have hread := (hitems.upTo hmark).pair htext (fun token h => (htokens token h).2.2) hmark
      exact ⟨false, hread, settled_false _⟩
  enter := by
    rintro form inner items mark text? node token next? hitems hmark ⟨hblock, hkind⟩
    refine ⟨List.forall_mem_cons.mpr ⟨hblock, hitems.1⟩, ?_⟩
    rintro rfl
    obtain rfl := eq_interpolation_of_enter (List.mem_of_find?_eq_some hmark)
    have hcode : node.kind.isBlock = true := (hkind rfl).symm ▸ rfl
    exact ⟨false, (hitems.upTo hmark).code hcode, settled_false _⟩
  close := by
    intro form opener items mark text? location node token hopener hitems hmark hnode
    refine ⟨allFaithful_of_node hopener hitems.1 ?_ hnode, fun hform => kind_of_node hform hnode⟩
    rintro rfl
    exact (hitems.upTo hmark).legible
  finish := by
    intro form opener items location node hopener hends hitems hnode
    refine ⟨allFaithful_of_node hopener hitems.1 ?_ hnode, fun hform => kind_of_node hform hnode⟩
    rintro rfl
    cases hends

end Form

section Tokens
variable {file : String} {position : Text.Position} {chars : List Char}

/-- A token with a special character is that character. -/
theorem lone_of_mem_ofChars :
    ∀ token ∈ Token.ofChars file position chars, Escape.Lone token.fragments.before := by
  intro token htoken c hc hmem
  have hspecial : c ∈ Quote.double.special := hc
  exact Token.eq_singleton_of_mem (Quote.isBreak_of_mem hspecial) (Quote.scan_of_mem hspecial)
    token htoken hmem

theorem kind_ne_string_of_mem_ofChars :
    ∀ token ∈ Token.ofChars file position chars, token.kind ≠ .string := by
  refine Token.forall_mem_ofChars (fun _ => Kind.noConfusion) fun c rest _ => ?_
  cases (Lexeme.scan c rest).1 <;> exact Kind.noConfusion

theorem allFaithful_of_mem_ofChars :
    ∀ token ∈ Token.ofChars file position chars, token.AllFaithful := by
  intro token htoken
  refine Node.allFaithful_of_children
    (fun hkind => absurd hkind (kind_ne_string_of_mem_ofChars token htoken)) ?_
  rw [(Token.bare_of_mem_ofChars token htoken).2]
  exact List.forall_mem_nil _

end Tokens

/-- Every string in a tree that is read has the value that its source stands for, except in single
quotes. -/
theorem allFaithful_of_parse {text file : String} {tree : Node} (h : parse text file = .ok tree) :
    tree.AllFaithful := by
  refine (Form.sincere_progress.parse (fun token htoken hisToken => ?_) h).1
  refine ⟨allFaithful_of_mem_ofChars token htoken, ?_, lone_of_mem_ofChars token htoken⟩
  simp [hisToken.not_isBlock]

end Homoicon
