import Homoicon.Proofs.Reading.Written
import Mathlib.Data.List.Chain

/-! The shape of strings with code in them. -/
namespace Homoicon
open Node (unparseAll)

namespace Escape

/-- What a text between double quotes leaves open: nothing, a backslash, or the letter of an escape
that braces may follow. -/
inductive Mode
  | text
  | slash
  | letter
deriving DecidableEq

def Mode.next (mode : Mode) (c : Char) : Mode :=
  match mode with
  | slash => if c = 'u' ∨ c = 'U' then letter else text
  | text | letter => if c = '\\' then slash else text

def mode (text : List Char) : Mode := text.foldl Mode.next .text

/-- Whether there is code in a text between double quotes: a brace that belongs to no escape. -/
def Interpolates (body : List Char) : Prop :=
  ∃ front back, body = front ++ '\x7b' :: back ∧ mode front = .text

variable {text front back digits value : List Char} {c : Char}

instance : Decidable (Interpolates text) :=
  decidable_of_iff
    (∃ i < text.length, text[i]? = some '\x7b' ∧ mode (text.take i) = .text) <| by
  constructor
  · rintro ⟨i, -, hbrace, hmode⟩
    obtain ⟨hi, hbrace⟩ := List.getElem?_eq_some_iff.mp hbrace
    refine ⟨text.take i, text.drop (i + 1), ?_, hmode⟩
    rw [← hbrace, List.getElem_cons_drop, List.take_append_drop]
  · rintro ⟨front, back, rfl, hmode⟩
    exact ⟨front.length, by simp, by simp, by rwa [List.take_left]⟩

theorem mode_append (h : mode text = .text) (other : List Char) :
    mode (text ++ other) = mode other := by
  unfold mode at h ⊢
  rw [List.foldl_append, h]

theorem mode_concat_brace (text : List Char) : mode (text ++ ['\x7d']) = .text := by
  unfold mode
  rw [List.foldl_append]
  cases text.foldl Mode.next .text <;> rfl

theorem mode_singleton (hc : c ∉ special) : mode [c] = .text := by
  have hslash : c ≠ '\\' := by
    rintro rfl
    exact hc (.head _)
  exact if_neg hslash

theorem mode_of_isHexDigit (h : ∀ d ∈ digits, Text.isHexDigit d = true) : mode digits = .text := by
  induction digits with
  | nil => rfl
  | cons d digits ih =>
    obtain ⟨hd, hdigits⟩ := List.forall_mem_cons.mp h
    have hplain : d ∉ special := by
      intro hspecial
      have hother : Text.isHexDigit d = false :=
        Text.of_mem (P := fun d => Text.isHexDigit d = false) (by decide) hspecial
      cases hother.symm.trans hd
    exact (mode_append (mode_singleton hplain) digits).trans (ih hdigits)

/-- An escape is over where it ends. -/
theorem Stands.mode_eq (h : Stands text c) : mode ('\\' :: text) = .text := by
  cases h with
  | sign h =>
    have hletter : ¬(c = 'u' ∨ c = 'U') :=
      Text.of_mem (P := fun c => ¬(c = 'u' ∨ c = 'U')) (by decide) h
    exact if_neg hletter
  | @control letter c h =>
    have hletter : ¬(letter = 'u' ∨ letter = 'U') := by
      rintro (rfl | rfl) <;> cases h
    exact if_neg hletter
  | @fixed letter c digits hcount hdigits h =>
    have hmode := mode_of_isHexDigit hdigits
    rcases hcount with ⟨rfl, -⟩ | ⟨rfl, hcount⟩
    · exact hmode
    · cases digits with
      | nil => cases hcount
      | cons d digits => exact hmode
  | @braced letter c digits hletter hne hdigits h =>
    exact mode_concat_brace ('\\' :: letter :: '\x7b' :: digits)

/-- A brace in an escape is that of a code point, or stands for itself. -/
theorem Stands.foldl_ne (h : Stands (front ++ '\x7b' :: back) c) :
    front.foldl Mode.next .slash ≠ .text := by
  generalize htext : front ++ '\x7b' :: back = text at h
  cases front with
  | nil => exact nofun
  | cons letter front =>
    cases h with
    | sign h => simp at htext
    | control h => simp at htext
    | fixed hcount hdigits h =>
      have hbrace := hdigits '\x7b' ((List.cons.inj htext).2 ▸ by simp)
      cases hbrace
    | @braced _ c digits hletter hne hdigits h =>
      obtain ⟨rfl, hrest⟩ := List.cons.inj htext
      cases front with
      | nil =>
        have hnext : Mode.slash.next letter = .letter := if_pos hletter
        rw [List.foldl_cons, hnext]
        exact nofun
      | cons brace front =>
        have hmem : '\x7b' ∈ digits ++ ['\x7d'] := by
          rw [← (List.cons.inj hrest).2]
          exact List.mem_append_right _ (.head _)
        rcases List.mem_append.mp hmem with hmem | hmem
        · cases hdigits _ hmem
        · simp at hmem

theorem Denotes.mode_eq (h : Denotes text value) : mode text = .text := by
  induction h with
  | nil => rfl
  | @plain c text value hc h ih => exact (mode_append (mode_singleton hc) text).trans ih
  | @escape c escape text value hstands h ih =>
    exact (mode_append hstands.mode_eq text).trans ih

/-- A text that stands for something does not begin with a double quote. -/
theorem Denotes.head?_ne (h : Denotes text value) : text.head? ≠ some '"' := by
  intro hhead
  cases h with
  | nil => cases hhead
  | plain hc h =>
    rw [Option.some.inj hhead] at hc
    exact hc (by decide)
  | escape hstands h => cases hhead

/-- A text that stands for something has no code in it. -/
theorem Denotes.not_interpolates (h : Denotes text value) : ¬Interpolates text := by
  rintro ⟨front, back, htext, hmode⟩
  induction h generalizing front with
  | nil => simp at htext
  | @plain c text value hc h ih =>
    cases front with
    | nil =>
      obtain ⟨rfl, -⟩ := List.cons.inj htext
      exact hc (by decide)
    | cons d front =>
      obtain ⟨rfl, hrest⟩ := List.cons.inj htext
      exact ih front hrest ((mode_append (mode_singleton hc) front).symm.trans hmode)
  | @escape c escape text value hstands h ih =>
    cases front with
    | nil => simp at htext
    | cons d front =>
      obtain ⟨rfl, hrest⟩ := List.cons.inj htext
      -- the brace comes after the escape or is a part of it
      rcases List.append_eq_append_iff.mp hrest with ⟨rest, rfl, hback⟩ | ⟨rest, rfl, hback⟩
      · exact ih rest hback ((mode_append hstands.mode_eq rest).symm.trans hmode)
      · cases rest with
        | nil => exact ih [] hback.symm rfl
        | cons d rest =>
          obtain ⟨rfl, -⟩ := List.cons.inj hback
          exact hstands.foldl_ne hmode

end Escape

namespace Node

def IsBraced (node : Node) : Prop :=
  ∃ items location, node = .block .roundBlock items "\x7b" "\x7d" location

/-- A string between double quotes in which code comes between texts. Texts are not empty and do not
follow each other. -/
structure Interpolated (node : Node) : Prop where
  fragments : node.fragments = { before := "\"", after := "\"" }
  children : ∀ child ∈ node.children, child.IsSegment ∨ child.IsBraced
  code : ∃ child ∈ node.children, child.IsBraced
  apart : node.children.IsChain fun first second =>
    ¬(first.kind = .string ∧ second.kind = .string)
  nonempty : ∀ child ∈ node.children, child.kind = .string → child.unparse ≠ ""

def IsQuoted (node : Node) : Prop :=
  ∃ value raw location, node = .string value raw "\"" location

def Shaped (node : Node) : Prop :=
  (node.kind = .stringBlock → node.Interpolated) ∧
    (node.fragments.before.toList.head? = some '"' →
      node.kind = .stringBlock ∨ node.IsQuoted ∨ node.IsSegment)

def AllShaped (tree : Node) : Prop :=
  ∀ node front back, tree.Occurs node front back → node.Shaped

variable {node child : Node}

theorem allShaped_of_children (hnode : node.Shaped)
    (hchildren : ∀ child ∈ node.children, child.AllShaped) : node.AllShaped :=
  fun _ _ _ h => forall_occurs hnode hchildren h

theorem allShaped_string (value raw quote : String) (location : Location)
    (h : quote = "\"" ∨ quote = "'" ∨ quote = "") :
    (string value raw quote location).AllShaped := by
  refine allShaped_of_children ⟨nofun, fun hhead => ?_⟩ (List.forall_mem_nil _)
  rcases h with rfl | rfl | rfl
  · exact .inr (.inl ⟨_, _, _, rfl⟩)
  · change ("'" ++ raw).toList.head? = some '"' at hhead
    rw [String.toList_append] at hhead
    cases hhead
  · exact .inr (.inr ⟨_, _, _, rfl⟩)

end Node

namespace Piece
variable {fallback : Location} {segment : Segment} {pieces : List Piece}

/-- Texts of a string are put together unless code comes between them. -/
theorem isChain_gather (hcode : ∀ block, code block ∈ pieces → block.kind ≠ .string) :
    ((gather fallback segment pieces).1 ++
        (gather fallback segment pieces).2.nodes fallback).IsChain
      fun first second => ¬(first.kind = .string ∧ second.kind = .string) := by
  fun_induction gather fallback segment pieces with
  | case1 segment =>
    unfold Segment.nodes
    split
    · exact List.isChain_nil
    · exact List.isChain_singleton _
  | case2 segment value raw location pieces ih => exact ih fun block h => hcode block (.tail _ h)
  | case3 segment block pieces nodes last hgather ih =>
    rw [hgather] at ih
    have hblock := hcode block (.head _)
    -- code is no text, so it may have any neighbours
    have hlater : (block :: (nodes ++ last.nodes fallback)).IsChain
        fun first second => ¬(first.kind = .string ∧ second.kind = .string) :=
      List.isChain_cons.mpr
        ⟨fun _ _ h => hblock h.1, ih fun block h => hcode block (.tail _ h)⟩
    rw [List.append_assoc, List.cons_append]
    unfold Segment.nodes at hlater ⊢
    split
    · exact hlater
    · exact List.isChain_cons_cons.mpr ⟨fun h => hblock h.2, hlater⟩

/-- What ends in a block of code holds one. -/
theorem exists_code_of_gather (h : (gather fallback segment pieces).1 ≠ []) :
    ∃ block, code block ∈ pieces ∧ block ∈ (gather fallback segment pieces).1 := by
  fun_induction gather fallback segment pieces with
  | case1 segment => exact absurd rfl h
  | case2 segment value raw location pieces ih =>
    obtain ⟨block, hpiece, hblock⟩ := ih h
    exact ⟨block, .tail _ hpiece, hblock⟩
  | case3 segment block pieces nodes last hgather ih =>
    exact ⟨block, .head _, List.mem_append_right _ (.head _)⟩

end Piece

/-- A string is of one text, or of texts and code, if the blocks in it are code between braces. -/
theorem Assembly.allShaped_of_string {items : List Node} {location : Location} {node : Node}
    (hitems : ∀ item ∈ items, item.kind.isBlock = true → item.IsBraced ∧ item.AllShaped)
    (h : string items "\"" location = .ok node) : node.AllShaped := by
  obtain ⟨pieces, hreads, hnode⟩ := string_cases h
  have hcode : ∀ block, Piece.code block ∈ pieces → block.IsBraced ∧ block.AllShaped := by
    intro block hblock
    obtain ⟨hitem, hkind⟩ := hreads.mem hblock
    exact hitems block hitem hkind
  rcases hnode with ⟨-, rfl⟩ | ⟨hsome, rfl⟩
  · exact Node.allShaped_string _ _ _ _ (.inl rfl)
  · refine Node.allShaped_of_children ⟨fun _ => ⟨rfl, ?_, ?_, ?_, ?_⟩, fun _ => .inl rfl⟩ ?_
    · intro child hchild
      exact (Piece.mem_gather hchild).symm.imp And.left fun hblock => (hcode child hblock).1
    · obtain ⟨block, hpiece, hblock⟩ := Piece.exists_code_of_gather hsome
      exact ⟨block, List.mem_append_left _ hblock, (hcode block hpiece).1⟩
    · refine Piece.isChain_gather fun block hblock => ?_
      obtain ⟨_, _, rfl⟩ := (hcode block hblock).1
      exact nofun
    · intro child hchild hkind
      rcases Piece.mem_gather hchild with hblock | ⟨-, hne⟩
      · obtain ⟨_, _, rfl⟩ := (hcode child hblock).1
        cases hkind
      · exact hne
    · intro child hchild
      rcases Piece.mem_gather hchild with hblock | ⟨⟨value, raw, location, rfl⟩, -⟩
      · exact (hcode child hblock).2
      · exact Node.allShaped_string _ _ _ _ (.inr (.inr rfl))

namespace Form
variable {form : Form} {opener : String}

/-- A double quote opens strings only. -/
theorem EnteredBy.eq_cons (h : form.EnteredBy opener) (hform : form ≠ .string) :
    form = .toplevel ∧ opener = "" ∨ ∃ c rest, opener.toList = c :: rest ∧ c ≠ '"' := by
  rcases h with htop | ⟨outer, mark, hmark, rfl⟩
  · exact .inl htop
  · have hall : ∀ entry ∈ outer.marks,
        entry.2 = .close ∨ entry.2 = .enter .string ∨ entry.1.first ≠ '"' := by
      cases outer <;> decide
    have hfirst : mark.first ≠ '"' := by
      rcases hall _ hmark with heq | heq | hfirst
      · cases heq
      · cases heq
        exact absurd rfl hform
      · exact hfirst
    refine .inr ⟨mark.first, mark.chars.tail, ?_, hfirst⟩
    unfold Mark.text
    rw [String.toList_ofList]
    cases mark <;> rfl

/-- What stands between the braces in a string is written with them. -/
theorem isBraced_of_interpolation {items : List Node} {closer : String} {location : Location}
    {node : Node} (hopener : interpolation.EnteredBy opener)
    (hcloser : interpolation.ClosedBy closer)
    (h : interpolation.node items opener closer location = .ok node) : node.IsBraced := by
  have hopens : opener = "\x7b" := by
    rcases hopener with ⟨heq, -⟩ | ⟨outer, mark, hmark, rfl⟩
    · cases heq
    · have hall : ∀ entry ∈ outer.marks,
          entry.2 = .enter .interpolation → entry.1 = .one '\x7b' := by
        cases outer <;> decide
      have hmark : mark = .one '\x7b' := hall _ hmark rfl
      rw [hmark]
      rfl
  have hcloses : closer = "\x7d" := by
    rcases hcloser with ⟨hends, -⟩ | ⟨mark, hmark, rfl⟩
    · cases hends
    · have hall : ∀ entry ∈ interpolation.marks,
          entry.2 = .close → entry.1 = .one '\x7d' := by
        decide
      have hmark : mark = .one '\x7d' := hall _ hmark rfl
      rw [hmark]
      rfl
  cases h
  rw [hopens, hcloses]
  exact ⟨_, _, rfl⟩

/-- What stands in a string is tokens and code between braces, and what stands in code is shaped. -/
def Keeps (form : Form) (item : Node) : Prop :=
  (form = .string → item.kind.isBlock = true → item.IsBraced ∧ item.AllShaped) ∧
    (form.assembly = .block → item.AllShaped)

/-- What a token is here: no block, with nothing in it, and a quote that it begins with is all of
it. -/
structure IsPlain (token : Node) : Prop where
  not_isBlock : token.kind.isBlock = false
  children : token.children = []
  lone : token.fragments.before.toList.head? = some '"' → token.fragments.before = "\""

theorem keeps_of_markAt? {token : Node} {next? : Option String} (htoken : IsPlain token)
    (hmark : form.markAt? token.fragments.before next? = none) : form.Keeps token := by
  refine ⟨fun _ hblock => by simp [htoken.not_isBlock] at hblock, fun hform => ?_⟩
  refine Node.allShaped_of_children ⟨fun hkind => ?_, fun hhead => ?_⟩ ?_
  · have hblock := htoken.not_isBlock
    rw [hkind] at hblock
    cases hblock
  · have hquote : ((.one '"' : Mark), Action.enter .string) ∈ form.marks := by
      cases form <;> first | decide | cases hform
    have hother := List.find?_eq_none.mp hmark _ hquote
    exact absurd (beq_iff_eq.mpr (htoken.lone hhead)) hother
  · rw [htoken.children]
    exact List.forall_mem_nil _

theorem keeps_of_keep {mark : Mark} {token : Node} (htoken : IsPlain token)
    (hmark : (mark, .keep) ∈ form.marks) : form.Keeps token := by
  refine ⟨fun _ hblock => by simp [htoken.not_isBlock] at hblock, fun hform => ?_⟩
  have hall : form.assembly = .block → ∀ entry ∈ form.marks, entry.2 ≠ .keep := by
    cases form <;> decide
  exact absurd rfl (hall hform _ hmark)

/-- A closed block's node is shaped if what stands in it is as it should be. -/
theorem allShaped_of_node {items : List Node} {closer : String} {location : Location} {node : Node}
    (hopener : form.EnteredBy opener) (hitems : ∀ item ∈ items, form.Keeps item)
    (h : form.node items opener closer location = .ok node) : node.AllShaped := by
  cases form with
  | string =>
    rw [hopener.openedBy.1 rfl] at h
    refine Assembly.allShaped_of_string (fun item hitem => ?_) h
    exact (hitems item (List.mem_reverse.mp hitem)).1 rfl
  | rawString =>
    rw [hopener.openedBy.2 rfl] at h
    cases h
    exact Node.allShaped_string _ _ _ _ (.inr (.inl rfl))
  | comment | lineComment =>
    cases h
    refine Node.allShaped_of_children ⟨nofun, fun hhead => ?_⟩ (List.forall_mem_nil _)
    rcases hopener.eq_cons nofun with ⟨htop, -⟩ | ⟨c, rest, hopener, hc⟩
    · cases htop
    · change (opener ++ unparseAll items.reverse ++ closer).toList.head? = some '"' at hhead
      rw [String.toList_append, String.toList_append, hopener] at hhead
      exact absurd (Option.some.inj hhead) hc
  | toplevel | round | square | curly | interpolation =>
    cases h
    refine Node.allShaped_of_children ⟨nofun, fun hhead => ?_⟩ fun item hitem =>
      (hitems item (List.mem_reverse.mp hitem)).2 rfl
    change opener.toList.head? = some '"' at hhead
    rcases hopener.eq_cons nofun with ⟨-, rfl⟩ | ⟨c, rest, hopener, hc⟩
    · cases hhead
    · rw [hopener] at hhead
      exact absurd (Option.some.inj hhead) hc

theorem keeps_invariant : Invariant IsPlain Keeps
    fun form node => node.AllShaped ∧ (form = .interpolation → node.IsBraced) := by
  refine ⟨keeps_of_markAt?, keeps_of_keep, ?_, ?_⟩
  · intro form inner mark node hmark hnode
    refine ⟨?_, fun _ => hnode.1⟩
    rintro rfl -
    exact ⟨hnode.2 (eq_interpolation_of_enter hmark), hnode.1⟩
  · intro form opener closer location items node hopener hcloser hitems h
    refine ⟨allShaped_of_node hopener hitems h, ?_⟩
    rintro rfl
    exact isBraced_of_interpolation hopener hcloser h

end Form

/-- All strings in a tree that is read are of one text, or of texts and code. -/
theorem allShaped_of_parse {text file : String} {tree : Node} (h : parse text file = .ok tree) :
    tree.AllShaped := by
  refine (Form.keeps_invariant.parse (fun token htoken hisToken => ?_) h).1
  refine ⟨hisToken.not_isBlock, (Token.bare_of_mem_ofChars token htoken).2, fun hhead => ?_⟩
  exact lone_of_mem_ofChars token htoken '"' (by decide) (List.mem_of_mem_head? hhead)

namespace Node
variable {tree node : Node} {nodes : List Node} {front back : String}

theorem AllFaithful.of_occurs (h : tree.AllFaithful) (hnode : tree.Occurs node front back) :
    node.AllFaithful :=
  fun inner _ _ hinner => h inner _ _ (hnode.trans hinner)

theorem AllFaithful.denotes {value raw quote : String} {location : Location}
    (h : (string value raw quote location).AllFaithful) (hquote : quote ≠ "'") :
    Escape.Denotes raw.toList value.toList := by
  obtain ⟨other, raw', quote', _, heq, -, hdenotes⟩ := h _ _ _ .root rfl
  obtain ⟨rfl, rfl, rfl⟩ := string_inj heq
  exact hdenotes hquote

/-- Texts and code of a string leave nothing open. -/
theorem mode_unparseAll (hfaithful : ∀ node ∈ nodes, node.AllFaithful)
    (h : ∀ node ∈ nodes, node.IsSegment ∨ node.IsBraced) :
    Escape.mode (unparseAll nodes).toList = .text := by
  induction nodes with
  | nil =>
    rw [unparseAll_nil]
    rfl
  | cons node nodes ih =>
    obtain ⟨hnode, hnodes⟩ := List.forall_mem_cons.mp h
    obtain ⟨hfirst, hrest⟩ := List.forall_mem_cons.mp hfaithful
    have hmode : Escape.mode node.unparse.toList = .text := by
      rcases hnode with ⟨value, raw, location, rfl⟩ | ⟨items, location, rfl⟩
      · rw [unparse_string, String.empty_append, String.append_empty]
        exact (hfirst.denotes (by decide)).mode_eq
      · rw [Assembly.unparse_block (by decide), String.toList_append]
        exact Escape.mode_concat_brace _
    rw [unparseAll_cons, String.toList_append, Escape.mode_append hmode]
    exact ih hrest hnodes

namespace Interpolated

theorem unparse_eq (h : node.Interpolated) (hkind : node.kind = .stringBlock) :
    node.unparse = "\"" ++ unparseAll node.children ++ "\"" := by
  have hjoiner : node.fragments.joiner = "" := congrArg Fragments.joiner h.fragments
  rw [unparse_eq_of_no_joiner hjoiner (hkind ▸ by decide), h.fragments]

/-- Code in a string belongs to no escape. -/
theorem mode_earlier (h : node.Interpolated) (hfaithful : node.AllFaithful)
    {earlier later : List Node} {child : Node}
    (hsplit : node.children = earlier ++ child :: later) :
    Escape.mode (unparseAll earlier).toList = .text := by
  have hmem : ∀ other ∈ earlier, other ∈ node.children := fun other hother =>
    hsplit ▸ List.mem_append_left _ hother
  refine mode_unparseAll (fun other hother => ?_) fun other hother => h.children _ (hmem _ hother)
  obtain ⟨before, after, hchildren⟩ := List.append_of_mem (hmem other hother)
  exact hfaithful.of_occurs (.inside hchildren .root)

theorem interpolates (h : node.Interpolated) (hfaithful : node.AllFaithful) :
    Escape.Interpolates (unparseAll node.children).toList := by
  obtain ⟨child, hchild, items, location, rfl⟩ := h.code
  obtain ⟨earlier, later, hsplit⟩ := List.append_of_mem hchild
  have hblock := @Assembly.unparse_block .roundBlock items "\x7b" "\x7d" location (by decide)
  refine ⟨(unparseAll earlier).toList,
    (unparseAll items).toList ++ '\x7d' :: (unparseAll later).toList, ?_,
    h.mode_earlier hfaithful hsplit⟩
  rw [hsplit, unparseAll_append, unparseAll_cons, hblock]
  simp

end Interpolated
end Node

/-- In a tree that is read, every string block is a string between double quotes: texts, none of
them empty and no two in succession, and blocks of code, at least one, each with braces that belong
to no escape. Whatever else begins with a double quote is one string. The text between the quotes
tells which of the two there is: code is where a brace belongs to no escape. -/
theorem interpolated_of_parse {text file : String} {tree node : Node} {front back : String}
    (h : parse text file = .ok tree) (hnode : tree.Occurs node front back) :
    (node.kind = .stringBlock → node.Interpolated ∧
      ∀ earlier block later, node.children = earlier ++ block :: later →
        block.kind = .roundBlock → Escape.mode (unparseAll earlier).toList = .text) ∧
    (node.fragments.before.toList.head? = some '"' →
      ∃ body, text = front ++ ("\"" ++ body ++ "\"") ++ back ∧
        (Escape.Interpolates body.toList → node.kind = .stringBlock) ∧
        (¬Escape.Interpolates body.toList →
          ∃ value location, node = .string value body "\"" location)) := by
  obtain ⟨hmixed, hquote⟩ := allShaped_of_parse h node front back hnode
  have hfaithful : node.AllFaithful := (allFaithful_of_parse h).of_occurs hnode
  have htext : front ++ node.unparse ++ back = text :=
    hnode.unparse_eq.trans (unparse_of_parseWith Grammar.standard_lossless h)
  refine ⟨fun hkind => ?_, fun hhead => ?_⟩
  · have hshape := hmixed hkind
    exact ⟨hshape, fun earlier block later hsplit _ => hshape.mode_earlier hfaithful hsplit⟩
  · rcases hquote hhead with hkind | ⟨value, raw, location, rfl⟩ | ⟨value, raw, location, rfl⟩
    · have hshape := hmixed hkind
      refine ⟨unparseAll node.children, ?_, fun _ => hkind, fun hnone => ?_⟩
      · rw [← htext, hshape.unparse_eq hkind]
      · exact absurd (hshape.interpolates hfaithful) hnone
    · have hnone := (hfaithful.denotes (by decide)).not_interpolates
      rw [Node.unparse_string] at htext
      exact ⟨raw, htext.symm, fun hcode => absurd hcode hnone, fun _ => ⟨value, location, rfl⟩⟩
    · have hne := (hfaithful.denotes (by decide)).head?_ne
      rw [← String.empty_append (s := raw)] at hne
      exact absurd hhead hne

theorem exists_occurs {text file before : String}
    (h : (parse text file).toOption.map (fun tree =>
      (tree.fragments, tree.children.map (·.fragments.before))) = some ({}, [before])) :
    ∃ tree node, parse text file = .ok tree ∧ tree.Occurs node "" "" ∧
      node.fragments.before = before := by
  cases hparse : parse text file with
  | error e =>
    rw [hparse] at h
    cases h
  | ok tree =>
    rw [hparse] at h
    obtain ⟨hfragments, hchildren⟩ := Prod.mk.inj (Option.some.inj h)
    obtain ⟨node, rest, hnode, hbefore, hrest⟩ := List.map_eq_cons_iff.mp hchildren
    obtain rfl := List.map_eq_nil_iff.mp hrest
    have hoccurs := @Node.Occurs.inside tree node node [] [] _ _ hnode .root
    rw [hfragments] at hoccurs
    exact ⟨tree, node, rfl, hoccurs, hbefore⟩

theorem quoted_inj {body other : String}
    (h : "\"" ++ body ++ "\"" = "" ++ ("\"" ++ other ++ "\"") ++ "") : body = other := by
  rw [← String.toList_inj] at h ⊢
  simpa using h

/-- A string in the code of a string, with escapes of code points in both; and escapes only. -/
theorem interpolated_of_parse_braces :
    (∃ tree node,
      parse ("\"" ++ "\x7b\"\\u\x7b41\x7d\"\x7d\\U\x7b42\x7d" ++ "\"") "main" = .ok tree ∧
      tree.Occurs node "" "" ∧ node.kind = .stringBlock ∧ node.Interpolated) ∧
    ∃ tree node, parse ("\"" ++ "\\u\x7b41\x7d\\\x7b" ++ "\"") "main" = .ok tree ∧
      tree.Occurs node "" "" ∧
      ∃ value location, node = .string value "\\u\x7b41\x7d\\\x7b" "\"" location := by
  constructor
  · obtain ⟨tree, node, h, hnode, hbefore⟩ := @exists_occurs
      ("\"" ++ "\x7b\"\\u\x7b41\x7d\"\x7d\\U\x7b42\x7d" ++ "\"") "main" "\"" (by decide +kernel)
    obtain ⟨hshape, hquote⟩ := interpolated_of_parse h hnode
    obtain ⟨body, htext, hcode, -⟩ := hquote (by rw [hbefore]; rfl)
    obtain rfl := quoted_inj htext
    have hkind := hcode (by decide)
    exact ⟨tree, node, h, hnode, hkind, (hshape hkind).1⟩
  · obtain ⟨tree, node, h, hnode, hbefore⟩ := @exists_occurs
      ("\"" ++ "\\u\x7b41\x7d\\\x7b" ++ "\"") "main" "\"\\u\x7b41\x7d\\\x7b" (by decide +kernel)
    obtain ⟨-, hquote⟩ := interpolated_of_parse h hnode
    obtain ⟨body, htext, -, hplain⟩ := hquote (by rw [hbefore]; rfl)
    obtain rfl := quoted_inj htext
    exact ⟨tree, node, h, hnode, hplain (by decide)⟩

end Homoicon
