import Homoicon.Proofs.Failure
import Homoicon.Proofs.Reading.Tokens

/-! Closed blocks become nodes that still hold their whole text. -/
namespace Homoicon
open Node (unparseAll)

/-- Items of a string, from where a backslash is or is not pending to where one is or is not. No
block of code comes right after a pending backslash; all that is not code is text. -/
def Escapes (pending : Bool) : List Node → Bool → Prop
  | [], last => last = pending
  | item :: items, last =>
    if item.kind.isBlock then pending = false ∧ Escapes false items last
    else item.unparse = item.fragments.before ∧
      Escapes (!pending && item.fragments.before == "\\") items last

namespace Escapes
variable {pending last : Bool} {items others : List Node} {item : Node}

theorem of_code (h : Escapes pending (item :: items) last) (hitem : item.kind.isBlock = true) :
    pending = false ∧ Escapes false items last := by
  unfold Escapes at h
  rwa [if_pos hitem] at h

theorem of_text (h : Escapes pending (item :: items) last) (hitem : ¬item.kind.isBlock = true) :
    item.unparse = item.fragments.before ∧
      Escapes (!pending && item.fragments.before == "\\") items last := by
  unfold Escapes at h
  rwa [if_neg hitem] at h

/-- What follows a backslash is text, and no escape of its own. -/
theorem of_backslash {next : Node} (h : Escapes false (item :: next :: items) last)
    (hitem : ¬item.kind.isBlock = true) (hbefore : item.fragments.before = "\\") :
    item.unparse = "\\" ∧ next.unparse = next.fragments.before ∧ Escapes false items last := by
  obtain ⟨htext, hnext⟩ := h.of_text hitem
  rw [hbefore] at hnext
  have hplain : ¬next.kind.isBlock = true := fun hblock => by cases (hnext.of_code hblock).1
  obtain ⟨hnexttext, hrest⟩ := hnext.of_text hplain
  exact ⟨htext.trans hbefore, hnexttext, hrest⟩

theorem append (h : Escapes pending items last) {final : Bool}
    (hothers : Escapes last others final) : Escapes pending (items ++ others) final := by
  induction items generalizing pending with
  | nil =>
    cases h
    exact hothers
  | cons item items ih =>
    by_cases hblock : item.kind.isBlock = true
    · have hsplit := h.of_code hblock
      rw [List.cons_append, Escapes, if_pos hblock]
      exact ⟨hsplit.1, ih hsplit.2⟩
    · have hsplit := h.of_text hblock
      rw [List.cons_append, Escapes, if_neg hblock]
      exact ⟨hsplit.1, ih hsplit.2⟩

theorem of_append (h : Escapes pending (items ++ others) last) :
    ∃ middle, Escapes pending items middle := by
  induction items generalizing pending with
  | nil => exact ⟨pending, rfl⟩
  | cons item items ih =>
    by_cases hblock : item.kind.isBlock = true
    · have hsplit := h.of_code hblock
      obtain ⟨middle, hmiddle⟩ := ih hsplit.2
      refine ⟨middle, ?_⟩
      rw [Escapes, if_pos hblock]
      exact ⟨hsplit.1, hmiddle⟩
    · have hsplit := h.of_text hblock
      obtain ⟨middle, hmiddle⟩ := ih hsplit.2
      refine ⟨middle, ?_⟩
      rw [Escapes, if_neg hblock]
      exact ⟨hsplit.1, hmiddle⟩

theorem token (h : item.IsToken) (pending : Bool) :
    Escapes pending [item] (!pending && item.fragments.before == "\\") := by
  unfold Escapes
  rw [if_neg (by simp [h.not_isBlock])]
  exact ⟨h.unparse_eq, rfl⟩

theorem code (h : item.kind.isBlock = true) : Escapes false [item] false := by
  unfold Escapes
  rw [if_pos h]
  exact ⟨rfl, rfl⟩

end Escapes

theorem Segment.unparseAll_nodes (segment : Segment) (fallback : Location) :
    unparseAll (segment.nodes fallback) = segment.raw := by
  unfold nodes
  split
  · next hraw => rw [hraw, Node.unparseAll_nil]
  · rw [Node.unparseAll_cons, Node.unparse_string, Node.unparseAll_nil]
    simp

theorem Segment.raw_rest (segment : Segment) : segment.rest.raw = "" := by
  unfold rest
  split
  · assumption
  · rfl

namespace Piece
variable {string : Location} {items : List Node} {pieces : List Piece}

def source : Piece → String
  | literal _ raw _ => raw
  | code block => block.unparse

/-- How pieces of a string come of its items: one of each block and of each token, but for a
backslash, which makes one with all that it takes its meaning from. -/
inductive Reads : List Node → List Piece → Prop
  | nil : Reads [] []
  | code {block : Node} {items : List Node} {pieces : List Piece}
      (hblock : block.kind.isBlock = true) (h : Reads items pieces) :
      Reads (block :: items) (code block :: pieces)
  | text {token : Node} {items : List Node} {pieces : List Piece}
      (htext : ¬token.kind.isBlock = true) (hplain : token.fragments.before ≠ "\\")
      (h : Reads items pieces) :
      Reads (token :: items)
        (literal token.fragments.before token.fragments.before token.location :: pieces)
  | sign {slash sign : Node} {items : List Node} {pieces : List Piece}
      (htext : ¬slash.kind.isBlock = true) (hslash : slash.fragments.before = "\\")
      (hsign : sign.fragments.before ∈ ["'", "\"", "\x7b", "\x7d"]) (h : Reads items pieces) :
      Reads (slash :: sign :: items)
        (literal sign.fragments.before ("\\" ++ sign.fragments.before) slash.location :: pieces)
  | letter {slash letter : Node} {items : List Node} {pieces : List Piece} {chars : List Char}
      (htext : ¬slash.kind.isBlock = true) (hslash : slash.fragments.before = "\\")
      (hchars : Escape.decode letter.fragments.before.toList = .ok chars)
      (h : Reads items pieces) :
      Reads (slash :: letter :: items)
        (literal (String.ofList chars) ("\\" ++ letter.fragments.before) slash.location :: pieces)
  | braced {slash letter block : Node} {items : List Node} {pieces : List Piece} {c : Char}
      (htext : ¬slash.kind.isBlock = true) (hslash : slash.fragments.before = "\\")
      (hletter : letter.fragments.before = "u" ∨ letter.fragments.before = "U")
      (hblock : block.kind.isBlock = true)
      (hc : Escape.decodeBraced block.unparse.toList = .ok c) (h : Reads items pieces) :
      Reads (slash :: letter :: block :: items)
        (literal (String.ofList [c]) ("\\" ++ (letter.fragments.before ++ block.unparse))
          slash.location :: pieces)

theorem escaped_eq_ok {value : Except ParseError.Cause (List Char)} {raw : String}
    {location blamed : Location} {piece : Piece} :
    escaped value raw location blamed = .ok piece ↔
      ∃ chars, value = .ok chars ∧
        literal (String.ofList chars) ("\\" ++ raw) location = piece := by
  cases value <;> simp [escaped]

theorem reads_of_ofItems (h : ofItems string items = .ok pieces) : Reads items pieces := by
  fun_induction ofItems string items generalizing pieces with
  | case1 =>
    cases h
    exact .nil
  | case2 item rest hblock ih =>
    obtain ⟨others, hothers, rfl⟩ := map_eq_ok.mp h
    exact .code hblock (ih hothers)
  | case3 item rest htext hplain ih =>
    obtain ⟨others, hothers, rfl⟩ := map_eq_ok.mp h
    exact .text htext hplain (ih hothers)
  | case4 => cases h
  | case5 =>
    rename_i item htext hslash next rest text hsign ih
    obtain ⟨others, hothers, rfl⟩ := map_eq_ok.mp h
    exact .sign htext (Decidable.of_not_not hslash) hsign (ih hothers)
  | case6 => cases h
  | case7 => cases h
  | case8 =>
    rename_i item htext hslash next text hsign hsymbol hletter block rest hblock ih
    obtain ⟨piece, hpiece, h⟩ := bind_eq_ok.mp h
    obtain ⟨others, hothers, rfl⟩ := map_eq_ok.mp h
    obtain ⟨chars, hchars, rfl⟩ := escaped_eq_ok.mp hpiece
    obtain ⟨c, hc, rfl⟩ := map_eq_ok.mp hchars
    exact .braced htext (Decidable.of_not_not hslash) hletter hblock hc (ih hothers)
  | case9 => cases h
  | case10 =>
    rename_i item htext hslash next rest text hsign hsymbol hletter ih
    obtain ⟨piece, hpiece, h⟩ := bind_eq_ok.mp h
    obtain ⟨others, hothers, rfl⟩ := map_eq_ok.mp h
    obtain ⟨chars, hchars, rfl⟩ := escaped_eq_ok.mp hpiece
    exact .letter htext (Decidable.of_not_not hslash) hchars (ih hothers)

theorem Reads.join_source {last : Bool} (h : Reads items pieces)
    (hitems : Escapes false items last) : String.join (pieces.map source) = unparseAll items := by
  induction h with
  | nil => simp [Node.unparseAll_nil]
  | code hblock h ih =>
    rw [List.map_cons, String.join_cons, Node.unparseAll_cons, ih (hitems.of_code hblock).2]
    rfl
  | text htext hplain h ih =>
    obtain ⟨hsource, hrest⟩ := hitems.of_text htext
    rw [Bool.not_false, Bool.true_and, beq_false_of_ne hplain] at hrest
    rw [List.map_cons, String.join_cons, Node.unparseAll_cons, ih hrest, hsource]
    rfl
  | sign htext hslash _ h ih | letter htext hslash _ h ih =>
    obtain ⟨hitem, hnext, hrest⟩ := hitems.of_backslash htext hslash
    rw [List.map_cons, String.join_cons, ih hrest, Node.unparseAll_cons, Node.unparseAll_cons,
      hitem, hnext, source, String.append_assoc]
  | braced htext hslash _ hblock _ h ih =>
    obtain ⟨hitem, hnext, hblocks⟩ := hitems.of_backslash htext hslash
    rw [List.map_cons, String.join_cons, ih (hblocks.of_code hblock).2, Node.unparseAll_cons,
      Node.unparseAll_cons, Node.unparseAll_cons, hitem, hnext, source, String.append_assoc,
      String.append_assoc]

theorem gather_source (fallback : Location) (segment : Segment) (pieces : List Piece) :
    segment.raw ++ String.join (pieces.map source) =
      unparseAll (gather fallback segment pieces).1 ++ (gather fallback segment pieces).2.raw := by
  fun_induction gather fallback segment pieces with
  | case1 segment => simp [Node.unparseAll_nil]
  | case2 segment value raw location pieces ih =>
    rw [← ih, List.map_cons, String.join_cons, ← String.append_assoc]
    rfl
  | case3 segment block pieces nodes last hgather ih =>
    rw [hgather, Segment.raw_rest, String.empty_append] at ih
    rw [List.map_cons, String.join_cons, Node.unparseAll_append, Node.unparseAll_cons,
      Segment.unparseAll_nodes, source, ih]
    simp only [String.append_assoc]

end Piece

namespace Assembly
variable {kind : Kind} {items : List Node} {opener closer : String} {location : Location}
  {node : Node}

/-- Whether the contents of a closed block are such that its node holds the text of the block. -/
def Holds (kind : Kind) (items : List Node) (opener closer : String) : Assembly → Prop
  | block => kind ≠ .map
  | comment => True
  | raw => closer = opener
  | interpolated => closer = opener ∧ ∃ last, Escapes false items last
  | custom _ => False

theorem unparse_block (hkind : kind ≠ .map) :
    (Node.block kind items opener closer location).unparse =
      opener ++ unparseAll items ++ closer :=
  Node.unparse_eq_of_no_joiner rfl hkind

/-- A string is one text if no code is in it, and otherwise a block of texts and code. -/
theorem string_cases {quote : String} (h : string items quote location = .ok node) :
    ∃ pieces, Piece.Reads items pieces ∧
      ((Piece.gather location {} pieces).1 = [] ∧
          node = .string (Piece.gather location {} pieces).2.value
            (Piece.gather location {} pieces).2.raw quote location ∨
        (Piece.gather location {} pieces).1 ≠ [] ∧
          node = .block .stringBlock ((Piece.gather location {} pieces).1 ++
            (Piece.gather location {} pieces).2.nodes location) quote quote location) := by
  obtain ⟨pieces, hpieces, h⟩ := bind_eq_ok.mp h
  refine ⟨pieces, Piece.reads_of_ofItems hpieces, ?_⟩
  dsimp only at h
  split at h
  · next hempty =>
    cases h
    exact .inl ⟨List.isEmpty_iff.mp hempty, rfl⟩
  · next hcode =>
    cases h
    exact .inr ⟨mt List.isEmpty_iff.mpr hcode, rfl⟩

theorem string_source {last : Bool} (hitems : Escapes false items last)
    (h : string items opener location = .ok node) :
    node.unparse = opener ++ unparseAll items ++ opener := by
  obtain ⟨pieces, hreads, hnode⟩ := string_cases h
  have hsource := Piece.gather_source location {} pieces
  rw [hreads.join_source hitems, String.empty_append] at hsource
  rcases hnode with ⟨hempty, rfl⟩ | ⟨-, rfl⟩
  · rw [hempty, Node.unparseAll_nil, String.empty_append] at hsource
    rw [Node.unparse_string, hsource]
  · have hkind : Kind.stringBlock ≠ .map := by decide
    rw [unparse_block hkind, Node.unparseAll_append, Segment.unparseAll_nodes, hsource]

/-- A closed block's node is written as the block was. -/
theorem assemble_source {assembly : Assembly} (hholds : assembly.Holds kind items opener closer)
    (h : assembly.assemble kind items opener closer location = .ok node) :
    node.unparse = opener ++ unparseAll items ++ closer := by
  cases assembly with
  | block =>
    cases h
    exact unparse_block hholds
  | comment =>
    cases h
    exact Node.unparse_symbol _ _ _ (by decide)
  | raw =>
    cases h
    rw [Node.unparse_string, show closer = opener from hholds]
  | interpolated =>
    obtain ⟨rfl, last, hitems⟩ := hholds
    exact string_source hitems h
  | custom finish => exact absurd hholds id

end Assembly
end Homoicon
