import Homoicon.Proofs.Failure
import Homoicon.Proofs.Reading.Pieces
import Homoicon.Proofs.Reading.Refinement

/-! What is read does not depend on where it stands: tokens at other places make up the same nodes
at other places, or the same error at another place. -/
namespace Homoicon

variable {f : Location → Location}

namespace Node

def relocate (f : Location → Location) (node : Node) : Node :=
  node.fold fun node children => { node with children, location := f node.location }

theorem relocate_eq (f : Location → Location) (node : Node) :
    node.relocate f =
      { node with children := node.children.map (relocate f), location := f node.location } :=
  fold_eq _ node

@[simp] theorem kind_relocate (node : Node) : (node.relocate f).kind = node.kind := by
  rw [relocate_eq]

@[simp] theorem children_relocate (node : Node) :
    (node.relocate f).children = node.children.map (relocate f) := by
  rw [relocate_eq]

@[simp] theorem fragments_relocate (node : Node) :
    (node.relocate f).fragments = node.fragments := by
  rw [relocate_eq]

@[simp] theorem location_relocate (node : Node) : (node.relocate f).location = f node.location := by
  rw [relocate_eq]

@[simp] theorem hash_relocate (node : Node) : (node.relocate f).hash = node.hash := by
  rw [relocate_eq]

theorem structuralHash_relocate (kind : Kind) (children : List Node) (value : Value)
    (valueInHash : Bool) :
    structuralHash kind (children.map (relocate f)) value valueInHash =
      structuralHash kind children value valueInHash := by
  unfold structuralHash
  rw [List.foldlM_map]
  simp only [hash_relocate]

/-- Where a node is does not count when it is built. -/
theorem relocate_new (kind : Kind) (children : List Node) (value : Value) (fragments : Fragments)
    (location : Location) :
    (new kind children value fragments location).relocate f =
      new kind (children.map (relocate f)) value fragments (f location) := by
  rw [relocate_eq]
  unfold new build
  rw [structuralHash_relocate]

theorem relocate_string (value raw quote : String) (location : Location) :
    (string value raw quote location).relocate f = string value raw quote (f location) :=
  relocate_new .string [] ..

theorem relocate_space (text : String) (location : Location) :
    (space text location).relocate f = space text (f location) :=
  relocate_new .spaceSymbol [] ..

mutual

theorem unparse_relocate (node : Node) : (node.relocate f).unparse = node.unparse := by
  cases node with
  | mk kind children value fragments location hash valueInHash =>
    have hchildren := map_unparse_relocate children
    rw [unparse_eq, children_relocate, hchildren, unparse_eq, relocate_eq]
    rfl

theorem map_unparse_relocate (nodes : List Node) :
    (nodes.map (relocate f)).map unparse = nodes.map unparse := by
  cases nodes with
  | nil => rfl
  | cons node nodes =>
    rw [List.map_cons, List.map_cons, unparse_relocate node, map_unparse_relocate nodes,
      List.map_cons]

end

theorem unparseAll_relocate (nodes : List Node) :
    unparseAll (nodes.map (relocate f)) = unparseAll nodes :=
  congrArg String.join (map_unparse_relocate nodes)

end Node

namespace ParseError

def Cause.relocate (f : Location → Location) : Cause → Cause
  | expectedBrace letter string => expectedBrace letter (f string)
  | cause => cause

def relocate (f : Location → Location) (e : ParseError) : ParseError :=
  ⟨e.cause.relocate f, f e.location⟩

end ParseError

/-- The same result at other places, if there is one, or else the same error at other places. -/
def relocated {α β : Type} (f : Location → Location) (g : α → β) (x : Except ParseError α) :
    Except ParseError β :=
  g <$> x.mapError (ParseError.relocate f)

section Relocated
variable {α β γ δ : Type} {g : α → β} {g' : γ → δ} {x : Except ParseError α}

theorem relocated_bind {k : α → Except ParseError γ} {k' : β → Except ParseError δ}
    (h : ∀ a, x = .ok a → k' (g a) = relocated f g' (k a)) :
    relocated f g x >>= k' = relocated f g' (x >>= k) := by
  cases x with
  | error e => rfl
  | ok a => exact h a rfl

theorem map_relocated (k : β → γ) : k <$> relocated f g x = relocated f (fun a => k (g a)) x := by
  cases x <;> rfl

theorem relocated_map {k : α → γ} {k' : β → δ} (h : ∀ a, k' (g a) = g' (k a)) :
    k' <$> relocated f g x = relocated f g' (k <$> x) := by
  cases x with
  | error e => rfl
  | ok a => exact congrArg Except.ok (h a)

end Relocated

namespace Escape

/-- No place has a part in what is wrong with an escape. -/
def Placeless {α : Type} (x : Except ParseError.Cause α) : Prop :=
  ∀ cause (f : Location → Location), x = .error cause → cause.relocate f = cause

theorem placeless_codePoint (digits : List Char) : Placeless (codePoint digits) := by
  intro cause f h
  unfold codePoint at h
  dsimp only at h
  split at h
  · cases h
  · cases h
    rfl

theorem Placeless.map {α β : Type} {x : Except ParseError.Cause α} (hx : Placeless x) (g : α → β) :
    Placeless (x.map g) := by
  intro cause f h
  cases x with
  | error cause' =>
    cases h
    exact hx cause f rfl
  | ok a => cases h

theorem placeless_decode (chars : List Char) : Placeless (decode chars) := by
  unfold decode
  split
  · rintro cause f ⟨⟩
    rfl
  · split
    · split
      · rintro cause f ⟨⟩
        rfl
      · exact (placeless_codePoint _).map _
    · split
      · rintro cause f ⟨⟩
      · rintro cause f ⟨⟩
        rfl

theorem placeless_decodeBraced (chars : List Char) : Placeless (decodeBraced chars) := by
  unfold decodeBraced
  split
  · split
    · exact placeless_codePoint _
    · rintro cause f ⟨⟩
      rfl
  · rintro cause f ⟨⟩
    rfl

end Escape

namespace Piece

def relocate (f : Location → Location) : Piece → Piece
  | literal value raw location => literal value raw (f location)
  | code block => code (block.relocate f)

theorem escaped_relocate {value : Except ParseError.Cause (List Char)}
    (hvalue : Escape.Placeless value) (raw : String) (location blamed : Location) :
    escaped value raw (f location) (f blamed) =
      relocated f (relocate f) (escaped value raw location blamed) := by
  cases value with
  | error cause =>
    have hcause := hvalue cause f rfl
    unfold relocated escaped
    change Except.error _ = Except.error _
    unfold ParseError.relocate
    rw [hcause]
  | ok chars => rfl

theorem ofItems_relocate (string : Location) (items : List Node) :
    ofItems (f string) (items.map (Node.relocate f)) =
      relocated f (List.map (relocate f)) (ofItems string items) := by
  fun_induction ofItems string items with
  | case1 => rfl
  | case2 item rest hblock ih =>
    rw [List.map_cons, ofItems_code (by rwa [Node.kind_relocate]), ih]
    exact relocated_map fun _ => rfl
  | case3 item rest hblock hplain ih =>
    rw [List.map_cons, ofItems_plain (by rwa [Node.kind_relocate])
      (by rwa [Node.fragments_relocate]), ih, Node.location_relocate, Node.fragments_relocate]
    exact relocated_map fun _ => rfl
  | case4 item hblock hslash =>
    rw [List.map_singleton, ofItems_last (by rwa [Node.kind_relocate])
      (by rwa [Node.fragments_relocate]), Node.location_relocate]
    rfl
  | case5 item hblock hslash next rest text hsign ih =>
    rw [List.map_cons, List.map_cons, ofItems_sign (by rwa [Node.kind_relocate])
      (by rwa [Node.fragments_relocate]) (by rwa [Node.fragments_relocate]), ih,
      Node.location_relocate, Node.fragments_relocate]
    exact relocated_map fun _ => rfl
  | case6 item hblock hslash next rest text hsign hsymbol =>
    rw [List.map_cons, List.map_cons, ofItems_not_symbol (by rwa [Node.kind_relocate])
      (by rwa [Node.fragments_relocate]) (by rwa [Node.fragments_relocate])
      (by rwa [Node.kind_relocate]), Node.location_relocate]
    rfl
  | case7 item hblock hslash next text hsign hsymbol hletter =>
    rw [List.map_cons, List.map_singleton, ofItems_unbraced_end (by rwa [Node.kind_relocate])
      (by rwa [Node.fragments_relocate]) (by rwa [Node.fragments_relocate])
      (by rwa [Node.kind_relocate]) (by rwa [Node.fragments_relocate]), Node.location_relocate,
      Node.fragments_relocate]
    rfl
  | case8 item hblock hslash next text hsign hsymbol hletter block rest hcode ih =>
    rw [List.map_cons, List.map_cons, List.map_cons, ofItems_braced (by rwa [Node.kind_relocate])
      (by rwa [Node.fragments_relocate]) (by rwa [Node.fragments_relocate])
      (by rwa [Node.kind_relocate]) (by rwa [Node.fragments_relocate])
      (by rwa [Node.kind_relocate]), ih, Node.unparse_relocate, Node.location_relocate,
      Node.location_relocate, Node.fragments_relocate,
      escaped_relocate ((Escape.placeless_decodeBraced _).map _)]
    exact relocated_bind fun piece _ => relocated_map fun _ => rfl
  | case9 item hblock hslash next text hsign hsymbol hletter block rest hcode =>
    rw [List.map_cons, List.map_cons, List.map_cons, ofItems_unbraced (by rwa [Node.kind_relocate])
      (by rwa [Node.fragments_relocate]) (by rwa [Node.fragments_relocate])
      (by rwa [Node.kind_relocate]) (by rwa [Node.fragments_relocate])
      (by rwa [Node.kind_relocate]), Node.location_relocate, Node.fragments_relocate]
    rfl
  | case10 item hblock hslash next rest text hsign hsymbol hletter ih =>
    rw [List.map_cons, List.map_cons, ofItems_letter (by rwa [Node.kind_relocate])
      (by rwa [Node.fragments_relocate]) (by rwa [Node.fragments_relocate])
      (by rwa [Node.kind_relocate]) (by rwa [Node.fragments_relocate]), ih, Node.location_relocate,
      Node.location_relocate, Node.fragments_relocate,
      escaped_relocate (Escape.placeless_decode _)]
    exact relocated_bind fun piece _ => relocated_map fun _ => rfl

end Piece

namespace Segment

def relocate (f : Location → Location) (s : Segment) : Segment :=
  { s with location := s.location.map f }

theorem relocate_push (s : Segment) (value raw : String) (location : Location) :
    (s.relocate f).push value raw (f location) = (s.push value raw location).relocate f := by
  unfold push relocate
  rw [Option.map_or]
  rfl

theorem relocate_nodes (s : Segment) (fallback : Location) :
    (s.relocate f).nodes (f fallback) = (s.nodes fallback).map (Node.relocate f) := by
  unfold nodes relocate
  dsimp only
  split
  · rfl
  · rw [Option.getD_map, List.map_singleton, Node.relocate_string]

theorem relocate_rest (s : Segment) : (s.relocate f).rest = s.rest.relocate f := by
  unfold rest
  split <;> split
  · rfl
  · contradiction
  · contradiction
  · rfl

end Segment

theorem Piece.gather_relocate (fallback : Location) (segment : Segment) (pieces : List Piece) :
    gather (f fallback) (segment.relocate f) (pieces.map (relocate f)) =
      ((gather fallback segment pieces).1.map (Node.relocate f),
        (gather fallback segment pieces).2.relocate f) := by
  induction pieces generalizing segment with
  | nil => rfl
  | cons piece pieces ih =>
    cases piece with
    | literal value raw location =>
      rw [List.map_cons, relocate, gather, Segment.relocate_push, ih]
      rfl
    | code block =>
      rw [List.map_cons, relocate, gather, Segment.relocate_rest, ih, Segment.relocate_nodes,
        gather, List.map_append]
      rfl

/-- The node of a closed block is made of its items alone, wherever they stand, unless a rule's own
function makes it. -/
theorem Assembly.assemble_relocate {assembly : Assembly} (hcustom : assembly.isCustom = false)
    (kind : Kind) (items : List Node) (opener closer : String) (location : Location) :
    assembly.assemble kind (items.map (Node.relocate f)) opener closer (f location) =
      relocated f (Node.relocate f) (assembly.assemble kind items opener closer location) := by
  cases assembly with
  | block => exact congrArg Except.ok (Node.relocate_new ..).symm
  | comment =>
    unfold assemble
    rw [Node.unparseAll_relocate]
    exact congrArg Except.ok (Node.relocate_space ..).symm
  | raw =>
    unfold assemble
    rw [Node.unparseAll_relocate]
    exact congrArg Except.ok (Node.relocate_string ..).symm
  | interpolated =>
    unfold assemble string
    rw [Piece.ofItems_relocate]
    refine relocated_bind fun pieces _ => ?_
    have hgather := Piece.gather_relocate (f := f) location {} pieces
    change Piece.gather (f location) {} _ = _ at hgather
    rw [hgather]
    dsimp only
    rw [List.isEmpty_map]
    split
    · exact congrArg Except.ok (Node.relocate_string ..).symm
    · rw [Segment.relocate_nodes, ← List.map_append]
      exact congrArg Except.ok (Node.relocate_new ..).symm
  | custom finish => cases hcustom

namespace OpenBlock

def relocate (f : Location → Location) (b : OpenBlock) : OpenBlock :=
  { b with location := f b.location, items := b.items.map (Node.relocate f) }

theorem close_relocate {b : OpenBlock} (hb : b.rule.assembly.isCustom = false) (items : List Node)
    (closer : String) :
    (b.relocate f).close (items.map (Node.relocate f)) closer =
      relocated f (Node.relocate f) (b.close items closer) :=
  Assembly.assemble_relocate hb ..

end OpenBlock

namespace Reading

def relocate (f : Location → Location) : Reading → Reading
  | inside current outer => inside (current.relocate f) (outer.map (OpenBlock.relocate f))
  | finished tree => finished (tree.relocate f)

theorem giveBack_relocate (node : Node) (outer : List OpenBlock) :
    giveBack (node.relocate f) (outer.map (OpenBlock.relocate f)) =
      (giveBack node outer).relocate f := by
  cases outer <;> rfl

theorem enter_relocate (g : Grammar) (b : OpenBlock) (outer : List OpenBlock)
    (trigger : Watch String) (spanned : Nat) (token : Node) :
    enter g (b.relocate f) (outer.map (OpenBlock.relocate f)) trigger spanned (token.relocate f) =
      relocated f (relocate f) (enter g b outer trigger spanned token) := by
  have hfirst : (((b.relocate f).items.take spanned).getLast?.getD (token.relocate f)).location =
      f ((b.items.take spanned).getLast?.getD token).location := by
    unfold OpenBlock.relocate
    rw [← List.map_take, List.getLast?_map, Option.getD_map, Node.location_relocate]
  unfold enter
  rw [hfirst]
  dsimp only
  split
  · rfl
  · refine congrArg Except.ok ?_
    unfold relocate OpenBlock.relocate OpenBlock.reset
    dsimp only
    rw [← List.map_drop]
    rfl

/-- No open block is left to a rule's own function. -/
def Portable : Reading → Prop
  | inside current outer => ∀ b ∈ current :: outer, b.rule.assembly.isCustom = false
  | finished _ => True

theorem portable_giveBack (node : Node) {outer : List OpenBlock}
    (houter : ∀ b ∈ outer, b.rule.assembly.isCustom = false) : (giveBack node outer).Portable := by
  cases outer with
  | nil => trivial
  | cons parent outer =>
    have ⟨hparent, houter⟩ := List.forall_mem_cons.mp houter
    exact List.forall_mem_cons.mpr ⟨hparent, houter⟩

theorem Portable.next {g : Grammar} (hg : ∀ named ∈ g.rules, named.2.assembly.isCustom = false)
    {reading later : Reading} {token : Node} (h : reading.Portable)
    (hnext : next g reading token = .ok later) : later.Portable := by
  cases reading with
  | finished tree =>
    cases hnext
    exact h
  | inside b outer =>
    have ⟨hb, houter⟩ := List.forall_mem_cons.mp h
    change step g b outer token = _ at hnext
    rw [step_eq] at hnext
    split at hnext
    · cases hnext
      exact List.forall_mem_cons.mpr ⟨hb, houter⟩
    · split at hnext
      · obtain ⟨node, -, hnext⟩ := bind_eq_ok.mp hnext
        cases hnext
        exact portable_giveBack node houter
      · split at hnext
        · unfold enter at hnext
          dsimp only at hnext
          split at hnext
          · cases hnext
          · next rule hrule =>
            cases hnext
            have hrule := hg _ (Grammar.mem_of_rule? hrule)
            exact List.forall_mem_cons.mpr ⟨hrule, List.forall_mem_cons.mpr ⟨hb, houter⟩⟩
        · cases hnext
          exact List.forall_mem_cons.mpr ⟨hb, houter⟩

/-- One step is the same at other places. -/
theorem step_relocate (g : Grammar) {b : OpenBlock} (hb : b.rule.assembly.isCustom = false)
    (outer : List OpenBlock) (token : Node) :
    step g (b.relocate f) (outer.map (OpenBlock.relocate f)) (token.relocate f) =
      relocated f (relocate f) (step g b outer token) := by
  have hskipped : (b.relocate f).skipped (token.relocate f) = (b.skipped token).relocate f := by
    unfold OpenBlock.skipped OpenBlock.relocate
    rw [Node.fragments_relocate]
    rfl
  have hwatched : (b.relocate f).watched (token.relocate f) = (b.watched token).relocate f := by
    unfold OpenBlock.watched
    rw [hskipped, Node.fragments_relocate]
    rfl
  have hskips : (b.relocate f).skips = b.skips := rfl
  have hmarkers : (b.relocate f).markers = b.markers := rfl
  have htriggers : (b.relocate f).triggers = b.triggers := rfl
  rw [step_eq, step_eq, hskipped, hwatched, Node.fragments_relocate, hskips, hmarkers, htriggers]
  split
  · rfl
  · cases Watch.firstComplete b.markers token.fragments.before with
    | some found =>
      have hitems : ((b.relocate f).items.drop (found.2 - 1)).reverse =
          (b.items.drop (found.2 - 1)).reverse.map (Node.relocate f) := by
        unfold OpenBlock.relocate
        rw [← List.map_drop, List.map_reverse]
      dsimp only
      rw [hitems, OpenBlock.close_relocate hb]
      exact relocated_bind fun node _ => congrArg Except.ok (giveBack_relocate node outer)
    | none =>
      cases Watch.firstComplete b.triggers token.fragments.before with
      | some found => exact enter_relocate ..
      | none => rfl

theorem closeAll_relocate {current : OpenBlock} {outer : List OpenBlock}
    (h : (inside current outer).Portable) :
    closeAll (current.relocate f) (outer.map (OpenBlock.relocate f)) =
      relocated f (Node.relocate f) (closeAll current outer) := by
  have hitems : (current.relocate f).items.reverse =
      current.items.reverse.map (Node.relocate f) := List.map_reverse.symm
  induction outer generalizing current with
  | nil =>
    rw [List.map_nil, closeAll, closeAll, hitems, OpenBlock.close_relocate (h _ (.head _))]
    by_cases hends : current.rule.acceptsEndOfInput = true
    · rw [if_pos hends]
      exact if_pos hends
    · rw [if_neg hends]
      exact if_neg hends
  | cons parent outer ih =>
    have ⟨hcurrent, houter⟩ := List.forall_mem_cons.mp h
    rw [List.map_cons, closeAll, closeAll, hitems, OpenBlock.close_relocate hcurrent]
    by_cases hends : current.rule.acceptsEndOfInput = true
    · rw [if_pos hends]
      refine (if_pos hends).trans (relocated_bind fun node _ => ?_)
      have hparent : (inside { parent with items := node :: parent.items } outer).Portable :=
        portable_giveBack node houter
      exact ih hparent List.map_reverse.symm
    · rw [if_neg hends]
      exact if_neg hends

/-- What is read on from a reading is the same at other places. -/
theorem resume_relocate {reading : Reading} (h : reading.Portable) (tokens : List Node) :
    (reading.relocate f).resume (tokens.map (Node.relocate f)) =
      relocated f (Node.relocate f) (reading.resume tokens) := by
  induction tokens generalizing reading with
  | nil =>
    cases reading with
    | inside b outer => exact closeAll_relocate h
    | finished tree => rfl
  | cons token tokens ih =>
    cases reading with
    | inside b outer =>
      rw [List.map_cons, relocate, resume_cons, resume_cons, step_relocate _ (h b (.head _))]
      exact relocated_bind fun later hlater => ih (h.next Grammar.isCustom_standard hlater)
    | finished tree =>
      rw [relocate, resume_finished, resume_finished]
      rfl

end Reading
end Homoicon
