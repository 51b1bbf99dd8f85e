import Homoicon.Proofs.Node.Literal
import Homoicon.Proofs.Node.Structure
import Homoicon.Proofs.Reading.Invariant

/-! A tree that has been read has the same structure as itself: no number in it is undefined. -/
namespace Homoicon

namespace Node
variable {node : Node} {nodes others : List Node}

theorem sameStructures_self_iff :
    sameStructures nodes nodes = true ↔ ∀ node ∈ nodes, node.sameStructure node = true := by
  induction nodes with
  | nil => simp [sameStructures]
  | cons node nodes ih => simp [sameStructures, ih]

theorem sameStructures_self_cons :
    sameStructures (node :: nodes) (node :: nodes) = true ↔
      node.sameStructure node = true ∧ sameStructures nodes nodes = true := by
  simp [sameStructures]

theorem sameStructures_self_append :
    sameStructures (nodes ++ others) (nodes ++ others) = true ↔
      sameStructures nodes nodes = true ∧ sameStructures others others = true := by
  simp only [sameStructures_self_iff, List.mem_append, or_imp, forall_and]

/-- A node whose value is no number differs from itself only where a child does. -/
theorem sameStructure_self (hvalue : ∀ x, node.value ≠ .number x)
    (hchildren : ∀ child ∈ node.children, child.sameStructure child = true) :
    node.sameStructure node = true :=
  sameStructure_iff.mpr
    ⟨rfl, Value.beq_iff.mpr (.inr ⟨rfl, hvalue⟩), sameStructures_self_iff.mpr hchildren⟩

end Node

theorem sameStructure_self_of_mem_ofChars {file : String} {position : Text.Position}
    {text : List Char} :
    ∀ token ∈ Token.ofChars file position text, token.sameStructure token = true := by
  have hsymbol : ∀ node : Node, (∀ x, node.value ≠ .number x) → node.children = [] →
      node.sameStructure node = true := fun node hvalue hchildren =>
    Node.sameStructure_self hvalue (by rw [hchildren]; exact List.forall_mem_nil _)
  refine Token.forall_mem_ofChars (fun _ => hsymbol _ (fun _ => Value.noConfusion) rfl)
    fun c rest _ => ?_
  cases (Lexeme.scan c rest).1 with
  | numeral =>
    exact Node.sameStructure_iff.mpr
      ⟨rfl, Value.beq_iff.mpr (.inl ⟨_, _, rfl, rfl, Numeral.value_beq_self _⟩), rfl⟩
  | name | operator | blank => exact hsymbol _ (fun _ => Value.noConfusion) rfl

/-- A node that holds a text of a string, without quotes. -/
def Node.IsSegment (node : Node) : Prop :=
  ∃ value raw location, node = .string value raw "" location

namespace Piece
variable {string : Location} {items : List Node} {pieces : List Piece} {block : Node}

theorem Reads.mem (h : Reads items pieces) (hblock : Piece.code block ∈ pieces) :
    block ∈ items ∧ block.kind.isBlock = true := by
  induction h with
  | nil => cases hblock
  | code hcode h ih =>
    rcases List.mem_cons.mp hblock with heq | hblock
    · cases heq
      exact ⟨.head _, hcode⟩
    · exact (ih hblock).imp_left (.tail _)
  | text _ _ h ih =>
    have hlater := ih ((List.mem_cons.mp hblock).resolve_left Piece.noConfusion)
    exact hlater.imp_left (.tail _)
  | sign _ _ _ h ih | letter _ _ _ h ih =>
    have hlater := ih ((List.mem_cons.mp hblock).resolve_left Piece.noConfusion)
    exact hlater.imp_left fun hrest => .tail _ (.tail _ hrest)
  | braced _ _ _ _ _ h ih =>
    have hlater := ih ((List.mem_cons.mp hblock).resolve_left Piece.noConfusion)
    exact hlater.imp_left fun hrest => .tail _ (.tail _ (.tail _ hrest))

theorem isSegment_of_mem_nodes {segment : Segment} {fallback : Location} {node : Node}
    (h : node ∈ segment.nodes fallback) : node.IsSegment ∧ node.unparse ≠ "" := by
  unfold Segment.nodes at h
  split at h
  · cases h
  · next hraw =>
    rw [List.mem_singleton.mp h, Node.unparse_string, String.empty_append, String.append_empty]
    exact ⟨⟨_, _, _, rfl⟩, hraw⟩

theorem mem_gather {fallback : Location} {segment : Segment} {node : Node}
    (h : node ∈ (gather fallback segment pieces).1 ++
      (gather fallback segment pieces).2.nodes fallback) :
    code node ∈ pieces ∨ node.IsSegment ∧ node.unparse ≠ "" := by
  fun_induction gather fallback segment pieces with
  | case1 segment => exact .inr (isSegment_of_mem_nodes h)
  | case2 segment value raw location pieces ih => exact (ih h).imp_left (.tail _)
  | case3 segment block pieces nodes last hgather ih =>
    rw [hgather] at ih
    rw [List.append_assoc, List.mem_append, List.cons_append, List.mem_cons] at h
    rcases h with hsegment | rfl | hlater
    · exact .inr (isSegment_of_mem_nodes hsegment)
    · exact .inl (.head _)
    · exact (ih hlater).imp_left (.tail _)

end Piece

namespace Assembly
variable {kind : Kind} {items : List Node} {opener closer : String} {location : Location}
  {node : Node}

/-- The children of a closed block's node are items of the block, or texts of a string. -/
theorem mem_of_assemble {assembly : Assembly} (hcustom : assembly.isCustom = false)
    (h : assembly.assemble kind items opener closer location = .ok node) :
    (∀ x, node.value ≠ .number x) ∧ ∀ child ∈ node.children, child ∈ items ∨ child.IsSegment := by
  cases assembly with
  | block =>
    cases h
    exact ⟨fun _ => Value.noConfusion, fun child hchild => .inl hchild⟩
  | comment =>
    cases h
    exact ⟨fun _ => Value.noConfusion, List.forall_mem_nil _⟩
  | raw =>
    cases h
    exact ⟨fun _ => Value.noConfusion, List.forall_mem_nil _⟩
  | interpolated =>
    obtain ⟨pieces, hreads, hnode⟩ := string_cases h
    rcases hnode with ⟨-, rfl⟩ | ⟨-, rfl⟩
    · exact ⟨fun _ => Value.noConfusion, List.forall_mem_nil _⟩
    · refine ⟨fun _ => Value.noConfusion, fun child hchild => ?_⟩
      exact (Piece.mem_gather hchild).imp (fun hcode => (hreads.mem hcode).1) And.left
  | custom finish => cases hcustom

end Assembly

/-- No tree that is read differs from itself in structure, as one with an undefined number would. -/
theorem sameStructure_self_of_parse {text file : String} {tree : Node}
    (h : parse text file = .ok tree) : tree.sameStructure tree = true := by
  have hinvariant : Form.Invariant (fun token => token.sameStructure token = true)
      (fun _ item => item.sameStructure item = true)
      (fun _ node => node.sameStructure node = true) := by
    refine ⟨fun htoken _ => htoken, fun htoken _ => htoken, fun _ hblock => hblock, ?_⟩
    intro form opener closer location items node hopener hcloser hitems hnode
    obtain ⟨hvalue, hchildren⟩ := Assembly.mem_of_assemble form.isCustom_assembly hnode
    refine Node.sameStructure_self hvalue fun child hchild => ?_
    rcases hchildren child hchild with hitem | ⟨value, raw, location, rfl⟩
    · exact hitems child (List.mem_reverse.mp hitem)
    · exact Node.sameStructure_self (fun _ => Value.noConfusion) (List.forall_mem_nil _)
  exact hinvariant.parse (fun token htoken _ => sameStructure_self_of_mem_ofChars token htoken) h

end Homoicon
