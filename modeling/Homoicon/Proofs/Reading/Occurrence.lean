import Homoicon.Proofs.Reading.Tokens
import Mathlib.Data.List.Induction

/-! Where the nodes of a tree stand in its text. -/
namespace Homoicon
open Node (unparseAll)

namespace Text.Position

theorem after_eq (text : List Char) :
    ({} : Position).after text =
      ⟨text.count '\n', (text.reverse.takeWhile (· ≠ '\n')).length⟩ := by
  induction text using List.reverseRecOn with
  | nil => rfl
  | append_singleton text c ih =>
    rw [after_append, ih, List.reverse_append, List.reverse_singleton, List.singleton_append]
    change next _ c = _
    by_cases hc : c = '\n'
    · subst hc
      simp [next]
    · simp [next, hc]

end Text.Position

/-- The point of a file that a text leads up to. -/
def Location.after (file text : String) : Location :=
  .new file (({} : Text.Position).after text.toList).line
    (({} : Text.Position).after text.toList).column

theorem Location.after_eq (file text : String) :
    after file text =
      new file (text.toList.count '\n') (text.toList.reverse.takeWhile (· ≠ '\n')).length := by
  unfold after
  rw [Text.Position.after_eq]

namespace Node

theorem intercalate_split (joiner part : String) (earlier later : List String) :
    joiner.intercalate (earlier ++ part :: later) =
      String.join (earlier.map (· ++ joiner)) ++ part ++ String.join (later.map (joiner ++ ·)) := by
  induction earlier with
  | nil =>
    induction later generalizing part with
    | nil => simp
    | cons next later ih =>
      rw [List.nil_append, String.intercalate_cons_cons, ← List.nil_append (next :: later), ih next]
      simp [String.append_assoc]
  | cons first earlier ih =>
    obtain ⟨next, rest, hrest⟩ := List.exists_cons_of_ne_nil
      (List.append_ne_nil_of_right_ne_nil earlier (List.cons_ne_nil part later))
    rw [List.cons_append, hrest, String.intercalate_cons_cons, ← hrest, ih]
    simp [String.append_assoc]

/-- A node in a tree, with what comes before its text and after it in the text of the tree. -/
inductive Occurs : Node → Node → String → String → Prop
  | root {node : Node} : Occurs node node "" ""
  | inside {tree child node : Node} {earlier later : List Node} {front back : String}
      (hchildren : tree.children = earlier ++ child :: later) (h : Occurs child node front back) :
      Occurs tree node
        (tree.fragments.before ++
          String.join ((earlier.map unparse).map (· ++ tree.fragments.joiner)) ++ front)
        (back ++ String.join ((later.map unparse).map (tree.fragments.joiner ++ ·)) ++
          tree.fragments.after)

theorem Occurs.unparse_eq {tree node : Node} {front back : String}
    (h : tree.Occurs node front back) : front ++ node.unparse ++ back = tree.unparse := by
  induction h with
  | root => simp
  | @inside tree child node earlier later front back hchildren _ ih =>
    have hparts : tree.children.map unparse =
        earlier.map unparse ++ child.unparse :: later.map unparse := by
      rw [hchildren, List.map_append, List.map_cons]
    have hne : tree.children.map unparse ≠ [] := by simp [hparts]
    rw [Node.unparse_eq tree, Renderer.joined, if_neg (fun h => hne h.2), hparts,
      intercalate_split, ← ih]
    simp only [String.append_assoc]

theorem Occurs.trans {tree node inner : Node} {front back before after : String}
    (h : tree.Occurs node front back) (hinner : node.Occurs inner before after) :
    tree.Occurs inner (front ++ before) (after ++ back) := by
  induction h with
  | root => rwa [String.empty_append, String.append_empty]
  | @inside tree child node earlier later front back hchildren _ ih =>
    have hwhole := Occurs.inside hchildren (ih hinner)
    simpa only [String.append_assoc] using hwhole

/-- A property of all nodes of a tree, from that of the root and those of its children. -/
theorem forall_occurs {P : Node → Prop} {tree : Node} (hroot : P tree)
    (hchildren : ∀ child ∈ tree.children, ∀ node front back, child.Occurs node front back → P node)
    {node : Node} {front back : String} (h : tree.Occurs node front back) : P node := by
  cases h with
  | root => exact hroot
  | @inside _ child _ earlier later front back hsplit h =>
    have hchild : child ∈ tree.children := by simp [hsplit]
    exact hchildren child hchild node front back h

def Placed (file before : String) (tree : Node) : Prop :=
  ∀ node front back, tree.Occurs node front back → node.location = .after file (before ++ front)

def AllPlaced (file : String) : String → List Node → Prop
  | _, [] => True
  | before, node :: nodes => node.Placed file before ∧ AllPlaced file (before ++ node.unparse) nodes

variable {file before : String} {node : Node} {nodes others : List Node}

theorem Placed.location_eq (h : node.Placed file before) :
    node.location = .after file before := by
  have hroot := h node "" "" .root
  rwa [String.append_empty] at hroot

theorem allPlaced_append :
    AllPlaced file before (nodes ++ others) ↔
      AllPlaced file before nodes ∧ AllPlaced file (before ++ unparseAll nodes) others := by
  induction nodes generalizing before with
  | nil => simp [AllPlaced, unparseAll_nil]
  | cons node nodes ih =>
    rw [List.cons_append, AllPlaced, AllPlaced, ih, unparseAll_cons, String.append_assoc, and_assoc]

theorem placed_of_children (hlocation : node.location = .after file before)
    (hjoiner : node.fragments.joiner = "")
    (hchildren : AllPlaced file (before ++ node.fragments.before) node.children) :
    node.Placed file before := by
  intro inner front back h
  cases h with
  | root => rwa [String.append_empty]
  | @inside _ child _ earlier later front back hsplit h =>
    rw [hsplit, allPlaced_append] at hchildren
    rw [hchildren.2.1 inner front back h, hjoiner]
    simp only [String.append_empty, List.map_id', String.append_assoc, unparseAll]

theorem AllPlaced.location_eq (h : AllPlaced file before nodes) (hnode : nodes.head? = some node) :
    node.location = .after file before := by
  obtain ⟨rest, rfl⟩ := List.head?_eq_some_iff.mp hnode
  exact h.1.location_eq

end Node
end Homoicon
