import Homoicon.Proofs.Pattern.Attempts
import Homoicon.Proofs.Thread.Step

/-! Threads of built patterns never meet a faulty instruction. -/
namespace Homoicon

namespace Pattern

mutual

/-- Nothing in a pattern fails when it is run. -/
def Sound : Pattern → Prop
  | group _ _ items => SoundAll items
  | anchor _ => True
  | .test condition => ∀ fault, condition ≠ .faulty fault
  | faulty _ => False

def SoundAll : List Pattern → Prop
  | [] => True
  | item :: items => Sound item ∧ SoundAll items

end

theorem soundAll_iff {items : List Pattern} : SoundAll items ↔ ∀ item ∈ items, item.Sound := by
  induction items with
  | nil => simp [SoundAll]
  | cons item items ih => simp [SoundAll, ih]

theorem Sound.passes_ok {condition : Test} (h : (Pattern.test condition).Sound) (input : Node) :
    ∃ passed, condition.passes input = .ok passed := by
  cases condition with
  | ofKind kind => exact ⟨_, rfl⟩
  | ofValue kind hash => exact ⟨_, rfl⟩
  | faulty fault => exact absurd rfl (h fault)

end Pattern

namespace Blueprint
open Pattern (ofNode ofNodes)

variable {marks : Nat → UInt64}

mutual

theorem sound_ofNode (b : Blueprint) (serial : Nat) : (ofNode marks serial b.node).Sound := by
  cases b with
  | sequence items => exact soundAll_ofNodes items _
  | alternatives items => exact soundAll_ofNodes items _
  | optional items greedy => exact soundAll_ofNodes items _
  | repeated items greedy => exact soundAll_ofNodes items _
  | anchor start => exact trivial
  | matchType kind => exact fun _ => Test.noConfusion
  | matchValue target => exact fun _ => Test.noConfusion
  | capture name inner =>
    rw [ofNode_capture]
    exact ⟨sound_ofNode inner _, trivial⟩

theorem soundAll_ofNodes (bs : List Blueprint) (serial : Nat) :
    Pattern.SoundAll (ofNodes marks serial (nodes bs)) := by
  cases bs with
  | nil => exact trivial
  | cons b bs => exact ⟨sound_ofNode b _, soundAll_ofNodes bs _⟩

end

theorem derivesAll_parts {source : List Node} {b : Blueprint} {i j : Nat} :
    DerivesAll source b.parts i j ↔ b.Derives source i j := by
  cases b with
  | sequence items => rfl
  | _ => simp [parts, DerivesAll]

theorem rootFrame_node (b : Blueprint) (marks : Nat → UInt64) :
    ∃ mark,
      Search.rootFrame marks b.node = ⟨mark, .sequence, ofNodes marks 1 (nodes b.parts), 0⟩ := by
  cases b <;> exact ⟨_, rfl⟩

end Blueprint

namespace Frame
variable {root : Pattern} {f : Frame} {outer : List Frame}

theorem sound_of_current {p : Pattern} (hf : f.group.Sound) (h : f.current = some p) : p.Sound :=
  Pattern.soundAll_iff.mp hf p (List.mem_of_getElem? h)

theorem Within.sound (h : f.Within root outer) (hroot : root.Sound) : f.group.Sound :=
  h.inherit (fun _ _ _ hgroup => Pattern.soundAll_iff.mp hgroup) hroot

end Frame

namespace Thread
variable {t : Thread}

theorem move_ok (h : t.top.group.Sound) (index : Nat) (atEnd : Bool) :
    ∃ move, t.move index atEnd = .ok move := by
  unfold move
  split
  · exact ⟨_, rfl⟩
  · exact ⟨_, rfl⟩
  · exact ⟨_, rfl⟩
  · exact ⟨_, rfl⟩
  · next fault hcur => exact (Frame.sound_of_current h hcur).elim

theorem consume_ok (h : t.top.group.Sound) (input : Node) :
    ∃ next, t.consume input = .ok next := by
  unfold consume
  split
  · next condition hcur =>
    obtain ⟨passed, hpass⟩ := (Frame.sound_of_current h hcur).passes_ok input
    exact ⟨_, by rw [hpass]; rfl⟩
  · exact ⟨_, rfl⟩

end Thread

namespace Search

/-- Frames that attempts at sound patterns begin with. -/
def Rooted (roots : List Frame) : Prop :=
  ∀ root ∈ roots, root.shape = .sequence ∧ root.index = 0 ∧ root.group.Sound

/-- A thread stands in frames of its own pattern. -/
def Placed (roots : List Frame) (t : Thread) : Prop :=
  ∃ root, roots[t.pattern]? = some root ∧ t.top.Within root.group t.outer

variable {roots : List Frame} {t u : Thread}

section RootFrames
variable {α : Type} {marks : Nat → Nat → UInt64} {patterns : List (Blueprint × α)} {n : Nat}

theorem getElem?_rootFrames :
    (rootFrames marks (patterns.map fun p => p.1.node))[n]? =
      patterns[n]?.map fun p => rootFrame (marks n) p.1.node := by
  rw [rootFrames, List.getElem?_mapIdx, List.getElem?_map, Option.map_map]
  rfl

theorem getElem?_rootFrames_get (marks : Nat → Nat → UInt64) (n : Fin patterns.length) :
    (rootFrames marks (patterns.map fun p => p.1.node))[n.val]? =
      some (rootFrame (marks n) (patterns.get n).1.node) := by
  rw [getElem?_rootFrames, List.getElem?_eq_getElem n.isLt]
  rfl

theorem rootFrame_of_mem {root : Frame}
    (h : root ∈ rootFrames marks (patterns.map fun p => p.1.node)) :
    ∃ p ∈ patterns, ∃ n, root = rootFrame (marks n) p.1.node := by
  obtain ⟨n, hn⟩ := List.getElem?_of_mem h
  rw [getElem?_rootFrames] at hn
  obtain ⟨p, hp, rfl⟩ := Option.map_eq_some_iff.mp hn
  exact ⟨p, List.mem_of_getElem? hp, n, rfl⟩

end RootFrames

theorem rooted_blueprints {α : Type} (patterns : List (Blueprint × α))
    (marks : Nat → Nat → UInt64) :
    Rooted (rootFrames marks (patterns.map fun p => p.1.node)) := by
  intro root hroot
  obtain ⟨⟨b, payload⟩, -, n, rfl⟩ := rootFrame_of_mem hroot
  obtain ⟨mark, hframe⟩ := b.rootFrame_node (marks n)
  rw [hframe]
  exact ⟨rfl, rfl, Blueprint.soundAll_ofNodes b.parts 1⟩

theorem Placed.sound (h : Placed roots t) (hroots : Rooted roots) : t.top.group.Sound := by
  obtain ⟨root, hroot, hwithin⟩ := h
  exact hwithin.sound (hroots root (List.mem_of_getElem? hroot)).2.2

theorem Placed.follows {index : Nat} {atEnd : Bool} (h : Placed roots t)
    (hu : t.Follows index atEnd u) : Placed roots u := by
  obtain ⟨root, hroot, hwithin⟩ := h
  exact ⟨root, hu.pattern_eq ▸ hroot, hu.within hwithin⟩

theorem Placed.consume {input : Node} (h : Placed roots t)
    (hu : t.consume input = .ok (some u)) : Placed roots u := by
  obtain ⟨root, hroot, hwithin⟩ := h
  refine ⟨root, ?_, Thread.within_of_consume hwithin hu⟩
  obtain ⟨-, -, -, rfl⟩ := Thread.consume_eq_some hu
  exact hroot

theorem placed_seed (hroots : Rooted roots) {start pattern : Nat} {root : Frame}
    (hroot : roots[pattern]? = some root) : Placed roots (.seed start pattern root) := by
  refine ⟨root, hroot, rfl, ?_⟩
  have hindex := (hroots root (List.mem_of_getElem? hroot)).2.1
  exact hindex ▸ Nat.zero_le _

theorem mem_seeds {index : Nat} :
    t ∈ seeds roots index ↔
      ∃ (pattern : Nat) (root : Frame), roots[pattern]? = some root ∧
        t = .seed index pattern root := by
  simp only [seeds, List.mem_mapIdx, List.getElem?_eq_some_iff]
  constructor
  · rintro ⟨pattern, hlt, rfl⟩
    exact ⟨pattern, _, ⟨hlt, rfl⟩, rfl⟩
  · rintro ⟨pattern, root, ⟨hlt, rfl⟩, rfl⟩
    exact ⟨pattern, hlt, rfl⟩

end Search
end Homoicon
