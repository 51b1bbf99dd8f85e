import Homoicon.Render.Highlight
import Homoicon.Table

/-! Highlighting adds only markup: without the control sequences, highlighted text is the source. -/
namespace Homoicon

namespace Ansi

def isParameter (c : Char) : Bool := c.isDigit || c = ';'

/-- What comes after the control sequence that a text begins with. -/
def afterSequence? : List Char → Option (List Char)
  | '\x1b' :: '[' :: rest =>
    match rest.dropWhile isParameter with
    | 'm' :: later => some later
    | _ => none
  | _ => none

theorem afterSequence?_length {text later : List Char} (h : afterSequence? text = some later) :
    later.length < text.length := by
  unfold afterSequence? at h
  split at h
  · next rest =>
    split at h
    · next later' heq =>
      cases h
      have hle := (List.dropWhile_sublist isParameter (l := rest)).length_le
      rw [heq] at hle
      simp only [List.length_cons] at hle ⊢
      omega
    · cases h
  · cases h

def strip : List Char → List Char
  | [] => []
  | c :: rest =>
    match _h : afterSequence? (c :: rest) with
    | some later => strip later
    | none => c :: strip rest
termination_by text => text.length
decreasing_by
  · exact afterSequence?_length _h
  · exact Nat.lt_succ_self _

theorem strip_of_sequence {text later : List Char} (h : afterSequence? text = some later) :
    strip text = strip later := by
  cases text with
  | nil => cases h
  | cons c rest =>
    rw [strip]
    split
    · next heq => rw [Option.some.inj (heq.symm.trans h)]
    · next heq => cases heq.symm.trans h

theorem strip_of_ne {c : Char} (h : c ≠ '\x1b') (rest : List Char) :
    strip (c :: rest) = c :: strip rest := by
  have hnone : afterSequence? (c :: rest) = none := by
    unfold afterSequence?
    split
    · next heq => exact absurd (List.cons.inj heq).1 h
    · rfl
  rw [strip]
  split
  · next heq => cases heq.symm.trans hnone
  · rfl

def erase (text : String) : String := .ofList (strip text.toList)

inductive Markup : List Char → Prop
  | nil : Markup []
  | sequence {parameters rest : List Char} (hparameters : ∀ c ∈ parameters, isParameter c = true)
      (hrest : Markup rest) : Markup ('\x1b' :: '[' :: (parameters ++ 'm' :: rest))

theorem Markup.append {s t : List Char} (hs : Markup s) (ht : Markup t) : Markup (s ++ t) := by
  induction hs with
  | nil => exact ht
  | sequence hparameters _ ih =>
    rw [List.cons_append, List.cons_append, List.append_assoc, List.cons_append]
    exact .sequence hparameters ih

/-- Whether all that is added to a text is control sequences before and after it. -/
def Wraps (f : String → String) : Prop :=
  ∀ content, ∃ start stop, Markup start ∧ Markup stop ∧
    (f content).toList = start ++ content.toList ++ stop

theorem wraps_id : Wraps id := fun _ => ⟨[], [], .nil, .nil, by simp⟩

theorem Wraps.comp {f g : String → String} (hf : Wraps f) (hg : Wraps g) : Wraps (f ∘ g) := by
  intro content
  obtain ⟨start, stop, hstart, hstop, hcontent⟩ := hg content
  obtain ⟨outer, close, houter, hclose, heq⟩ := hf (g content)
  refine ⟨outer ++ start, stop ++ close, houter.append hstart, hstop.append hclose, ?_⟩
  rw [Function.comp, heq, hcontent]
  simp only [List.append_assoc]

/-- Whether one text is another without its control sequences, whatever comes after the two. -/
def Strips (s t : List Char) : Prop := ∀ rest, strip (s ++ rest) = t ++ strip rest

theorem Strips.append {s t s' t' : List Char} (h : Strips s t) (h' : Strips s' t') :
    Strips (s ++ s') (t ++ t') := fun rest => by
  rw [List.append_assoc, h, h', List.append_assoc]

theorem strips_nil : Strips [] [] := fun _ => rfl

theorem Markup.strips {s : List Char} (h : Markup s) : Strips s [] := by
  intro later
  induction h with
  | nil => rfl
  | @sequence parameters rest hparameters _ ih =>
    have hafter : afterSequence? ('\x1b' :: '[' :: (parameters ++ 'm' :: (rest ++ later))) =
        some (rest ++ later) := by
      have hparameter : ¬isParameter 'm' = true := by decide
      simp only [afterSequence?, List.dropWhile_append_of_pos hparameters,
        List.dropWhile_cons_of_neg hparameter]
    rw [List.cons_append, List.cons_append, List.append_assoc, List.cons_append,
      strip_of_sequence hafter, ih]

theorem strips_of_not_mem {s : List Char} (h : '\x1b' ∉ s) : Strips s s := by
  intro later
  induction s with
  | nil => rfl
  | cons c s ih =>
    obtain ⟨hc, hs⟩ := List.ne_and_not_mem_of_not_mem_cons h
    rw [List.cons_append, strip_of_ne (Ne.symm hc), ih hs, List.cons_append]

theorem Wraps.strips {f : String → String} (hf : Wraps f) {content : String}
    (h : '\x1b' ∉ content.toList) : Strips (f content).toList content.toList := by
  obtain ⟨start, stop, hstart, hstop, heq⟩ := hf content
  rw [heq]
  simpa using (hstart.strips.append (strips_of_not_mem h)).append hstop.strips

variable {α : Type} {f g : α → String} {joiner : String} {items : List α}

theorem strips_intercalate (hjoiner : '\x1b' ∉ joiner.toList)
    (h : ∀ item ∈ items, Strips (f item).toList (g item).toList) :
    Strips (joiner.intercalate (items.map f)).toList (joiner.intercalate (items.map g)).toList := by
  induction items with
  | nil => simpa using strips_nil
  | cons item items ih =>
    obtain ⟨hitem, hitems⟩ := List.forall_mem_cons.mp h
    cases items with
    | nil => simpa using hitem
    | cons next items =>
      have hlater := ih hitems
      simp only [List.map_cons] at hlater ⊢
      rw [String.intercalate_cons_cons, String.intercalate_cons_cons]
      simp only [String.toList_append]
      exact (hitem.append (strips_of_not_mem hjoiner)).append hlater

theorem strip_eq_of_strips {s t : List Char} (h : Strips s t) : strip s = t := by
  have heq := h []
  rwa [List.append_nil, strip, List.append_nil] at heq

end Ansi

namespace Node

@[elab_as_elim]
theorem forall_of_children {motive : Node → Prop}
    (step : ∀ node : Node, (∀ child ∈ node.children, motive child) → motive node) (node : Node) :
    motive node :=
  step node fun child _hchild => forall_of_children step child
termination_by sizeOf node
decreasing_by
  have := List.sizeOf_lt_of_mem _hchild
  cases node
  simp_all
  omega

/-- Whether no source text in a tree has an escape character. -/
def isUnmarked (node : Node) : Bool :=
  node.fold fun node parts =>
    '\x1b' ∉ node.fragments.before.toList && '\x1b' ∉ node.fragments.after.toList &&
      '\x1b' ∉ node.fragments.joiner.toList && parts.all id

theorem isUnmarked_iff (node : Node) : node.isUnmarked = true ↔
    '\x1b' ∉ node.fragments.before.toList ∧ '\x1b' ∉ node.fragments.after.toList ∧
      '\x1b' ∉ node.fragments.joiner.toList ∧ ∀ child ∈ node.children, child.isUnmarked = true := by
  unfold isUnmarked
  rw [fold_eq]
  simp [and_assoc]

end Node

open Ansi (Wraps Strips)

theorem Ansi.strips_joined {node : Node} {f g : Node → String}
    (hjoiner : '\x1b' ∉ node.fragments.joiner.toList)
    (h : ∀ child ∈ node.children, Strips (f child).toList (g child).toList) :
    Strips (Renderer.joined node (node.children.map f)).toList
      (Renderer.joined node (node.children.map g)).toList := by
  unfold Renderer.joined
  simp only [List.map_eq_nil_iff]
  split
  · exact strips_of_not_mem (by decide)
  · exact strips_intercalate hjoiner h

/-- Where text is only wrapped, a tree without escape characters is rendered as its source text and
control sequences. -/
theorem Node.strips_render {highlight : Highlight} (hwraps : ∀ role, Wraps (highlight role))
    (node : Node) : node.isUnmarked = true →
      Strips (node.render (.highlighted highlight)).toList node.unparse.toList := by
  induction node using forall_of_children with
  | step node ih =>
    intro hnode
    obtain ⟨hbefore, hafter, hjoiner, hchildren⟩ := node.isUnmarked_iff.mp hnode
    rw [render_eq, unparse_eq]
    simp only [String.toList_append]
    exact (((hwraps _).strips hbefore).append (Ansi.strips_joined hjoiner fun child hchild =>
      ih child hchild (hchildren child hchild))).append ((hwraps _).strips hafter)

structure Styles where
  coloured (red green blue : Nat) : String → String
  bold : String → String
  italic : String → String
  brightRed : String → String
  brightBlue : String → String

namespace Styles

def highlight (styles : Styles) : Highlight
  | .neutral => id
  | .space => id
  | .name => styles.coloured 0x72 0x9f 0xcf
  | .operator => styles.bold ∘ styles.coloured 0xcc 0x00 0x00
  | .comment => styles.italic ∘ styles.coloured 153 153 153
  | .numeric => styles.bold ∘ styles.coloured 0xad 0x7f 0xa8
  | .string => styles.bold ∘ styles.coloured 0x4e 0x9a 0x06
  | .bracket => styles.bold ∘ styles.coloured 153 153 153
  | .pattern => styles.bold ∘ styles.coloured 0x8f 0x59 0x02
  | .error => styles.brightRed
  | .gutter => styles.brightBlue
  | .caret => styles.brightRed
  | .emphasis => styles.bold

structure Wraps (styles : Styles) : Prop where
  coloured : ∀ red green blue, Ansi.Wraps (styles.coloured red green blue)
  bold : Ansi.Wraps styles.bold
  italic : Ansi.Wraps styles.italic
  brightRed : Ansi.Wraps styles.brightRed
  brightBlue : Ansi.Wraps styles.brightBlue

theorem Wraps.highlight {styles : Styles} (h : styles.Wraps) (role : Role) :
    Ansi.Wraps (styles.highlight role) := by
  cases role with
  | neutral | space => exact Ansi.wraps_id
  | name => exact h.coloured _ _ _
  | operator | numeric | string | bracket | pattern => exact h.bold.comp (h.coloured _ _ _)
  | comment => exact h.italic.comp (h.coloured _ _ _)
  | error | caret => exact h.brightRed
  | gutter => exact h.brightBlue
  | emphasis => exact h.bold

def ansi : Styles where
  coloured := Highlight.coloured
  bold := Highlight.bold
  italic := Highlight.italic
  brightRed := Highlight.sequenced "91" "39"
  brightBlue := Highlight.sequenced "94" "39"

theorem highlight_ansi : ansi.highlight = Highlight.terminal := by
  funext role content
  cases role <;> rfl

end Styles

namespace Highlight

theorem wraps_sequenced {start stop : String} (hstart : start.toList.all Ansi.isParameter = true)
    (hstop : stop.toList.all Ansi.isParameter = true) : Wraps (sequenced start stop) := by
  intro content
  refine ⟨_, _, .sequence (List.all_eq_true.mp hstart) .nil,
    .sequence (List.all_eq_true.mp hstop) .nil, ?_⟩
  simp [sequenced]

theorem all_isParameter_toString (n : Nat) : (toString n).toList.all Ansi.isParameter = true := by
  have hdigits : (toString n).toList = Nat.toDigits 10 n := String.toList_ofList
  rw [hdigits, List.all_eq_true]
  intro c hc
  exact Bool.or_eq_true_iff.mpr (.inl (Nat.isDigit_of_mem_toDigits (by decide) (by decide) hc))

theorem wraps_coloured (red green blue : Nat) : Wraps (coloured red green blue) := by
  refine wraps_sequenced ?_ rfl
  change ("38;2;" ++ toString red ++ ";" ++ toString green ++ ";" ++ toString blue).toList.all _ = _
  simp only [String.toList_append, List.all_append, all_isParameter_toString, Bool.and_true]
  rfl

end Highlight

theorem Styles.wraps_ansi : ansi.Wraps where
  coloured := Highlight.wraps_coloured
  bold := Highlight.wraps_sequenced rfl rfl
  italic := Highlight.wraps_sequenced rfl rfl
  brightRed := Highlight.wraps_sequenced rfl rfl
  brightBlue := Highlight.wraps_sequenced rfl rfl

/-- Without its control sequences, a highlighted tree is its source text, if that has no escape
character and styles only wrap it. Without highlighting it is its source text as it stands. -/
theorem Node.erase_render (node : Node) :
    (node.isUnmarked = true → (∀ styles : Styles, styles.Wraps →
      Ansi.erase (node.render (.highlighted styles.highlight)) = node.unparse) ∧
      Ansi.erase (node.render (.highlighted .terminal)) = node.unparse) ∧
    node.render (.highlighted .identity) = node.unparse := by
  refine ⟨fun hnode => ?_, rfl⟩
  have herase (styles : Styles) (hstyles : styles.Wraps) :
      Ansi.erase (node.render (.highlighted styles.highlight)) = node.unparse := by
    rw [Ansi.erase, Ansi.strip_eq_of_strips (node.strips_render hstyles.highlight hnode),
      String.ofList_toList]
  exact ⟨herase, Styles.highlight_ansi ▸ herase .ansi Styles.wraps_ansi⟩

/-- A list with a joiner, of a comment that reads like the rest of a control sequence and a map
without entries. -/
theorem Node.erase_render_comment :
    let comment := Node.space "#[0m" .unknown
    let node := Node.new .list [comment, Table.empty .unknown] .none ⟨"[", "]", ", "⟩ .unknown
    node.render (.highlighted .terminal) ≠ node.unparse ∧
      Ansi.erase (node.render (.highlighted .terminal)) = "[#[0m, [:]]" ∧
      Ansi.erase (node.render (.highlighted Styles.ansi.highlight)) = "[#[0m, [:]]" := by
  intro comment node
  obtain ⟨herase, -⟩ := node.erase_render
  have hunmarked : node.isUnmarked = true := by decide +kernel
  have hunparse : node.unparse = "[#[0m, [:]]" := by decide +kernel
  exact ⟨by decide +kernel, (herase hunmarked).2.trans hunparse,
    ((herase hunmarked).1 .ansi Styles.wraps_ansi).trans hunparse⟩

end Homoicon
