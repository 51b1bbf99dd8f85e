import Homoicon.Proofs.Reading.Nesting
import Homoicon.Proofs.Reading.Reconstruction
import Mathlib.Data.List.Induction

/-! Where the items of open blocks come from among the tokens that have been read. -/
namespace Homoicon

theorem Assembly.location_of_assemble {assembly : Assembly} {kind : Kind} {items : List Node}
    {opener closer : String} {location : Location} {node : Node}
    (hcustom : assembly.isCustom = false)
    (h : assembly.assemble kind items opener closer location = .ok node) :
    node.location = location := by
  cases assembly with
  | interpolated =>
    obtain ⟨pieces, -, h⟩ := bind_eq_ok.mp h
    dsimp only at h
    split at h <;>
    · cases h
      rfl
  | block | comment | raw =>
    cases h
    rfl
  | custom finish => cases hcustom

theorem Mark.text_ne (mark : Mark) : mark.text ≠ "" := by
  intro hempty
  have hchars := congrArg String.toList hempty
  rw [Mark.text, String.toList_ofList] at hchars
  cases mark <;> cases hchars

namespace OpenBlock

/-- Whether an open block and its items say that they are where tokens are. What opened it was not
empty, except for the outermost block, which nothing opened. -/
structure Grounded (tokens : List Node) (b : OpenBlock) (outer : List OpenBlock) : Prop where
  items : ∀ item ∈ b.items, item.location ∈ tokens.map (·.location)
  opener : outer ≠ [] → b.opener ≠ "" ∧ b.location ∈ tokens.map (·.location)

def AllGrounded (tokens : List Node) : List OpenBlock → Prop
  | [] => True
  | b :: outer => b.Grounded tokens outer ∧ AllGrounded tokens outer

variable {tokens more : List Node} {b : OpenBlock} {inner outer : List OpenBlock}

theorem Grounded.append (h : b.Grounded tokens outer) (more : List Node) :
    b.Grounded (tokens ++ more) outer where
  items item hitem := List.map_append ▸ List.mem_append_left _ (h.items item hitem)
  opener houter :=
    ⟨(h.opener houter).1, List.map_append ▸ List.mem_append_left _ (h.opener houter).2⟩

theorem AllGrounded.append (h : AllGrounded tokens outer) (more : List Node) :
    AllGrounded (tokens ++ more) outer := by
  induction outer with
  | nil => trivial
  | cons b outer ih => exact ⟨h.1.append more, ih h.2⟩

theorem AllGrounded.of_append (h : AllGrounded tokens (inner ++ outer)) :
    AllGrounded tokens outer := by
  induction inner with
  | nil => exact h
  | cons b inner ih => exact ih h.2

end OpenBlock

namespace Reading
open Form (Nested)
open OpenBlock (AllGrounded Stack)

variable {start : Location} {reading later : Reading} {token : Node} {tokens : List Node}

/-- How far a text that begins at `start` has been read where some of its tokens end. -/
def upTo (start : Location) (tokens : List Node) : Except ParseError Reading :=
  tokens.foldlM (next .standard) (.inside (Form.toplevel.opened "" start [] false) [])

theorem upTo_concat :
    upTo start (tokens ++ [token]) = upTo start tokens >>= (next .standard · token) := by
  unfold upTo
  rw [List.foldlM_append]
  exact bind_congr fun reading => bind_pure (next .standard reading token)

theorem standing_upTo (halone : LeadsAlone tokens) (h : upTo start tokens = .ok reading) :
    reading.Standing start :=
  (Standing.inside .outermost [] false).foldlM halone h

theorem spells_start :
    (inside (Form.toplevel.opened "" start [] false) []).Spells .standard "" := by
  have hnew := spells_new Grammar.standard_lossless (Form.rule?_name .toplevel) start
  rwa [Form.new_rule] at hnew

theorem spells_upTo (htokens : ∀ token ∈ tokens, token.IsToken)
    (h : upTo start tokens = .ok reading) :
    reading.Spells .standard (Node.unparseAll tokens) := by
  have hend := spells_start.foldlM Grammar.standard_lossless htokens h
  rwa [String.empty_append] at hend

def Grounded (tokens : List Node) : Reading → Prop
  | inside b outer => AllGrounded tokens (b :: outer)
  | finished _ => True

theorem grounded_giveBack {outer : List OpenBlock} {node : Node}
    (hnode : outer ≠ [] → node.location ∈ tokens.map (·.location))
    (houter : AllGrounded tokens outer) : (giveBack node outer).Grounded tokens := by
  cases outer with
  | nil => trivial
  | cons parent outer =>
    obtain ⟨hparent, houter⟩ := houter
    exact ⟨⟨List.forall_mem_cons.mpr ⟨hnode (List.cons_ne_nil _ _), hparent.items⟩,
      hparent.opener⟩, houter⟩

/-- One more token leaves the blocks grounded, and so is the block that it may open. -/
theorem Grounded.next (h : reading.Grounded tokens) (hstanding : reading.Standing start)
    (halone : ∀ form : Form, StandsAlone form.lead token.fragments.before)
    (hnext : Reading.next .standard reading token = .ok later) :
    later.Grounded (tokens ++ [token]) := by
  cases hstanding with
  | @inside form opener location outer hnested items pending =>
    obtain ⟨hblock, houter⟩ := AllGrounded.append h [token]
    have hitems : ∀ item ∈ token :: items, item.location ∈ (tokens ++ [token]).map (·.location) :=
      List.forall_mem_cons.mpr ⟨by simp, hblock.items⟩
    change step .standard _ outer token = _ at hnext
    rw [Form.step_opened outer (halone form)] at hnext
    split at hnext
    · cases hnext
      exact ⟨⟨hitems, hblock.opener⟩, houter⟩
    · next mark action hlast =>
      cases action with
      | keep =>
        cases hnext
        rw [List.take_append_drop]
        exact ⟨⟨hitems, hblock.opener⟩, houter⟩
      | close =>
        obtain ⟨node, hnode, hnext⟩ := bind_eq_ok.mp hnext
        cases hnext
        refine grounded_giveBack (fun hne => ?_) houter
        rw [Assembly.location_of_assemble form.isCustom_assembly hnode]
        exact (hblock.opener hne).2
      | enter inner =>
        cases hnext
        -- the block begins with the earliest token of its opener
        have hfirst : ((token :: items).take (mark.more + 1)).getLast?.getD token ∈
            token :: items := by
          cases hlast : ((token :: items).take (mark.more + 1)).getLast? with
          | none => exact .head _
          | some first => exact List.mem_of_mem_take (List.mem_of_getLast? hlast)
        exact ⟨⟨List.forall_mem_nil _, fun _ => ⟨mark.text_ne, hitems _ hfirst⟩⟩,
          ⟨fun item hitem => hitems item (List.mem_of_mem_drop hitem), hblock.opener⟩, houter⟩

theorem grounded_upTo (halone : LeadsAlone tokens) (h : upTo start tokens = .ok reading) :
    reading.Grounded tokens := by
  induction tokens using List.reverseRecOn generalizing reading with
  | nil =>
    cases h
    exact ⟨⟨List.forall_mem_nil _, fun hne => absurd rfl hne⟩, trivial⟩
  | append_singleton tokens token ih =>
    have hbefore := halone.of_subset (List.subset_append_left tokens [token])
    rw [upTo_concat] at h
    obtain ⟨earlier, hearlier, h⟩ := bind_eq_ok.mp h
    exact (ih hbefore hearlier).next (standing_upTo hbefore hearlier)
      (halone token (List.mem_append_right _ (.head _))) h

end Reading

section Interior
variable {start : Location} {front : List Node} {quote : Node} {outer : List OpenBlock}

/-- Where some tokens end, the string that `quote` began is innermost. It has the given items. -/
def IsInnermost (start : Location) (front : List Node) (quote : Node) (outer : List OpenBlock)
    (body items : List Node) : Prop :=
  ∃ pending, Reading.upTo start (front ++ quote :: body) =
    .ok (.inside (Form.string.opened "\"" quote.location items pending) outer)

/-- The tokens that have been read since a string began, and its items, latest first. Each item is
one of the tokens, or a block in place of all the tokens that it is made of. -/
inductive Interior (start : Location) (front : List Node) (quote : Node)
    (outer : List OpenBlock) : List Node → List Node → Prop
  | new (h : IsInnermost start front quote outer [] []) : Interior start front quote outer [] []
  | token {body items : List Node} (before : Interior start front quote outer body items)
      (token : Node) (h : IsInnermost start front quote outer (body ++ [token]) (token :: items)) :
      Interior start front quote outer (body ++ [token]) (token :: items)
  | block {body items : List Node} (before : Interior start front quote outer body items)
      {node : Node} (hblock : node.kind.isBlock = true) (more : List Node)
      (h : IsInnermost start front quote outer (body ++ more) (node :: items)) :
      Interior start front quote outer (body ++ more) (node :: items)

namespace Interior
variable {body items others : List Node} {node : Node}

theorem isInnermost (h : Interior start front quote outer body items) :
    IsInnermost start front quote outer body items := by
  cases h <;> assumption

/-- The string was innermost when it began. -/
theorem isInnermost_nil (h : Interior start front quote outer body items) :
    IsInnermost start front quote outer [] [] := by
  induction h with
  | new h => exact h
  | token before token h ih => exact ih
  | block before hblock more h ih => exact ih

/-- The earlier items were read from the earlier tokens. -/
theorem of_append (h : Interior start front quote outer body (others ++ items)) :
    ∃ before after, body = before ++ after ∧ Interior start front quote outer before items := by
  induction others generalizing body with
  | nil => exact ⟨body, [], (List.append_nil body).symm, h⟩
  | cons item others ih =>
    obtain ⟨earlier, more, rfl, hearlier⟩ : ∃ earlier more, body = earlier ++ more ∧
        Interior start front quote outer earlier (others ++ items) := by
      cases h with
      | token before token h => exact ⟨_, _, rfl, before⟩
      | block before hblock more h => exact ⟨_, _, rfl, before⟩
    obtain ⟨before, after, rfl, hbefore⟩ := ih hearlier
    exact ⟨before, after ++ more, List.append_assoc .., hbefore⟩

/-- An item that is no block is the latest token. -/
theorem of_text (h : Interior start front quote outer body (node :: items))
    (hnode : ¬node.kind.isBlock = true) :
    ∃ before, body = before ++ [node] ∧ Interior start front quote outer before items := by
  cases h with
  | token before token h => exact ⟨_, rfl, before⟩
  | block before hblock more h => exact absurd hblock hnode

end Interior
end Interior

namespace OpenBlock
variable {start : Location} {tokens : List Node} {b : OpenBlock} {outer : List OpenBlock}

/-- If a block is a string, the latest of some tokens are what has been read of it. -/
def Traced (start : Location) (tokens : List Node) (b : OpenBlock) (outer : List OpenBlock) :
    Prop :=
  b.rule.assembly = .interpolated →
    ∃ front quote body, tokens = front ++ quote :: body ∧ quote.fragments.before = "\"" ∧
      b.opener = "\"" ∧ b.location = quote.location ∧
      Interior start front quote outer body b.items

/-- The same of the blocks around one, each of which waits since some token. -/
def AllTraced (start : Location) (tokens : List Node) : List OpenBlock → Prop
  | [] => True
  | b :: outer =>
    (∃ before, before <+: tokens ∧ b.Traced start before outer) ∧ AllTraced start tokens outer

theorem AllTraced.append (h : AllTraced start tokens outer) (more : List Node) :
    AllTraced start (tokens ++ more) outer := by
  induction outer with
  | nil => trivial
  | cons b outer ih =>
    obtain ⟨⟨before, hprefix, hb⟩, houter⟩ := h
    exact ⟨⟨before, hprefix.trans (List.prefix_append ..), hb⟩, ih houter⟩

end OpenBlock

namespace Form
variable {form inner : Form} {mark : Mark}

theorem eq_string_of_assembly (h : form.assembly = .interpolated) : form = .string := by
  cases form <;> first | rfl | contradiction

/-- A string is opened by a double quote. -/
theorem mark_eq_of_enter_string (h : (mark, .enter .string) ∈ form.marks) : mark = .one '"' := by
  have hall : ∀ entry ∈ form.marks, entry.2 = .enter .string → entry.1 = .one '"' := by
    cases form <;> decide
  exact hall _ h rfl

/-- Nothing is taken out of a string for what is opened or closed in it. -/
theorem more_of_string {action : Action} (h : (mark, action) ∈ string.marks)
    (haction : action ≠ .keep) : mark.more = 0 := by
  have hall : ∀ entry ∈ string.marks, entry.2 ≠ .keep → entry.1.more = 0 := by decide
  exact hall _ h haction

end Form

namespace Reading
open OpenBlock (AllTraced Stack)
open Form (Nested)

variable {start : Location} {reading later : Reading} {token : Node} {tokens : List Node}
  {form : Form} {opener text : String} {location : Location} {items : List Node}
  {outer : List OpenBlock} {pending seen : Bool}

def Traced (start : Location) (tokens : List Node) : Reading → Prop
  | inside b outer => b.Traced start tokens outer ∧ AllTraced start tokens outer
  | finished _ => True

/-- A token that is kept is one more item. -/
theorem traced_token (h : (form.opened opener location items pending).Traced start tokens outer)
    (hlater : upTo start (tokens ++ [token]) =
      .ok (.inside (form.opened opener location (token :: items) seen) outer)) :
    (form.opened opener location (token :: items) seen).Traced start (tokens ++ [token]) outer := by
  intro hassembly
  obtain ⟨front, quote, body, rfl, hquote, hopener, hlocation, hinterior⟩ := h hassembly
  obtain rfl := Form.eq_string_of_assembly hassembly
  cases hopener
  cases hlocation
  rw [List.append_assoc, List.cons_append] at hlater ⊢
  exact ⟨front, quote, body ++ [token], rfl, hquote, rfl, rfl,
    hinterior.token token ⟨seen, hlater⟩⟩

/-- A block that is closed is one more item of the string around it. -/
theorem traced_giveBack {node : Node} (hnested : Nested start form opener location outer)
    (hform : form ≠ .toplevel) (hstack : Stack .standard form.rule outer)
    (houter : AllTraced start tokens outer) {closer : String} {others : List Node}
    (hnode : form.node others opener closer location = .ok node) {more : List Node}
    (hlater : upTo start (tokens ++ more) = .ok (giveBack node outer)) :
    (giveBack node outer).Traced start (tokens ++ more) := by
  cases hnested with
  | outermost => exact absurd rfl hform
  | @inner _ parent _ before _ outerLocation outer _ hparent hnested items =>
    obtain ⟨⟨earlier, ⟨rest, rfl⟩, hearlier⟩, houter⟩ := houter
    refine ⟨fun hassembly => ?_, houter.append more⟩
    obtain ⟨front, quote, body, rfl, hquote, hopener, hlocation, hinterior⟩ := hearlier hassembly
    obtain rfl := Form.eq_string_of_assembly hassembly
    cases hopener
    cases hlocation
    obtain ⟨hblock, hkind⟩ : form.assembly = .block ∧ form.kind.isBlock = true :=
      hstack.1.fits hassembly
    have hisBlock : node.kind.isBlock = true := by
      unfold Form.node at hnode
      rw [hblock] at hnode
      cases hnode
      exact hkind
    rw [List.append_assoc, List.append_assoc, List.cons_append] at hlater ⊢
    exact ⟨front, quote, body ++ (rest ++ more), rfl, hquote, rfl, rfl,
      hinterior.block hisBlock (rest ++ more) ⟨false, hlater⟩⟩

/-- A block that is opened waits for its first token, and the one around it for the block. -/
theorem traced_enter (h : (form.opened opener location items pending).Traced start tokens outer)
    (houter : AllTraced start tokens outer) {mark : Mark} {inner : Form}
    (hmark : form.lastMark? pending token.fragments.before = some (mark, .enter inner))
    (hlater : upTo start (tokens ++ [token]) =
      form.act opener location ((token :: items).drop (mark.more + 1))
        ((token :: items).take (mark.more + 1))
        (((token :: items).take (mark.more + 1)).getLast?.getD token) outer mark (.enter inner)) :
    (Reading.inside
      (inner.opened mark.text
        (((token :: items).take (mark.more + 1)).getLast?.getD token).location [] false)
      (form.opened opener location ((token :: items).drop (mark.more + 1)) false ::
        outer)).Traced start (tokens ++ [token]) := by
  have hmem := List.mem_of_find?_eq_some hmark
  refine ⟨fun hassembly => ?_, ⟨tokens, List.prefix_append .., fun hassembly => ?_⟩,
    houter.append [token]⟩
  · obtain rfl := Form.eq_string_of_assembly hassembly
    obtain rfl := Form.mark_eq_of_enter_string hmem
    have hlast := List.find?_some (p := fun entry : Mark × Action => entry.1.isLast _ _) hmark
    exact ⟨tokens, token, [], rfl, beq_iff_eq.mp hlast, rfl, rfl, .new ⟨false, hlater⟩⟩
  · obtain rfl := Form.eq_string_of_assembly hassembly
    have hmore := Form.more_of_string hmem nofun
    rw [hmore]
    exact h hassembly

/-- One more token leaves the open strings traced. -/
theorem Traced.concat (htraced : reading.Traced start tokens) (hstanding : reading.Standing start)
    (hspells : reading.Spells .standard text)
    (halone : ∀ form : Form, StandsAlone form.lead token.fragments.before)
    (hreading : upTo start tokens = .ok reading)
    (hlater : upTo start (tokens ++ [token]) = .ok later) :
    later.Traced start (tokens ++ [token]) := by
  have hnext : Except.ok later = next .standard reading token := by
    rw [← hlater, upTo_concat, hreading, ok_bind]
  cases hstanding with
  | @inside form opener location outer hnested items pending =>
    obtain ⟨hblock, houter⟩ := htraced
    change _ = step .standard _ outer token at hnext
    rw [Form.step_opened outer (halone form)] at hnext
    split at hnext
    · cases hnext
      exact ⟨traced_token hblock hlater, houter.append [token]⟩
    · next mark action hmark =>
      have hsuits := Form.suits_of_mem_marks _ (List.mem_of_find?_eq_some hmark)
      cases action with
      | keep =>
        cases hnext
        rw [List.take_append_drop] at hlater ⊢
        exact ⟨traced_token hblock hlater, houter.append [token]⟩
      | close =>
        obtain ⟨node, hnode, hnext⟩ := bind_eq_ok.mp hnext.symm
        cases hnext
        exact traced_giveBack hnested hsuits hspells.2.1 houter hnode hlater
      | enter inner =>
        cases hnext
        exact traced_enter hblock houter hmark hlater

theorem traced_upTo (halone : LeadsAlone tokens) (htokens : ∀ token ∈ tokens, token.IsToken)
    (h : upTo start tokens = .ok reading) : reading.Traced start tokens := by
  induction tokens using List.reverseRecOn generalizing reading with
  | nil =>
    cases h
    exact ⟨nofun, trivial⟩
  | append_singleton tokens token ih =>
    have hbefore := halone.of_subset (List.subset_append_left tokens [token])
    have hall := (List.forall_mem_append.mp htokens).1
    obtain ⟨earlier, hearlier, -⟩ := bind_eq_ok.mp (upTo_concat.symm.trans h)
    exact (ih hbefore hall hearlier).concat (standing_upTo hbefore hearlier)
      (spells_upTo hall hearlier) (halone token (List.mem_append_right _ (.head _))) hearlier h

end Reading
end Homoicon
