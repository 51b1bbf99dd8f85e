import Homoicon.Proofs.Reading.Lookback
import Homoicon.Proofs.Reading.Relocation
import Homoicon.Proofs.Reading.Tally
import Mathlib.Data.List.TakeWhile

/-! The block reader never breaks off, whatever the grammar and the tokens are. -/
namespace Homoicon

namespace OpenBlock
variable {b : OpenBlock}

structure Steady (b : OpenBlock) : Prop where
  skips : ∀ w ∈ b.skips, w.Steady b.items.length
  triggers : ∀ w ∈ b.triggers, w.Steady b.items.length
  markers : ∀ w ∈ b.markers, w.Steady b.items.length

theorem steady_new (rule : Rule) (opener : String) (location : Location) :
    (new rule opener location).Steady := by
  constructor <;>
  · intro w hw
    obtain ⟨text, -, rfl⟩ := List.mem_map.mp hw
    exact ⟨.inl rfl, Nat.le_refl 0⟩

theorem steady_reset (b : OpenBlock) (items : List Node) :
    { b.reset with items }.Steady := by
  constructor <;>
  · intro w hw
    obtain ⟨v, -, rfl⟩ := List.mem_map.mp hw
    exact v.steady_reset _

theorem Steady.skipped (h : b.Steady) (token : Node) : (b.skipped token).Steady where
  skips := List.forall_mem_map.mpr fun w hw => (h.skips w hw).advance _
  triggers w hw := (h.triggers w hw).mono (Nat.le_succ _)
  markers w hw := (h.markers w hw).mono (Nat.le_succ _)

theorem Steady.watched (h : b.Steady) (token : Node) : (b.watched token).Steady where
  skips := List.forall_mem_map.mpr fun w hw => (h.skips w hw).advance _
  triggers := List.forall_mem_map.mpr fun w hw => (h.triggers w hw).advance _
  markers := List.forall_mem_map.mpr fun w hw => (h.markers w hw).advance _

end OpenBlock

namespace Guarded

section Lists
variable {α : Type} (items : List α) {n : Nat}

theorem take_reverse_sub (h : n ≤ items.length) :
    items.reverse.take (items.length - n) = (items.drop n).reverse := by
  rw [List.take_reverse, Nat.sub_sub_self h]

theorem drop_reverse_sub (h : n ≤ items.length) :
    items.reverse.drop (items.length - n) = (items.take n).reverse := by
  rw [List.drop_reverse, Nat.sub_sub_self h]

end Lists

theorem sub_eq {m n : Nat} (h : n ≤ m) : sub m n = .ok (m - n) := if_pos h

namespace Frame
variable {b : OpenBlock}

def ofBlock (b : OpenBlock) : Frame where
  contents := b.items.reverse
  skips := b.skips.map Tally.ofWatch
  triggers := b.triggers.map Tally.ofWatch
  ends := b.markers.map Tally.ofWatch

theorem ofBlock_new (rule : Rule) (opener : String) (location : Location) :
    ofBlock (.new rule opener location) = new rule := by
  unfold ofBlock OpenBlock.new new
  simp only [List.map_map, List.reverse_nil]
  rfl

theorem resume_ofBlock (b : OpenBlock) (items : List Node) :
    (ofBlock b).resume items.reverse = ofBlock { b.reset with items } := by
  unfold resume ofBlock OpenBlock.reset
  simp only [List.map_map]
  rfl

theorem sound_ofBlock (h : b.Steady) : (ofBlock b).Sound := by
  have hsize : (ofBlock b).contents.length = b.items.length := List.length_reverse
  constructor <;> rw [hsize]
  · exact List.forall_mem_map.mpr fun w hw => Tally.sound_ofWatch (h.skips w hw)
  · exact List.forall_mem_map.mpr fun w hw => Tally.sound_ofWatch (h.triggers w hw)
  · exact List.forall_mem_map.mpr fun w hw => Tally.sound_ofWatch (h.markers w hw)

theorem ofBlock_skipped (b : OpenBlock) (token : Node) :
    ofBlock (b.skipped token) =
      { ofBlock b with
        contents := (ofBlock b).contents ++ [token]
        skips := b.skips.map fun w => .ofWatch (w.advance token.fragments.before) } := by
  unfold ofBlock OpenBlock.skipped
  simp only [List.map_map, List.reverse_cons]
  rfl

theorem ofBlock_watched (b : OpenBlock) (token : Node) :
    ofBlock (b.watched token) =
      { contents := (ofBlock b).contents ++ [token]
        skips := b.skips.map fun w => .ofWatch (w.advance token.fragments.before)
        triggers := b.triggers.map fun w => .ofWatch (w.advance token.fragments.before)
        ends := b.markers.map fun w => .ofWatch (w.advance token.fragments.before) } := by
  unfold ofBlock OpenBlock.watched OpenBlock.skipped
  simp only [List.map_map, List.reverse_cons]
  rfl

/-- What a token does to a block, and to its frame. -/
theorem turn_ofBlock (h : b.Steady) (token : Node) :
    (ofBlock b).turn token = .ok
      (if b.skips.any (·.completes token.fragments.before) then .stay (ofBlock (b.skipped token))
      else match Watch.firstComplete b.markers token.fragments.before with
        | some (marker, spanned) => .close (b.items.drop (spanned - 1)).reverse marker.marker
        | none =>
          match Watch.firstComplete b.triggers token.fragments.before with
          | some (trigger, spanned) =>
            .enter ((token :: b.items).drop spanned).reverse trigger.marker trigger.meaning
              (((token :: b.items).take spanned).getLast?.getD token).location
          | none => .stay (ofBlock (b.watched token))) := by
  have hskips : Tally.sweep token.fragments.before (ofBlock b).skips = .ok _ :=
    Tally.sweep_ofWatch h.skips
  have htriggers : Tally.sweep token.fragments.before (ofBlock b).triggers = .ok _ :=
    Tally.sweep_ofWatch h.triggers
  have hmarkers : Tally.sweep token.fragments.before (ofBlock b).ends = .ok _ :=
    Tally.sweep_ofWatch h.markers
  have hany : ((Watch.firstComplete b.skips token.fragments.before).map fun found =>
      (found.1.marker, found.1.meaning, found.2)).isSome =
        b.skips.any (·.completes token.fragments.before) := by
    unfold Watch.firstComplete
    rw [Option.isSome_map, Option.isSome_map, List.isSome_find?]
  unfold turn
  dsimp only
  rw [hskips, ok_bind]
  dsimp only
  rw [hany, htriggers, hmarkers]
  cases b.skips.any (·.completes token.fragments.before) with
  | true =>
    rw [ofBlock_skipped]
    rfl
  | false =>
    rw [if_neg Bool.false_ne_true, if_neg Bool.false_ne_true, ok_bind, ok_bind]
    dsimp only
    cases hmarker : Watch.firstComplete b.markers token.fragments.before with
    | some found =>
      obtain ⟨marker, spanned⟩ := found
      obtain ⟨hmem, -, rfl⟩ := Watch.firstComplete_eq_some hmarker
      have hle : marker.tokens ≤ b.items.length := (h.markers marker hmem).tokens
      have hsize : (ofBlock b).contents.length = b.items.length := List.length_reverse
      dsimp only [Option.map_some]
      have hspanned : marker.tokens + 1 ≤ b.items.length + 1 := Nat.succ_le_succ hle
      rw [hsize, sub_eq hspanned, ok_bind, Nat.add_sub_add_right, Nat.add_sub_cancel]
      exact congrArg (fun contents => Except.ok (Turn.close contents marker.marker))
        (take_reverse_sub b.items hle)
    | none =>
      cases htrigger : Watch.firstComplete b.triggers token.fragments.before with
      | some found =>
        obtain ⟨trigger, spanned⟩ := found
        obtain ⟨hmem, -, rfl⟩ := Watch.firstComplete_eq_some htrigger
        have hle : trigger.tokens + 1 ≤ (token :: b.items).length :=
          Nat.succ_le_succ (h.triggers trigger hmem).tokens
        have hcontents : (ofBlock b).contents ++ [token] = (token :: b.items).reverse :=
          List.reverse_cons.symm
        dsimp only [Option.map_some, Option.map_none]
        rw [hcontents, List.length_reverse, sub_eq hle, ok_bind, take_reverse_sub _ hle,
          drop_reverse_sub _ hle, List.head?_reverse]
      | none =>
        rw [ofBlock_watched]
        rfl

end Frame

section Places
variable (tokens : List Node) {place : Nat}

/-- The tokens before the first that stands for the end of the input. -/
def stream (tokens : List Node) : List Node := tokens.takeWhile (·.kind != .endOfInput)

theorem stream_cons {first : Node} (h : first.kind ≠ .endOfInput) :
    stream (first :: tokens) = first :: stream tokens :=
  List.takeWhile_cons_of_pos (p := fun node : Node => node.kind != .endOfInput) (by simpa using h)

theorem stream_cons_end {first : Node} (h : first.kind = .endOfInput) :
    stream (first :: tokens) = [] :=
  List.takeWhile_cons_of_neg (p := fun node : Node => node.kind != .endOfInput) (by simp [h])

theorem stream_stream : stream (stream tokens) = stream tokens :=
  List.takeWhile_idem

/-- Before the end of the stream there is a token to consume. -/
theorem drop_stream (h : place < (stream tokens).length) :
    ∃ hplace : place < tokens.length, tokens[place]?.map (·.kind) ≠ some .endOfInput ∧
      (stream tokens).drop place = tokens[place] :: (stream tokens).drop (place + 1) := by
  have hfront : stream tokens <+: tokens := List.takeWhile_prefix _
  have hplace : place < tokens.length := Nat.lt_of_lt_of_le h hfront.length_le
  have htoken : tokens[place] = (stream tokens)[place] := (hfront.getElem h).symm
  have hkind : tokens[place].kind ≠ .endOfInput := by
    have hall := List.all_eq_true.mp List.all_takeWhile _ (List.getElem_mem h)
    rw [htoken]
    simpa using hall
  refine ⟨hplace, ?_, ?_⟩
  · rw [List.getElem?_eq_getElem hplace]
    exact fun hsome => hkind (Option.some.inj hsome)
  · rw [List.drop_eq_getElem_cons h, htoken]

theorem not_consumes :
    ¬((stream tokens).length < tokens.length ∧
      tokens[(stream tokens).length]?.map (·.kind) ≠ some .endOfInput) := by
  rintro ⟨hlt, hkind⟩
  have hdrop : tokens.drop (stream tokens).length = tokens.dropWhile (·.kind != .endOfInput) :=
    calc
      _ = (stream tokens ++ tokens.dropWhile _).drop (stream tokens).length := by
        unfold stream
        rw [List.takeWhile_append_dropWhile]
      _ = _ := List.drop_left
  have hrest := List.head?_dropWhile_not (·.kind != .endOfInput) tokens
  rw [← hdrop, List.head?_drop, List.getElem?_eq_getElem hlt] at hrest
  rw [List.getElem?_eq_getElem hlt] at hkind
  exact hkind (congrArg some (by simpa using hrest))

end Places

end Guarded

namespace Reading
variable {g : Grammar} {b : OpenBlock} {outer : List OpenBlock} {token : Node} {tokens : List Node}

/-- Reads tokens on to the end of the input. -/
def proceed (g : Grammar) (reading : Reading) (tokens : List Node) : Except ParseError Node := do
  (← tokens.foldlM (next g) reading).finish

theorem proceed_cons :
    (inside b outer).proceed g (token :: tokens) =
      step g b outer token >>= (·.proceed g tokens) := by
  unfold proceed
  rw [List.foldlM_cons, bind_assoc]
  rfl

theorem proceed_finished (tree : Node) (tokens : List Node) :
    (finished tree).proceed g tokens = .ok tree := by
  induction tokens with
  | nil => rfl
  | cons token tokens ih => exact ih

theorem reset_watched (b : OpenBlock) (token : Node) (items : List Node) :
    { (b.watched token).reset with items } = { b.reset with items } := by
  have hreset : ∀ {α : Type} (w : Watch α) (text : String), (w.advance text).reset = w.reset := by
    intro α w text
    unfold Watch.advance
    split <;> rfl
  unfold OpenBlock.reset OpenBlock.watched OpenBlock.skipped
  simp only [List.map_map, OpenBlock.mk.injEq, true_and]
  exact ⟨List.map_congr_left fun w _ => hreset w _, List.map_congr_left fun w _ => hreset w _,
    List.map_congr_left fun w _ => hreset w _⟩

end Reading

namespace Guarded
open Reading (giveBack)

variable {g : Grammar} {tokens : List Node} {b later : OpenBlock} {token : Node} {place : Nat}

/-- What holds of an outcome that comes of reading on in a block: the tokens between two places are
consumed one after the other, none of them behind the end of the input, and the node is that of the
block. -/
structure Outcome.Follows (g : Grammar) (tokens : List Node) (b : OpenBlock) {place : Nat}
    (outcome : Outcome place) : Prop where
  next_le : outcome.next ≤ (stream tokens).length
  consumed : outcome.consumed = List.range' place (outcome.next - place)
  frames : ∀ frame ∈ outcome.frames, frame.Sound
  answer : ∀ outer, (Reading.inside b outer).proceed g ((stream tokens).drop place) =
    outcome.answer >>= fun node =>
      (giveBack node outer).proceed g ((stream tokens).drop outcome.next)

theorem range'_cons {next : Nat} (h : place + 1 ≤ next) :
    place :: List.range' (place + 1) (next - (place + 1)) = List.range' place (next - place) := by
  rw [← List.range'_succ]
  congr 1
  omega

theorem range'_append {middle next : Nat} (hmiddle : place ≤ middle) (hnext : middle ≤ next) :
    List.range' place (middle - place) ++ List.range' middle (next - middle) =
      List.range' place (next - place) := by
  have happend := @List.range'_append_1 place (middle - place) (next - middle)
  rw [Nat.add_sub_cancel' hmiddle] at happend
  rw [happend]
  congr 1
  omega

section Follows
variable (hb : b.Steady) (hlt : place < (stream tokens).length)
  (hdrop : (stream tokens).drop place = token :: (stream tokens).drop (place + 1))
include hb hdrop

theorem follows_stay (hstep : ∀ outer, Reading.step g b outer token = .ok (.inside later outer))
    {rest : Outcome (place + 1)} (hrest : rest.Follows g tokens later)
    (hle : place ≤ rest.next) :
    Outcome.Follows g tokens b (⟨rest.answer, rest.next, place :: rest.consumed,
      .ofBlock b :: rest.frames, hle⟩ : Outcome place) where
  next_le := hrest.next_le
  consumed := by
    rw [hrest.consumed]
    exact range'_cons rest.le
  frames := List.forall_mem_cons.mpr ⟨Frame.sound_ofBlock hb, hrest.frames⟩
  answer outer := by
    rw [hdrop, Reading.proceed_cons, hstep, ok_bind]
    exact hrest.answer outer

include hlt

theorem follows_close {answer : Except ParseError Node}
    (hstep : ∀ outer, Reading.step g b outer token =
      answer >>= fun node => .ok (giveBack node outer)) (hle : place ≤ place + 1) :
    Outcome.Follows g tokens b
      (⟨answer, place + 1, [place], [.ofBlock b], hle⟩ : Outcome place) where
  next_le := hlt
  consumed := by rw [Nat.add_sub_cancel_left]; rfl
  frames := List.forall_mem_singleton.mpr (Frame.sound_ofBlock hb)
  answer outer := by
    rw [hdrop, Reading.proceed_cons, hstep, bind_assoc]
    rfl

omit hlt

section Enter
variable {inner : OpenBlock} {items : List Node} {block : Outcome (place + 1)}
  (hstep : ∀ outer, Reading.step g b outer token =
    .ok (.inside inner ({ b.reset with items } :: outer)))
  (hblock : block.Follows g tokens inner)
include hstep hblock

theorem follows_enter_error {e : ParseError} (herror : block.answer = .error e)
    (hle : place ≤ block.next) :
    Outcome.Follows g tokens b (⟨.error e, block.next, place :: block.consumed,
      .ofBlock b :: block.frames, hle⟩ : Outcome place) where
  next_le := hblock.next_le
  consumed := by
    rw [hblock.consumed]
    exact range'_cons block.le
  frames := List.forall_mem_cons.mpr ⟨Frame.sound_ofBlock hb, hblock.frames⟩
  answer outer := by
    rw [hdrop, Reading.proceed_cons, hstep, ok_bind, hblock.answer, herror]
    rfl

theorem follows_enter {node : Node} (hnode : block.answer = .ok node)
    {rest : Outcome block.next}
    (hrest : rest.Follows g tokens { b.reset with items := node :: items })
    (hle : place ≤ rest.next) :
    Outcome.Follows g tokens b (⟨rest.answer, rest.next, place :: block.consumed ++ rest.consumed,
      .ofBlock b :: block.frames ++ rest.frames, hle⟩ : Outcome place) where
  next_le := hrest.next_le
  consumed := by
    rw [hblock.consumed, hrest.consumed, range'_cons block.le]
    exact range'_append (Nat.le_of_succ_le block.le) rest.le
  frames := List.forall_mem_append.mpr
    ⟨List.forall_mem_cons.mpr ⟨Frame.sound_ofBlock hb, hblock.frames⟩, hrest.frames⟩
  answer outer := by
    rw [hdrop, Reading.proceed_cons, hstep, ok_bind, hblock.answer, hnode, ok_bind]
    exact hrest.answer outer

end Enter
end Follows

/-- Reading on in a block from a place does not break off, and comes to what it should. -/
def Reads (g : Grammar) (tokens : List Node) (b : OpenBlock) (place : Nat) : Prop :=
  ∃ outcome, read g tokens b.rule b.opener b.location (.ofBlock b) place = .ok outcome ∧
    outcome.Follows g tokens b

theorem reads_end (g : Grammar) (tokens : List Node) (hb : b.Steady) :
    Reads g tokens b (stream tokens).length := by
  refine ⟨⟨if b.rule.acceptsEndOfInput then b.close b.items.reverse ""
    else .error ⟨.unclosed b.opener, b.location⟩, _, [], [.ofBlock b], Nat.le_refl _⟩, ?_,
    Nat.le_refl _, ?_, List.forall_mem_singleton.mpr (Frame.sound_ofBlock hb), fun outer => ?_⟩
  · rw [read, dif_neg (not_consumes tokens), assemble_eq, ok_bind]
    split <;> rfl
  · rw [Nat.sub_self]
    rfl
  · dsimp only
    rw [List.drop_length]
    exact Reading.closeAll_eq b outer

section Token
variable (hb : b.Steady) (hlt : place < (stream tokens).length) (hlen : place < tokens.length)
  (hkind : tokens[place]?.map (·.kind) ≠ some .endOfInput)
  (hdrop : (stream tokens).drop place = tokens[place] :: (stream tokens).drop (place + 1))
include hb hkind hdrop

theorem reads_stay (hturn : (Frame.ofBlock b).turn tokens[place] = .ok (.stay (.ofBlock later)))
    (hstep : ∀ outer, Reading.step g b outer tokens[place] = .ok (.inside later outer))
    (hrule : later.rule = b.rule) (hopener : later.opener = b.opener)
    (hlocation : later.location = b.location)
    (hlater : Reads g tokens later (place + 1)) : Reads g tokens b place := by
  obtain ⟨rest, hrest, hfollows⟩ := hlater
  rw [hrule, hopener, hlocation] at hrest
  refine ⟨_, ?_, follows_stay hb hdrop hstep hfollows (Nat.le_of_succ_le rest.le)⟩
  rw [read, dif_pos ⟨hlen, hkind⟩, hturn, ok_bind]
  dsimp only
  rw [hrest, ok_bind]

include hlt

theorem reads_close {items : List Node} {closer : String}
    (hturn : (Frame.ofBlock b).turn tokens[place] = .ok (.close items closer))
    (hstep : ∀ outer, Reading.step g b outer tokens[place] =
      b.close items closer >>= fun node => .ok (giveBack node outer)) :
    Reads g tokens b place := by
  refine ⟨_, ?_, follows_close hb hlt hdrop hstep (Nat.le_succ place)⟩
  rw [read, dif_pos ⟨hlen, hkind⟩, hturn, ok_bind]
  dsimp only
  rw [assemble_eq, ok_bind]
  rfl

/-- A block that begins is read to its end, and then what is left of the one around it. -/
theorem reads_enter {items : List Node} {opener target : String} {first : Location}
    (hturn : (Frame.ofBlock b).turn tokens[place] =
      .ok (.enter items.reverse opener target first))
    (hstep : ∀ outer, Reading.step g b outer tokens[place] =
      match g.rule? target with
      | none => .error ⟨.unknownRule target, first⟩
      | some rule =>
        .ok (.inside (.new rule opener first) ({ b.reset with items } :: outer)))
    (ih : ∀ later : OpenBlock, ∀ next, place < next → next ≤ (stream tokens).length →
      later.Steady → Reads g tokens later next) : Reads g tokens b place := by
  unfold Reads
  rw [read, dif_pos ⟨hlen, hkind⟩, hturn, ok_bind]
  cases hrule : g.rule? target with
  | none =>
    simp only [hrule] at hstep ⊢
    exact ⟨_, rfl, follows_close hb hlt hdrop hstep _⟩
  | some rule =>
    simp only [hrule] at hstep ⊢
    obtain ⟨block, hblock, hinner⟩ := ih (.new rule opener first) _ (Nat.lt_succ_self place) hlt
      (OpenBlock.steady_new rule opener first)
    rw [Frame.ofBlock_new] at hblock
    change read g tokens rule opener first _ _ = _ at hblock
    rw [hblock, ok_bind]
    cases hanswer : block.answer with
    | error e => exact ⟨_, rfl, follows_enter_error hb hdrop hstep hinner hanswer _⟩
    | ok node =>
      obtain ⟨rest, hrest, hfollows⟩ := ih { b.reset with items := node :: items } _ block.le
        hinner.next_le (OpenBlock.steady_reset b _)
      change read g tokens b.rule b.opener b.location _ _ = _ at hrest
      rw [← Frame.resume_ofBlock, List.reverse_cons] at hrest
      dsimp only
      rw [hrest, ok_bind]
      exact ⟨_, rfl, follows_enter hb hdrop hstep hinner hanswer hfollows _⟩

end Token

/-- Reading on in a block whose watches are steady does not break off. -/
theorem reads (g : Grammar) (tokens : List Node) (hb : b.Steady)
    (hplace : place ≤ (stream tokens).length) : Reads g tokens b place := by
  induction hleft : (stream tokens).length - place using Nat.strongRecOn generalizing b place with
  | ind left ih =>
    subst hleft
    rcases Nat.eq_or_lt_of_le hplace with rfl | hlt
    · exact reads_end g tokens hb
    obtain ⟨hlen, hkind, hdrop⟩ := drop_stream tokens hlt
    have ih : ∀ later : OpenBlock, ∀ next, place < next → next ≤ (stream tokens).length →
        later.Steady → Reads g tokens later next :=
      fun later next hnext hle hlater => ih _ (by omega) hlater hle rfl
    have hstep := fun outer => Reading.step_eq g b outer tokens[place]
    have hturn := Frame.turn_ofBlock hb tokens[place]
    cases hhides : b.skips.any (·.completes tokens[place].fragments.before) with
    | true =>
      simp only [hhides, if_true] at hstep hturn
      exact reads_stay hb hlen hkind hdrop hturn hstep rfl rfl rfl
        (ih _ _ (Nat.lt_succ_self place) hlt (hb.skipped tokens[place]))
    | false =>
      simp only [hhides, Bool.false_eq_true, if_false] at hstep hturn
      cases hmarker : Watch.firstComplete b.markers tokens[place].fragments.before with
      | some found =>
        simp only [hmarker] at hstep hturn
        exact reads_close hb hlt hlen hkind hdrop hturn hstep
      | none =>
        simp only [hmarker] at hstep hturn
        cases htrigger : Watch.firstComplete b.triggers tokens[place].fragments.before with
        | some found =>
          simp only [htrigger] at hstep hturn
          refine reads_enter hb hlt hlen hkind hdrop hturn (fun outer => ?_) ih
          rw [hstep, Reading.enter, ← Reading.reset_watched b tokens[place]]
          rfl
        | none =>
          simp only [htrigger] at hstep hturn
          exact reads_stay hb hlen hkind hdrop hturn hstep rfl rfl rfl
            (ih _ _ (Nat.lt_succ_self place) hlt (hb.watched tokens[place]))

/-- Reading a stream of tokens does not break off. It comes to what the stream is read as, and the
tokens that it consumes are the first ones of the stream, each of them once. -/
theorem exists_outcome (g : Grammar) (tokens : List Node) :
    ∃ outcome, parse g tokens = .ok outcome ∧ outcome.answer = g.parse tokens ∧
      outcome.consumed = List.range outcome.next ∧ outcome.next ≤ (stream tokens).length ∧
      ∀ frame ∈ outcome.frames, frame.Sound := by
  unfold parse Grammar.parse
  dsimp only
  cases hrule : g.rule? g.toplevel with
  | none => exact ⟨_, rfl, rfl, rfl, Nat.zero_le _, List.forall_mem_nil _⟩
  | some rule =>
    dsimp only
    obtain ⟨outcome, houtcome, hfollows⟩ := reads g tokens
      (OpenBlock.steady_new rule "" ((tokens.head?.map (·.location)).getD .unknown))
      (Nat.zero_le _)
    rw [Frame.ofBlock_new] at houtcome
    refine ⟨outcome, houtcome, ?_, ?_, hfollows.next_le, hfollows.frames⟩
    · refine Eq.trans ?_ (hfollows.answer []).symm
      cases outcome.answer with
      | error e => rfl
      | ok node => exact (Reading.proceed_finished node _).symm
    · rw [hfollows.consumed, Nat.sub_zero, List.range_eq_range']

end Guarded

namespace Grammar
open Guarded (stream)

variable (g : Grammar) (tokens : List Node)

/-- Nothing behind the end of the input is read, if there is something before it. -/
theorem parse_stream (h : ∀ first ∈ tokens.head?, first.kind ≠ .endOfInput) :
    g.parse tokens = g.parse (stream tokens) := by
  have hhead : (stream tokens).head? = tokens.head? := by
    cases tokens with
    | nil => rfl
    | cons first rest =>
      rw [Guarded.stream_cons rest (h first rfl)]
      rfl
  have hstream : (stream tokens).takeWhile (·.kind != .endOfInput) =
      tokens.takeWhile (·.kind != .endOfInput) := Guarded.stream_stream tokens
  unfold parse
  rw [hhead, hstream]

/-- Where the input ends at once, the result is that of no tokens, but it is where the end is. -/
theorem parse_end (hg : ∀ rule ∈ g.rule? g.toplevel, rule.assembly.isCustom = false) {first : Node}
    {rest : List Node} (h : first.kind = .endOfInput) :
    g.parse (first :: rest) = relocated (fun _ => first.location)
      (Node.relocate fun _ => first.location) (g.parse []) := by
  have hstream : (first :: rest).takeWhile (·.kind != .endOfInput) = [] :=
    Guarded.stream_cons_end rest h
  unfold parse
  rw [hstream]
  cases hrule : g.rule? g.toplevel with
  | none => rfl
  | some rule =>
    have hportable : (Reading.inside (OpenBlock.new rule "" .unknown) []).Portable :=
      List.forall_mem_singleton.mpr (hg rule hrule)
    exact Reading.closeAll_relocate hportable

/-- Every stream of tokens is read without a text that is cut where it cannot be, or a length that
would be negative, whatever the grammar. Between two tokens less of every candidate has been seen
than there is of it, in no more tokens than the block has items. Each token is consumed once at
most, and none from the first end of the input on; the result is that of the tokens before this end,
but where there are none it is at the end itself, unless the rule has its own function to make a
node. -/
theorem parse_safe :
    (∃ outcome, Guarded.parse g tokens = .ok outcome ∧ outcome.answer = g.parse tokens ∧
      outcome.consumed = List.range outcome.next ∧ outcome.next ≤ (stream tokens).length ∧
      ∀ frame ∈ outcome.frames, frame.Sound) ∧
    ((∀ first ∈ tokens.head?, first.kind ≠ .endOfInput) →
      g.parse tokens = g.parse (stream tokens)) ∧
    ∀ first rest, tokens = first :: rest → first.kind = .endOfInput →
      (∀ rule ∈ g.rule? g.toplevel, rule.assembly.isCustom = false) →
      g.parse tokens = relocated (fun _ => first.location)
        (Node.relocate fun _ => first.location) (g.parse []) := by
  refine ⟨Guarded.exists_outcome g tokens, g.parse_stream tokens, ?_⟩
  rintro first rest rfl hkind hcustom
  exact g.parse_end hcustom hkind

end Grammar

/-- The end of an input that has nothing in it is not where no input is. -/
theorem parse_end_ne :
    Grammar.standard.parse [.endOfInput (.new "f" 3 4)] ≠
      Grammar.standard.parse
        ([Node.endOfInput (.new "f" 3 4)].takeWhile (·.kind != .endOfInput)) := by
  intro h
  have hlocations := congrArg (fun result => result.toOption.map (·.location)) h
  revert hlocations
  decide +kernel

end Homoicon
