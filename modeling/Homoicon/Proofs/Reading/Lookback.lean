import Homoicon.Proofs.Reading.Descent
import Homoicon.Proofs.Reading.Reconstruction
import Mathlib.Data.List.Find

/-!
Open blocks of the standard grammar. All that their watches know of the tokens before is whether the
latest one begins a pair.
-/
namespace Homoicon

theorem eq_singleton_iff {text : String} {c : Char} :
    text = .singleton c ↔ text.toList = [c] := by
  rw [← String.toList_inj, String.toList_singleton]

namespace Watch
variable {α : Type} {w : Watch α} {text : String} {c : Char}

theorem completes_of_drop_eq (h : w.marker.toList.drop w.chars = [c]) :
    w.completes text = (text == .singleton c) := by
  rw [Bool.eq_iff_iff, completes_iff, h, beq_iff_eq, eq_singleton_iff]
  refine ⟨And.right, fun htext => ⟨?_, htext⟩⟩
  rintro rfl
  cases htext

theorem advance_of_drop_eq (h : w.marker.toList.drop w.chars = [c]) : w.advance text = w.reset := by
  have hpartly : ¬(w.continues text && !w.completes text) = true := by
    rw [partly_iff, h]
    rintro ⟨hne, hprefix, hnot⟩
    rcases List.prefix_cons_iff.mp hprefix with hnil | ⟨rest, htext, hrest⟩
    · exact hne (String.toList_inj.mp hnil)
    · rw [List.prefix_nil.mp hrest] at htext
      exact hnot htext
  unfold advance
  rw [if_neg hpartly]

end Watch

/-- One more token inside a block, by what its watches find. -/
theorem Reading.step_eq (g : Grammar) (b : OpenBlock) (outer : List OpenBlock) (token : Node) :
    step g b outer token =
      if b.skips.any (·.completes token.fragments.before) then .ok (inside (b.skipped token) outer)
      else match Watch.firstComplete b.markers token.fragments.before with
        | some (marker, spanned) => do
          let node ← b.close (b.items.drop (spanned - 1)).reverse marker.marker
          .ok (giveBack node outer)
        | none =>
          match Watch.firstComplete b.triggers token.fragments.before with
          | some (trigger, spanned) => enter g (b.watched token) outer trigger spanned token
          | none => .ok (inside (b.watched token) outer) := rfl

namespace Mark
variable {α : Type} {lead : Char} {mark : Mark} {text : String} {pending : Bool} {meaning : α}

/-- A mark of one character, or of two the first of which is `lead`. -/
def Fits (lead : Char) : Mark → Prop
  | one c => c ≠ lead
  | two c _ => c = lead

instance (lead : Char) : (mark : Mark) → Decidable (mark.Fits lead)
  | one c => inferInstanceAs (Decidable (c ≠ lead))
  | two c _ => inferInstanceAs (Decidable (c = lead))

def last : Mark → Char
  | one c => c
  | two _ next => next

/-- Whether a token of the given text is the last of the mark; `pending` tells whether the token
before it begins a pair. -/
def isLast (pending : Bool) (text : String) : Mark → Bool
  | one c => text == .singleton c
  | two _ next => pending && text == .singleton next

theorem not_isAt_of_ne {c : Char} {next? : Option String} (hfits : mark.Fits lead)
    (hmore : mark.more = 1) (h : c ≠ lead) : mark.isAt (.singleton c) next? = false := by
  cases mark with
  | one d => cases hmore
  | two d next =>
    cases hfits
    have hne : (String.singleton c == .singleton lead) = false := by
      rw [beq_eq_false_iff_ne, Ne, eq_singleton_iff, String.toList_singleton]
      exact fun heq => h (List.cons.inj heq).1
    exact Bool.and_eq_false_imp.mpr fun heq => absurd (hne.symm.trans heq) Bool.false_ne_true

def watch (pending : Bool) (meaning : α) (mark : Mark) : Watch α where
  marker := mark.text
  meaning
  tokens := if pending then mark.more else 0
  chars := if pending then mark.more else 0

/-- What a watch has yet to see of its mark. -/
theorem drop_watch (mark : Mark) :
    (mark.watch pending meaning).marker.toList.drop (mark.watch pending meaning).chars =
      mark.chars.drop (if pending then mark.more else 0) :=
  congrArg (List.drop _) String.toList_ofList

theorem drop_watch_one (c : Char) :
    ((one c).watch pending meaning).marker.toList.drop ((one c).watch pending meaning).chars =
      [c] := by
  rw [drop_watch]
  cases pending <;> rfl

/-- A mark is complete where its last token is read. -/
theorem completes_watch (hfits : mark.Fits lead) (halone : StandsAlone lead text) :
    (mark.watch pending meaning).completes text = mark.isLast pending text := by
  cases mark with
  | one c => exact Watch.completes_of_drop_eq (drop_watch_one c)
  | two c next =>
    cases pending with
    | true => exact Watch.completes_of_drop_eq (drop_watch _)
    | false =>
      refine Bool.eq_false_iff.mpr fun h => ?_
      obtain ⟨-, htext⟩ := Watch.completes_iff.mp h
      rw [drop_watch] at htext
      cases hfits
      rw [halone (congrArg List.head? htext)] at htext
      cases htext

/-- A token is remembered if it begins a pair and is not the second one of another. -/
theorem advance_watch (hfits : mark.Fits lead) (halone : StandsAlone lead text) :
    (mark.watch pending meaning).advance text =
      mark.watch (!pending && text == .singleton lead) meaning := by
  cases mark with
  | one c =>
    rw [Watch.advance_of_drop_eq (drop_watch_one c)]
    cases !pending && text == .singleton lead <;> rfl
  | two c next =>
    cases pending with
    | true => exact Watch.advance_of_drop_eq (drop_watch _)
    | false =>
      cases hfits
      have hpartly : (((two lead next).watch false meaning).continues text &&
          !((two lead next).watch false meaning).completes text) = (text == .singleton lead) := by
        rw [Bool.eq_iff_iff, Watch.partly_iff, drop_watch, beq_iff_eq, eq_singleton_iff]
        constructor
        · rintro ⟨hne, hprefix, -⟩
          rcases List.prefix_cons_iff.mp hprefix with hnil | ⟨rest, htext, -⟩
          · exact absurd (String.toList_inj.mp hnil) hne
          · exact halone (congrArg List.head? htext)
        · intro htext
          refine ⟨?_, ?_, ?_⟩
          · rintro rfl
            cases htext
          · rw [htext]
            exact ⟨[next], rfl⟩
          · rw [htext]
            exact fun h => nomatch h
      unfold Watch.advance
      rw [hpartly, Bool.not_false, Bool.true_and]
      split
      · next hlead =>
        rw [hlead, beq_iff_eq.mp hlead, String.length_singleton]
        rfl
      · next hlead =>
        rw [Bool.eq_false_iff.mpr hlead]
        rfl

/-- A watch knows of a pair's first token where the last one is read. -/
theorem tokens_watch (h : mark.isLast pending text = true) :
    (mark.watch pending meaning).tokens = mark.more := by
  cases mark with
  | one c => exact ite_self _
  | two c next =>
    obtain ⟨rfl, -⟩ := Bool.and_eq_true_iff.mp h
    rfl

theorem pending_of_isLast (hmore : mark.more = 1) (h : mark.isLast pending text = true) :
    pending = true := by
  cases mark with
  | one c => cases hmore
  | two c next => exact (Bool.and_eq_true_iff.mp h).1

theorem watch_of_more_eq_zero (h : mark.more = 0) :
    mark.watch pending meaning = mark.watch false meaning := by
  unfold watch
  rw [h, ite_self, ite_self]

theorem firstComplete_watch {β : Type} {entries : List β} {mark : β → Mark} {meaning : β → α}
    (hfits : ∀ entry ∈ entries, (mark entry).Fits lead) (halone : StandsAlone lead text) :
    Watch.firstComplete (entries.map fun entry => (mark entry).watch pending (meaning entry)) text =
      (entries.find? fun entry => (mark entry).isLast pending text).map fun entry =>
        ((mark entry).watch pending (meaning entry), (mark entry).more + 1) := by
  have hcompletes : ∀ entry ∈ entries,
      ((mark entry).watch pending (meaning entry)).completes text =
        (mark entry).isLast pending text :=
    fun entry hentry => completes_watch (hfits entry hentry) halone
  have hfound : entries.find? ((·.completes text) ∘ fun entry =>
      (mark entry).watch pending (meaning entry)) =
        entries.find? fun entry => (mark entry).isLast pending text := List.find?_congr hcompletes
  unfold Watch.firstComplete
  rw [List.find?_map, Option.map_map, hfound]
  refine Option.map_congr fun entry hentry => ?_
  have hlast := List.find?_some (p := fun entry => (mark entry).isLast pending text) hentry
  rw [Function.comp_apply, tokens_watch hlast]

end Mark

namespace Form
variable {form : Form}

def name : Form → String
  | toplevel => "toplevel"
  | round => "round"
  | square => "square"
  | curly => "curly"
  | interpolation => "string_interpolation"
  | string => "string"
  | rawString => "rawstring"
  | comment => "comment"
  | lineComment => "line_comment"

def rule (form : Form) : Rule where
  kind := form.kind
  assembly := form.assembly
  terminators :=
    form.closers.map (.marker ·.text) ++ if form.endsWithInput then [.endOfInput] else []
  triggers := form.openers.map fun (mark, inner) => (mark.text, inner.name)
  skips := form.escapes.map (·.text)

theorem rule?_name (form : Form) : Grammar.standard.rule? form.name = some form.rule := by
  cases form <;> rfl

def lead : Form → Char
  | string | rawString => '\\'
  | _ => '#'

theorem mem_marks_of_escape {mark : Mark} (h : mark ∈ form.escapes) :
    (mark, .keep) ∈ form.marks :=
  List.mem_append_left _ (List.mem_append_left _ (List.mem_map_of_mem h))

theorem mem_marks_of_closer {mark : Mark} (h : mark ∈ form.closers) :
    (mark, .close) ∈ form.marks :=
  List.mem_append_left _ (List.mem_append_right _ (List.mem_map_of_mem h))

theorem mem_marks_of_opener {entry : Mark × Form} (h : entry ∈ form.openers) :
    (entry.1, .enter entry.2) ∈ form.marks :=
  List.mem_append_right _ (List.mem_map.mpr ⟨entry, h, rfl⟩)

theorem fits_of_mem_marks : ∀ entry ∈ form.marks, entry.1.Fits form.lead := by
  cases form <;> decide

/-- A block that has been read up to some point. Whether the latest token begins a pair is all that
its watches have seen. -/
def opened (form : Form) (opener : String) (location : Location) (items : List Node)
    (pending : Bool) : OpenBlock where
  rule := form.rule
  opener
  location
  items
  skips := form.escapes.map (·.watch pending ())
  triggers := form.openers.map fun entry => entry.1.watch pending entry.2.name
  markers := form.closers.map (·.watch pending ())

/-- What a mark brings about whose tokens were taken after `items`. Both stand latest first, and the
`first` token of the mark is the last one taken. -/
def act (form : Form) (opener : String) (location : Location) (items taken : List Node)
    (first : Node) (outer : List OpenBlock) (mark : Mark) : Action → Except ParseError Reading
  | .keep => .ok (.inside (form.opened opener location (taken ++ items) false) outer)
  | .close => do
    let node ← form.node items opener mark.text location
    .ok (Reading.giveBack node outer)
  | .enter inner =>
    .ok (.inside (inner.opened mark.text first.location [] false)
      (form.opened opener location items false :: outer))

section Opened
variable {opener : String} {location : Location} {items : List Node} {pending : Bool} {token : Node}

theorem new_rule :
    OpenBlock.new form.rule opener location = form.opened opener location [] false := by
  have hmarkers : form.rule.markers = form.closers.map (·.text) := by
    cases form <;> rfl
  unfold OpenBlock.new
  rw [hmarkers]
  unfold opened rule
  simp only [List.map_map]
  rfl

theorem reset_opened :
    (form.opened opener location items pending).reset =
      form.opened opener location items false := by
  unfold OpenBlock.reset opened
  simp only [List.map_map]
  rfl

theorem watched_opened (halone : StandsAlone form.lead token.fragments.before) :
    (form.opened opener location items pending).watched token =
      form.opened opener location (token :: items)
        (!pending && token.fragments.before == .singleton form.lead) := by
  unfold OpenBlock.watched OpenBlock.skipped opened
  simp only [List.map_map, OpenBlock.mk.injEq, List.map_inj_left, true_and]
  exact ⟨fun mark h => Mark.advance_watch (fits_of_mem_marks _ (mem_marks_of_escape h)) halone,
    fun entry h => Mark.advance_watch (fits_of_mem_marks _ (mem_marks_of_opener h)) halone,
    fun mark h => Mark.advance_watch (fits_of_mem_marks _ (mem_marks_of_closer h)) halone⟩

/-- The mark that a token of the given text is the last of. -/
def lastMark? (form : Form) (pending : Bool) (text : String) : Option (Mark × Action) :=
  form.marks.find? (·.1.isLast pending text)

/-- What a token can be the last of: a pair that an escape begins, a closer, or an opener. -/
theorem lastMark?_eq (text : String) :
    form.lastMark? pending text =
      ((form.escapes.find? (·.isLast pending text)).map (·, .keep)).or
        (((form.closers.find? (·.isLast pending text)).map (·, .close)).or
          ((form.openers.find? (·.1.isLast pending text)).map fun entry =>
            (entry.1, .enter entry.2))) := by
  unfold lastMark? marks
  rw [List.append_assoc, List.find?_append, List.find?_append, List.find?_map, List.find?_map,
    List.find?_map]
  rfl

/-- Escapes are pairs, and there are no other pairs beside them. -/
theorem more_of_escapes :
    ∀ escape ∈ form.escapes, escape.more = 1 ∧ (∀ mark ∈ form.closers, mark.more = 0) ∧
      ∀ entry ∈ form.openers, entry.1.more = 0 := by
  cases form <;> decide

/-- An escape hides the token that it ends with from all other marks. -/
theorem skipped_opened (halone : StandsAlone form.lead token.fragments.before) {escape : Mark}
    (hescape : escape ∈ form.escapes)
    (hlast : escape.isLast pending token.fragments.before = true) :
    (form.opened opener location items pending).skipped token =
      form.opened opener location (token :: items) false := by
  obtain ⟨hmore, hclosers, hopeners⟩ := more_of_escapes escape hescape
  have hpending : pending = true := Mark.pending_of_isLast hmore hlast
  subst hpending
  unfold OpenBlock.skipped opened
  simp only [List.map_map, OpenBlock.mk.injEq, List.map_inj_left, true_and]
  exact ⟨fun mark h => Mark.advance_watch (fits_of_mem_marks _ (mem_marks_of_escape h)) halone,
    fun entry h => Mark.watch_of_more_eq_zero (hopeners entry h),
    fun mark h => Mark.watch_of_more_eq_zero (hclosers mark h)⟩

/-- A block that is entered is new, and the one around it has seen nothing. -/
theorem enter_opened (outer : List OpenBlock) {mark : Mark} {inner : Form} {seen : Bool} :
    Reading.enter .standard (form.opened opener location items pending) outer
        (mark.watch seen inner.name) (mark.more + 1) token =
      form.act opener location (items.drop (mark.more + 1)) (items.take (mark.more + 1))
        ((items.take (mark.more + 1)).getLast?.getD token) outer mark (.enter inner) := by
  unfold Reading.enter
  simp only [Mark.watch, rule?_name, new_rule, reset_opened]
  rfl

/-- One token more in a block of the standard grammar. -/
theorem step_opened (outer : List OpenBlock)
    (halone : StandsAlone form.lead token.fragments.before) :
    Reading.step .standard (form.opened opener location items pending) outer token =
      match form.lastMark? pending token.fragments.before with
      | none => .ok (.inside (form.opened opener location (token :: items)
          (!pending && token.fragments.before == .singleton form.lead)) outer)
      | some (mark, action) =>
        let taken := (token :: items).take (mark.more + 1)
        form.act opener location ((token :: items).drop (mark.more + 1)) taken
          (taken.getLast?.getD token) outer mark action := by
  have hskips : (form.opened opener location items pending).skips.any
      (·.completes token.fragments.before) =
        (form.escapes.find? (·.isLast pending token.fragments.before)).isSome := by
    rw [Bool.eq_iff_iff, List.find?_isSome, opened, List.any_map, List.any_eq_true]
    refine exists_congr fun mark => and_congr_right fun h => ?_
    rw [Function.comp_apply,
      Mark.completes_watch (fits_of_mem_marks _ (mem_marks_of_escape h)) halone]
  have hmarkers : Watch.firstComplete (form.opened opener location items pending).markers
      token.fragments.before = _ := Mark.firstComplete_watch
    (fun mark h => fits_of_mem_marks _ (mem_marks_of_closer h)) halone
  have htriggers : Watch.firstComplete (form.opened opener location items pending).triggers
      token.fragments.before = _ := Mark.firstComplete_watch
    (fun entry h => fits_of_mem_marks _ (mem_marks_of_opener h)) halone
  rw [Reading.step_eq, lastMark?_eq, hskips, hmarkers, htriggers, watched_opened halone]
  cases hescape : form.escapes.find? (·.isLast pending token.fragments.before) with
  | some escape =>
    rw [skipped_opened halone (List.mem_of_find?_eq_some hescape) (List.find?_some hescape)]
    change _ = Except.ok (Reading.inside (form.opened opener location
      ((token :: items).take _ ++ (token :: items).drop _) false) outer)
    rw [List.take_append_drop]
    rfl
  | none =>
    cases form.closers.find? (·.isLast pending token.fragments.before) with
    | some closer => rfl
    | none =>
      cases form.openers.find? (·.1.isLast pending token.fragments.before) with
      | none => rfl
      | some entry => exact enter_opened outer

end Opened

end Form
end Homoicon
