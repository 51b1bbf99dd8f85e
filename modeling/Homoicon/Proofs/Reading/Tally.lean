import Homoicon.Proofs.Failure
import Homoicon.Proofs.Reading.Guarded
import Homoicon.Proofs.Reading.Prompt

/-! Texts are cut between their characters, and candidates are seen as far as watches see them. -/
namespace Homoicon

namespace Guarded

theorem splitAt_append (front back : String) :
    splitAt (front ++ back) front.utf8ByteSize = .ok (front, back) := by
  have hvalid : (⟨front.utf8ByteSize⟩ : String.Pos.Raw).IsValid (front ++ back) :=
    String.Pos.Raw.isValid_iff_exists_append.mpr ⟨front, back, rfl, rfl⟩
  have hsplits : (⟨⟨front.utf8ByteSize⟩, hvalid⟩ : (front ++ back).Pos).Splits front back :=
    ⟨rfl, rfl⟩
  unfold splitAt
  rw [dif_pos hvalid, hsplits.copy_sliceTo_eq, hsplits.copy_sliceFrom_eq]

theorem splitAt_take (chars : List Char) (n : Nat) :
    splitAt (.ofList chars) (String.ofList (chars.take n)).utf8ByteSize =
      .ok (.ofList (chars.take n), .ofList (chars.drop n)) := by
  have hsplit := splitAt_append (.ofList (chars.take n)) (.ofList (chars.drop n))
  rwa [← String.ofList_append, List.take_append_drop] at hsplit

theorem splitAt_cons (first : Char) (rest : List Char) :
    splitAt (.ofList (first :: rest)) first.utf8Size =
      .ok (.singleton first, .ofList rest) := by
  have hsplit := splitAt_append (.singleton first) (.ofList rest)
  rwa [String.utf8ByteSize_singleton, ← String.ofList_cons] at hsplit

/-- The cuts that decode an escape are between its characters. -/
theorem decode_eq (text : String) : decode text = .ok (Escape.decode text.toList) := by
  obtain ⟨chars, rfl⟩ : ∃ chars, text = .ofList chars := ⟨text.toList, String.ofList_toList.symm⟩
  unfold decode
  rw [String.toList_ofList]
  cases chars with
  | nil => rfl
  | cons first rest =>
    have hcut : ∀ count, splitAt (.ofList (first :: rest))
        (String.ofList ((first :: rest).take (count + 1))).utf8ByteSize =
          .ok (.ofList (first :: rest.take count), .ofList (rest.drop count)) :=
      fun count => splitAt_take (first :: rest) (count + 1)
    unfold Escape.decode width? decoded
    dsimp only
    cases hletter : Escape.letter? first with
    | some c =>
      have hdigits : Escape.digitCount? first = none := by
        unfold Escape.digitCount?
        split <;> first | rfl | cases hletter
      rw [hdigits]
      dsimp only
      rw [hcut 0, ok_bind]
      dsimp only
      rw [splitAt_cons, ok_bind]
      dsimp only
      rw [if_neg (by simp), String.toList_ofList]
      rfl
    | none =>
      cases hdigits : Escape.digitCount? first with
      | none => rfl
      | some count =>
        have hshort : (String.ofList (first :: rest.take count)).length < count + 1 ↔
            rest.length < count := by
          rw [String.length_ofList, List.length_cons, List.length_take]
          omega
        dsimp only [Option.map_some]
        rw [hcut count, ok_bind]
        dsimp only
        rw [splitAt_cons, ok_bind]
        dsimp only
        rw [String.toList_ofList, String.toList_ofList]
        simp only [hshort]
        exact (apply_ite Except.ok _ _ _).symm

/-- The pieces of a string are found without a cut that fails. -/
theorem pieces_eq (string : Location) (items : List Node) :
    pieces string items = .ok (Piece.ofItems string items) := by
  fun_induction Piece.ofItems string items with
  | case1 => rfl
  | case2 item rest hblock ih =>
    rw [pieces.eq_def]
    dsimp only
    rw [if_pos hblock, ih]
    rfl
  | case3 item rest hblock hplain ih =>
    rw [pieces.eq_def]
    dsimp only
    rw [if_neg hblock, if_pos hplain, ih]
    rfl
  | case4 item hblock hslash =>
    rw [pieces.eq_def]
    dsimp only
    rw [if_neg hblock, if_neg hslash]
  | case5 =>
    rename_i item hblock hslash next rest text hquote ih
    rw [pieces.eq_def]
    dsimp only
    rw [if_neg hblock, if_neg hslash, if_pos hquote, ih]
    rfl
  | case6 =>
    rename_i item hblock hslash next rest text hquote hsymbol
    rw [pieces.eq_def]
    dsimp only
    rw [if_neg hblock, if_neg hslash, if_neg hquote, if_pos hsymbol]
  | case7 =>
    rename_i item hblock hslash next text hquote hsymbol hletter
    rw [pieces.eq_def]
    dsimp only
    rw [if_neg hblock, if_neg hslash, if_neg hquote, if_neg hsymbol, if_pos hletter]
  | case8 =>
    rename_i item hblock hslash next text hquote hsymbol hletter block rest hcode ih
    rw [pieces.eq_def]
    dsimp only
    rw [if_neg hblock, if_neg hslash, if_neg hquote, if_neg hsymbol, if_pos hletter, if_pos hcode,
      ih]
    cases Piece.escaped ((Escape.decodeBraced block.unparse.toList).map ([·]))
      (text ++ block.unparse) item.location block.location <;> rfl
  | case9 =>
    rename_i item hblock hslash next text hquote hsymbol hletter block rest hcode
    rw [pieces.eq_def]
    dsimp only
    rw [if_neg hblock, if_neg hslash, if_neg hquote, if_neg hsymbol, if_pos hletter, if_neg hcode]
  | case10 =>
    rename_i item hblock hslash next rest text hquote hsymbol hletter ih
    rw [pieces.eq_def]
    dsimp only
    rw [if_neg hblock, if_neg hslash, if_neg hquote, if_neg hsymbol, if_neg hletter, decode_eq,
      ok_bind, ih]
    cases Piece.escaped (Escape.decode text.toList) text item.location next.location <;> rfl

theorem assemble_eq (assembly : Assembly) (kind : Kind) (items : List Node) (opener closer : String)
    (location : Location) : assemble assembly kind items opener closer location =
      .ok (assembly.assemble kind items opener closer location) := by
  cases assembly with
  | interpolated =>
    unfold assemble
    rw [pieces_eq]
    rfl
  | block | comment | raw | custom _ => rfl

end Guarded

namespace Watch
variable {α : Type} {w : Watch α} {text : String} {size : Nat}

/-- What holds of a watch in a block of so many items: less of its marker has been seen than there
is, in no more tokens than there are items. -/
structure Steady (size : Nat) (w : Watch α) : Prop where
  chars : w.chars = 0 ∨ w.chars < w.marker.length
  tokens : w.tokens ≤ size

theorem Steady.mono (h : w.Steady size) {more : Nat} (hle : size ≤ more) : w.Steady more :=
  ⟨h.chars, Nat.le_trans h.tokens hle⟩

theorem steady_reset (w : Watch α) (size : Nat) : w.reset.Steady size :=
  ⟨.inl rfl, Nat.zero_le size⟩

theorem Steady.advance (h : w.Steady size) (text : String) :
    (w.advance text).Steady (size + 1) := by
  refine ⟨?_, Nat.le_trans (w.tokens_advance_le text) (Nat.succ_le_succ h.tokens)⟩
  unfold Watch.advance
  split
  · next hpartly =>
    rw [Bool.and_eq_true, Bool.not_eq_true'] at hpartly
    obtain ⟨hcontinues, hcompletes⟩ := hpartly
    unfold completes at hcompletes
    rw [hcontinues, Bool.true_and, decide_eq_false_iff_not, Nat.not_le] at hcompletes
    exact .inr hcompletes
  · exact .inl rfl

theorem firstComplete_cons (w : Watch α) (watches : List (Watch α)) (text : String) :
    firstComplete (w :: watches) text =
      if w.completes text then some (w, w.tokens + 1) else firstComplete watches text := by
  unfold firstComplete
  rw [List.find?_cons]
  cases w.completes text <;> rfl

end Watch

namespace Guarded.Tally
variable {α : Type} {w : Watch α} {text : String} {size : Nat}

/-- A watch as a tally: the same marker seen as far, by bytes. -/
def ofWatch (w : Watch α) : Tally α where
  candidate := w.marker
  meaning := w.meaning
  tokens := w.tokens
  bytes := (String.ofList (w.marker.toList.take w.chars)).utf8ByteSize

theorem exists_rest (hw : w.Steady size) (h : w.continues text = true) :
    ∃ rest, w.marker = .ofList (w.marker.toList.take w.chars) ++ (text ++ rest) ∧
      (w.completes text = true ↔ rest = "") := by
  obtain ⟨rest, hrest⟩ := (Watch.continues_iff.mp h).2
  have hmarker : w.marker =
      .ofList (w.marker.toList.take w.chars) ++ (text ++ .ofList rest) := by
    apply String.toList_inj.mp
    rw [String.toList_append, String.toList_append, String.toList_ofList, String.toList_ofList,
      hrest, List.take_append_drop]
  refine ⟨.ofList rest, hmarker, ?_⟩
  have hchars : w.chars ≤ w.marker.length := hw.chars.elim (· ▸ Nat.zero_le _) Nat.le_of_lt
  have hlength := congrArg String.length hmarker
  rw [String.length_append, String.length_append, String.length_ofList, List.length_take,
    String.length_toList, Nat.min_eq_left hchars] at hlength
  unfold Watch.completes
  rw [h, Bool.true_and, decide_eq_true_eq, ← String.length_eq_zero_iff]
  omega

/-- A tally has seen all of its candidate where its watch is complete. -/
theorem size_le_iff (hw : w.Steady size) (h : w.continues text = true) :
    (ofWatch w).candidate.utf8ByteSize ≤ (ofWatch w).bytes + text.utf8ByteSize ↔
      w.completes text = true := by
  obtain ⟨rest, hmarker, hcompletes⟩ := exists_rest hw h
  have hsize : (ofWatch w).candidate.utf8ByteSize = _ := congrArg String.utf8ByteSize hmarker
  rw [String.utf8ByteSize_append, String.utf8ByteSize_append] at hsize
  change _ = (ofWatch w).bytes + _ at hsize
  rw [hcompletes, ← String.utf8ByteSize_eq_zero_iff]
  omega

theorem ofList_take (h : w.continues text = true) :
    String.ofList (w.marker.toList.take (w.chars + text.length)) =
      .ofList (w.marker.toList.take w.chars) ++ text := by
  have htext := List.prefix_iff_eq_take.mp (Watch.continues_iff.mp h).2
  rw [String.length_toList] at htext
  rw [List.take_add, String.ofList_append, ← htext, String.ofList_toList]

/-- A tally goes on as its watch does. -/
theorem advance_ofWatch (hw : w.Steady size) :
    (ofWatch w).advance text =
      .ok (ofWatch (w.advance text), if w.completes text then some (w.tokens + 1) else none) := by
  have hcut := splitAt_take w.marker.toList w.chars
  rw [String.ofList_toList] at hcut
  have hcontinues : (text == "" || !text.toList.isPrefixOf
      (String.ofList (w.marker.toList.drop w.chars)).toList) = !w.continues text := by
    unfold Watch.continues
    rw [String.toList_ofList, Bool.not_and, bne, Bool.not_not]
  have hadvance : w.advance text = if w.continues text && !w.completes text then
      { w with tokens := w.tokens + 1, chars := w.chars + text.length } else w.reset := rfl
  unfold advance
  change splitAt w.marker (String.ofList (w.marker.toList.take w.chars)).utf8ByteSize >>= _ = _
  rw [hcut, ok_bind]
  dsimp only
  rw [hcontinues, hadvance]
  cases hc : w.continues text with
  | false =>
    have hcompletes : w.completes text = false := by
      unfold Watch.completes
      rw [hc, Bool.false_and]
    rw [hcompletes]
    rfl
  | true =>
    simp only [size_le_iff hw hc]
    cases hdone : w.completes text with
    | true => rfl
    | false =>
      have hbytes := congrArg String.utf8ByteSize (ofList_take hc)
      rw [String.utf8ByteSize_append] at hbytes
      exact congrArg
        (fun bytes => Except.ok ((⟨w.marker, w.meaning, w.tokens + 1, bytes⟩ : Tally α), none))
        hbytes.symm

theorem candidate_ofWatch (w : Watch α) :
    (ofWatch w).candidate =
      .ofList (w.marker.toList.take w.chars) ++ .ofList (w.marker.toList.drop w.chars) := by
  rw [← String.ofList_append, List.take_append_drop]
  exact String.ofList_toList.symm

theorem sound_ofWatch (hw : w.Steady size) : (ofWatch w).Sound size where
  isValid := String.Pos.Raw.isValid_iff_exists_append.mpr ⟨_, _, candidate_ofWatch w, rfl⟩
  lt_size hne := by
    have hlength : w.marker.length ≠ 0 := fun h => hne (String.length_eq_zero_iff.mp h)
    have hchars : w.chars < w.marker.length := hw.chars.elim (fun h => by omega) id
    have hrest : String.ofList (w.marker.toList.drop w.chars) ≠ "" := by
      rw [Ne, ← String.length_eq_zero_iff, String.length_ofList, List.length_drop,
        String.length_toList]
      omega
    have hsize := congrArg String.utf8ByteSize (candidate_ofWatch w)
    rw [String.utf8ByteSize_append] at hsize
    change _ = (ofWatch w).bytes + _ at hsize
    rw [Ne, ← String.utf8ByteSize_eq_zero_iff] at hrest
    omega
  eq_zero hempty := by
    have hmarker : w.marker = "" := hempty
    unfold ofWatch
    rw [hmarker]
    simp
  tokens_le := hw.tokens

/-- Several tallies go on as their watches do, and complete as these. -/
theorem sweep_ofWatch {watches : List (Watch α)} (h : ∀ w ∈ watches, w.Steady size) :
    sweep text (watches.map ofWatch) =
      .ok (watches.map fun w => ofWatch (w.advance text),
        (Watch.firstComplete watches text).map fun found =>
          (found.1.marker, found.1.meaning, found.2)) := by
  induction watches with
  | nil => rfl
  | cons w watches ih =>
    obtain ⟨hw, hwatches⟩ := List.forall_mem_cons.mp h
    rw [List.map_cons, sweep, advance_ofWatch hw, ih hwatches, ok_bind]
    dsimp only
    rw [ok_bind, Watch.firstComplete_cons]
    cases w.completes text <;> rfl

end Guarded.Tally
end Homoicon
