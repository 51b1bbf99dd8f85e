import Homoicon.Proofs.Search.Bindings
import Homoicon.Proofs.Search.Excerpt

/-! What a search reports of an attempt does not depend on what else it searches for. -/
namespace Homoicon
namespace Search

variable {source : List Node} {roots : List Frame}

theorem start_lt_of_run {budget : Option Nat} {results : List (Match Nat)}
    (h : run budget source roots 0 [] source = .ok results) :
    ∀ m ∈ results, m.start < source.length := by
  intro m hm
  obtain ⟨e, t, ht, -, rfl⟩ := run_sound rfl (Nat.zero_le _) (List.forall_mem_nil _) h m hm
  exact ht.path.1

theorem filter_eq_nil_of_run {n offset : Nat} {found : List (Match (Fin n))}
    {p : Match (Fin n) → Bool} (hrun : run none source roots 0 [] source =
      .ok (found.map fun m => { m with payload := m.payload.val }))
    (hle : source.length ≤ offset) (hp : ∀ m, p m = true → m.start = offset) :
    found.filter p = [] := by
  refine List.filter_eq_nil_iff.mpr fun m hm hpm => ?_
  have hstart : m.start < source.length := start_lt_of_run hrun _ (List.mem_map_of_mem hm)
  exact absurd hle (Nat.not_le_of_lt (hp m hpm ▸ hstart))

namespace Excerpt

theorem reports_among {n : Nat} (offset : Nat) (p : Fin n) (found : List (Match (Fin n))) :
    (reports ⟨0, offset, p, p⟩ (found.map fun m => { m with payload := m.payload.val })).map
        (·.shift 0 p) =
      found.filter fun m => m.start = offset ∧ m.payload = p := by
  unfold reports
  rw [List.filter_map, List.map_map, List.map_map]
  simp only [Function.comp_def, Fin.val_inj]
  refine (List.map_congr_left fun m hm => ?_).trans (List.map_id _)
  obtain ⟨-, rfl⟩ := of_decide_eq_true (List.mem_filter.mp hm).2
  rfl

theorem reports_alone {n : Nat} (offset : Nat) (p : Fin n) (found : List (Match (Fin 1))) :
    (reports ⟨offset, 0, 0, p⟩ (found.map fun m => { m with payload := m.payload.val })).map
        (·.shift 0 p) =
      (found.filter fun m => m.start = 0).map (·.shift offset p) := by
  unfold reports
  rw [List.filter_map, List.map_map, List.map_map]
  simp only [Function.comp_def, Fin.val_eq_zero, and_true]
  rfl

section Patterns
variable {α : Type} {patterns : List (Blueprint × α)} {marks : Nat → Nat → UInt64}
  {n : Fin patterns.length} {offset : Nat}

variable (hunanchored : (patterns.get n).1.Unanchored)
  (hdistinct : Distinct source (rootFrames marks (patterns.map fun p => p.1.node)))
include hunanchored hdistinct

theorem fits_among (offset : Nat) :
    Fits ⟨0, offset, n, n⟩ source (rootFrames marks (patterns.map fun p => p.1.node))
      (rootFrames marks (patterns.map fun p => p.1.node)) where
  whole := hdistinct
  distinct := hdistinct
  rooted := rooted_blueprints patterns marks
  skipped_le := Nat.zero_le _
  pattern := ⟨_, getElem?_rootFrames_get marks n, getElem?_rootFrames_get marks n,
    Blueprint.unanchored_rootFrame _ hunanchored⟩

theorem fits_alone (hle : offset ≤ source.length)
    (hdistinct' : Distinct (source.drop offset)
      (rootFrames (fun _ => marks n) [(patterns.get n).1.node])) :
    Fits ⟨offset, 0, 0, n⟩ source (rootFrames marks (patterns.map fun p => p.1.node))
      (rootFrames (fun _ => marks n) [(patterns.get n).1.node]) where
  whole := hdistinct
  distinct := hdistinct'
  rooted := rooted_blueprints [((patterns.get n).1, ())] fun _ => marks n
  skipped_le := hle
  pattern :=
    ⟨_, getElem?_rootFrames_get marks n, rfl, Blueprint.unanchored_rootFrame _ hunanchored⟩

end Patterns

/-- The matches of an attempt in any search that it fits into are those that it has by itself. -/
theorem Fits.reports_eq {e f : Excerpt} {part part' : List Frame}
    {results results' : List (Match Nat)} (h : e.Fits source roots part)
    (h' : f.Fits source roots part')
    (hstart : e.start + e.skipped = f.start + f.skipped) (htarget : e.target = f.target)
    (hlt : e.start + e.skipped < source.length)
    (hrun : Search.run none (source.drop e.skipped) part 0 [] (source.drop e.skipped) = .ok results)
    (hrun' : Search.run none (source.drop f.skipped) part' 0 [] (source.drop f.skipped) =
      .ok results') :
    e.reports results = f.reports results' := by
  obtain ⟨root, hroots, hroot, -⟩ := h.pattern
  obtain ⟨root', hroots', hroot', -⟩ := h'.pattern
  rw [← htarget, hroots] at hroots'
  cases hroots'
  have hone := h.run_attempt hroot rfl (Nat.zero_le _) (by rw [List.length_drop]; omega)
    (List.forall_mem_nil _) threads_nil hrun
  have hother := h'.run_attempt hroot' rfl (Nat.zero_le _) (by rw [List.length_drop]; omega)
    (List.forall_mem_nil _) threads_nil hrun'
  rw [List.drop_drop, Nat.add_comm e.skipped] at hone
  rw [List.drop_drop, Nat.add_comm f.skipped, ← hstart, ← htarget] at hother
  exact Except.ok.inj (hone.symm.trans hother)

end Excerpt
end Search

end Homoicon
