import Homoicon.Proofs.Pattern.Passage
import Homoicon.Proofs.Search.Bindings

/-! What a match binds is what a derivation of its span passes through. -/
namespace Homoicon

namespace Records
variable {β : Type} {name : String} {records : Records}

theorem map_fst_enter (name : String) (record : Record) (records : Records) :
    (enter name record records).map Prod.fst =
      if name ∈ records.map Prod.fst then records.map Prod.fst
      else records.map Prod.fst ++ [name] := by
  fun_induction enter name record records with
  | case1 => rfl
  | case2 => simp
  | case3 other earlier records h ih =>
    have h' : name ≠ other := fun e => h e.symm
    simp only [List.map_cons, ih, List.mem_cons, h', false_or]
    split <;> rfl

@[simp] theorem map_fst_leave (name : String) (stop : Nat) (records : Records) :
    (leave name stop records).map Prod.fst = records.map Prod.fst := by
  fun_induction leave name stop records with
  | case1 => rfl
  | case2 => rfl
  | case3 other record records _ ih => rw [List.map_cons, List.map_cons, ih]

theorem nodup_enter (record : Record) (h : (records.map Prod.fst).Nodup) :
    ((enter name record records).map Prod.fst).Nodup := by
  rw [map_fst_enter]
  split
  · exact h
  · next hname =>
    refine List.nodup_append.mpr ⟨h, List.nodup_singleton _, fun other hother b hb heq => ?_⟩
    rw [heq, List.mem_singleton.mp hb] at hother
    exact hname hother

/-- What is made of records, each by itself, under their names. -/
def bind (f : Record → Option β) (records : Records) : List (String × β) :=
  records.filterMap fun (name, record) => (f record).map fun b => (name, b)

theorem map_fst_bind_sublist (f : Record → Option β) (records : Records) :
    ((records.bind f).map Prod.fst).Sublist (records.map Prod.fst) := by
  induction records with
  | nil => exact .slnil
  | cons r records ih =>
    obtain ⟨name, record⟩ := r
    unfold bind at ih ⊢
    cases hf : f record with
    | none => simpa [hf] using ih.cons name
    | some b => simpa [hf] using ih

theorem lookup_bind (f : Record → Option β) (h : (records.map Prod.fst).Nodup) (name : String) :
    (records.bind f).lookup name = (records.lookup name).bind f := by
  induction records with
  | nil => rfl
  | cons r records ih =>
    obtain ⟨other, record⟩ := r
    obtain ⟨hother, hrecords⟩ := List.nodup_cons.mp h
    replace ih := ih hrecords
    unfold bind at ih ⊢
    by_cases hname : name = other
    · subst hname
      have hnone : records.lookup name = none :=
        List.lookup_eq_none_iff.mpr fun p hp => by
          simpa using fun e : name = p.1 => hother (List.mem_map.mpr ⟨p, hp, e.symm⟩)
      rw [hnone] at ih
      cases hf : f record with
      | none => simpa [hf] using ih
      | some b => simp [hf]
    · have hname' : (name == other) = false := by simpa using hname
      cases hf : f record with
      | none => simpa [hf, List.lookup_cons, hname'] using ih
      | some b => simpa [hf, List.lookup_cons, hname'] using ih

end Records

namespace Passage
variable {source : List Node} {p : Passage} {i j : Nat}

/-- What is recorded of a passage through nodes of the source stands for what it binds. -/
theorem Inside.exists_binding (h : p.Inside source i j) (hj : j ≤ source.length) :
    ∃ binding, p.record.binding? source = some binding ∧ p.Binds source binding := by
  obtain ⟨name, inner, start, stop⟩ := p
  obtain ⟨-, hstart, hstop, hderives⟩ := h
  dsimp only at hstart hstop hderives
  cases htest : inner.isTest with
  | true =>
    have hnode : ∃ node, source[start]? = some node := by
      cases inner with
      | matchType kind =>
        obtain ⟨-, node, hnode, -⟩ := hderives
        exact ⟨node, hnode⟩
      | matchValue target =>
        obtain ⟨-, node, hnode, -⟩ := hderives
        exact ⟨node, hnode⟩
      | _ => cases htest
    obtain ⟨node, hnode⟩ := hnode
    exact ⟨.one node, by simp [record, Record.binding?, htest, hnode], .one htest hnode⟩
  | false =>
    refine ⟨_, ?_, .many htest⟩
    have hspan : start ≤ stop ∧ stop ≤ source.length := ⟨hstart, Nat.le_trans hstop hj⟩
    simp [record, Record.binding?, htest, hspan]

end Passage

namespace Blueprint
variable {source : List Node} {b : Blueprint}

theorem Unnested.parts (h : b.Unnested) : UnnestedAll b.parts := by
  cases b with
  | sequence items => exact h
  | _ => exact ⟨h, trivial⟩

theorem passesAll_parts {i j : Nat} {passages : List Passage} :
    PassesAll source b.parts i j passages ↔ b.Passes source i j passages := by
  cases b with
  | sequence items => rfl
  | _ => simp [parts, PassesAll]

theorem passes_of_takesAll_rootFrame (hb : b.Unnested) {marks : Nat → UInt64} {i j : Nat}
    {records : Records}
    (h : Pattern.TakesAll source (Search.rootFrame marks b.node).items ⟨i, []⟩ ⟨j, records⟩) :
    ∃ passages, b.Passes source i j passages ∧ Recorded passages [] records := by
  obtain ⟨mark, hframe⟩ := b.rootFrame_node marks
  rw [hframe] at h
  obtain ⟨passages, hpasses, hrecorded⟩ := passesAll_of_takes b.parts 1 hb.parts h
  exact ⟨passages, passesAll_parts.mp hpasses, hrecorded⟩

end Blueprint

namespace Search
open Thread (Step)

variable {source : List Node} {roots : List Frame} {i : Nat} {t u : Thread}

theorem Reached.nodup_records (h : Reached source roots i t) :
    (t.records.map Prod.fst).Nodup := by
  refine h.induct (P := fun _ t => (t.records.map Prod.fst).Nodup)
    (fun _ _ _ _ _ => List.nodup_nil) fun i t j u ih hstep => ?_
  cases hstep with
  | consume _ h =>
    obtain ⟨-, -, -, rfl⟩ := Thread.consume_eq_some h
    exact ih
  | move h =>
    cases h with
    | skip => exact ih
    | anchor => exact ih
    | restart => exact ih
    | @enter mark shape items k =>
      cases shape with
      | capture name => exact Records.nodup_enter _ ih
      | _ => exact ih
    | leave =>
      cases hshape : t.top.shape with
      | capture name => simpa [hshape, Shape.onExit] using ih
      | _ => exact ih

/-- The bindings of an attempt that is done are of the last passages of a derivation. -/
theorem exists_passes_of_done (hroots : Rooted roots) {b : Blueprint} (hb : b.Unnested)
    {marks : Nat → UInt64} (hroot : roots[t.pattern]? = some (rootFrame marks b.node))
    (ht : Reached source roots i t) (hdone : t.Done) :
    ∃ passages, b.Passes source t.start i passages ∧
      (((found source i t).bindings.map Prod.fst).Nodup) ∧
      (∀ name, Option.Rel (Passage.Binds source) (Passage.last? name passages)
        ((found source i t).bindings.lookup name)) ∧
      ∀ p ∈ passages, p.Inside source t.start i := by
  have hnodup := ht.nodup_records
  obtain ⟨hstart, root, hroot', htakes⟩ :=
    (reached_done_iff hroots).mp ⟨t, ht, hdone, rfl, rfl, rfl⟩
  cases hroot.symm.trans hroot'
  obtain ⟨passages, hpasses, hrecorded⟩ := Blueprint.passes_of_takesAll_rootFrame hb htakes
  have hinside := Blueprint.inside_of_passes b hpasses (Nat.le_of_lt hstart)
  have hbindings : (found source i t).bindings = t.records.bind (Record.binding? source) := rfl
  refine ⟨passages, hpasses, ?_, fun name => ?_, hinside⟩
  · rw [hbindings]
    exact hnodup.sublist (Records.map_fst_bind_sublist _ _)
  · rw [hbindings, Records.lookup_bind _ hnodup, hrecorded name]
    cases hlast : Passage.last? name passages with
    | none => exact .none
    | some p =>
      obtain ⟨binding, hbinding, hbinds⟩ :=
        (hinside p (Passage.mem_of_last? hlast)).exists_binding ht.offset_le
      simp only [Option.map_some, Option.some_or, Option.bind_some, hbinding]
      exact .some hbinds

end Search

/-- A search for built patterns, in which no capture stands inside another one of its name, reports
with each match what a derivation of the pattern over just its nodes passes through: it binds the
names of the captures that are entered, each as its last passage does. No word of a place needs to
be told from another for this. Without a budget, the search succeeds. -/
theorem search_binds_passages {α : Type} (source : List Node) (patterns : List (Blueprint × α))
    (marks : Nat → Nat → UInt64) (hunnested : ∀ p ∈ patterns, p.1.Unnested) :
    (∃ results, search none source (patterns.map fun p => (p.1.node, p.2)) marks = .ok results) ∧
    ∀ budget results,
      search budget source (patterns.map fun p => (p.1.node, p.2)) marks = .ok results →
      ∃ found : List (Match (Fin patterns.length)),
        results = (found.map fun m => { m with payload := (patterns.get m.payload).2 }) ∧
        ∀ m ∈ found, ∃ passages,
          (patterns.get m.payload).1.Derives source m.start m.stop ∧
          (patterns.get m.payload).1.Passes source m.start m.stop passages ∧
          (m.bindings.map Prod.fst).Nodup ∧
          (∀ name, Option.Rel (Passage.Binds source) (Passage.last? name passages)
            (m.bindings.lookup name)) ∧
          ∀ p ∈ passages, p.Inside source m.start m.stop := by
  have hroots := Search.rooted_blueprints patterns marks
  constructor
  · obtain ⟨found, -, hsearch⟩ := Search.exists_found source patterns marks
    exact ⟨_, hsearch⟩
  intro budget results hresults
  obtain ⟨reported, hrun, hsearch⟩ := search_eq_ok.mp hresults
  obtain ⟨-, hbounds⟩ := Search.run_ordered hroots (Search.alive_nil _) hrun
  obtain ⟨found, rfl, hfound⟩ :=
    exists_search_eq_ok hrun fun m hm => by simpa using (hbounds m hm).2
  refine ⟨found, Except.ok.inj (hresults.symm.trans hfound), fun m hm => ?_⟩
  obtain ⟨e, t, ht, hdone, heq⟩ := Search.run_sound rfl (Nat.zero_le _) (List.forall_mem_nil _)
    hrun _ (List.mem_map_of_mem hm)
  obtain ⟨hpattern, hstart, hstop, hbindings⟩ := Match.mk.inj heq
  have hroot := Search.getElem?_rootFrames_get marks m.payload
  rw [hpattern] at hroot
  obtain ⟨passages, hpasses, hnodup, hbinds, hinside⟩ :=
    Search.exists_passes_of_done hroots (hunnested _ (List.get_mem _ _)) hroot ht hdone
  rw [hstart, hstop, hbindings]
  exact ⟨passages, Blueprint.derives_of_passes _ hpasses, hpasses, hnodup, hbinds, hinside⟩

namespace Search

theorem unnested_nameRuns : nameRuns.Unnested := by
  simp [nameRuns, Blueprint.Unnested, Blueprint.UnnestedAll, Blueprint.names, Blueprint.namesAll]

theorem exists_last?_nameRuns {source : List Node} {i j : Nat} {passages : List Passage}
    (h : nameRuns.Passes source i j passages) : ∃ p, Passage.last? "run" passages = some p := by
  refine Option.ne_none_iff_exists'.mp fun hnone => ?_
  have hname := Passage.last?_eq_none_iff.mp hnone
  cases h with
  | once h =>
    obtain ⟨k, before, after, ⟨within, -, rfl⟩, -, rfl⟩ := h
    exact hname _ (.head _) rfl
  | again h _ =>
    obtain ⟨k, before, after, ⟨within, -, rfl⟩, -, rfl⟩ := h
    exact hname _ (.head _) rfl

end Search

theorem search_nameRuns_binds_passage :
    ∃ found : List (Match (Fin 1)),
      search none Search.twoNames [(Search.nameRuns.node, ())] =
        .ok (found.map fun m => { m with payload := () }) ∧
      ∃ m ∈ found, m.start = 0 ∧ m.stop = 2 ∧ ∃ (p : Passage) (binding : Binding),
        m.bindings.lookup "run" = some binding ∧ p.Binds Search.twoNames binding ∧
          p.Inside Search.twoNames 0 2 := by
  obtain ⟨⟨results, hresults⟩, hbinds⟩ := search_binds_passages Search.twoNames
    [(Search.nameRuns, ())] _ (by simpa using Search.unnested_nameRuns)
  obtain ⟨found, rfl, hfound⟩ := hbinds none results hresults
  obtain ⟨⟨payload, start, stop, bindings⟩, hm, rfl, rfl⟩ := Search.exists_match_nameRuns hresults
  obtain ⟨passages, -, hpasses, -, hbound, hinside⟩ := hfound _ hm
  obtain rfl : payload = 0 := Subsingleton.elim _ _
  obtain ⟨p, hp⟩ := Search.exists_last?_nameRuns hpasses
  have hrun := hbound "run"
  rw [hp] at hrun
  generalize hlookup : bindings.lookup "run" = bound at hrun
  obtain ⟨hbinding⟩ := hrun
  exact ⟨found, hresults, _, hm, rfl, rfl, p, _, hlookup, hbinding,
    hinside p (Passage.mem_of_last? hp)⟩

end Homoicon
