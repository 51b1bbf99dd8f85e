import Homoicon.Proofs.Reading.Occurrence
import Homoicon.Proofs.Reading.Reconstruction

/-! The nodes of a tree that has been read say where in the text they begin. -/
namespace Homoicon
open Node (AllPlaced unparseAll)

/-- Whether a node of a string is a block of code or has text of its own. -/
def Node.Fills (node : Node) : Prop := node.kind.isBlock = true ∨ node.fragments.before ≠ ""

section Token
variable {file before : String} {position : Text.Position} {chars : List Char}

theorem allPlaced_ofChars (h : ({} : Text.Position).after before.toList = position) :
    AllPlaced file before (Token.ofChars file position chars) := by
  fun_induction Token.ofChars file position chars generalizing before with
  | case1 =>
    subst h
    exact ⟨Node.placed_of_children rfl rfl trivial, trivial⟩
  | case2 position c rest found text =>
    rename_i ih
    subst h
    refine ⟨?_, ih ?_⟩
    · cases found.1 <;> exact Node.placed_of_children rfl rfl trivial
    · rw [(found.1.isToken_token text _).unparse_eq, Lexeme.before_token, String.toList_append,
        String.toList_ofList, Text.Position.after_append]

theorem fills_of_mem_ofChars :
    ∀ token ∈ Token.ofChars file position chars, token.kind ≠ .endOfInput → token.Fills := by
  refine Token.forall_mem_ofChars (fun _ hkind => absurd rfl hkind) fun c rest _ _ => .inr ?_
  have hne : (c :: rest).take (Lexeme.scan c rest).2 ≠ [] := by
    simp [Nat.ne_of_gt (Lexeme.scan_pos c rest)]
  rw [Lexeme.before_token]
  exact fun hempty => hne (String.toList_ofList.symm.trans (congrArg String.toList hempty))

end Token

namespace Piece
variable {file before : String} {fallback : Location} {segment : Segment} {items : List Node}
  {pieces : List Piece}

/-- Whether a piece of a string that comes after a text is where it says. -/
def Placed (file before : String) : Piece → Prop
  | literal _ raw location => location = .after file before ∧ raw ≠ ""
  | code block => block.Placed file before

def AllPlaced (file : String) : String → List Piece → Prop
  | _, [] => True
  | before, piece :: pieces =>
    piece.Placed file before ∧ AllPlaced file (before ++ piece.source) pieces

theorem backslash_append_ne (raw : String) : "\\" ++ raw ≠ "" := by
  intro hempty
  exact absurd (String.append_eq_empty_iff.mp hempty).1 (by decide)

theorem Reads.allPlaced {last : Bool} (h : Reads items pieces) (hitems : Escapes false items last)
    (hfills : ∀ item ∈ items, item.Fills) (hplaced : Node.AllPlaced file before items) :
    AllPlaced file before pieces := by
  induction h generalizing before with
  | nil => exact trivial
  | code hblock h ih =>
    exact ⟨hplaced.1, ih (hitems.of_code hblock).2 (List.forall_mem_cons.mp hfills).2 hplaced.2⟩
  | text htext hplain h ih =>
    obtain ⟨hsource, hrest⟩ := hitems.of_text htext
    obtain ⟨hfill, hfills⟩ := List.forall_mem_cons.mp hfills
    obtain ⟨hfirst, hlater⟩ := hplaced
    rw [Bool.not_false, Bool.true_and, beq_false_of_ne hplain] at hrest
    rw [hsource] at hlater
    exact ⟨⟨hfirst.location_eq, hfill.resolve_left htext⟩, ih hrest hfills hlater⟩
  | sign htext hslash _ h ih | letter htext hslash _ h ih =>
    obtain ⟨hitem, hnext, hrest⟩ := hitems.of_backslash htext hslash
    obtain ⟨hfirst, -, hlater⟩ := hplaced
    rw [hitem, hnext, String.append_assoc] at hlater
    exact ⟨⟨hfirst.location_eq, backslash_append_ne _⟩,
      ih hrest (fun item h => hfills item (.tail _ (.tail _ h))) hlater⟩
  | braced htext hslash _ hblock _ h ih =>
    obtain ⟨hitem, hnext, hblocks⟩ := hitems.of_backslash htext hslash
    obtain ⟨hfirst, -, -, hlater⟩ := hplaced
    rw [hitem, hnext, String.append_assoc, String.append_assoc] at hlater
    exact ⟨⟨hfirst.location_eq, backslash_append_ne _⟩, ih (hblocks.of_code hblock).2
      (fun item h => hfills item (.tail _ (.tail _ (.tail _ h)))) hlater⟩

end Piece

namespace Segment
variable {file before : String} {segment : Segment} {fallback : Location}

/-- Whether a segment after a text is where it says. It says nothing before it has text. -/
def Placed (file before : String) (segment : Segment) : Prop :=
  segment.location = if segment.raw = "" then none else some (.after file before)

theorem Placed.push {value raw : String} (h : segment.Placed file before) (hraw : raw ≠ "") :
    (segment.push value raw (.after file (before ++ segment.raw))).Placed file before := by
  have hne : segment.raw ++ raw ≠ "" := fun hempty => hraw (String.append_eq_empty_iff.mp hempty).2
  unfold Placed at h ⊢
  unfold Segment.push
  rw [if_neg hne, h]
  by_cases hempty : segment.raw = ""
  · rw [if_pos hempty, hempty, String.append_empty]
    rfl
  · rw [if_neg hempty]
    rfl

/-- Once a segment is written out, the next one may begin anywhere. -/
theorem Placed.rest (h : segment.Placed file before) (later : String) :
    segment.rest.Placed file later := by
  unfold Segment.rest
  split
  · next hempty =>
    unfold Placed at h ⊢
    rwa [if_pos hempty] at h ⊢
  · rfl

theorem Placed.nodes (h : segment.Placed file before) :
    AllPlaced file before (segment.nodes fallback) := by
  unfold Segment.nodes
  split
  · exact trivial
  · next hne =>
    refine ⟨Node.placed_of_children ?_ rfl trivial, trivial⟩
    unfold Placed at h
    rw [if_neg hne] at h
    exact congrArg (Option.getD · fallback) h

end Segment

theorem Piece.gather_placed {file before : String} {segment : Segment} (fallback : Location)
    {pieces : List Piece} (hsegment : segment.Placed file before)
    (hpieces : AllPlaced file (before ++ segment.raw) pieces) :
    Node.AllPlaced file before ((gather fallback segment pieces).1 ++
      (gather fallback segment pieces).2.nodes fallback) := by
  fun_induction gather fallback segment pieces generalizing before with
  | case1 segment => exact hsegment.nodes
  | case2 segment value raw location pieces ih =>
    obtain ⟨⟨rfl, hraw⟩, hrest⟩ := hpieces
    refine ih (hsegment.push hraw) ?_
    rw [source, String.append_assoc] at hrest
    exact hrest
  | case3 segment block pieces nodes last hgather ih =>
    obtain ⟨hblock, hrest⟩ := hpieces
    rw [List.append_assoc, Node.allPlaced_append, Segment.unparseAll_nodes]
    have hlater := ih (hsegment.rest (before ++ segment.raw ++ block.unparse)) ?_
    · rw [hgather] at hlater
      exact ⟨hsegment.nodes, hblock, hlater⟩
    · rw [Segment.raw_rest, String.append_empty]
      exact hrest

namespace Assembly
variable {file before : String} {kind : Kind} {items : List Node} {opener closer : String}
  {location : Location} {node : Node}

theorem string_placed (hlocation : location = .after file before) {last : Bool}
    (hescapes : Escapes false items last) (hfills : ∀ item ∈ items, item.Fills)
    (hitems : AllPlaced file (before ++ opener) items)
    (h : string items opener location = .ok node) : node.Placed file before := by
  obtain ⟨pieces, hreads, hnode⟩ := string_cases h
  have hplaced := hreads.allPlaced hescapes hfills hitems
  have hsegment : ({} : Segment).Placed file (before ++ opener) := rfl
  have hnodes := Piece.gather_placed location hsegment (by simpa using hplaced)
  rcases hnode with ⟨-, rfl⟩ | ⟨-, rfl⟩
  · exact Node.placed_of_children hlocation rfl trivial
  · exact Node.placed_of_children hlocation rfl hnodes

/-- A closed block's node begins where the block did, and its children where its items did. -/
theorem assemble_placed {assembly : Assembly} (hcustom : assembly.isCustom = false)
    (hlocation : location = .after file before)
    (hitems : AllPlaced file (before ++ opener) items)
    (hstring : assembly = .interpolated →
      (∃ last, Escapes false items last) ∧ ∀ item ∈ items, item.Fills)
    (h : assembly.assemble kind items opener closer location = .ok node) :
    node.Placed file before := by
  cases assembly with
  | block =>
    cases h
    exact Node.placed_of_children hlocation rfl hitems
  | comment =>
    cases h
    exact Node.placed_of_children hlocation rfl trivial
  | raw =>
    cases h
    exact Node.placed_of_children hlocation rfl trivial
  | interpolated =>
    obtain ⟨⟨last, hescapes⟩, hfills⟩ := hstring rfl
    exact string_placed hlocation hescapes hfills hitems h
  | custom finish => cases hcustom

end Assembly

namespace OpenBlock
variable {g : Grammar} {b : OpenBlock} {outer : List OpenBlock} {node : Node}
  {file before : String}

/-- What an open block and its items say of where they begin is so. -/
structure Located (file before : String) (b : OpenBlock) : Prop where
  location : b.location = .after file before
  items : AllPlaced file (before ++ b.opener) b.items.reverse
  fills : b.rule.assembly = .interpolated → ∀ item ∈ b.items, item.Fills

def AllLocated (file : String) : List OpenBlock → Prop
  | [] => True
  | b :: outer => b.Located file (sourceAll outer) ∧ AllLocated file outer

theorem located_new {rule : Rule} {opener : String} :
    (new rule opener (.after file before)).Located file before :=
  ⟨rfl, trivial, fun _ => List.forall_mem_nil _⟩

theorem Located.push (h : b.Located file before) (hnode : node.Placed file (before ++ b.source))
    (hfills : b.rule.assembly = .interpolated → node.Fills) :
    { b with items := node :: b.items }.Located file before where
  location := h.location
  items := by
    rw [List.reverse_cons, Node.allPlaced_append, String.append_assoc]
    exact ⟨h.items, hnode, trivial⟩
  fills := fun hassembly => List.forall_mem_cons.mpr ⟨hfills hassembly, h.fills hassembly⟩

/-- The node of a block that is closed begins where the block did. -/
theorem Located.close (h : b.Located file before) (hb : b.Sound g) {items others : List Node}
    {closer : String} (hitems : b.items.reverse = items ++ others)
    (hnode : b.close items closer = .ok node) : node.Placed file before := by
  refine Assembly.assemble_placed hb.lossless.1 h.location ?_ (fun hassembly => ?_) hnode
  · have hall := h.items
    rw [hitems, Node.allPlaced_append] at hall
    exact hall.1
  · obtain ⟨pending, hescapes, -⟩ := hb.escapes hassembly
    rw [hitems] at hescapes
    refine ⟨hescapes.of_append, fun item hitem => h.fills hassembly item ?_⟩
    rw [← List.mem_reverse, hitems]
    exact List.mem_append_left _ hitem

end OpenBlock

namespace Reading
open OpenBlock (AllLocated Stack sourceAll)

variable {g : Grammar} {b : OpenBlock} {outer : List OpenBlock} {token : Node} {file text : String}
  {reading : Reading}

def Located (file : String) : Reading → Prop
  | inside b outer => AllLocated file (b :: outer)
  | finished _ => True

theorem located_giveBack {inner : Rule} {node : Node} (hstack : Stack g inner outer)
    (houter : AllLocated file outer) (hnode : node.Placed file (sourceAll outer))
    (hkind : inner.assembly = .block → inner.kind.isBlock = true → node.kind.isBlock = true) :
    (giveBack node outer).Located file := by
  cases outer with
  | nil => exact trivial
  | cons parent outer =>
    obtain ⟨hparent, houter⟩ := houter
    refine ⟨hparent.push hnode fun hassembly => ?_, houter⟩
    obtain ⟨hblock, hisBlock⟩ := hstack.1.fits hassembly
    exact .inl (hkind hblock hisBlock)

/-- A block begins with the earliest of the items that its opener is made of. -/
theorem located_enter (hb : b.Located file (sourceAll outer)) (houter : AllLocated file outer)
    (rule : Rule) (opener : String) {spanned : Nat} (hspanned : 0 < spanned)
    (hitems : b.items ≠ []) :
    (inside (.new rule opener ((b.items.take spanned).getLast?.getD token).location)
      ({ b.reset with items := b.items.drop spanned } :: outer)).Located file := by
  have hne : b.items.take spanned ≠ [] := by
    simp [hitems, Nat.ne_of_gt hspanned]
  obtain ⟨first, hfirst⟩ := Option.isSome_iff_exists.mp (List.getLast?_isSome.mpr hne)
  have hall := hb.items
  rw [Node.reverse_split b.items spanned, Node.allPlaced_append, String.append_assoc] at hall
  obtain ⟨hdropped, htaken⟩ := hall
  have hlocation := htaken.location_eq (List.head?_reverse.trans hfirst)
  rw [hfirst, Option.getD_some, hlocation]
  exact ⟨OpenBlock.located_new, ⟨hb.location, hdropped, fun hassembly item hitem =>
    hb.fills hassembly item (List.mem_of_mem_drop hitem)⟩, houter⟩

/-- A reading that goes on by a token which is where it says knows where its blocks are. -/
theorem located_step (hb : b.Sound g) (hstack : Stack g b.rule outer)
    (htoken : token.Fills) (hplaced : token.Placed file (sourceAll (b :: outer)))
    (hlocated : AllLocated file (b :: outer)) (h : step g b outer token = .ok reading) :
    reading.Located file := by
  obtain ⟨hblock, houter⟩ := hlocated
  have hpushed := hblock.push hplaced fun _ => htoken
  have hskipped : (b.skipped token).Located file (sourceAll outer) :=
    ⟨hpushed.location, hpushed.items, hpushed.fills⟩
  have hwatched : (b.watched token).Located file (sourceAll outer) :=
    ⟨hpushed.location, hpushed.items, hpushed.fills⟩
  rcases step_cases h with ⟨-, rfl⟩ | ⟨-, ⟨marker, node, -, hmem, -, hnode, rfl⟩ |
    ⟨trigger, inner, -, -, -, -, -, rfl⟩ | rfl⟩
  · exact ⟨hskipped, houter⟩
  · have hknown : marker.marker ∈ b.rule.markers := hb.markers ▸ List.mem_map_of_mem hmem
    have hsplit := Node.reverse_split b.items marker.tokens
    obtain ⟨-, hkind⟩ := OpenBlock.close_source hb (OpenBlock.closer_eq hknown) hsplit hnode
    exact located_giveBack hstack houter (hblock.close hb hsplit hnode) hkind
  · exact located_enter hwatched houter inner trigger.marker (Nat.succ_pos _)
      (List.cons_ne_nil _ _)
  · exact ⟨hwatched, houter⟩

/-- A reading that goes on by several tokens knows where its blocks are. -/
theorem located_foldlM (hg : g.Lossless) {tokens : List Node}
    (htokens : ∀ token ∈ tokens, token.IsToken ∧ token.Fills)
    (hplaced : AllPlaced file text tokens) (hreading : reading.Spells g text)
    (hlocated : reading.Located file) {later : Reading}
    (h : tokens.foldlM (next g) reading = .ok later) : later.Located file := by
  induction tokens generalizing reading text with
  | nil =>
    cases h
    exact hlocated
  | cons token tokens ih =>
    rw [List.foldlM_cons] at h
    obtain ⟨middle, hmiddle, h⟩ := bind_eq_ok.mp h
    obtain ⟨⟨htoken, hfills⟩, htokens⟩ := List.forall_mem_cons.mp htokens
    refine ih htokens hplaced.2 (hreading.next hg htoken hmiddle) ?_ h
    cases reading with
    | inside b outer =>
      obtain ⟨hb, hstack, rfl⟩ := hreading
      exact located_step hb hstack hfills hplaced.1 hlocated hmiddle
    | finished tree => exact hreading.elim

/-- At the end of the input, the tree says of all its nodes where they begin. -/
theorem closeAll_placed (hb : b.Sound g) (hstack : Stack g b.rule outer)
    (hlocated : AllLocated file (b :: outer)) {tree : Node} (h : closeAll b outer = .ok tree) :
    tree.Placed file "" := by
  induction outer generalizing b with
  | nil =>
    obtain ⟨-, node, hnode, h⟩ := closeAll_eq_ok h
    cases h
    exact hlocated.1.close hb (List.append_nil _).symm hnode
  | cons parent outer ih =>
    obtain ⟨hends, node, hnode, h⟩ := closeAll_eq_ok h
    obtain ⟨htext, hkind⟩ := close_at_end hb hends hnode
    obtain ⟨hinner, hlocated⟩ := hlocated
    have hplaced := hinner.close hb (List.append_nil _).symm hnode
    exact ih (hstack.1.push hkind) hstack.2 (located_giveBack hstack hlocated hplaced hkind) h

end Reading

/-- The trees of a lossless grammar say of all their nodes where they begin. -/
theorem placed_of_parseWith {g : Grammar} (hg : g.Lossless) {text file : String} {tree : Node}
    (h : parseWith g text file = .ok tree) : tree.Placed file "" := by
  obtain ⟨tokens, htokens, hall, -⟩ := takeWhile_tokenize text file
  have hstream : AllPlaced file "" (tokenize text file) := allPlaced_ofChars rfl
  have hstart : ((tokenize text file).head?.map (·.location)).getD .unknown = .after file "" := by
    unfold tokenize
    rw [Token.head?_ofChars]
    rfl
  have hfills : ∀ token ∈ tokens, token.IsToken ∧ token.Fills := by
    intro token htoken
    have hmem : token ∈ tokenize text file := (List.takeWhile_subset _) (htokens ▸ htoken)
    exact ⟨hall token htoken, fills_of_mem_ofChars token hmem (hall token htoken).kind_ne⟩
  rw [← List.takeWhile_append_dropWhile (p := (·.kind != .endOfInput)) (l := tokenize text file),
    htokens, Node.allPlaced_append] at hstream
  obtain ⟨rule, reading, hrule, hreading, hfinish⟩ := Grammar.parse_eq_ok h
  rw [hstart, htokens] at hreading
  have hspells := Reading.spells_new hg hrule (.after file "")
  have hend := hspells.foldlM hg hall hreading
  have hlocated := Reading.located_foldlM hg hfills hstream.1 hspells
    ⟨OpenBlock.located_new, trivial⟩ hreading
  cases reading with
  | finished tree => exact hend.elim
  | inside b outer =>
    obtain ⟨hb, hstack, -⟩ := hend
    exact Reading.closeAll_placed hb hstack hlocated hfinish

/-- Every node of a tree that is read says where it begins, which is at the point of the text that
it was read from where its own text begins: on the line that as many newlines come before as that
line counts, after as many characters since the last of them as the column counts. -/
theorem location_of_parse {text file : String} {tree : Node} (h : parse text file = .ok tree)
    {node : Node} {front back : String} (hnode : tree.Occurs node front back) :
    front ++ node.unparse ++ back = text ∧
      node.location = .new file (front.toList.count '\n')
        (front.toList.reverse.takeWhile (· ≠ '\n')).length := by
  constructor
  · rw [hnode.unparse_eq]
    exact unparse_of_parseWith Grammar.standard_lossless h
  · have hplaced := placed_of_parseWith Grammar.standard_lossless h node front back hnode
    rw [hplaced, String.empty_append, Location.after_eq]

theorem location_of_parse_block :
    ∃ tree block back, parse "a\n (b)" "main" = .ok tree ∧
      Node.Occurs tree block "a\n " back ∧ block.location = .new "main" 1 1 := by
  have hshape : (parse "a\n (b)" "main").toOption.map
      (fun tree => (tree.fragments, tree.children.map Node.unparse)) =
        some ({}, ["a", "\n", " "] ++ ["(b)"]) := by decide +kernel
  cases h : parse "a\n (b)" "main" with
  | error e =>
    rw [h] at hshape
    cases hshape
  | ok tree =>
    rw [h] at hshape
    obtain ⟨hfragments, htexts⟩ := Prod.mk.inj (Option.some.inj hshape)
    obtain ⟨earlier, rest, hchildren, hearlier, hrest⟩ := List.map_eq_append_iff.mp htexts
    obtain ⟨block, later, rfl, -, -⟩ := List.map_eq_cons_iff.mp hrest
    have hblock := Node.Occurs.inside hchildren .root
    rw [hfragments, hearlier] at hblock
    exact ⟨tree, block, _, rfl, hblock, (location_of_parse h hblock).2⟩

end Homoicon
