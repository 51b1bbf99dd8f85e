import Homoicon.Proofs.Reading.Refinement

/-! What holds of every block that is read, from what one closed block does with its items. -/
namespace Homoicon.Form
variable {form inner : Form} {mark : Mark} {opener : String}
  {location : Location} {items tokens : List Node}

/-- Whether the opener is one that leads into such a block; nothing leads into a whole text. -/
def EnteredBy (form : Form) (opener : String) : Prop :=
  form = .toplevel ∧ opener = "" ∨
    ∃ outer mark, (mark, Action.enter form) ∈ Form.marks outer ∧ opener = mark.text

/-- Whether the closer is one that ends such a block, which for some the end of the input does. -/
def ClosedBy (form : Form) (closer : String) : Prop :=
  form.endsWithInput = true ∧ closer = "" ∨
    ∃ mark, (mark, Action.close) ∈ form.marks ∧ closer = mark.text

theorem enteredBy_of_mem (h : (mark, .enter inner) ∈ form.marks) : inner.EnteredBy mark.text :=
  .inr ⟨form, mark, h, rfl⟩

/-- Properties of the tokens, of what has been read of each form of block before a token of a given
text, and of the node of such a block, which one turn of reading leads from one to the other. -/
structure Progress (Token : Node → Prop) (Items : Form → List Node → Option String → Prop)
    (Block : Form → Node → Prop) : Prop where
  start : ∀ form next?, Items form [] next?
  text : ∀ {form items token next?}, Items form items (some token.fragments.before) →
    Token token → form.markAt? token.fragments.before next? = none →
    Items form (token :: items) next?
  keep : ∀ {form items token tokens mark} next?, Items form items (some token.fragments.before) →
    (∀ t ∈ token :: tokens, Token t) →
    form.markAt? token.fragments.before (tokens.head?.map (·.fragments.before)) =
      some (mark, .keep) →
    Items form ((tokens.take mark.more).reverse ++ token :: items) next?
  enter : ∀ {form inner items mark text? node} {token : Node} next?,
    Items form items (some token.fragments.before) →
    form.markAt? token.fragments.before text? = some (mark, .enter inner) → Block inner node →
    Items form (node :: items) next?
  close : ∀ {form opener items mark text? location node} {token : Node}, form.EnteredBy opener →
    Items form items (some token.fragments.before) →
    form.markAt? token.fragments.before text? = some (mark, .close) →
    form.node items opener mark.text location = .ok node → Block form node
  finish : ∀ {form opener items location node}, form.EnteredBy opener →
    form.endsWithInput = true → Items form items none →
    form.node items opener "" location = .ok node → Block form node

theorem Progress.read {Token : Node → Prop} {Items : Form → List Node → Option String → Prop}
    {Block : Form → Node → Prop} (hprogress : Progress Token Items Block)
    (hopener : form.EnteredBy opener)
    (hitems : Items form items (tokens.head?.map (·.fragments.before)))
    (htokens : ∀ token ∈ tokens, Token token) {found : Parsed tokens}
    (h : form.read opener location items tokens = .ok found) : Block form found.node := by
  fun_induction Form.read form opener location items tokens with
  | case1 form opener location items hends =>
    obtain ⟨node, hclosed, h⟩ := bind_eq_ok.mp h
    cases h
    exact hprogress.finish hopener hends hitems hclosed
  | case2 form opener location items hends => cases h
  | case3 form opener location items token tokens hmark ih =>
    obtain ⟨later, hlater, h⟩ := bind_eq_ok.mp h
    cases h
    obtain ⟨htoken, htokens⟩ := List.forall_mem_cons.mp htokens
    exact ih hopener (hprogress.text hitems htoken hmark) htokens hlater
  | case4 form opener location items token tokens mark hmark ih =>
    obtain ⟨later, hlater, h⟩ := bind_eq_ok.mp h
    cases h
    exact ih hopener (hprogress.keep _ hitems htokens hmark)
      (fun token h => htokens token (.tail _ (List.mem_of_mem_drop h))) hlater
  | case5 form opener location items token tokens mark hmark =>
    obtain ⟨node, hclosed, h⟩ := bind_eq_ok.mp h
    cases h
    exact hprogress.close hopener hitems hmark hclosed
  | case6 form opener location items token tokens mark inner hmark ihinner ihouter =>
    obtain ⟨block, hblock, h⟩ := bind_eq_ok.mp h
    obtain ⟨later, hlater, h⟩ := bind_eq_ok.mp h
    cases h
    have hmem : (mark, .enter inner) ∈ form.marks := List.mem_of_find?_eq_some hmark
    have htokens : ∀ token ∈ tokens.drop mark.more, Token token := fun token h =>
      htokens token (.tail _ (List.mem_of_mem_drop h))
    have hinner := ihinner (enteredBy_of_mem hmem) (hprogress.start _ _) htokens hblock
    exact ihouter block hopener (hprogress.enter _ hitems hmark hinner)
      (fun token h => htokens token (block.suffix.subset h)) hlater

theorem Progress.parse {Token : Node → Prop} {Items : Form → List Node → Option String → Prop}
    {Block : Form → Node → Prop} (hprogress : Progress Token Items Block) {text file : String}
    {tree : Node} (htokens : ∀ token ∈ tokenize text file, token.IsToken → Token token)
    (h : parse text file = .ok tree) : Block .toplevel tree := by
  obtain ⟨tokens, hread, hall, -⟩ := takeWhile_tokenize text file
  rw [parse_eq_resume, resume_toplevel (leadsAlone_tokenize text file), hread] at h
  obtain ⟨found, hfound, rfl⟩ := map_eq_ok.mp h
  refine hprogress.read (.inl ⟨rfl, rfl⟩) (hprogress.start _ _) (fun token htoken => ?_) hfound
  exact htokens token (List.takeWhile_subset _ (hread ▸ htoken)) (hall token htoken)

/-- Properties of the tokens, of what stands in each form of block and of the node of such a block,
which reading leads from one to the other. -/
structure Invariant (Token : Node → Prop) (Item Block : Form → Node → Prop) : Prop where
  text : ∀ {form token next?}, Token token → form.markAt? token.fragments.before next? = none →
    Item form token
  keep : ∀ {form mark token}, Token token → (mark, .keep) ∈ form.marks → Item form token
  enter : ∀ {form inner mark node}, (mark, .enter inner) ∈ form.marks → Block inner node →
    Item form node
  node : ∀ {form opener closer location items node}, form.EnteredBy opener →
    form.ClosedBy closer → (∀ item ∈ items, Item form item) →
    form.node items opener closer location = .ok node → Block form node

theorem Invariant.progress {Token : Node → Prop} {Item Block : Form → Node → Prop}
    (hinvariant : Invariant Token Item Block) :
    Progress Token (fun form items _ => ∀ item ∈ items, Item form item) Block where
  start _ _ := List.forall_mem_nil _
  text hitems htoken hmark := List.forall_mem_cons.mpr ⟨hinvariant.text htoken hmark, hitems⟩
  keep _ hitems htokens hmark := by
    have hmem := List.mem_of_find?_eq_some hmark
    obtain ⟨htoken, htokens⟩ := List.forall_mem_cons.mp htokens
    refine List.forall_mem_append.mpr ⟨fun item hitem => ?_, ?_⟩
    · have htaken := List.mem_of_mem_take (List.mem_reverse.mp hitem)
      exact hinvariant.keep (htokens item htaken) hmem
    · exact List.forall_mem_cons.mpr ⟨hinvariant.keep htoken hmem, hitems⟩
  enter _ hitems hmark hblock := List.forall_mem_cons.mpr
    ⟨hinvariant.enter (List.mem_of_find?_eq_some hmark) hblock, hitems⟩
  close hopener hitems hmark hnode := hinvariant.node hopener
    (.inr ⟨_, List.mem_of_find?_eq_some hmark, rfl⟩) hitems hnode
  finish hopener hends hitems hnode := hinvariant.node hopener (.inl ⟨hends, rfl⟩) hitems hnode

theorem Invariant.parse {Token : Node → Prop} {Item Block : Form → Node → Prop}
    (hinvariant : Invariant Token Item Block) {text file : String} {tree : Node}
    (htokens : ∀ token ∈ tokenize text file, token.IsToken → Token token)
    (h : parse text file = .ok tree) : Block .toplevel tree :=
  hinvariant.progress.parse htokens h

end Homoicon.Form
