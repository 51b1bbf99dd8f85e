import Homoicon.Grammar.Assembly
import Homoicon.Token

/-! The source text of nodes, and of the tokens that a text is cut into. -/
namespace Homoicon
open Node (unparseAll)

/-- What has been checked of each character of a list holds of its members. -/
theorem Text.of_mem {P : Char → Prop} [DecidablePred P] {chars : List Char} {c : Char}
    (h : chars.all fun c => decide (P c)) (hc : c ∈ chars) : P c :=
  of_decide_eq_true (List.all_eq_true.mp h c hc)

namespace Node
variable {node : Node} {nodes others : List Node}

theorem unparseAll_nil : unparseAll [] = "" := String.join_nil

theorem unparseAll_cons : unparseAll (node :: nodes) = node.unparse ++ unparseAll nodes := by
  unfold unparseAll
  rw [List.map_cons, String.join_cons]

theorem unparseAll_append :
    unparseAll (nodes ++ others) = unparseAll nodes ++ unparseAll others := by
  unfold unparseAll
  rw [List.map_append, String.join_append]

/-- Items that stand latest first: the earlier ones and then the latest. -/
theorem unparseAll_reverse_cons :
    unparseAll (node :: nodes).reverse = unparseAll nodes.reverse ++ node.unparse := by
  rw [List.reverse_cons, unparseAll_append, unparseAll_cons, unparseAll_nil, String.append_empty]

theorem reverse_split (nodes : List Node) (n : Nat) :
    nodes.reverse = (nodes.drop n).reverse ++ (nodes.take n).reverse := by
  rw [← List.reverse_append, List.take_append_drop]

theorem unparseAll_reverse_split (n : Nat) :
    unparseAll nodes.reverse =
      unparseAll (nodes.drop n).reverse ++ unparseAll (nodes.take n).reverse := by
  rw [← unparseAll_append, ← reverse_split]

theorem intercalate_empty (parts : List String) : "".intercalate parts = String.join parts := by
  induction parts with
  | nil => simp
  | cons part parts ih =>
    cases parts with
    | nil => simp
    | cons next parts =>
      rw [String.intercalate_cons_cons, ih, String.join_cons]
      simp

/-- Without a joiner, a node's text is its children's between its own two fragments. -/
theorem unparse_eq_of_no_joiner (hjoiner : node.fragments.joiner = "") (hkind : node.kind ≠ .map) :
    node.unparse = node.fragments.before ++ unparseAll node.children ++ node.fragments.after := by
  rw [unparse_eq, Renderer.joined, if_neg (fun h => hkind h.1), hjoiner, intercalate_empty]
  rfl

end Node

/-- Whether a node is a token of a text: it has no parts and its text is its own. -/
structure Node.IsToken (node : Node) : Prop where
  unparse_eq : node.unparse = node.fragments.before
  not_isBlock : node.kind.isBlock = false
  kind_ne : node.kind ≠ .endOfInput

namespace Lexeme

theorem isToken_token (lexeme : Lexeme) (text : List Char) (location : Location) :
    (lexeme.token text location).IsToken := by
  refine ⟨?_, ?_, ?_⟩
  · rw [Node.unparse_eq_of_no_joiner]
    all_goals cases lexeme <;> simp [token, Node.number, Node.name, Node.operator, Node.space,
      Node.symbol, Node.new, Node.build, Node.unparseAll_nil]
  all_goals cases lexeme <;> simp [token, Node.number, Node.name, Node.operator, Node.space,
    Node.symbol, Node.new, Node.build, Kind.isBlock]

theorem before_token (lexeme : Lexeme) (text : List Char) (location : Location) :
    (lexeme.token text location).fragments.before = String.ofList text := by
  cases lexeme <;> rfl

theorem location_token (lexeme : Lexeme) (text : List Char) (location : Location) :
    (lexeme.token text location).location = location := by
  cases lexeme <;> rfl

end Lexeme

namespace Token

/-- The tokens of a text spell it, and nothing but the end of the input comes after them. -/
theorem ofChars_eq_append (file : String) (position : Text.Position) (text : List Char) :
    ∃ tokens location, ofChars file position text = tokens ++ [.endOfInput location] ∧
      (∀ token ∈ tokens, token.IsToken) ∧ (unparseAll tokens).toList = text := by
  fun_induction ofChars file position text with
  | case1 position => exact ⟨[], _, rfl, List.forall_mem_nil _, by simp [Node.unparseAll_nil]⟩
  | case2 position c rest found text ih =>
    obtain ⟨tokens, location, htokens, hall, htext⟩ := ih
    have htoken := found.1.isToken_token text (.new file position.line position.column)
    refine ⟨_ :: tokens, location, ?_, List.forall_mem_cons.mpr ⟨htoken, hall⟩, ?_⟩
    · rw [htokens, List.cons_append]
    · rw [Node.unparseAll_cons, htoken.unparse_eq, Lexeme.before_token, String.toList_append, htext,
        String.toList_ofList, List.take_append_drop]

/-- What holds of the end of the input and of all that a text can begin with holds of every token.
-/
theorem forall_mem_ofChars {P : Node → Prop} {file : String} {position : Text.Position}
    {text : List Char} (hend : ∀ location, P (.endOfInput location))
    (hscan : ∀ c rest location, P ((Lexeme.scan c rest).1.token
      ((c :: rest).take (Lexeme.scan c rest).2) location)) :
    ∀ token ∈ ofChars file position text, P token := by
  fun_induction ofChars file position text with
  | case1 position => exact List.forall_mem_singleton.mpr (hend _)
  | case2 position c rest found text ih => exact List.forall_mem_cons.mpr ⟨hscan c rest _, ih⟩

/-- The first token of a text begins where the text does. -/
theorem head?_ofChars (file : String) (position : Text.Position) (text : List Char) :
    (ofChars file position text).head?.map (·.location) =
      some (.new file position.line position.column) := by
  cases text with
  | nil =>
    rw [ofChars]
    rfl
  | cons c rest =>
    rw [ofChars]
    exact congrArg some (Lexeme.location_token ..)

theorem takeWhile_ofChars (file : String) (position : Text.Position) (text : List Char) :
    (ofChars file position text).takeWhile (·.kind != .endOfInput) =
      (ofChars file position text).dropLast := by
  obtain ⟨tokens, location, htokens, hall, -⟩ := ofChars_eq_append file position text
  have hkinds : ∀ token ∈ tokens, (token.kind != .endOfInput) = true := fun token h => by
    simpa using (hall token h).kind_ne
  rw [htokens, List.takeWhile_append_of_pos hkinds, List.dropLast_concat]
  exact List.append_nil tokens

end Token

/-- What a reader is given of a text: tokens that spell it. -/
theorem takeWhile_tokenize (text file : String) :
    ∃ tokens, (tokenize text file).takeWhile (·.kind != .endOfInput) = tokens ∧
      (∀ token ∈ tokens, token.IsToken) ∧ unparseAll tokens = text := by
  obtain ⟨tokens, location, htokens, hall, htext⟩ := Token.ofChars_eq_append file {} text.toList
  refine ⟨tokens, ?_, hall, String.toList_inj.mp htext⟩
  unfold tokenize
  rw [Token.takeWhile_ofChars, htokens, List.dropLast_concat]

namespace Numeral
variable {c : Char} {rest : List Char}

theorem leading_of_neg {p : Char → Bool} (h : p c = false) : leading p (c :: rest) = 0 := by
  unfold leading
  rw [List.takeWhile_cons_of_neg (Bool.eq_false_iff.mp h), List.length_nil]

theorem leading_of_pos {p : Char → Bool} (h : p c = true) :
    leading p (c :: rest) = leading p rest + 1 := by
  unfold leading
  rw [List.takeWhile_cons_of_pos h, List.length_cons]

theorem markedLength_of_ne {marker : Char} {isDigit : Char → Bool} (h : c ≠ '0') :
    markedLength marker isDigit (c :: rest) = 0 := by
  unfold markedLength
  split
  · next heq => exact absurd (List.cons.inj heq).1 h
  · rfl

/-- A literal begins with a digit, a minus or a point. -/
theorem length_eq_zero (hdigit : c.isDigit = false) (hminus : c ≠ '-') (hpoint : c ≠ '.') :
    length (c :: rest) = 0 := by
  have hzero : c ≠ '0' := by
    rintro rfl
    cases hdigit
  have hradix : radixLength (c :: rest) = 0 := by
    unfold radixLength
    rw [markedLength_of_ne hzero, if_neg (not_not_intro rfl)]
    split
    · next heq => exact absurd (List.cons.inj heq).1 hminus
    · exact markedLength_of_ne hzero
  have hmantissa : mantissaLength (c :: rest) = 0 := by
    unfold mantissaLength
    rw [leading_of_neg hdigit]
    dsimp only [List.drop_zero]
    split
    · next heq => exact absurd (List.cons.inj heq).1 hpoint
    · rfl
  unfold length decimalLength
  rw [hradix, hmantissa]
  rfl

end Numeral

theorem Lexeme.scan_eq_scanChar {c : Char} {rest : List Char} (hdigit : c.isDigit = false)
    (hminus : c ≠ '-') (hpoint : c ≠ '.') : scan c rest = scanChar c rest :=
  if_neg (not_not_intro (Numeral.length_eq_zero hdigit hminus hpoint))

/-- A text that begins with the given character has no other. -/
def StandsAlone (c : Char) (text : String) : Prop :=
  text.toList.head? = some c → text.toList = [c]

/-- A sign that no literal begins with is a token of its own. -/
theorem standsAlone_of_mem_ofChars {c : Char} (hsign : Text.isPunctuation c = true)
    (hdigit : c.isDigit = false) (hminus : c ≠ '-') (hpoint : c ≠ '.') {file : String}
    {position : Text.Position} {chars : List Char} :
    ∀ token ∈ Token.ofChars file position chars, StandsAlone c token.fragments.before := by
  refine Token.forall_mem_ofChars (fun _ hhead => nomatch hhead) fun first rest _ hhead => ?_
  rw [Lexeme.before_token, String.toList_ofList, List.head?_take,
    if_neg (Nat.ne_of_gt (Lexeme.scan_pos first rest))] at hhead
  obtain rfl : first = c := Option.some.inj hhead
  have hscan : Lexeme.scan first rest = (.operator, 1) := by
    rw [Lexeme.scan_eq_scanChar hdigit hminus hpoint]
    exact if_pos hsign
  rw [Lexeme.before_token, String.toList_ofList, hscan]
  rfl

end Homoicon
