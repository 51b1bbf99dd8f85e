import Homoicon.Proofs.Node.Structure
import Homoicon.Proofs.Reading.Nesting
import Homoicon.Proofs.Reading.Pieces

/-! Every text can be written as a string, between either kind of quotes. -/
namespace Homoicon
open Node (unparseAll)

def Mark.first : Mark → Char
  | one c => c
  | two c _ => c

namespace Form
variable {form inner : Form} {opener : String} {location : Location} {items tokens : List Node}
  {token : Node} {mark : Mark}

theorem markAt?_eq_none {text : String} {next? : Option String}
    (h : ∀ entry ∈ form.marks, text ≠ .singleton entry.1.first) :
    form.markAt? text next? = none := by
  refine List.find?_eq_none.mpr fun ⟨mark, action⟩ hentry hat => ?_
  cases mark with
  | one c => exact h _ hentry (beq_iff_eq.mp hat)
  | two c next => exact h _ hentry (beq_iff_eq.mp (Bool.and_eq_true_iff.mp hat).1)

def readParts (form : Form) (opener : String) (location : Location) (items tokens : List Node) :
    Except ParseError (Node × List Node) :=
  (fun found => (found.node, found.rest)) <$> form.read opener location items tokens

theorem readParts_text
    (hmark : form.markAt? token.fragments.before (tokens.head?.map (·.fragments.before)) = none) :
    form.readParts opener location items (token :: tokens) =
      form.readParts opener location (token :: items) tokens := by
  unfold readParts
  rw [read]
  simp only [hmark]
  rw [map_bind_ok]
  rfl

theorem readParts_keep
    (hmark : form.markAt? token.fragments.before (tokens.head?.map (·.fragments.before)) =
      some (mark, .keep)) :
    form.readParts opener location items (token :: tokens) =
      form.readParts opener location ((tokens.take mark.more).reverse ++ token :: items)
        (tokens.drop mark.more) := by
  unfold readParts
  rw [read]
  simp only [hmark]
  rw [map_bind_ok]
  rfl

theorem readParts_close
    (hmark : form.markAt? token.fragments.before (tokens.head?.map (·.fragments.before)) =
      some (mark, .close)) :
    form.readParts opener location items (token :: tokens) =
      (fun node => (node, tokens.drop mark.more)) <$>
        form.node items opener mark.text location := by
  unfold readParts
  rw [read]
  simp only [hmark]
  rw [map_bind_ok]

theorem readParts_enter
    (hmark : form.markAt? token.fragments.before (tokens.head?.map (·.fragments.before)) =
      some (mark, .enter inner)) :
    form.readParts opener location items (token :: tokens) =
      inner.readParts mark.text token.location [] (tokens.drop mark.more) >>= fun block =>
        form.readParts opener location (block.1 :: items) block.2 := by
  unfold readParts
  rw [read]
  simp only [hmark]
  cases inner.read mark.text token.location [] (tokens.drop mark.more) with
  | error e => rfl
  | ok block =>
    rw [ok_bind, map_bind_ok]
    rfl

/-- A text is read as one node if its first mark opens a block that all of the rest belongs to. -/
theorem parse_of_readParts {text file : String} {node : Node}
    (htokens : (tokenize text file).dropLast = token :: tokens)
    (hmark : toplevel.markAt? token.fragments.before (tokens.head?.map (·.fragments.before)) =
      some (mark, .enter inner))
    (hread : inner.readParts mark.text token.location [] (tokens.drop mark.more) =
      .ok (node, [])) :
    parse text file = .ok (.block .toplevelBlock [node] "" "" (.new file 0 0)) := by
  have halone : LeadsAlone (tokenize text file).dropLast :=
    (leadsAlone_ofChars file {} _).of_subset (List.dropLast_subset _)
  have hend : toplevel.readParts "" (.new file 0 0) [node] [] =
      .ok (.block .toplevelBlock [node] "" "" (.new file 0 0), []) := by
    unfold readParts
    rw [read, if_pos (show toplevel.endsWithInput = true from rfl)]
    rfl
  have hwhole := @readParts_enter _ _ "" (.new file 0 0) [] _ _ _ hmark
  rw [hread, ok_bind, hend] at hwhole
  obtain ⟨found, hfound, hparts⟩ := map_eq_ok.mp hwhole
  rw [parse_eq_resume_dropLast, resume_toplevel halone, htokens, hfound]
  exact congrArg Except.ok (Prod.mk.inj hparts).1

end Form

inductive Quote
  | double
  | single
deriving DecidableEq

namespace Quote

def sign : Quote → Char
  | double => '"'
  | single => '\''

/-- What a string holds after a backslash only. -/
def special : Quote → List Char
  | double => ['\\', '"', '\x7b']
  | single => ['\\', '\'']

def form : Quote → Form
  | double => .string
  | single => .rawString

/-- A text with a backslash before each special character. -/
def escape (q : Quote) (text : List Char) : List Char :=
  text.flatMap fun c => if c ∈ q.special then ['\\', c] else [c]

def literal (q : Quote) (text : String) : String :=
  .ofList (q.sign :: (q.escape text.toList ++ [q.sign]))

variable {q : Quote} {c : Char} {text : List Char}

theorem escape_cons_of_mem (hc : c ∈ q.special) :
    q.escape (c :: text) = '\\' :: c :: q.escape text := by
  simp [escape, hc]

theorem escape_cons_of_not_mem (hc : c ∉ q.special) :
    q.escape (c :: text) = c :: q.escape text := by
  simp [escape, hc]

theorem escape_append (first second : List Char) :
    q.escape (first ++ second) = q.escape first ++ q.escape second :=
  List.flatMap_append

theorem escape_of_plain (h : ∀ c ∈ text, c ∉ q.special) : q.escape text = text := by
  induction text with
  | nil => rfl
  | cons c text ih =>
    obtain ⟨hc, htext⟩ := List.forall_mem_cons.mp h
    rw [escape_cons_of_not_mem hc, ih htext]

theorem slash_mem (q : Quote) : '\\' ∈ q.special := by cases q <;> decide

theorem sign_mem (q : Quote) : q.sign ∈ q.special := by cases q <;> decide

theorem isBreak_of_mem (hc : c ∈ q.special) : IsBreak c :=
  Text.of_mem (by cases q <;> decide) hc

theorem scan_of_mem (hc : c ∈ q.special) (later : List Char) :
    Lexeme.scan c later = (.operator, 1) := by
  have hclass : Text.isPunctuation c = true ∧ c.isDigit = false ∧ c ≠ '-' ∧ c ≠ '.' :=
    Text.of_mem (P := fun c => Text.isPunctuation c = true ∧ c.isDigit = false ∧ c ≠ '-' ∧ c ≠ '.')
      (by cases q <;> decide) hc
  obtain ⟨hsign, hdigit, hminus, hpoint⟩ := hclass
  rw [Lexeme.scan_eq_scanChar hdigit hminus hpoint]
  exact if_pos hsign

/-- The tokens between the quotes of a string, by the text that they stand for. -/
inductive Body (q : Quote) : List Node → List Char → Prop
  | nil : Body q [] []
  | plain {token : Node} {tokens : List Node} {text : List Char} (htoken : token.IsToken)
      (hplain : ∀ c ∈ token.fragments.before.toList, c ∉ q.special) (h : Body q tokens text) :
      Body q (token :: tokens) (token.fragments.before.toList ++ text)
  | pair {c : Char} {tokens : List Node} {text : List Char} (hc : c ∈ q.special)
      (slash sign : Location) (h : Body q tokens text) :
      Body q (.operator "\\" slash :: .operator (.singleton c) sign :: tokens) (c :: text)

namespace Body
variable {tokens others : List Node}

theorem unparseAll_eq (h : Body q tokens text) : (unparseAll tokens).toList = q.escape text := by
  induction h with
  | nil =>
    rw [Node.unparseAll_nil]
    rfl
  | plain htoken hplain h ih =>
    rw [Node.unparseAll_cons, htoken.unparse_eq, String.toList_append, ih, escape_append,
      escape_of_plain hplain]
  | @pair c tokens text hc slash sign h ih =>
    have hslash := Node.unparse_symbol .operatorSymbol "\\" slash (by decide)
    have hsign := Node.unparse_symbol .operatorSymbol (.singleton c) sign (by decide)
    rw [Node.unparseAll_cons, Node.unparseAll_cons, Node.operator, Node.operator, hslash, hsign,
      String.toList_append, String.toList_append, ih, escape_cons_of_mem hc,
      String.toList_singleton]
    rfl

theorem append (hothers : ∀ token ∈ others, token.IsToken)
    (hplain : ∀ c ∈ (unparseAll others).toList, c ∉ q.special) (h : Body q tokens text) :
    Body q (others ++ tokens) ((unparseAll others).toList ++ text) := by
  induction others with
  | nil =>
    rw [Node.unparseAll_nil]
    exact h
  | cons token others ih =>
    obtain ⟨htoken, hothers⟩ := List.forall_mem_cons.mp hothers
    rw [Node.unparseAll_cons, htoken.unparse_eq, String.toList_append] at hplain ⊢
    obtain ⟨hfirst, hrest⟩ := List.forall_mem_append.mp hplain
    rw [List.append_assoc]
    exact .plain htoken hfirst (ih hothers hrest)

end Body

/-- The tokens of a written string: its body and its end. -/
theorem exists_body (q : Quote) (file : String) (position : Text.Position) {plain : List Char}
    (hplain : ∀ c ∈ plain, c ∉ q.special) (text later : List Char) :
    ∃ tokens location position', Body q tokens (plain ++ text) ∧
      Token.ofChars file position (plain ++ (q.escape text ++ q.sign :: later)) =
        tokens ++ .operator (.singleton q.sign) location :: Token.ofChars file position' later := by
  induction text generalizing plain position with
  | nil =>
    obtain ⟨tokens, location, htokens, hall, htext⟩ := Token.ofChars_eq_append file position plain
    have hbody := Body.append hall (htext ▸ hplain) (.nil (q := q))
    rw [List.append_nil, htext] at hbody
    refine ⟨tokens, .new file (position.after plain).line (position.after plain).column,
      (position.after plain).next q.sign, hbody, ?_⟩
    rw [show q.escape [] = [] from rfl, List.nil_append,
      Token.ofChars_break (isBreak_of_mem q.sign_mem) (scan_of_mem q.sign_mem), htokens,
      List.dropLast_concat]
    rfl
  | cons c text ih =>
    by_cases hc : c ∈ q.special
    · obtain ⟨tokens, location, position', hbody, hcut⟩ :=
        ih (((position.after plain).next '\\').next c) (List.forall_mem_nil _)
      obtain ⟨others, other, hothers, hall, htext⟩ := Token.ofChars_eq_append file position plain
      let slash := position.after plain
      let sign := slash.next '\\'
      have hwhole := Body.append hall (htext ▸ hplain) (hbody.pair hc
        (.new file slash.line slash.column) (.new file sign.line sign.column))
      rw [htext] at hwhole
      refine ⟨_, location, position', hwhole, ?_⟩
      have hsign := Token.ofChars_break (isBreak_of_mem hc) (scan_of_mem hc) file
        ((position.after plain).next '\\') [] (q.escape text ++ q.sign :: later)
      rw [List.nil_append] at hsign hcut
      rw [escape_cons_of_mem hc, List.cons_append, List.cons_append,
        Token.ofChars_break (isBreak_of_mem q.slash_mem) (scan_of_mem q.slash_mem), hothers,
        List.dropLast_concat, hsign, List.append_assoc]
      simp only [Text.Position.after_nil]
      rw [hcut, Token.ofChars]
      rfl
    · have hmore : ∀ d ∈ plain ++ [c], d ∉ q.special :=
        List.forall_mem_append.mpr ⟨hplain, List.forall_mem_singleton.mpr hc⟩
      obtain ⟨tokens, location, position', hbody, hcut⟩ := ih position hmore
      rw [List.append_assoc] at hbody
      refine ⟨tokens, location, position', hbody, ?_⟩
      rw [escape_cons_of_not_mem hc, ← hcut, List.append_assoc]
      rfl

section Marks
variable {text : String} {next? : Option String}

theorem markAt?_sign (q : Quote) (next? : Option String) :
    q.form.markAt? (.singleton q.sign) next? = some (.one q.sign, .close) := by
  cases q <;> rfl

theorem markAt?_opener (q : Quote) (next? : Option String) :
    Form.toplevel.markAt? (.singleton q.sign) next? = some (.one q.sign, .enter q.form) := by
  cases q <;> rfl

theorem markAt?_pair (hc : c ∈ q.special) :
    q.form.markAt? "\\" (some (.singleton c)) = some (.two '\\' c, .keep) :=
  Text.of_mem (P := fun c => q.form.markAt? "\\" (some (.singleton c)) = some (.two '\\' c, .keep))
    (by cases q <;> decide +kernel) hc

theorem markAt?_plain (h : ∀ c ∈ q.special, text ≠ .singleton c) :
    q.form.markAt? text next? = none := by
  have hall : ∀ entry ∈ q.form.marks, entry.1.first ∈ q.special := by
    cases q <;> decide
  exact Form.markAt?_eq_none fun entry hentry => h _ (hall entry hentry)

end Marks

theorem ne_singleton_of_plain {text : String} (h : ∀ c ∈ text.toList, c ∉ q.special) :
    ∀ c ∈ q.special, text ≠ .singleton c := by
  rintro c hc rfl
  refine h c ?_ hc
  rw [String.toList_singleton]
  exact List.mem_singleton_self c

/-- A string is read up to the quote that ends it. -/
theorem read_body {tokens items later : List Node} (h : Body q tokens text) (opener : String)
    (start stop : Location) :
    q.form.readParts opener start items (tokens ++ .operator (.singleton q.sign) stop :: later) =
      (fun node => (node, later)) <$>
        q.form.node (tokens.reverse ++ items) opener (.singleton q.sign) start := by
  induction h generalizing items with
  | nil =>
    have hmark : q.form.markAt? (Node.operator (.singleton q.sign) stop).fragments.before
        (later.head?.map (·.fragments.before)) = some (.one q.sign, .close) :=
      q.markAt?_sign _
    exact Form.readParts_close hmark
  | @plain token tokens text htoken hplain h ih =>
    rw [List.cons_append, Form.readParts_text (markAt?_plain (ne_singleton_of_plain hplain)),
      List.reverse_cons, List.append_assoc]
    exact ih
  | @pair c tokens text hc slash sign h ih =>
    have hmark : q.form.markAt? (Node.operator "\\" slash).fragments.before
        ((.operator (.singleton c) sign :: (tokens ++ .operator (.singleton q.sign) stop :: later) :
          List Node).head?.map (·.fragments.before)) = some (.two '\\' c, .keep) :=
      markAt?_pair hc
    rw [List.cons_append, List.cons_append, Form.readParts_keep hmark, List.reverse_cons,
      List.reverse_cons, List.append_assoc, List.append_assoc]
    exact ih

section Value
variable {tokens : List Node}

theorem ofItems_pair (hc : c ∈ double.special) (string slash sign : Location) (rest : List Node) :
    Piece.ofItems string (.operator "\\" slash :: .operator (.singleton c) sign :: rest) =
      (.literal (.singleton c) ("\\" ++ .singleton c) slash :: ·) <$>
        Piece.ofItems string rest := by
  have hblock : ¬(Node.operator "\\" slash).kind.isBlock = true := Bool.false_ne_true
  have hbefore : ¬(Node.operator "\\" slash).fragments.before ≠ "\\" := not_not_intro rfl
  by_cases hslash : c = '\\'
  · subst hslash
    have hsign : (Node.operator (.singleton '\\') sign).fragments.before ∉
        ["'", "\"", "\x7b", "\x7d"] := by
      change String.singleton '\\' ∉ _
      decide
    have hletter : ¬((Node.operator (.singleton '\\') sign).fragments.before = "u" ∨
        (Node.operator (.singleton '\\') sign).fragments.before = "U") := by
      change ¬(String.singleton '\\' = _ ∨ String.singleton '\\' = _)
      decide
    have hdecode : Escape.decode (Node.operator (.singleton '\\') sign).fragments.before.toList =
        .ok ['\\'] := congrArg Escape.decode (String.toList_singleton _)
    rw [Piece.ofItems_letter hblock hbefore hsign Bool.false_ne_true hletter, hdecode]
    rfl
  · have hsign : c ≠ '\\' → String.singleton c ∈ ["'", "\"", "\x7b", "\x7d"] :=
      Text.of_mem (P := fun c => c ≠ '\\' → String.singleton c ∈ ["'", "\"", "\x7b", "\x7d"])
        (by decide) hc
    exact Piece.ofItems_sign hblock hbefore (hsign hslash)

/-- The items of a string come to the text that was written, and no code is among them. -/
theorem ofItems_body (h : Body double tokens text) (string : Location) :
    ∃ pieces, Piece.ofItems string tokens = .ok pieces ∧ ∀ fallback segment,
      (Piece.gather fallback segment pieces).1 = [] ∧
        (Piece.gather fallback segment pieces).2.value = segment.value ++ .ofList text := by
  induction h with
  | nil => exact ⟨[], rfl, fun _ segment => ⟨rfl, String.append_empty.symm⟩⟩
  | @plain token tokens text htoken hplain h ih =>
    obtain ⟨pieces, hpieces, hgather⟩ := ih
    have hslash := ne_singleton_of_plain hplain '\\' (slash_mem _)
    have hblock : ¬token.kind.isBlock = true := by simp [htoken.not_isBlock]
    refine ⟨_, (Piece.ofItems_plain hblock hslash).trans (map_eq_ok.mpr ⟨pieces, hpieces, rfl⟩),
      fun fallback segment => ?_⟩
    obtain ⟨hnodes, hvalue⟩ := hgather fallback (segment.push token.fragments.before
      token.fragments.before token.location)
    refine ⟨hnodes, hvalue.trans ?_⟩
    rw [String.ofList_append, String.ofList_toList, ← String.append_assoc]
    rfl
  | @pair c tokens text hc slash sign h ih =>
    obtain ⟨pieces, hpieces, hgather⟩ := ih
    refine ⟨_, (ofItems_pair hc string slash sign tokens).trans
      (map_eq_ok.mpr ⟨pieces, hpieces, rfl⟩), fun fallback segment => ?_⟩
    obtain ⟨hnodes, hvalue⟩ := hgather fallback (segment.push (.singleton c)
      ("\\" ++ .singleton c) slash)
    refine ⟨hnodes, hvalue.trans ?_⟩
    rw [String.ofList_cons, ← String.append_assoc]
    rfl

theorem unescapeRaw_cons (hc : c ≠ '\\') (rest : List Char) :
    unescapeRaw (c :: rest) = c :: unescapeRaw rest := by
  conv_lhs => unfold unescapeRaw
  split <;> simp_all

theorem unescapeRaw_escape (text : List Char) : unescapeRaw (single.escape text) = text := by
  induction text with
  | nil => rfl
  | cons c text ih =>
    by_cases hc : c ∈ single.special
    · rw [escape_cons_of_mem hc]
      simp only [special, List.mem_cons, List.not_mem_nil, or_false] at hc
      rcases hc with rfl | rfl
      · exact congrArg _ ih
      · exact congrArg _ ih
    · have hslash : c ≠ '\\' := fun h => hc (h ▸ slash_mem _)
      rw [escape_cons_of_not_mem hc, unescapeRaw_cons hslash, ih]

theorem node_body (h : Body q tokens text) (opener closer : String) (start : Location) :
    ∃ raw, q.form.node tokens.reverse opener closer start =
      .ok (.string (.ofList text) raw opener start) := by
  cases q with
  | double =>
    obtain ⟨pieces, hpieces, hgather⟩ := ofItems_body h start
    obtain ⟨hnodes, hvalue⟩ := hgather start {}
    refine ⟨(Piece.gather start {} pieces).2.raw, ?_⟩
    unfold Form.node form
    rw [List.reverse_reverse]
    change Assembly.string tokens opener start = _
    unfold Assembly.string
    rw [hpieces, ok_bind]
    dsimp only
    rw [hnodes, hvalue, String.empty_append]
    rfl
  | single =>
    refine ⟨unparseAll tokens, ?_⟩
    unfold Form.node form
    rw [List.reverse_reverse]
    change Except.ok (Node.string (.ofList (unescapeRaw (unparseAll tokens).toList)) _ _ _) = _
    rw [h.unparseAll_eq, unescapeRaw_escape]

end Value

theorem exists_tokens (q : Quote) (text file : String) :
    ∃ tokens stop, Body q tokens text.toList ∧
      (tokenize (q.literal text) file).dropLast =
        .operator (.singleton q.sign) (.new file 0 0) ::
          (tokens ++ [.operator (.singleton q.sign) stop]) := by
  obtain ⟨tokens, stop, position, hbody, hcut⟩ := q.exists_body file
    (({} : Text.Position).next q.sign) (List.forall_mem_nil _) text.toList []
  have hopener := Token.ofChars_break (isBreak_of_mem q.sign_mem) (scan_of_mem q.sign_mem) file {}
    [] (q.escape text.toList ++ [q.sign])
  rw [List.nil_append] at hbody hcut
  refine ⟨tokens, stop, hbody, ?_⟩
  unfold tokenize literal
  rw [String.toList_ofList, ← List.nil_append (q.sign :: _), hopener, Text.Position.after_nil,
    hcut, Token.ofChars, Token.ofChars, List.append_cons tokens, List.dropLast_singleton,
    List.nil_append, ← List.cons_append, List.dropLast_concat]
  rfl

/-- A text that is written as a string is read as that string. -/
theorem parse_literal (q : Quote) (text file : String) :
    ∃ raw, parse (q.literal text) file =
      .ok (.block .toplevelBlock [.string text raw (.singleton q.sign) (.new file 0 0)] "" ""
        (.new file 0 0)) := by
  obtain ⟨tokens, stop, hbody, htokens⟩ := q.exists_tokens text file
  obtain ⟨raw, hnode⟩ :=
    node_body hbody (Mark.one q.sign).text (.singleton q.sign) (.new file 0 0)
  have hmark : Form.toplevel.markAt? (Node.operator (.singleton q.sign)
      (.new file 0 0)).fragments.before ((tokens ++ [Node.operator (.singleton q.sign)
        stop]).head?.map (·.fragments.before)) = some (.one q.sign, .enter q.form) :=
    q.markAt?_opener _
  have hread := @read_body q _ tokens [] [] hbody (Mark.one q.sign).text (.new file 0 0) stop
  rw [List.append_nil, hnode, String.ofList_toList] at hread
  have hparse := Form.parse_of_readParts htokens hmark hread
  have hsign : (Mark.one q.sign).text = .singleton q.sign := String.singleton_eq_ofList.symm
  rw [hsign] at hparse
  exact ⟨raw, hparse⟩

end Quote

/-- Every text can be written as a string, in double quotes and in single ones: each is read as a
tree of one string of that text, and the two strings are taken for the same. -/
theorem parse_literals (text file : String) :
    ∃ first second double single,
      parse (Quote.double.literal text) file = .ok first ∧ first.kind = .toplevelBlock ∧
        first.children = [double] ∧ double.kind = .string ∧ double.value = .text text ∧
      parse (Quote.single.literal text) file = .ok second ∧ second.kind = .toplevelBlock ∧
        second.children = [single] ∧ single.kind = .string ∧ single.value = .text text ∧
      double.sameStructure single = true ∧ double.hash = single.hash ∧
        double.hash.isSome = true := by
  obtain ⟨raw, hdouble⟩ := Quote.parse_literal .double text file
  obtain ⟨raw', hsingle⟩ := Quote.parse_literal .single text file
  have hsame : ∀ location other, (Node.string text raw "\"" location).sameStructure
      (.string text raw' "'" other) = true := fun _ _ =>
    Node.sameStructure_iff.mpr ⟨rfl, Value.beq_iff.mpr (.inr ⟨rfl, nofun⟩), rfl⟩
  exact ⟨_, _, _, _, hdouble, rfl, rfl, rfl, rfl, hsingle, rfl, rfl, rfl, rfl, hsame _ _, rfl, rfl⟩

end Homoicon
