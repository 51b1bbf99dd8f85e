import Homoicon.Proofs.Reading.Faithful

/-! A text that stands for something is read as one string of what it stands for. -/
namespace Homoicon
open Node (unparseAll)

namespace Text
variable {c : Char}

theorem isNamePart_of_isHexDigit (h : isHexDigit c = true) : isNamePart c = true := by
  unfold isNamePart
  unfold isHexDigit at h
  simp only [Bool.or_eq_true, Bool.and_eq_true, decide_eq_true_eq] at h
  rcases h with (hdigit | ⟨hfirst, hlast⟩) | ⟨hfirst, hlast⟩
  · simp [isNumeric_of_isDigit hdigit]
  · have hlower : c.isLower = true := by
      have hz : c ≤ 'z' := Char.le_trans hlast (by decide)
      exact Bool.and_eq_true_iff.mpr ⟨decide_eq_true hfirst, decide_eq_true hz⟩
    have halpha : c.isAlpha = true := Bool.or_eq_true_iff.mpr (.inr hlower)
    simp [isAlphabetic_of_isAlpha halpha]
  · have hupper : c.isUpper = true := by
      have hz : c ≤ 'Z' := Char.le_trans hlast (by decide)
      exact decide_eq_true ⟨hfirst, hz⟩
    have halpha : c.isAlpha = true := Bool.or_eq_true_iff.mpr (.inl hupper)
    simp [isAlphabetic_of_isAlpha halpha]

end Text

namespace Token
variable {file : String} {position : Text.Position} {text : List Char}

theorem mem_dropLast_ofChars :
    ∀ token ∈ (ofChars file position text).dropLast,
      token.IsToken ∧ token.fragments.before.toList ⊆ text := by
  fun_induction ofChars file position text with
  | case1 position => exact List.forall_mem_nil _
  | case2 position c rest found text ih =>
    rw [List.dropLast_cons_of_ne_nil (ofChars_ne_nil _ _ _)]
    refine List.forall_mem_cons.mpr ⟨⟨found.1.isToken_token text _, ?_⟩, fun token htoken => ?_⟩
    · rw [Lexeme.before_token, String.toList_ofList]
      exact List.take_subset _ _
    · obtain ⟨hisToken, hsubset⟩ := ih token htoken
      exact ⟨hisToken, List.Subset.trans hsubset (List.drop_subset _ _)⟩

end Token

namespace Escape
variable {text chars body value : List Char} {c : Char} {next block : Node}
  {items tokens others : List Node}

theorem plain_singleton (hc : c ∉ special) : ∀ d ∈ (String.singleton c).toList, d ∉ special := by
  rw [String.toList_singleton]
  exact List.forall_mem_singleton.mpr hc

def letters : List Char := ['a', 'b', 'e', 'f', 'n', 'r', 't', 'v', 'z', 'x', 'u', 'U']

/-- Whether items of a string make up one piece of text. -/
def IsText (items : List Node) : Prop :=
  ∀ string rest, ∃ value raw location, Piece.ofItems string (items ++ rest) =
    (.literal value raw location :: ·) <$> Piece.ofItems string rest

theorem isText_plain (hblock : ¬next.kind.isBlock = true) (hplain : next.fragments.before ≠ "\\") :
    IsText [next] :=
  fun _ _ => ⟨_, _, _, Piece.ofItems_plain hblock hplain⟩

section Backslash
variable (slash : Location)

theorem not_isBlock_slash : ¬(Node.operator "\\" slash).kind.isBlock = true := Bool.false_ne_true

theorem before_slash : ¬(Node.operator "\\" slash).fragments.before ≠ "\\" := not_not_intro rfl

theorem isText_decode (hsymbol : ¬(!next.kind.isSymbol) = true)
    (h : decode next.fragments.before.toList = .ok chars) :
    IsText [.operator "\\" slash, next] := by
  intro string rest
  have hblock := not_isBlock_slash slash
  have hslash := before_slash slash
  by_cases hsign : next.fragments.before ∈ ["'", "\"", "\x7b", "\x7d"]
  · exact ⟨_, _, _, Piece.ofItems_sign hblock hslash hsign⟩
  · have hletter : ¬(next.fragments.before = "u" ∨ next.fragments.before = "U") := by
      rintro (hletter | hletter)
      all_goals
        rw [hletter] at h
        cases h
    have hitems := @Piece.ofItems_letter string _ _ rest hblock hslash hsign hsymbol hletter
    rw [h] at hitems
    exact ⟨_, _, _, hitems⟩

theorem isText_sign (hc : c ∈ signs) (sign : Location) :
    IsText [.operator "\\" slash, .operator (.singleton c) sign] := by
  by_cases hbackslash : c = '\\'
  · subst hbackslash
    have hdecode : decode (Node.operator (.singleton '\\') sign).fragments.before.toList =
        .ok ['\\'] := congrArg decode (String.toList_singleton _)
    exact isText_decode slash Bool.false_ne_true hdecode
  · have hsign : c ≠ '\\' → String.singleton c ∈ ["'", "\"", "\x7b", "\x7d"] :=
      Text.of_mem (P := fun c => c ≠ '\\' → String.singleton c ∈ ["'", "\"", "\x7b", "\x7d"])
        (by decide) hc
    exact fun string rest => ⟨_, _, _, Piece.ofItems_sign (not_isBlock_slash slash)
      (before_slash slash) (hsign hbackslash)⟩

theorem isText_braced (hsymbol : ¬(!next.kind.isSymbol) = true)
    (hletter : next.fragments.before = "u" ∨ next.fragments.before = "U")
    (hcode : block.kind.isBlock = true) (h : decodeBraced block.unparse.toList = .ok c) :
    IsText [.operator "\\" slash, next, block] := by
  intro string rest
  have hsign : next.fragments.before ∉ ["'", "\"", "\x7b", "\x7d"] := by
    rcases hletter with hletter | hletter
    all_goals
      rw [hletter]
      decide
  have hitems := @Piece.ofItems_braced string _ _ rest (not_isBlock_slash slash)
    (before_slash slash) hsign hsymbol hletter _ hcode
  rw [h] at hitems
  exact ⟨_, _, _, hitems⟩

end Backslash

/-- Tokens between double quotes, and the items that they are read as: the tokens themselves,
except that the braces of an escape and what is between them are a block. -/
inductive Written : List Node → List Node → Prop
  | nil : Written [] []
  | plain {token : Node} {tokens items : List Node} (htoken : token.IsToken)
      (hplain : ∀ c ∈ token.fragments.before.toList, c ∉ special) (h : Written tokens items) :
      Written (token :: tokens) (token :: items)
  | pair {c : Char} {tokens items : List Node} (hc : c ∈ special) (slash sign : Location)
      (h : Written tokens items) :
      Written (.operator "\\" slash :: .operator (.singleton c) sign :: tokens)
        (.operator "\\" slash :: .operator (.singleton c) sign :: items)
  | escape {next : Node} {tokens items : List Node}
      (hplain : ∀ c ∈ next.fragments.before.toList, c ∉ special) (slash : Location)
      (htext : IsText [.operator "\\" slash, next]) (h : Written tokens items) :
      Written (.operator "\\" slash :: next :: tokens) (.operator "\\" slash :: next :: items)
  | braced {letter : Node} {digits tokens items : List Node}
      (hplain : ∀ c ∈ letter.fragments.before.toList, c ∉ special)
      (hdigits : ∀ token ∈ digits, ∀ c ∈ token.fragments.before.toList,
        Text.isHexDigit c = true) (slash start stop : Location)
      (htext : IsText
        [.operator "\\" slash, letter, .block .roundBlock digits "\x7b" "\x7d" start])
      (h : Written tokens items) :
      Written (.operator "\\" slash :: letter :: .operator "\x7b" start ::
          (digits ++ .operator "\x7d" stop :: tokens))
        (.operator "\\" slash :: letter :: .block .roundBlock digits "\x7b" "\x7d" start :: items)

/-- Tokens without special characters are read as they are. -/
theorem Written.append (hothers : ∀ token ∈ others, token.IsToken ∧
      ∀ c ∈ token.fragments.before.toList, c ∉ special) (h : Written tokens items) :
    Written (others ++ tokens) (others ++ items) := by
  induction others with
  | nil => exact h
  | cons token others ih =>
    obtain ⟨⟨htoken, hplain⟩, hothers⟩ := List.forall_mem_cons.mp hothers
    exact .plain htoken hplain (ih hothers)

theorem IsText.ofItems {string : Location} {front : List Node} (htext : IsText front)
    (h : ∃ pieces, Piece.ofItems string items = .ok pieces ∧ ∀ block, .code block ∉ pieces) :
    ∃ pieces, Piece.ofItems string (front ++ items) = .ok pieces ∧
      ∀ block, .code block ∉ pieces := by
  obtain ⟨pieces, hpieces, hcode⟩ := h
  obtain ⟨value, raw, location, hfront⟩ := htext string items
  refine ⟨_, hfront.trans (map_eq_ok.mpr ⟨pieces, hpieces, rfl⟩), fun block hblock => ?_⟩
  exact hcode block ((List.mem_cons.mp hblock).resolve_left Piece.noConfusion)

theorem Written.ofItems (h : Written tokens items) (string : Location) :
    ∃ pieces, Piece.ofItems string items = .ok pieces ∧ ∀ block, .code block ∉ pieces := by
  induction h with
  | nil => exact ⟨[], rfl, fun _ => List.not_mem_nil⟩
  | @plain token tokens items htoken hplain h ih =>
    have hslash : token.fragments.before ≠ "\\" := by
      intro hbefore
      rw [hbefore] at hplain
      exact hplain '\\' (by decide) (by decide)
    exact (isText_plain (by simp [htoken.not_isBlock]) hslash).ofItems ih
  | @pair c tokens items hc slash sign h ih =>
    have hsign : c ∈ signs := Text.of_mem (by decide) hc
    exact (isText_sign slash hsign sign).ofItems ih
  | escape hplain slash htext h ih => exact htext.ofItems ih
  | braced hplain hdigits slash start stop htext h ih => exact htext.ofItems ih

section Read
variable {later : List Node} (opener : String) (start stop : Location)

theorem read_digits (hdigits : ∀ token ∈ tokens, ∀ c ∈ token.fragments.before.toList,
      Text.isHexDigit c = true) :
    Form.interpolation.readParts opener start items
        (tokens ++ .operator "\x7d" stop :: later) =
      .ok (.block .roundBlock (items.reverse ++ tokens) opener "\x7d" start, later) := by
  induction tokens generalizing items with
  | nil =>
    have hmark : Form.interpolation.markAt? (Node.operator "\x7d" stop).fragments.before
        (later.head?.map (·.fragments.before)) = some (.one '\x7d', .close) := rfl
    rw [List.nil_append, Form.readParts_close hmark, List.append_nil]
    rfl
  | cons token tokens ih =>
    obtain ⟨htoken, hdigits⟩ := List.forall_mem_cons.mp hdigits
    have hmark : ∀ next?, Form.interpolation.markAt? token.fragments.before next? = none := by
      refine fun next? => Form.markAt?_eq_none fun entry hentry htext => ?_
      have hall : ∀ entry ∈ Form.interpolation.marks,
          Text.isHexDigit entry.1.first = false := by decide
      have hmem : entry.1.first ∈ token.fragments.before.toList := by
        rw [htext, String.toList_singleton]
        exact List.mem_singleton_self _
      cases (hall entry hentry).symm.trans (htoken _ hmem)
    rw [List.cons_append, Form.readParts_text (hmark _), ih hdigits, List.reverse_cons,
      List.append_assoc]
    rfl

theorem markAt?_slash {text : String} (h : ∀ c ∈ text.toList, c ∉ special) :
    Form.string.markAt? "\\" (some text) = none := by
  have hall : ∀ entry ∈ Form.string.marks, entry.1.last ∈ special ∧
      (entry.1.more = 0 → "\\" ≠ .singleton entry.1.last) := by decide
  refine List.find?_eq_none.mpr fun ⟨mark, action⟩ hentry hat => ?_
  obtain ⟨hspecial, hother⟩ := hall _ hentry
  cases mark with
  | one c => exact hother rfl (beq_iff_eq.mp hat)
  | two c sign =>
    have htext : text = .singleton sign :=
      Option.some.inj (beq_iff_eq.mp (Bool.and_eq_true_iff.mp hat).2)
    refine h sign ?_ hspecial
    rw [htext, String.toList_singleton]
    exact List.mem_singleton_self sign

/-- Written tokens are read as their items, up to the quote that ends the string. -/
theorem Written.read {before : List Node} (h : Written tokens items) :
    Form.string.readParts opener start before (tokens ++ .operator "\"" stop :: later) =
      (fun node => (node, later)) <$>
        Form.string.node (items.reverse ++ before) opener "\"" start := by
  have hplainMark : ∀ {text next?}, (∀ c ∈ text.toList, c ∉ special) →
      Form.string.markAt? text next? = none := fun hplain =>
    Quote.markAt?_plain (Quote.ne_singleton_of_plain (q := .double) hplain)
  induction h generalizing before with
  | nil =>
    have hmark : Form.string.markAt? (Node.operator "\"" stop).fragments.before
        (later.head?.map (·.fragments.before)) = some (.one '"', .close) := rfl
    exact Form.readParts_close hmark
  | plain htoken hplain h ih =>
    rw [List.cons_append, Form.readParts_text (hplainMark hplain), ih, List.reverse_cons,
      List.append_assoc]
    rfl
  | @pair c tokens items hc slash sign h ih =>
    have hmark : Form.string.markAt? (Node.operator "\\" slash).fragments.before
        ((.operator (.singleton c) sign :: (tokens ++ .operator "\"" stop :: later) :
          List Node).head?.map (·.fragments.before)) = some (.two '\\' c, .keep) :=
      Quote.markAt?_pair (q := .double) hc
    rw [List.cons_append, List.cons_append, Form.readParts_keep hmark, List.reverse_cons,
      List.reverse_cons, List.append_assoc, List.append_assoc]
    exact ih
  | escape hplain slash htext h ih =>
    rw [List.cons_append, List.cons_append, Form.readParts_text (markAt?_slash hplain),
      Form.readParts_text (hplainMark hplain), ih, List.reverse_cons, List.reverse_cons,
      List.append_assoc, List.append_assoc]
    rfl
  | @braced letter digits tokens items hplain hdigits slash start' stop' htext h ih =>
    have hmark : ∀ next?, Form.string.markAt? (Node.operator "\x7b" start').fragments.before
        next? = some (.one '\x7b', .enter .interpolation) := fun _ => rfl
    rw [List.cons_append, List.cons_append, List.cons_append, List.append_assoc, List.cons_append,
      Form.readParts_text (markAt?_slash hplain), Form.readParts_text (hplainMark hplain),
      Form.readParts_enter (hmark _)]
    have hopener : (Mark.one '\x7b').text = "\x7b" := rfl
    have hblock := @read_digits [] digits (tokens ++ .operator "\"" stop :: later) "\x7b" start'
      stop' hdigits
    rw [hopener]
    refine (congrArg (· >>= _) hblock).trans ?_
    rw [ok_bind, List.reverse_cons, List.reverse_cons, List.reverse_cons]
    simp only [List.append_assoc]
    exact ih

end Read

section Cut
variable {letter : Char} {digits more : List Char} (file : String) (position : Text.Position)

theorem not_mem_special_of_letter (hletter : letter ∈ letters) : letter ∉ special :=
  Text.of_mem (P := (· ∉ special)) (by decide) hletter

theorem scan_letter (hletter : letter ∈ letters) (rest : List Char) :
    Lexeme.scan letter rest = (.name, Numeral.leading isNamePart rest + 1) := by
  have hclass : Text.isPunctuation letter = false ∧ Text.isAlphabetic letter = true ∧
      letter.isDigit = false ∧ letter ≠ '-' ∧ letter ≠ '.' :=
    Text.of_mem (P := fun c => Text.isPunctuation c = false ∧ Text.isAlphabetic c = true ∧
      c.isDigit = false ∧ c ≠ '-' ∧ c ≠ '.') (by decide) hletter
  obtain ⟨hsign, halphabetic, hdigit, hminus, hpoint⟩ := hclass
  rw [Lexeme.scan_eq_scanChar hdigit hminus hpoint, Lexeme.scanChar, hsign,
    if_neg Bool.false_ne_true, if_pos halphabetic]

theorem ofChars_letter (hletter : letter ∈ letters) (rest : List Char) :
    Token.ofChars file position (letter :: rest) =
      .name (.ofList (letter :: rest.takeWhile isNamePart))
          (.new file position.line position.column) ::
        Token.ofChars file (position.after (letter :: rest.takeWhile isNamePart))
          (rest.dropWhile isNamePart) := by
  have htake : (letter :: rest).take (Numeral.leading isNamePart rest + 1) =
      letter :: rest.takeWhile isNamePart := by
    rw [List.take_succ_cons, Numeral.take_leading]
  have hdrop : (letter :: rest).drop (Numeral.leading isNamePart rest + 1) =
      rest.dropWhile isNamePart := by
    rw [List.drop_succ_cons, Numeral.drop_leading]
  rw [Token.ofChars, scan_letter hletter]
  dsimp only
  rw [htake, hdrop]
  rfl

/-- A sign that stands for itself after a backslash is a token of its own, and what comes before and
after it is cut without regard to each other. -/
theorem ofChars_sign (hc : c ∈ signs) (text later : List Char) :
    Token.ofChars file position (text ++ c :: later) =
      (Token.ofChars file position text).dropLast ++
        .operator (.singleton c)
            (.new file (position.after text).line (position.after text).column) ::
          Token.ofChars file ((position.after text).next c) later := by
  have hclass : IsBreak c ∧ Text.isPunctuation c = true ∧ c.isDigit = false ∧ c ≠ '-' ∧ c ≠ '.' :=
    Text.of_mem (P := fun c => IsBreak c ∧ Text.isPunctuation c = true ∧ c.isDigit = false ∧
      c ≠ '-' ∧ c ≠ '.') (by decide) hc
  obtain ⟨hbreak, hsign, hdigit, hminus, hpoint⟩ := hclass
  have hscan : ∀ rest, Lexeme.scan c rest = (.operator, 1) := by
    intro rest
    rw [Lexeme.scan_eq_scanChar hdigit hminus hpoint]
    exact if_pos hsign
  rw [String.singleton_eq_ofList]
  exact Token.ofChars_break hbreak hscan file position text later

theorem ofChars_cons_sign (hc : c ∈ signs) (later : List Char) :
    Token.ofChars file position (c :: later) =
      .operator (.singleton c) (.new file position.line position.column) ::
        Token.ofChars file (position.next c) later := by
  have hcut := ofChars_sign file position hc [] later
  rwa [Token.ofChars] at hcut

theorem plain_of_mem_ofChars {text : List Char} (h : ∀ c ∈ text, c ∉ special) :
    ∀ token ∈ (Token.ofChars file position text).dropLast, token.IsToken ∧
      ∀ c ∈ token.fragments.before.toList, c ∉ special := by
  intro token htoken
  obtain ⟨hisToken, hsubset⟩ := Token.mem_dropLast_ofChars token htoken
  exact ⟨hisToken, fun c hc => h c (hsubset hc)⟩

/-- An escape without braces is at the front of a name, with what follows it there. -/
theorem exists_next (hletter : letter ∈ letters) (hdigits : ∀ d ∈ digits, Text.isHexDigit d = true)
    (hstands : Stands (letter :: digits) c) (hmore : ∀ c ∈ more, c ∉ special) :
    ∃ next others, (Token.ofChars file position (letter :: digits ++ more)).dropLast =
        next :: others ∧
      (∀ c ∈ next.fragments.before.toList, c ∉ special) ∧
      (∀ slash, IsText [.operator "\\" slash, next]) ∧
      ∀ token ∈ others, token.IsToken ∧ ∀ c ∈ token.fragments.before.toList, c ∉ special := by
  have hbraces : ∀ d ∈ letter :: digits, d ≠ '\x7b' ∧ d ≠ '\x7d' := by
    have hfirst : letter ≠ '\x7b' ∧ letter ≠ '\x7d' :=
      Text.of_mem (P := fun c => c ≠ '\x7b' ∧ c ≠ '\x7d') (by decide) hletter
    exact List.forall_mem_cons.mpr
      ⟨hfirst, fun d hd => ne_brace_of_isHexDigit (hdigits d hd)⟩
  -- the digits are in the name that the letter begins, which may go on after them
  have hname : (digits ++ more).takeWhile isNamePart = digits ++ more.takeWhile isNamePart :=
    List.takeWhile_append_of_pos fun d hd => Text.isNamePart_of_isHexDigit (hdigits d hd)
  have hplain : ∀ d ∈ letter :: digits, d ∉ special := by
    refine List.forall_mem_cons.mpr ⟨not_mem_special_of_letter hletter, fun d hd h => ?_⟩
    have hother : Text.isHexDigit d = false :=
      Text.of_mem (P := fun c => Text.isHexDigit c = false) (by decide) h
    cases hother.symm.trans (hdigits d hd)
  have hnext : decode (letter :: digits ++ more.takeWhile isNamePart) =
      .ok (c :: more.takeWhile isNamePart) :=
    decode_eq_ok_iff.mpr ⟨_, c, _, rfl, rfl, hstands, hbraces⟩
  rw [List.cons_append, ofChars_letter file position hletter, hname,
    List.dropLast_cons_of_ne_nil (Token.ofChars_ne_nil _ _ _)]
  refine ⟨_, _, rfl, fun d hd => ?_, fun slash => ?_, ?_⟩
  · have hmem : d ∈ letter :: digits ++ more.takeWhile isNamePart := by
      rwa [← String.toList_ofList (l := letter :: digits ++ more.takeWhile isNamePart)]
    rcases List.mem_append.mp hmem with hd | hd
    · exact hplain d hd
    · exact hmore d (List.takeWhile_subset _ hd)
  · rw [← String.toList_ofList (l := letter :: digits ++ more.takeWhile isNamePart)] at hnext
    exact isText_decode slash Bool.false_ne_true hnext
  · refine plain_of_mem_ofChars file _ fun d hd => ?_
    rcases List.mem_append.mp (List.dropWhile_subset _ hd) with hd | hd
    · exact hplain d (.tail _ hd)
    · exact hmore d hd

end Cut

/-- Whether a text before a quote is cut into written tokens, after what is cut together with the
text without special characters that it begins with. -/
def IsCut (file : String) (later body : List Char) : Prop :=
  ∃ more : List Char, (∀ c ∈ more, c ∉ special) ∧ ∀ front position,
    ∃ tokens items location position', Written tokens items ∧
      Token.ofChars file position (front ++ (body ++ '"' :: later)) =
        (Token.ofChars file position (front ++ more)).dropLast ++
          (tokens ++ .operator "\"" location :: Token.ofChars file position' later)

namespace IsCut
variable {file : String} {later text escaped : List Char}

theorem whole (h : IsCut file later text) (position : Text.Position) :
    ∃ tokens items location position', Written tokens items ∧
      Token.ofChars file position (text ++ '"' :: later) =
        tokens ++ .operator "\"" location :: Token.ofChars file position' later := by
  obtain ⟨more, hmore, hcut⟩ := h
  obtain ⟨tokens, items, location, position', hwritten, htokens⟩ := hcut [] position
  refine ⟨_, _, location, position',
    hwritten.append (plain_of_mem_ofChars file position hmore), ?_⟩
  rw [List.append_assoc]
  exact htokens

theorem nil : IsCut file later [] := by
  refine ⟨[], List.forall_mem_nil _, fun front position => ?_⟩
  have hquote : '"' ∈ signs := by decide
  have hcut := ofChars_sign file position hquote front later
  refine ⟨[], [], .new file (position.after front).line (position.after front).column,
    (position.after front).next '"', .nil, ?_⟩
  rw [List.append_nil]
  exact hcut

theorem plain (hc : c ∉ special) (h : IsCut file later text) : IsCut file later (c :: text) := by
  obtain ⟨more, hmore, hcut⟩ := h
  refine ⟨c :: more, List.forall_mem_cons.mpr ⟨hc, hmore⟩, fun front position => ?_⟩
  have hfront := hcut (front ++ [c]) position
  rw [List.append_assoc, List.append_assoc] at hfront
  exact hfront

end IsCut

/-- Whether a text before a quote is cut into written tokens right after a backslash. -/
def IsEscaped (file : String) (later text : List Char) : Prop :=
  ∀ position slash, ∃ tokens items location position',
    Written (.operator "\\" slash :: tokens) (.operator "\\" slash :: items) ∧
      Token.ofChars file position (text ++ '"' :: later) =
        tokens ++ .operator "\"" location :: Token.ofChars file position' later

section Escaped
variable {file : String} {later text digits : List Char} {letter : Char}

theorem isEscaped_sign (hc : c ∈ signs) (h : IsCut file later text) :
    IsEscaped file later (c :: text) := by
  intro position slash
  obtain ⟨start, hsign⟩ : ∃ start, ∀ rest, Token.ofChars file position (c :: rest) =
      .operator (.singleton c) start :: Token.ofChars file (position.next c) rest :=
    ⟨_, ofChars_cons_sign file position hc⟩
  obtain ⟨tokens, items, location, position', hwritten, htokens⟩ := h.whole (position.next c)
  refine ⟨.operator (.singleton c) start :: tokens, .operator (.singleton c) start :: items,
    location, position', ?_, ?_⟩
  · by_cases hspecial : c ∈ special
    · exact .pair hspecial slash start hwritten
    · have hplain : ∀ d ∈ (Node.operator (.singleton c) start).fragments.before.toList,
          d ∉ special := plain_singleton hspecial
      exact .escape hplain slash (isText_sign slash hc start) hwritten
  · rw [List.cons_append, hsign, htokens, List.cons_append]

theorem isEscaped_letter (hletter : letter ∈ letters)
    (hdigits : ∀ d ∈ digits, Text.isHexDigit d = true) (hstands : Stands (letter :: digits) c)
    (h : IsCut file later text) : IsEscaped file later (letter :: digits ++ text) := by
  intro position slash
  obtain ⟨more, hmore, hcut⟩ := h
  obtain ⟨tokens, items, location, position', hwritten, htokens⟩ :=
    hcut (letter :: digits) position
  obtain ⟨next, others, hnext, hplain, htext, hothers⟩ :=
    exists_next file position hletter hdigits hstands hmore
  have hcut : Token.ofChars file position (letter :: digits ++ text ++ '"' :: later) =
      next :: (others ++ tokens) ++ .operator "\"" location ::
        Token.ofChars file position' later := by
    rw [List.append_assoc, htokens, hnext, List.cons_append, List.cons_append, List.append_assoc]
  exact ⟨next :: (others ++ tokens), next :: (others ++ items), location, position',
    .escape hplain slash (htext slash) (hwritten.append hothers), hcut⟩

/-- What the letter and the braces of an escape are cut into, with the digits between them. -/
theorem exists_braced (hletter : letter ∈ letters) (file : String) (position : Text.Position)
    (digits rest : List Char) :
    ∃ name start stop position' tokens, (∀ token ∈ tokens, token.IsToken ∧
        token.fragments.before.toList ⊆ digits) ∧ (unparseAll tokens).toList = digits ∧
      Token.ofChars file position (letter :: '\x7b' :: (digits ++ '\x7d' :: rest)) =
        .name (.singleton letter) name :: .operator "\x7b" start ::
          (tokens ++ .operator "\x7d" stop :: Token.ofChars file position' rest) := by
  let inside := (position.after [letter]).next '\x7b'
  obtain ⟨tokens, last, hdigits, -, htext⟩ := Token.ofChars_eq_append file inside digits
  have htokens : ∀ token ∈ (Token.ofChars file inside digits).dropLast,
      token.IsToken ∧ token.fragments.before.toList ⊆ digits := Token.mem_dropLast_ofChars
  have hcut := ofChars_sign file position (c := '\x7b') (by decide) [letter]
    (digits ++ '\x7d' :: rest)
  rw [ofChars_sign file _ (c := '\x7d') (by decide) digits rest,
    ofChars_letter file position hletter, hdigits, List.takeWhile_nil, List.dropWhile_nil,
    Token.ofChars, List.dropLast_concat, ← String.singleton_eq_ofList] at hcut
  rw [hdigits, List.dropLast_concat] at htokens
  exact ⟨_, _, _, _, tokens, htokens, htext, hcut⟩

theorem isEscaped_braced (hletter : letter = 'u' ∨ letter = 'U') (hne : digits ≠ [])
    (hdigits : ∀ d ∈ digits, Text.isHexDigit d = true) (hscalar : scalar? digits = some c)
    (h : IsCut file later text) :
    IsEscaped file later (letter :: '\x7b' :: (digits ++ ['\x7d']) ++ text) := by
  intro position slash
  have hmem : letter ∈ letters := by rcases hletter with rfl | rfl <;> decide
  obtain ⟨name, start, stop, position', others, hothers, htext, hcut⟩ :=
    exists_braced hmem file position digits (text ++ '"' :: later)
  obtain ⟨tokens, items, location, position'', hwritten, htokens⟩ := h.whole position'
  rw [htokens] at hcut
  have hplain : ∀ c ∈ (Node.name (.singleton letter) name).fragments.before.toList,
      c ∉ special := plain_singleton (not_mem_special_of_letter hmem)
  have hothers : ∀ token ∈ others, ∀ c ∈ token.fragments.before.toList,
      Text.isHexDigit c = true := fun token htoken c hc => hdigits c ((hothers token htoken).2 hc)
  have hblock : decodeBraced
      (Node.block .roundBlock others "\x7b" "\x7d" start).unparse.toList = .ok c := by
    have hkind : Kind.roundBlock ≠ .map := by decide
    rw [Assembly.unparse_block hkind, String.toList_append, String.toList_append, htext]
    exact decodeBraced_eq_ok_iff.mpr ⟨digits, rfl, hne, hdigits, hscalar⟩
  have hname : (Node.name (.singleton letter) name).fragments.before = "u" ∨
      (Node.name (.singleton letter) name).fragments.before = "U" := by
    rcases hletter with rfl | rfl
    · exact .inl rfl
    · exact .inr rfl
  have hpiece : IsText [.operator "\\" slash, .name (.singleton letter) name,
      .block .roundBlock others "\x7b" "\x7d" start] :=
    isText_braced slash Bool.false_ne_true hname rfl hblock
  have hassoc : letter :: '\x7b' :: (digits ++ ['\x7d']) ++ text ++ '"' :: later =
      letter :: '\x7b' :: (digits ++ '\x7d' :: (text ++ '"' :: later)) := by simp
  refine ⟨_, _, location, position'', .braced hplain hothers slash start stop hpiece hwritten, ?_⟩
  rw [hassoc, hcut]
  simp

theorem IsCut.escape {escaped : List Char} (hstands : Stands escaped c)
    (h : IsCut file later text) : IsCut file later ('\\' :: (escaped ++ text)) := by
  have hescaped : IsEscaped file later (escaped ++ text) := by
    cases hstands with
    | sign hc => exact isEscaped_sign hc h
    | @control letter c hcontrol =>
      have hletter : letter ∈ letters := by
        unfold control? at hcontrol
        split at hcontrol <;> first | decide | cases hcontrol
      exact isEscaped_letter hletter (List.forall_mem_nil _) (.control hcontrol) h
    | @fixed letter c digits hcount hdigits hscalar =>
      have hletter : letter ∈ letters := by
        rcases hcount with ⟨rfl, -⟩ | ⟨rfl, -⟩ <;> decide
      exact isEscaped_letter hletter hdigits (.fixed hcount hdigits hscalar) h
    | braced hletter hne hdigits hscalar => exact isEscaped_braced hletter hne hdigits hscalar h
  refine ⟨[], List.forall_mem_nil _, fun front position => ?_⟩
  have hslash : '\\' ∈ signs := by decide
  obtain ⟨tokens, items, location, position', hwritten, htokens⟩ :=
    hescaped ((position.after front).next '\\')
      (.new file (position.after front).line (position.after front).column)
  refine ⟨_, _, location, position', hwritten, ?_⟩
  rw [List.cons_append, ofChars_sign file position hslash, List.append_nil, htokens]
  rfl

end Escaped

theorem isCut (h : Denotes body value) (file : String) (later : List Char) :
    IsCut file later body := by
  induction h with
  | nil => exact .nil
  | plain hc h ih => exact ih.plain hc
  | escape hstands h ih => exact ih.escape hstands

section Node
variable {pieces : List Piece}

theorem gather_of_text (fallback : Location) (segment : Segment)
    (h : ∀ block, .code block ∉ pieces) : (Piece.gather fallback segment pieces).1 = [] := by
  fun_induction Piece.gather fallback segment pieces with
  | case1 segment => rfl
  | case2 segment value raw location pieces ih =>
    exact ih fun block hblock => h block (.tail _ hblock)
  | case3 segment block pieces nodes last hgather ih =>
    exact absurd (List.mem_cons_self ..) (h block)

theorem Written.node (h : Written tokens items) (opener closer : String) (start : Location) :
    ∃ value raw, Form.string.node items.reverse opener closer start =
      .ok (.string value raw opener start) := by
  obtain ⟨pieces, hpieces, hcode⟩ := h.ofItems start
  have hnodes := gather_of_text start {} hcode
  refine ⟨(Piece.gather start {} pieces).2.value, (Piece.gather start {} pieces).2.raw, ?_⟩
  unfold Form.node
  rw [List.reverse_reverse]
  change Assembly.string items opener start = _
  unfold Assembly.string
  rw [hpieces, ok_bind]
  dsimp only
  rw [hnodes]
  rfl

end Node

/-- A text that stands for something is read as one string between double quotes. -/
theorem exists_string {body : String} (h : Denotes body.toList value) (file : String) :
    ∃ value raw, parse ("\"" ++ body ++ "\"") file =
      .ok (.block .toplevelBlock [.string value raw "\"" (.new file 0 0)] "" ""
        (.new file 0 0)) := by
  have hquote : '"' ∈ signs := by decide
  obtain ⟨tokens, items, stop, position, hwritten, hcut⟩ :=
    (isCut h file []).whole (({} : Text.Position).next '"')
  have htokens : (tokenize ("\"" ++ body ++ "\"") file).dropLast =
      .operator "\"" (.new file 0 0) :: (tokens ++ [.operator "\"" stop]) := by
    have htext : ("\"" ++ body ++ "\"").toList = '"' :: (body.toList ++ ['"']) := by simp
    unfold tokenize
    rw [htext, ofChars_cons_sign file {} hquote, hcut, Token.ofChars, List.append_cons tokens,
      ← List.cons_append, List.dropLast_concat]
    rfl
  obtain ⟨value, raw, hnode⟩ := hwritten.node "\"" "\"" (.new file 0 0)
  have hmark : Form.toplevel.markAt? (Node.operator "\"" (.new file 0 0)).fragments.before
      ((tokens ++ [Node.operator "\"" stop]).head?.map (·.fragments.before)) =
        some (.one '"', .enter .string) := rfl
  have hread : Form.string.readParts "\"" (.new file 0 0) [] (tokens ++ [.operator "\"" stop]) =
      (fun node => (node, [])) <$>
        Form.string.node (items.reverse ++ []) "\"" "\"" (.new file 0 0) :=
    hwritten.read "\"" (.new file 0 0) stop
  rw [List.append_nil, hnode] at hread
  exact ⟨value, raw, Form.parse_of_readParts htokens hmark hread⟩

end Escape

theorem Node.string_inj {value other raw raw' quote quote' : String} {location location' : Location}
    (h : string value raw quote location = string other raw' quote' location') :
    value = other ∧ raw = raw' ∧ quote = quote' := by
  have hvalue : Value.text value = .text other := congrArg Node.value h
  have hquote : quote = quote' := congrArg (·.fragments.after) h
  have hbefore : quote ++ raw = quote' ++ raw' := congrArg (·.fragments.before) h
  subst hquote
  refine ⟨Value.text.inj hvalue, ?_, rfl⟩
  rw [← String.toList_inj, String.toList_append, String.toList_append] at hbefore
  exact String.toList_inj.mp (List.append_cancel_left hbefore)

/-- A string that makes up a whole text between double quotes has the value of that text. -/
theorem denotes_of_parse {body value raw file : String} {location start : Location}
    (h : parse ("\"" ++ body ++ "\"") file =
      .ok (.block .toplevelBlock [.string value raw "\"" location] "" "" start)) :
    raw = body ∧ Escape.Denotes body.toList value.toList := by
  have hkind : Kind.toplevelBlock ≠ .map := by decide
  have hquote : "\"" ≠ "'" := by decide
  have hraw : raw = body := by
    have htext := unparse_of_parseWith Grammar.standard_lossless h
    rw [Assembly.unparse_block hkind, Node.unparseAll_cons, Node.unparseAll_nil,
      Node.unparse_string] at htext
    rw [← String.toList_inj] at htext ⊢
    simpa using htext
  have hnode := @Node.Occurs.inside (.block .toplevelBlock [.string value raw "\"" location] "" ""
    start) _ _ [] [] _ _ rfl .root
  obtain ⟨other, raw', quote, _, heq, -, hdenotes⟩ := allFaithful_of_parse h _ _ _ hnode rfl
  obtain ⟨rfl, rfl, rfl⟩ := Node.string_inj heq
  exact ⟨hraw, hraw ▸ hdenotes hquote⟩

/-- A text that stands for something is read between double quotes as one string, the value of
which is what the text stands for. In every tree that is read, each string that is not between
single quotes, with or without code in it, has the value that its own source text stands for. -/
theorem parse_denotation :
    (∀ body value file, Escape.denotation? body.toList = some value.toList →
      parse ("\"" ++ body ++ "\"") file =
        .ok (.block .toplevelBlock [.string value body "\"" (.new file 0 0)] "" ""
          (.new file 0 0))) ∧
    ∀ text file tree, parse text file = .ok tree → ∀ node front back,
      tree.Occurs node front back → node.kind = .string →
      ∃ value raw quote location, node = .string value raw quote location ∧
        quote ∈ ["\"", "'", ""] ∧ text = front ++ (quote ++ raw ++ quote) ++ back ∧
        (quote ≠ "'" → Escape.denotation? raw.toList = some value.toList) := by
  constructor
  · intro body value file h
    obtain ⟨other, raw, hparse⟩ := Escape.exists_string (Escape.denotation?_eq_some_iff.mp h) file
    obtain ⟨rfl, hdenotes⟩ := denotes_of_parse hparse
    have hvalue : some other.toList = some value.toList :=
      (Escape.denotation?_eq_some_iff.mpr hdenotes).symm.trans h
    rw [← String.toList_inj.mp (Option.some.inj hvalue)]
    exact hparse
  · intro text file tree h node front back hnode hkind
    obtain ⟨value, raw, quote, location, rfl, hquote, hdenotes⟩ :=
      allFaithful_of_parse h node front back hnode hkind
    have htext := hnode.unparse_eq
    rw [unparse_of_parseWith Grammar.standard_lossless h, Node.unparse_string] at htext
    exact ⟨value, raw, quote, location, rfl, hquote, htext.symm, fun hne =>
      Escape.denotation?_eq_some_iff.mpr (hdenotes hne)⟩

/-- The letter of an escape goes on with more text, and the digits in braces look like a number. -/
theorem parse_denotation_glued :
    parse "\"\\x41BC\\u\x7b1e9\x7d\\t\"" "main" =
      .ok (.block .toplevelBlock [.string "ABC\u01e9\t" "\\x41BC\\u\x7b1e9\x7d\\t" "\""
        (.new "main" 0 0)] "" "" (.new "main" 0 0)) ∧
    ∃ tree segment, parse "\"a\x7bn\x7d\\x42c\"" "main" = .ok tree ∧
      tree.Occurs segment "\"a\x7bn\x7d" "\"" ∧ ∃ value raw quote location,
        segment = .string value raw quote location ∧ quote ∈ ["\"", "'", ""] ∧
          "\"a\x7bn\x7d\\x42c\"" = "\"a\x7bn\x7d" ++ (quote ++ raw ++ quote) ++ "\"" ∧
          (quote ≠ "'" → Escape.denotation? raw.toList = some value.toList) := by
  have hdenotation : Escape.denotation? "\\x41BC\\u\x7b1e9\x7d\\t".toList =
      some "ABC\u01e9\t".toList := by decide +kernel
  have hquoted : "\"" ++ "\\x41BC\\u\x7b1e9\x7d\\t" ++ "\"" =
      "\"\\x41BC\\u\x7b1e9\x7d\\t\"" := by decide
  have hshape : (parse "\"a\x7bn\x7d\\x42c\"" "main").toOption.map (fun tree =>
      (tree.fragments, tree.children.map fun string =>
        (string.fragments, string.children.map fun child => (child.kind, child.unparse)))) =
      some ({}, [({ before := "\"", after := "\"" },
        [(.string, "a"), (.roundBlock, "\x7bn\x7d")] ++ [(.string, "\\x42c")])]) := by
    decide +kernel
  constructor
  · have hparse := parse_denotation.1 _ _ "main" hdenotation
    rwa [hquoted] at hparse
  · cases h : parse "\"a\x7bn\x7d\\x42c\"" "main" with
    | error e =>
      rw [h] at hshape
      cases hshape
    | ok tree =>
      rw [h] at hshape
      obtain ⟨hfragments, hchildren⟩ := Prod.mk.inj (Option.some.inj hshape)
      obtain ⟨string, later, hstring, hparts, hlater⟩ := List.map_eq_cons_iff.mp hchildren
      obtain ⟨hquotes, hparts⟩ := Prod.mk.inj hparts
      obtain ⟨earlier, rest, hsegments, hearlier, hrest⟩ := List.map_eq_append_iff.mp hparts
      obtain ⟨segment, last, rfl, hsegment, hlast⟩ := List.map_eq_cons_iff.mp hrest
      obtain rfl := List.map_eq_nil_iff.mp hlast
      obtain rfl := List.map_eq_nil_iff.mp hlater
      have htexts := congrArg (List.map Prod.snd) hearlier
      rw [List.map_map] at htexts
      have hearlier : earlier.map Node.unparse = ["a", "\x7bn\x7d"] := htexts
      have hoccurs := @Node.Occurs.inside tree string segment [] [] _ _ hstring
        (.inside hsegments .root)
      rw [hfragments, hquotes, hearlier] at hoccurs
      have hinterpolated := parse_denotation.2 _ _ _ h _ _ _ hoccurs (Prod.mk.inj hsegment).1
      exact ⟨tree, segment, rfl, hoccurs, hinterpolated⟩

end Homoicon
