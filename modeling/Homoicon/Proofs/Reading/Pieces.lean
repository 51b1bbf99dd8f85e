import Homoicon.Grammar.Assembly

/-! The pieces of a string, item by item. -/
namespace Homoicon.Piece

variable {string : Location} {item next : Node} {rest : List Node}

theorem ofItems_code (hitem : item.kind.isBlock = true) :
    ofItems string (item :: rest) = (code item :: ·) <$> ofItems string rest := by
  rw [ofItems.eq_def]
  exact if_pos hitem

theorem ofItems_plain (hitem : ¬item.kind.isBlock = true) (hplain : item.fragments.before ≠ "\\") :
    ofItems string (item :: rest) =
      (literal item.fragments.before item.fragments.before item.location :: ·) <$>
        ofItems string rest := by
  rw [ofItems.eq_def]
  exact (if_neg hitem).trans (if_pos hplain)

section Backslash
variable (hitem : ¬item.kind.isBlock = true) (hslash : ¬item.fragments.before ≠ "\\")
include hitem hslash

theorem ofItems_last : ofItems string [item] = .error ⟨.invalidEscape, item.location⟩ := by
  rw [ofItems.eq_def]
  exact (if_neg hitem).trans (if_neg hslash)

theorem ofItems_sign (hnext : next.fragments.before ∈ ["'", "\"", "\x7b", "\x7d"]) :
    ofItems string (item :: next :: rest) =
      (literal next.fragments.before ("\\" ++ next.fragments.before) item.location :: ·) <$>
        ofItems string rest := by
  rw [ofItems.eq_def]
  exact (if_neg hitem).trans ((if_neg hslash).trans (if_pos hnext))

section Letter
variable (hnext : next.fragments.before ∉ ["'", "\"", "\x7b", "\x7d"])
include hnext

theorem ofItems_not_symbol (hsymbol : (!next.kind.isSymbol) = true) :
    ofItems string (item :: next :: rest) = .error ⟨.invalidEscape, next.location⟩ := by
  rw [ofItems.eq_def]
  exact (if_neg hitem).trans ((if_neg hslash).trans ((if_neg hnext).trans (if_pos hsymbol)))

variable (hsymbol : ¬(!next.kind.isSymbol) = true)
include hsymbol

theorem ofItems_letter (hletter : ¬(next.fragments.before = "u" ∨ next.fragments.before = "U")) :
    ofItems string (item :: next :: rest) =
      escaped (Escape.decode next.fragments.before.toList) next.fragments.before item.location
        next.location >>= fun piece => (piece :: ·) <$> ofItems string rest := by
  rw [ofItems.eq_def]
  exact (if_neg hitem).trans ((if_neg hslash).trans ((if_neg hnext).trans ((if_neg hsymbol).trans
    (if_neg hletter))))

variable (hletter : next.fragments.before = "u" ∨ next.fragments.before = "U")
include hletter

theorem ofItems_unbraced_end :
    ofItems string [item, next] =
      .error ⟨.expectedBrace next.fragments.before string, next.location⟩ := by
  rw [ofItems.eq_def]
  exact (if_neg hitem).trans ((if_neg hslash).trans ((if_neg hnext).trans ((if_neg hsymbol).trans
    (if_pos hletter))))

theorem ofItems_braced {block : Node} (hblock : block.kind.isBlock = true) :
    ofItems string (item :: next :: block :: rest) =
      escaped ((Escape.decodeBraced block.unparse.toList).map ([·]))
        (next.fragments.before ++ block.unparse) item.location block.location >>=
          fun piece => (piece :: ·) <$> ofItems string rest := by
  rw [ofItems.eq_def]
  exact (if_neg hitem).trans ((if_neg hslash).trans ((if_neg hnext).trans ((if_neg hsymbol).trans
    ((if_pos hletter).trans (if_pos hblock)))))

theorem ofItems_unbraced {block : Node} (hblock : ¬block.kind.isBlock = true) :
    ofItems string (item :: next :: block :: rest) =
      .error ⟨.expectedBrace next.fragments.before string, block.location⟩ := by
  rw [ofItems.eq_def]
  exact (if_neg hitem).trans ((if_neg hslash).trans ((if_neg hnext).trans ((if_neg hsymbol).trans
    ((if_pos hletter).trans (if_neg hblock)))))

end Letter
end Backslash

end Homoicon.Piece
