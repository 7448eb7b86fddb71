/-! White space as Unicode lists it, and the trimming and case folding of setting names. -/

namespace ScopeIR.Text

/-- The 25 characters with the property White_Space. -/
def isBlank (c : Char) : Bool :=
  let n := c.toNat
  (0x09 ≤ n && n ≤ 0x0D) || n == 0x20 || n == 0x85 || n == 0xA0 || n == 0x1680 ||
    (0x2000 ≤ n && n ≤ 0x200A) || n == 0x2028 || n == 0x2029 || n == 0x202F || n == 0x205F ||
    n == 0x3000

theorem isBlank_of_isWhitespace (c : Char) (h : c.isWhitespace = true) : isBlank c = true := by
  simp only [Char.isWhitespace, Bool.or_eq_true, decide_eq_true_eq] at h
  rcases h with ((rfl | rfl) | rfl) | rfl <;> decide

/-- Without the blanks at both ends. -/
def trim (s : String) : String :=
  String.ofList (((s.toList.dropWhile isBlank).reverse.dropWhile isBlank).reverse)

/-- Lower case for comparison with a name in `a` to `z`. Outside ASCII only the Kelvin sign lowers
to such a letter, `k`, which no name of a setting contains. -/
def foldCase (s : String) : String := String.ofList (s.toList.map Char.toLower)

end ScopeIR.Text
