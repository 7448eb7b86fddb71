/-! How alike two words are: the characters that they share, counted for more if they stand in the
same order and if the words begin alike. -/

namespace ScopeIR.Text

/-- Length of the longest start that both words have. -/
def sharedStart : List Char → List Char → Nat
  | a :: as, b :: bs => if a = b then sharedStart as bs + 1 else 0
  | _, _ => 0

theorem take_sharedStart (as bs : List Char) :
    as.take (sharedStart as bs) = bs.take (sharedStart as bs) := by
  fun_induction sharedStart as bs with
  | case1 as b bs ih => simp [ih]
  | case2 => rfl
  | case3 => simp

/-- Partners stand at most this far apart. -/
def reach (word name : List Char) : Nat := max word.length name.length / 2 - 1

/-- The first free place in `name` within reach of place `i` that holds `c`. -/
def partner? (name : List Char) (reach : Nat) (taken : List Nat) (c : Char) (i : Nat) :
    Option Nat :=
  (List.range name.length).find? fun j =>
    name[j]? = some c && !taken.contains j && decide (i ≤ j + reach) && decide (j ≤ i + reach)

/-- Places in `name` of the partners of the characters of `word`, the last character's first. -/
def partners (word name : List Char) : List Nat :=
  word.zipIdx.foldl (fun taken (c, i) =>
    (partner? name (reach word name) taken c i).toList ++ taken) []

/-- How often a partner stands in front of the one before it. -/
def crossings (places : List Nat) : Nat :=
  (places.zip places.tail).countP fun (later, earlier) => later < earlier

/-- Whether two words are alike by more than eight tenths. With `m` partners, of which `t` cross,
the mean of `m / |word|`, `m / |name|` and `(m - t) / m` is `shared / whole`; a tenth of what it
lacks of one is added for each character of the shared start. -/
def resembles (word name : String) : Bool :=
  let (as, bs) := (word.toList, name.toList)
  let places := partners as bs
  let (m, a, b) := (places.length, as.length, bs.length)
  let whole := 3 * a * b * m
  let shared := m * m * b + m * m * a + (m - crossings places) * a * b
  decide (8 * whole < 10 * shared + sharedStart as bs * (whole - shared))

end ScopeIR.Text
