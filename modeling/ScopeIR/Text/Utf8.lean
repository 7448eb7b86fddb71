/-! UTF-8 with an exact account of malformed input. A byte sequence is cut into characters, maximal
malformed pieces and a possible unfinished end; strict and lossy reading are two views of that cut. -/

namespace ScopeIR.Text.Utf8

/-- A piece of a byte sequence. -/
inductive Piece where
  | char (c : Char)
  /-- `length` bytes that no further byte completes to a character. -/
  | malformed (length : Nat)
  /-- The sequence ends inside a character. -/
  | unfinished
  deriving DecidableEq

/-- What a lead byte announces: its payload, the bounds of the second byte, and how many
continuation bytes come after the second. -/
structure Lead where
  payload : Nat
  low : UInt8
  high : UInt8
  more : Nat
  deriving DecidableEq

/-- The bounds of the second byte rule out overlong forms, surrogates and values past U+10FFFF. -/
def Lead.of? (b : UInt8) : Option Lead :=
  if 0xC2 ≤ b ∧ b ≤ 0xDF then some ⟨b.toNat - 0xC0, 0x80, 0xBF, 0⟩
  else if b = 0xE0 then some ⟨0, 0xA0, 0xBF, 1⟩
  else if b = 0xED then some ⟨13, 0x80, 0x9F, 1⟩
  else if 0xE1 ≤ b ∧ b ≤ 0xEF then some ⟨b.toNat - 0xE0, 0x80, 0xBF, 1⟩
  else if b = 0xF0 then some ⟨0, 0x90, 0xBF, 2⟩
  else if 0xF1 ≤ b ∧ b ≤ 0xF3 then some ⟨b.toNat - 0xF0, 0x80, 0xBF, 2⟩
  else if b = 0xF4 then some ⟨4, 0x80, 0x8F, 2⟩
  else none

/-- Takes continuation bytes: the next one within the given bounds, then `more` within 80 to BF.
`taken` bytes of the character were read before. -/
def continued (low high : UInt8) (value taken : Nat) : Nat → List UInt8 → Piece × List UInt8
  | _, [] => (.unfinished, [])
  | more, b :: rest =>
    if low ≤ b ∧ b ≤ high then
      let value := value * 64 + (b.toNat - 0x80)
      match more with
      | 0 => (.char (Char.ofNat value), rest)
      | more + 1 => continued 0x80 0xBF value (taken + 1) more rest
    else (.malformed taken, b :: rest)

/-- The first piece and what follows it. -/
def first (b : UInt8) (rest : List UInt8) : Piece × List UInt8 :=
  if b < 0x80 then (.char (Char.ofNat b.toNat), rest)
  else match Lead.of? b with
    | none => (.malformed 1, rest)
    | some lead => continued lead.low lead.high lead.payload 1 lead.more rest

theorem continued_length_le (low high : UInt8) (value taken more : Nat) (bytes : List UInt8) :
    (continued low high value taken more bytes).2.length ≤ bytes.length := by
  induction bytes generalizing low high value taken more with
  | nil => simp [continued]
  | cons b rest ih =>
    rw [continued]
    split
    · cases more with
      | zero => simp
      | succ more => exact Nat.le_trans (ih ..) (by simp)
    · simp

theorem first_length_le (b : UInt8) (rest : List UInt8) :
    (first b rest).2.length ≤ rest.length := by
  rw [first]
  split
  · simp
  · split
    · simp
    · exact continued_length_le ..

/-- All pieces of a byte sequence, in order. -/
def pieces : List UInt8 → List Piece
  | [] => []
  | b :: rest => (first b rest).1 :: pieces (first b rest).2
termination_by bytes => bytes.length
decreasing_by exact Nat.lt_succ_of_le (first_length_le b rest)

/-- Every malformed piece and an unfinished end read as one U+FFFD. -/
def decodeLossy (bytes : List UInt8) : List Char :=
  (pieces bytes).map fun
    | .char c => c
    | .malformed _ => '\uFFFD'
    | .unfinished => '\uFFFD'

/-- The bytes of one character. -/
def encodeChar (c : Char) : List UInt8 :=
  let n := c.toNat
  if n < 0x80 then [n.toUInt8]
  else if n < 0x800 then [(0xC0 + n / 64).toUInt8, (0x80 + n % 64).toUInt8]
  else if n < 0x10000 then
    [(0xE0 + n / 4096).toUInt8, (0x80 + n / 64 % 64).toUInt8, (0x80 + n % 64).toUInt8]
  else
    [(0xF0 + n / 262144).toUInt8, (0x80 + n / 4096 % 64).toUInt8,
      (0x80 + n / 64 % 64).toUInt8, (0x80 + n % 64).toUInt8]

def encode (chars : List Char) : List UInt8 := chars.flatMap encodeChar

/-- Where strict reading stops: `length` is the size of the malformed piece, and is missing when
the input ends too early. -/
structure Error where
  index : Nat
  length : Option Nat
  deriving DecidableEq

def Error.message (e : Error) : String :=
  match e.length with
  | some n => s!"invalid utf-8 sequence of {n} bytes from index {e.index}"
  | none => s!"incomplete utf-8 byte sequence from index {e.index}"

/-- The characters of pieces that start at byte `index`. -/
def charsOf (index : Nat) : List Piece → Except Error (List Char)
  | [] => .ok []
  | .char c :: rest => (charsOf (index + (encodeChar c).length) rest).map (c :: ·)
  | .malformed n :: _ => .error ⟨index, some n⟩
  | .unfinished :: _ => .error ⟨index, none⟩

/-- Strict reading: every byte belongs to a character. -/
def decode (bytes : List UInt8) : Except Error (List Char) := charsOf 0 (pieces bytes)

end ScopeIR.Text.Utf8
