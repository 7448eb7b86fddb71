import ScopeIR.Flags.Basic
import ScopeIR.Text.Utf8

/-! Binary formats from parts: a writer and a reader of the same bytes, little endian and without
padding. A choice is written as the number of its variant. -/

namespace ScopeIR.File

/-- Why bytes denote no value. -/
inductive ReadError where
  | outOfBytes
  | badBool (byte : UInt8)
  | badOption (byte : UInt8)
  | badChoice (number count : Nat)
  | badText (cause : Text.Utf8.Error)
  | unsupportedVersion (version : UInt32)
  deriving DecidableEq

/-- Reads a value from the front and keeps the rest. -/
abbrev Reader := StateT (List UInt8) (Except ReadError)

structure Codec (α : Type) where
  write : α → List UInt8
  read : Reader α

/-- The `width` low bytes of a number, the lowest first. -/
def writeNat : (width : Nat) → Nat → List UInt8
  | 0, _ => []
  | width + 1, n => (n % 256).toUInt8 :: writeNat width (n / 256)

def readByte : Reader UInt8 := fun
  | [] => .error .outOfBytes
  | b :: rest => .ok (b, rest)

def readNat : (width : Nat) → Reader Nat
  | 0 => return 0
  | width + 1 => do
    let low := (← readByte).toNat
    return low + 256 * (← readNat width)

def readMany {α : Type} (read : Reader α) : (count : Nat) → Reader (List α)
  | 0 => return []
  | count + 1 => do
    let a ← read
    return a :: (← readMany read count)

namespace Codec

variable {α β γ : Type}

/-- A word of `8 * width` bits. -/
def bits (width : Nat) : Codec (BitVec (8 * width)) where
  write v := writeNat width v.toNat
  read := return BitVec.ofNat _ (← readNat width)

/-- The same bytes for a type with the same values. -/
def map (c : Codec α) (make : α → β) (parts : β → α) : Codec β where
  write b := c.write (parts b)
  read := return make (← c.read)

/-- The bytes of `c`, of which not every value is meant; they are checked once they are read. -/
def refine (c : Codec α) (check : α → Except ReadError β) (parts : β → α) : Codec β where
  write b := c.write (parts b)
  read := do check (← c.read)

def pair (c : Codec α) (d : Codec β) : Codec (α × β) where
  write p := c.write p.1 ++ d.write p.2
  read := return (← c.read, ← d.read)

def unit : Codec Unit := ⟨fun _ => [], return ()⟩

def u8 : Codec UInt8 := (bits 1).map UInt8.ofBitVec UInt8.toBitVec

def u32 : Codec UInt32 := (bits 4).map UInt32.ofBitVec UInt32.toBitVec

def u64 : Codec UInt64 := (bits 8).map UInt64.ofBitVec UInt64.toBitVec

def i32 : Codec Int32 := (bits 4).map Int32.ofBitVec Int32.toBitVec

def i64 : Codec Int64 := (bits 8).map Int64.ofBitVec Int64.toBitVec

/-- Flags as one word, bits without a meaning included. -/
def flags (α : Type) [Flag α] : Codec (FlagSet α) where
  write s := writeNat (Flag.width α / 8) s.toNat
  read := return .ofNat (← readNat (Flag.width α / 8))

def bool : Codec Bool :=
  u8.refine (fun b => if b = 0 then .ok false else if b = 1 then .ok true else .error (.badBool b))
    (fun b => if b then 1 else 0)

/-- One byte says whether a value follows. -/
def option (c : Codec α) : Codec (Option α) where
  write
    | none => [0]
    | some a => 1 :: c.write a
  read := do
    let b ← readByte
    if b = 0 then return none
    else if b = 1 then return some (← c.read)
    else throw (.badOption b)

/-- The number of elements, then the elements. -/
def list (c : Codec α) : Codec (List α) where
  write as := u64.write as.length.toUInt64 ++ as.flatMap c.write
  read := do readMany c.read (← u64.read).toNat

/-- Text is checked once all its bytes are read. -/
def text : Codec String :=
  (list u8).refine
    (fun bytes => match Text.Utf8.decode bytes with
      | .ok chars => .ok (String.ofList chars)
      | .error e => .error (.badText e))
    (fun s => Text.Utf8.encode s.toList)

end Codec

/-- One variant of a choice: what it holds and which values it covers. -/
structure Variant (α : Type) where
  Payload : Type
  codec : Codec Payload
  make : Payload → α
  parts? : α → Option Payload

/-- Writes a value as the variant that covers it; `number` is that of the first one. -/
def writeChoice {α : Type} (a : α) (number : Nat) : List (Variant α) → List UInt8
  | [] => []
  | alt :: rest => match alt.parts? a with
    | some p => writeNat 4 number ++ alt.codec.write p
    | none => writeChoice a (number + 1) rest

/-- Variants are numbered from zero in the order of the list. -/
def Codec.choice {α : Type} (alts : List (Variant α)) : Codec α where
  write a := writeChoice a 0 alts
  read := do
    let number ← readNat 4
    match alts[number]? with
    | some alt => return alt.make (← alt.codec.read)
    | none => throw (.badChoice number alts.length)

/-- A variant that is a single value. -/
def Variant.single {α : Type} [DecidableEq α] (a : α) : Variant α :=
  ⟨Unit, .unit, fun _ => a, fun b => if b = a then some () else none⟩

/-- A choice among single values. -/
def Codec.enum {α : Type} [DecidableEq α] (values : List α) : Codec α :=
  .choice (values.map .single)

end ScopeIR.File
