import Mathlib.Algebra.Group.Nat.Defs
import Mathlib.Data.List.Forall2
import ScopeIR.File.Codec
import ScopeIR.Proofs.Utf8

/-! What a format denotes: the values that reading can find, each of them behind exactly the bytes that
writing it gives. A part of these bytes is never taken for something else. -/

namespace ScopeIR.File

variable {α β : Type}

namespace Reader

/-- `y` answers as `x` does wherever that lacks no bytes, also with more bytes behind. -/
structure Extends (x y : Reader α) : Prop where
  ok {bytes rest more : List UInt8} {a : α} :
    x bytes = .ok (a, rest) → y (bytes ++ more) = .ok (a, rest ++ more)
  error {bytes more : List UInt8} {e : ReadError} :
    x bytes = .error e → e ≠ .outOfBytes → y (bytes ++ more) = .error e

variable {bytes rest : List UInt8}

theorem pure_eq_ok_iff {a b : α} :
    (pure b : Reader α) bytes = .ok (a, rest) ↔ a = b ∧ bytes = rest := by
  constructor
  · intro h
    cases h
    exact ⟨rfl, rfl⟩
  · rintro ⟨rfl, rfl⟩
    rfl

theorem bind_apply (x : Reader α) (f : α → Reader β) (bytes : List UInt8) :
    (x >>= f) bytes = match x bytes with
      | .ok (a, rest) => f a rest
      | .error e => .error e := by
  simp only [bind, StateT.bind, Except.bind]
  rcases x bytes with e | ⟨a, rest⟩ <;> rfl

theorem bind_eq_ok_iff {x : Reader α} {f : α → Reader β} {b : β} :
    (x >>= f) bytes = .ok (b, rest) ↔
      ∃ a mid, x bytes = .ok (a, mid) ∧ f a mid = .ok (b, rest) := by
  rw [bind_apply]
  rcases x bytes with e | ⟨a, mid⟩
  · exact ⟨fun h => (nomatch h), fun ⟨_, _, h, _⟩ => (nomatch h)⟩
  · constructor
    · intro h
      exact ⟨a, mid, rfl, h⟩
    · rintro ⟨_, _, h, hf⟩
      cases h
      exact hf

theorem lift_eq_ok_iff {x : Except ReadError α} {a : α} :
    (liftM x : Reader α) bytes = .ok (a, rest) ↔ x = .ok a ∧ bytes = rest := by
  cases x with
  | error e => exact ⟨fun h => (nomatch h), fun h => (nomatch h.1)⟩
  | ok b =>
    change (pure b : Reader α) bytes = _ ↔ _
    rw [pure_eq_ok_iff, Except.ok.injEq, eq_comm (a := a)]

theorem extends_pure (a : α) : (pure a : Reader α).Extends (pure a) where
  ok h := by
    obtain ⟨rfl, rfl⟩ := pure_eq_ok_iff.mp h
    rfl
  error h := nomatch h

theorem extends_throw (e : ReadError) : (throw e : Reader α).Extends (throw e) :=
  ⟨fun h => (nomatch h), fun h _ => h⟩

/-- Whatever lacks bytes is extended by everything. -/
theorem extends_outOfBytes (y : Reader α) : (throw .outOfBytes : Reader α).Extends y :=
  ⟨fun h => (nomatch h), fun h he => absurd (Except.error.inj h).symm he⟩

theorem extends_lift (x : Except ReadError α) : (liftM x : Reader α).Extends (liftM x) := by
  cases x with
  | ok a => exact extends_pure a
  | error e => exact extends_throw e

theorem Extends.bind {x y : Reader α} {f g : α → Reader β} (hxy : x.Extends y)
    (hfg : ∀ a, (f a).Extends (g a)) : (x >>= f).Extends (y >>= g) where
  ok h := by
    obtain ⟨a, mid, hxa, hfb⟩ := bind_eq_ok_iff.mp h
    exact bind_eq_ok_iff.mpr ⟨a, _, hxy.ok hxa, (hfg a).ok hfb⟩
  error {bytes more e} h he := by
    rw [bind_apply] at h ⊢
    rcases hxa : x bytes with e' | ⟨a, mid⟩
    · rw [hxa] at h
      cases h
      rw [hxy.error hxa he]
    · rw [hxa] at h
      rw [hxy.ok hxa]
      exact (hfg a).error h he

theorem extends_readByte : Reader.Extends readByte readByte where
  ok {bytes _ _ _} h := by
    cases bytes with
    | nil => cases h
    | cons b bytes =>
      cases h
      rfl
  error {bytes _ _} h he := by
    cases bytes with
    | nil =>
      cases h
      exact absurd rfl he
    | cons b bytes => cases h

theorem extends_readNat (width : Nat) : Reader.Extends (readNat width) (readNat width) := by
  induction width with
  | zero => exact extends_pure 0
  | succ width ih => exact extends_readByte.bind fun _ => ih.bind fun _ => extends_pure _

theorem Extends.readMany {x y : Reader α} (h : x.Extends y) (count : Nat) :
    (File.readMany x count).Extends (File.readMany y count) := by
  induction count with
  | zero => exact extends_pure []
  | succ count ih => exact h.bind fun _ => ih.bind fun _ => extends_pure _

end Reader

open Reader

variable {bytes rest : List UInt8}

theorem readByte_eq_ok_iff {b : UInt8} : readByte bytes = .ok (b, rest) ↔ bytes = b :: rest := by
  cases bytes with
  | nil => exact ⟨fun h => (nomatch h), fun h => (nomatch h)⟩
  | cons c bytes =>
    change Except.ok (c, bytes) = _ ↔ _
    rw [Except.ok.injEq, Prod.mk.injEq, List.cons.injEq]

theorem readNat_eq_ok_iff {width n : Nat} :
    readNat width bytes = .ok (n, rest) ↔ n < 256 ^ width ∧ bytes = writeNat width n ++ rest := by
  induction width generalizing bytes rest n with
  | zero =>
    change (pure 0 : Reader Nat) bytes = _ ↔ _
    rw [pure_eq_ok_iff, Nat.pow_zero, Nat.lt_one_iff]
    rfl
  | succ width ih =>
    simp only [readNat, writeNat, bind_eq_ok_iff, pure_eq_ok_iff, readByte_eq_ok_iff, ih]
    have hpow : 256 ^ (width + 1) = 256 * 256 ^ width := Nat.pow_succ'
    constructor
    · rintro ⟨b, _, rfl, high, _, ⟨hhigh, rfl⟩, rfl, rfl⟩
      have hb := b.toNat_lt
      have hlow : ((b.toNat + 256 * high) % 256).toUInt8 = b := by
        rw [← UInt8.toNat_inj, UInt8.toNat_ofNat']
        omega
      have hdiv : (b.toNat + 256 * high) / 256 = high := by omega
      rw [hlow, hdiv]
      exact ⟨by omega, rfl⟩
    · rintro ⟨hn, rfl⟩
      refine ⟨_, _, rfl, n / 256, _, ⟨by omega, rfl⟩, ?_, rfl⟩
      rw [UInt8.toNat_ofNat']
      omega

namespace Codec

/-- Reading finds exactly the values that `D` holds of, behind their bytes. -/
structure Denotes (c : Codec α) (D : α → Prop) : Prop where
  read_iff {bytes rest : List UInt8} {a : α} :
    c.read bytes = .ok (a, rest) ↔ D a ∧ bytes = c.write a ++ rest
  stable : c.read.Extends c.read

variable {c : Codec α} {d : Codec β} {C : α → Prop} {D : β → Prop}

theorem Denotes.congr {C' : α → Prop} (h : c.Denotes C) (hC : ∀ a, C a ↔ C' a) :
    c.Denotes C' where
  read_iff := by
    intro _ _ a
    rw [h.read_iff, hC a]
  stable := h.stable

theorem ofNat_toNat_self {n : Nat} (v : BitVec n) : BitVec.ofNat n v.toNat = v :=
  (BitVec.ofNat_toNat n v).trans (BitVec.setWidth_eq v)

theorem denotes_bits (width : Nat) : (bits width).Denotes fun _ => True where
  read_iff := by
    intro _ _ v
    have hpow : 256 ^ width = 2 ^ (8 * width) := (Nat.pow_mul 2 8 width).symm
    simp only [bits, bind_eq_ok_iff, pure_eq_ok_iff, readNat_eq_ok_iff, true_and]
    constructor
    · rintro ⟨n, _, ⟨hn, rfl⟩, rfl, rfl⟩
      rw [BitVec.toNat_ofNat, Nat.mod_eq_of_lt (hpow ▸ hn)]
    · rintro rfl
      exact ⟨v.toNat, _, ⟨hpow ▸ v.isLt, rfl⟩, (ofNat_toNat_self v).symm, rfl⟩
  stable := (extends_readNat width).bind fun _ => extends_pure _

theorem Denotes.refine {check : α → Except ReadError β} {parts : β → α} (h : c.Denotes C)
    (hcheck : ∀ a b, check a = .ok b ↔ a = parts b) :
    (c.refine check parts).Denotes fun b => C (parts b) where
  read_iff := by
    intro _ _ b
    simp only [Codec.refine, bind_eq_ok_iff, lift_eq_ok_iff, h.read_iff, hcheck]
    constructor
    · rintro ⟨_, _, ⟨hC, rfl⟩, rfl, rfl⟩
      exact ⟨hC, rfl⟩
    · rintro ⟨hC, rfl⟩
      exact ⟨_, _, ⟨hC, rfl⟩, rfl, rfl⟩
  stable := h.stable.bind fun _ => extends_lift _

theorem Denotes.map {make : α → β} {parts : β → α} (h : c.Denotes C)
    (hmake : ∀ b, make (parts b) = b) (hparts : ∀ a, parts (make a) = a) :
    (c.map make parts).Denotes fun b => C (parts b) where
  read_iff := by
    intro _ _ b
    simp only [Codec.map, bind_eq_ok_iff, pure_eq_ok_iff, h.read_iff]
    constructor
    · rintro ⟨a, _, ⟨hC, rfl⟩, rfl, rfl⟩
      rw [hparts]
      exact ⟨hC, rfl⟩
    · rintro ⟨hC, rfl⟩
      exact ⟨_, _, ⟨hC, rfl⟩, (hmake b).symm, rfl⟩
  stable := h.stable.bind fun _ => extends_pure _

theorem extends_pair {c c' : Codec α} {d d' : Codec β} (hc : c.read.Extends c'.read)
    (hd : d.read.Extends d'.read) : (pair c d).read.Extends (pair c' d').read :=
  hc.bind fun _ => hd.bind fun _ => Reader.extends_pure _

theorem Denotes.pair (hc : c.Denotes C) (hd : d.Denotes D) :
    (pair c d).Denotes fun p => C p.1 ∧ D p.2 where
  read_iff := by
    rintro _ _ ⟨a, b⟩
    simp only [Codec.pair, bind_eq_ok_iff, pure_eq_ok_iff, hc.read_iff, hd.read_iff,
      Prod.mk.injEq, List.append_assoc]
    constructor
    · rintro ⟨_, _, ⟨hC, rfl⟩, _, _, ⟨hD, rfl⟩, ⟨rfl, rfl⟩, rfl⟩
      exact ⟨⟨hC, hD⟩, rfl⟩
    · rintro ⟨⟨hC, hD⟩, rfl⟩
      exact ⟨_, _, ⟨hC, rfl⟩, _, _, ⟨hD, rfl⟩, ⟨rfl, rfl⟩, rfl⟩
  stable := extends_pair hc.stable hd.stable

theorem denotes_unit : unit.Denotes fun _ => True where
  read_iff := by
    intro _ _ _
    rw [unit, pure_eq_ok_iff, true_and]
    exact and_iff_right rfl
  stable := extends_pure ()

theorem denotes_u8 : u8.Denotes fun _ => True :=
  (denotes_bits 1).map (fun _ => rfl) fun _ => rfl

theorem denotes_u32 : u32.Denotes fun _ => True :=
  (denotes_bits 4).map (fun _ => rfl) fun _ => rfl

theorem denotes_u64 : u64.Denotes fun _ => True :=
  (denotes_bits 8).map (fun _ => rfl) fun _ => rfl

theorem denotes_i32 : i32.Denotes fun _ => True :=
  (denotes_bits 4).map (fun _ => rfl) fun _ => rfl

theorem denotes_i64 : i64.Denotes fun _ => True :=
  (denotes_bits 8).map (fun _ => rfl) fun _ => rfl

/-- Flags of whole bytes, the ones without a name included. -/
theorem denotes_flags [Flag α] (h : 8 * (Flag.width α / 8) = Flag.width α) :
    (flags α).Denotes fun _ => True where
  read_iff := by
    intro _ _ s
    have hpow : 256 ^ (Flag.width α / 8) = 2 ^ Flag.width α := by
      rw [← congrArg (2 ^ ·) h, Nat.pow_mul]
    simp only [flags, bind_eq_ok_iff, pure_eq_ok_iff, readNat_eq_ok_iff, true_and]
    constructor
    · rintro ⟨n, _, ⟨hn, rfl⟩, rfl, rfl⟩
      rw [FlagSet.toNat, FlagSet.ofNat, BitVec.toNat_ofNat, Nat.mod_eq_of_lt (hpow ▸ hn)]
    · rintro rfl
      exact ⟨s.toNat, _, ⟨hpow ▸ s.bits.isLt, rfl⟩,
        FlagSet.ext (ofNat_toNat_self s.bits).symm, rfl⟩
  stable := (extends_readNat _).bind fun _ => extends_pure _

theorem denotes_bool : bool.Denotes fun _ => True := by
  refine denotes_u8.refine fun b v => ?_
  by_cases h₀ : b = 0
  · rw [if_pos h₀, h₀]
    cases v <;> simp
  by_cases h₁ : b = 1
  · rw [if_neg h₀, if_pos h₁, h₁]
    cases v <;> simp
  · rw [if_neg h₀, if_neg h₁]
    cases v <;> simp [h₀, h₁]

theorem Denotes.option (h : c.Denotes C) :
    (option c).Denotes fun o => ∀ a ∈ o, C a where
  read_iff := by
    intro bytes rest o
    simp only [Codec.option, bind_eq_ok_iff, readByte_eq_ok_iff]
    constructor
    · rintro ⟨b, _, rfl, ho⟩
      split at ho
      · next hb =>
        obtain ⟨rfl, rfl⟩ := pure_eq_ok_iff.mp ho
        exact ⟨fun _ ha => (nomatch ha), by rw [hb]; rfl⟩
      split at ho
      · next hb =>
        obtain ⟨a, _, ha, hpure⟩ := bind_eq_ok_iff.mp ho
        obtain ⟨hC, rfl⟩ := h.read_iff.mp ha
        obtain ⟨rfl, rfl⟩ := pure_eq_ok_iff.mp hpure
        exact ⟨fun _ ha => Option.some.inj ha ▸ hC, by rw [hb]; rfl⟩
      · cases ho
    · rintro ⟨hC, rfl⟩
      cases o with
      | none => exact ⟨0, _, rfl, rfl⟩
      | some a =>
        refine ⟨1, _, rfl, ?_⟩
        rw [if_neg (by decide), if_pos rfl]
        exact bind_eq_ok_iff.mpr ⟨a, _, h.read_iff.mpr ⟨hC a rfl, rfl⟩, rfl⟩
  stable := by
    refine extends_readByte.bind fun b => ?_
    split
    · exact extends_pure none
    split
    · exact h.stable.bind fun _ => extends_pure _
    · exact extends_throw _

theorem Denotes.readMany_iff {count : Nat} {as : List α} (h : c.Denotes C) :
    readMany c.read count bytes = .ok (as, rest) ↔
      as.length = count ∧ (∀ a ∈ as, C a) ∧ bytes = as.flatMap c.write ++ rest := by
  induction count generalizing bytes rest as with
  | zero =>
    rw [readMany, pure_eq_ok_iff, List.length_eq_zero_iff]
    constructor
    · rintro ⟨rfl, rfl⟩
      exact ⟨rfl, fun _ ha => (nomatch ha), rfl⟩
    · rintro ⟨rfl, -, rfl⟩
      exact ⟨rfl, rfl⟩
  | succ count ih =>
    simp only [readMany, bind_eq_ok_iff, pure_eq_ok_iff, h.read_iff, ih]
    constructor
    · rintro ⟨a, _, ⟨ha, rfl⟩, as, _, ⟨rfl, has, rfl⟩, rfl, rfl⟩
      refine ⟨rfl, List.forall_mem_cons.mpr ⟨ha, has⟩, ?_⟩
      rw [List.flatMap_cons, List.append_assoc]
    · rintro ⟨hlength, has, rfl⟩
      cases as with
      | nil => cases hlength
      | cons a as =>
        obtain ⟨ha, has⟩ := List.forall_mem_cons.mp has
        refine ⟨a, _, ⟨ha, ?_⟩, as, _, ⟨Nat.succ.inj hlength, has, rfl⟩, rfl, rfl⟩
        rw [List.flatMap_cons, List.append_assoc]

theorem extends_list {c c' : Codec α} (h : c.read.Extends c'.read) :
    (list c).read.Extends (list c').read := denotes_u64.stable.bind fun _ => h.readMany _

/-- Lists are as long as a word can say. -/
theorem Denotes.list (h : c.Denotes C) :
    (list c).Denotes fun as => as.length < UInt64.size ∧ ∀ a ∈ as, C a where
  read_iff := by
    intro _ _ as
    simp only [Codec.list, bind_eq_ok_iff, denotes_u64.read_iff, h.readMany_iff, true_and]
    constructor
    · rintro ⟨n, _, rfl, hlength, has, rfl⟩
      have hn : as.length.toUInt64 = n := by
        rw [hlength]
        exact UInt64.ofNat_toNat
      rw [hn, List.append_assoc]
      exact ⟨⟨hlength ▸ n.toNat_lt_size, has⟩, rfl⟩
    · rintro ⟨⟨hlength, has⟩, rfl⟩
      refine ⟨_, _, List.append_assoc .., ?_, has, rfl⟩
      exact (Nat.mod_eq_of_lt hlength).symm
  stable := extends_list h.stable

theorem denotes_text :
    text.Denotes fun s => (Text.Utf8.encode s.toList).length < UInt64.size := by
  have hbytes := denotes_u8.list.congr fun bytes => and_iff_left fun _ _ => trivial
  refine hbytes.refine fun bytes s => ?_
  split
  · next chars hchars =>
    rw [Except.ok.injEq, Text.Utf8.decode_eq_ok_iff.mp hchars]
    constructor
    · rintro rfl
      rw [String.toList_ofList]
    · intro h
      rw [← String.ofList_toList (s := s)]
      have h' := Text.Utf8.decode_eq_ok_iff.mpr h
      rw [Text.Utf8.decode_eq_ok_iff.mpr rfl, Except.ok.injEq] at h'
      rw [h']
  · next e he =>
    refine ⟨fun h => (nomatch h), fun h => ?_⟩
    rw [Text.Utf8.decode_eq_ok_iff.mpr h] at he
    cases he

end Codec

/-- Reads what the variant holds. -/
def Variant.read (alt : Variant α) : Reader α := return alt.make (← alt.codec.read)

theorem extends_choice {alts alts' : List (Variant α)}
    (h : List.Forall₂ (fun x y => x.read.Extends y.read) alts alts') :
    (Codec.choice alts).read.Extends (Codec.choice alts').read := by
  refine (extends_readNat 4).bind fun number => ?_
  have hget : Option.Rel (fun x y : Variant α => x.read.Extends y.read) alts[number]?
      alts'[number]? := by
    induction h generalizing number with
    | nil => exact .none
    | cons hxy _ ih =>
      cases number with
      | zero => exact .some hxy
      | succ number => exact ih number
  rw [h.length_eq]
  generalize alts[number]? = x?, alts'[number]? = y? at hget
  cases hget with
  | some hxy => exact hxy
  | none => exact extends_throw _

/-- Every value is made by one of the variants, and no earlier one covers it. -/
structure AreVariants (alts : List (Variant α)) : Prop where
  made (a : α) : ∃ alt ∈ alts, ∃ p, alt.make p = a
  parts_make : ∀ alt ∈ alts, ∀ p, alt.parts? (alt.make p) = some p
  apart : alts.Pairwise fun x y => ∀ p, x.parts? (y.make p) = none
  few : alts.length ≤ 2 ^ 32

/-- What the variant with this number makes. -/
theorem exists_made {alts : List (Variant α)} {alt : Variant α} (number : Nat)
    (halt : alts[number]? = some alt) (p : alt.Payload) {a : α} (ha : alt.make p = a) :
    ∃ alt ∈ alts, ∃ p, alt.make p = a := ⟨alt, List.mem_of_getElem? halt, p, ha⟩

/-- Variants that do not cover the value are passed over. -/
theorem writeChoice_append {a : α} {number : Nat} {front back : List (Variant α)}
    (h : ∀ alt ∈ front, alt.parts? a = none) :
    writeChoice a number (front ++ back) = writeChoice a (number + front.length) back := by
  induction front generalizing number with
  | nil => rfl
  | cons alt front ih =>
    obtain ⟨halt, hfront⟩ := List.forall_mem_cons.mp h
    rw [List.cons_append, writeChoice, halt]
    change writeChoice a (number + 1) (front ++ back) = _
    rw [ih hfront, List.length_cons, Nat.add_assoc, Nat.add_comm 1]

namespace AreVariants

variable {alts : List (Variant α)} {alt : Variant α} {number : Nat} {D : α → Prop}

theorem write_make (h : AreVariants alts) (halt : alts[number]? = some alt) (p : alt.Payload) :
    (Codec.choice alts).write (alt.make p) = writeNat 4 number ++ alt.codec.write p := by
  obtain ⟨hnumber, rfl⟩ := List.getElem?_eq_some_iff.mp halt
  have hsplit : alts = alts.take number ++ alts[number] :: alts.drop (number + 1) := by
    rw [← List.drop_eq_getElem_cons hnumber, List.take_append_drop]
  have hfront : ∀ x ∈ alts.take number, x.parts? (alts[number].make p) = none := by
    have hapart := h.apart
    rw [hsplit, List.pairwise_append] at hapart
    exact fun x hx => hapart.2.2 x hx _ List.mem_cons_self p
  have hwrite : (Codec.choice alts).write (alts[number].make p) =
      writeChoice (alts[number].make p) 0
        (alts.take number ++ alts[number] :: alts.drop (number + 1)) :=
    congrArg (writeChoice _ 0) hsplit
  rw [hwrite, writeChoice_append hfront, writeChoice,
    h.parts_make _ (List.getElem_mem hnumber), List.length_take_of_le (Nat.le_of_lt hnumber),
    Nat.zero_add]

/-- Each variant's part of the format denotes the values that the variant covers. -/
theorem denotes_choice (h : AreVariants alts)
    (hD : ∀ alt ∈ alts, alt.codec.Denotes fun p => D (alt.make p)) :
    (Codec.choice alts).Denotes D where
  read_iff := by
    intro bytes rest a
    have hpow : 256 ^ 4 = 2 ^ 32 := rfl
    -- reading finds the variant by its number, and writing finds the number by the variant
    constructor
    · intro hread
      obtain ⟨number, _, hnumber, halt⟩ := Reader.bind_eq_ok_iff.mp hread
      obtain ⟨-, rfl⟩ := readNat_eq_ok_iff.mp hnumber
      cases hget : alts[number]? with
      | some alt =>
        rw [hget] at halt
        obtain ⟨p, _, hp, hpure⟩ := Reader.bind_eq_ok_iff.mp halt
        obtain ⟨hC, rfl⟩ := (hD alt (List.mem_of_getElem? hget)).read_iff.mp hp
        obtain ⟨rfl, rfl⟩ := Reader.pure_eq_ok_iff.mp hpure
        rw [h.write_make hget, List.append_assoc]
        exact ⟨hC, rfl⟩
      | none =>
        rw [hget] at halt
        cases halt
    · rintro ⟨ha, rfl⟩
      obtain ⟨alt, hmem, p, rfl⟩ := h.made a
      obtain ⟨number, hnumber, hget⟩ := List.mem_iff_getElem.mp hmem
      have hget : alts[number]? = some alt := List.getElem?_eq_some_iff.mpr ⟨hnumber, hget⟩
      rw [h.write_make hget, List.append_assoc]
      refine Reader.bind_eq_ok_iff.mpr ⟨number, _, readNat_eq_ok_iff.mpr ⟨?_, rfl⟩, ?_⟩
      · exact hpow ▸ Nat.lt_of_lt_of_le hnumber h.few
      · rw [hget]
        exact Reader.bind_eq_ok_iff.mpr ⟨p, _, (hD alt hmem).read_iff.mpr ⟨ha, rfl⟩, rfl⟩
  stable := by
    refine extends_choice (List.forall₂_same.mpr fun alt halt => ?_)
    exact (hD alt halt).stable.bind fun _ => Reader.extends_pure _

end AreVariants

/-- A choice among single values denotes those that are listed, each of them once. -/
theorem Codec.denotes_enum [DecidableEq α] {values : List α} (hall : ∀ a, a ∈ values)
    (hnodup : values.Nodup) (hfew : values.length ≤ 2 ^ 32) :
    (Codec.enum values).Denotes fun _ => True := by
  have hvariants : AreVariants (values.map Variant.single) :=
    { made := fun a => ⟨_, List.mem_map_of_mem (hall a), (), rfl⟩
      parts_make := by
        intro alt halt p
        obtain ⟨a, -, rfl⟩ := List.mem_map.mp halt
        exact if_pos rfl
      apart := by
        rw [List.pairwise_map]
        exact hnodup.imp fun hab _ => if_neg (Ne.symm hab)
      few := by rwa [List.length_map] }
  refine hvariants.denotes_choice fun alt halt => ?_
  obtain ⟨a, -, rfl⟩ := List.mem_map.mp halt
  exact Codec.denotes_unit

end ScopeIR.File
