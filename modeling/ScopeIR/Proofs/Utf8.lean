import ScopeIR.Text.Utf8

/-! Strict reading of UTF-8 accepts exactly what writing gives. -/

namespace ScopeIR.Text.Utf8

/-- The leads of characters of two, three and four bytes. -/
inductive Lead.Announces (b : UInt8) : Lead → Prop
  | two {p : Nat} : 2 ≤ p → p < 32 → b.toNat = 0xC0 + p → Announces b ⟨p, 0x80, 0xBF, 0⟩
  | three {p : Nat} : p < 16 → b.toNat = 0xE0 + p → Announces b
    ⟨p, if p = 0 then 0xA0 else 0x80, if p = 13 then 0x9F else 0xBF, 1⟩
  | four {p : Nat} : p < 5 → b.toNat = 0xF0 + p → Announces b
    ⟨p, if p = 0 then 0x90 else 0x80, if p = 4 then 0x8F else 0xBF, 2⟩

theorem Lead.announces_of_of? {b : UInt8} {lead : Lead} (h : Lead.of? b = some lead) :
    lead.Announces b := by
  unfold Lead.of? at h
  simp only [UInt8.le_iff_toNat_le, ← UInt8.toNat_inj (a := b), UInt8.reduceToNat] at h
  split at h
  · obtain rfl := Option.some.inj h
    exact .two (by omega) (by omega) (by omega)
  split at h
  · obtain rfl := Option.some.inj h
    exact .three (p := 0) (by omega) (by omega)
  split at h
  · obtain rfl := Option.some.inj h
    exact .three (p := 13) (by omega) (by omega)
  split at h
  · obtain rfl := Option.some.inj h
    have hb := @Announces.three b (b.toNat - 0xE0) (by omega) (by omega)
    rwa [if_neg (by omega), if_neg (by omega)] at hb
  split at h
  · obtain rfl := Option.some.inj h
    exact .four (p := 0) (by omega) (by omega)
  split at h
  · obtain rfl := Option.some.inj h
    have hb := @Announces.four b (b.toNat - 0xF0) (by omega) (by omega)
    rwa [if_neg (by omega), if_neg (by omega)] at hb
  split at h
  · obtain rfl := Option.some.inj h
    exact .four (p := 4) (by omega) (by omega)
  · cases h

theorem Lead.of?_of_announces {b : UInt8} {lead : Lead} (h : lead.Announces b) :
    Lead.of? b = some lead := by
  unfold Lead.of?
  simp only [UInt8.le_iff_toNat_le, ← UInt8.toNat_inj (a := b), UInt8.reduceToNat]
  cases h with
  | two _ _ _ => grind
  | three _ _ => grind
  | @four p hp hb =>
    obtain rfl | rfl | rfl | rfl | rfl : p = 0 ∨ p = 1 ∨ p = 2 ∨ p = 3 ∨ p = 4 := by omega
    all_goals simp [hb]

theorem toNat_ofNat {n : Nat} (h : n.isValidChar) : (Char.ofNat n).toNat = n := by
  rw [Char.ofNat, dif_pos h]
  rfl

theorem isValidChar_toNat (c : Char) : c.toNat.isValidChar := c.valid

/-- A byte that carries on a character. -/
theorem eq_ofDigit {x : UInt8} {n : Nat} (h : x.toNat = n) : x = n.toUInt8 := by
  rw [← UInt8.toNat_inj, UInt8.toNat_ofNat', ← h, Nat.mod_eq_of_lt x.toNat_lt]



/-- The number with these digits to the base of 64 behind its first ones. -/
def joined (value : Nat) (bytes : List UInt8) : Nat :=
  bytes.foldl (fun v y => v * 64 + (y.toNat - 0x80)) value

/-- The bytes of a character that its lead byte announces. -/
theorem continued_eq_char {low high : UInt8} {value taken more : Nat} {bytes rest : List UInt8}
    {c : Char} (h : continued low high value taken more bytes = (.char c, rest)) :
    ∃ x tail, bytes = x :: (tail ++ rest) ∧ low ≤ x ∧ x ≤ high ∧ tail.length = more ∧
      (∀ y ∈ tail, 0x80 ≤ y ∧ y ≤ 0xBF) ∧
      c = Char.ofNat (joined value (x :: tail)) := by
  -- on the bytes that are still announced behind the one at hand
  induction more generalizing low high value taken bytes with
  | zero =>
    cases bytes with
    | nil => exact Piece.noConfusion (Prod.mk.inj h).1
    | cons x bytes =>
      unfold continued at h
      split at h
      · next hx =>
        obtain ⟨hc, rfl⟩ := Prod.mk.inj h
        refine ⟨x, [], rfl, hx.1, hx.2, List.length_nil, fun _ hy => absurd hy List.not_mem_nil, ?_⟩
        exact (Piece.char.inj hc).symm
      · exact Piece.noConfusion (Prod.mk.inj h).1
  | succ more ih =>
    cases bytes with
    | nil => exact Piece.noConfusion (Prod.mk.inj h).1
    | cons x bytes =>
      unfold continued at h
      split at h
      · next hx =>
        obtain ⟨y, tail, rfl, hlow, hhigh, hlength, htail, hc⟩ := ih h
        refine ⟨x, y :: tail, rfl, hx.1, hx.2, congrArg (· + 1) hlength,
          List.forall_mem_cons.mpr ⟨⟨hlow, hhigh⟩, htail⟩, ?_⟩
        rwa [joined, List.foldl_cons]
      · exact Piece.noConfusion (Prod.mk.inj h).1

/-- The converse of `continued_eq_char`. -/
theorem continued_char {low high x : UInt8} {value taken : Nat} {tail : List UInt8}
    (rest : List UInt8) (hx : low ≤ x ∧ x ≤ high) (htail : ∀ y ∈ tail, 0x80 ≤ y ∧ y ≤ 0xBF) :
    continued low high value taken tail.length (x :: (tail ++ rest)) =
      (.char (Char.ofNat (joined value (x :: tail))), rest) := by
  induction tail generalizing low high x value taken with
  | nil =>
    rw [List.length_nil, List.nil_append, joined, List.foldl_cons, List.foldl_nil]
    unfold continued
    rw [if_pos hx]
  | cons y tail ih =>
    rw [List.length_cons, List.cons_append, joined, List.foldl_cons]
    unfold continued
    rw [if_pos hx]
    exact ih (htail y List.mem_cons_self) fun z hz => htail z (List.mem_cons_of_mem _ hz)

theorem encodeChar_of_announces {b x : UInt8} {tail : List UInt8} {lead : Lead}
    (h : lead.Announces b) (hx : lead.low ≤ x ∧ x ≤ lead.high) (hlength : tail.length = lead.more)
    (htail : ∀ y ∈ tail, 0x80 ≤ y ∧ y ≤ 0xBF) :
    encodeChar (Char.ofNat (joined lead.payload (x :: tail))) = b :: x :: tail := by
  simp only [UInt8.le_iff_toNat_le] at hx htail
  cases h with
  | @two p hp hp' hb =>
    obtain rfl := List.eq_nil_of_length_eq_zero hlength
    simp only [UInt8.reduceToNat] at hx
    have hvalid : (p * 64 + (x.toNat - 0x80)).isValidChar := .inl (by omega)
    rw [joined, List.foldl_cons, List.foldl_nil, encodeChar, toNat_ofNat hvalid, if_neg (by omega),
      if_pos (by omega), ← eq_ofDigit (x := b) (by omega), ← eq_ofDigit (x := x) (by omega)]
  | @three p hp hb =>
    obtain ⟨y, rfl⟩ := List.length_eq_one_iff.mp hlength
    have hy := htail y List.mem_cons_self
    have hx : (if p = 0 then 0xA0 else 0x80) ≤ x.toNat ∧ x.toNat ≤ if p = 13 then 0x9F else 0xBF := by
      revert hx
      split <;> split <;> exact id
    simp only [UInt8.reduceToNat] at hy
    have hvalid : ((p * 64 + (x.toNat - 0x80)) * 64 + (y.toNat - 0x80)).isValidChar := by
      unfold Nat.isValidChar
      grind
    rw [joined, List.foldl_cons, List.foldl_cons, List.foldl_nil, encodeChar, toNat_ofNat hvalid,
      if_neg (by grind), if_neg (by grind), if_pos (by grind), ← eq_ofDigit (x := b) (by grind),
      ← eq_ofDigit (x := x) (by grind), ← eq_ofDigit (x := y) (by omega)]
  | @four p hp hb =>
    match tail, hlength with
    | [y, z], _ =>
      have hy := htail y List.mem_cons_self
      have hz := htail z (List.mem_cons_of_mem _ List.mem_cons_self)
      have hx : (if p = 0 then 0x90 else 0x80) ≤ x.toNat ∧
          x.toNat ≤ if p = 4 then 0x8F else 0xBF := by
        revert hx
        split <;> split <;> exact id
      simp only [UInt8.reduceToNat] at hy hz
      have hvalid : (((p * 64 + (x.toNat - 0x80)) * 64 + (y.toNat - 0x80)) * 64 +
          (z.toNat - 0x80)).isValidChar := .inr (by grind)
      rw [joined, List.foldl_cons, List.foldl_cons, List.foldl_cons, List.foldl_nil, encodeChar,
        toNat_ofNat hvalid, if_neg (by grind), if_neg (by grind), if_neg (by grind),
        ← eq_ofDigit (x := b) (by grind), ← eq_ofDigit (x := x) (by grind),
        ← eq_ofDigit (x := y) (by omega), ← eq_ofDigit (x := z) (by omega)]

/-- A piece that is a character takes the bytes of this character. -/
theorem encodeChar_of_first {b : UInt8} {bytes rest : List UInt8} {c : Char}
    (h : first b bytes = (.char c, rest)) : b :: bytes = encodeChar c ++ rest := by
  unfold first at h
  split at h
  · next hb =>
    obtain ⟨hc, rfl⟩ := Prod.mk.inj h
    obtain rfl := Piece.char.inj hc
    simp only [UInt8.lt_iff_toNat_lt, UInt8.reduceToNat] at hb
    have hvalid : b.toNat.isValidChar := .inl (by omega)
    rw [encodeChar, toNat_ofNat hvalid, if_pos hb, ← eq_ofDigit rfl]
    rfl
  split at h
  · exact Piece.noConfusion (Prod.mk.inj h).1
  · next lead hlead =>
    obtain ⟨x, tail, rfl, hlow, hhigh, hlength, htail, rfl⟩ := continued_eq_char h
    rw [encodeChar_of_announces (Lead.announces_of_of? hlead) ⟨hlow, hhigh⟩ hlength htail]
    rfl

theorem toNat_toUInt8 {n : Nat} (h : n < 256) : n.toUInt8.toNat = n := by
  rw [UInt8.toNat_ofNat', Nat.mod_eq_of_lt h]

/-- The bytes of a character past the first 128 are a lead byte and what that announces. -/
theorem announces_encodeChar {c : Char} (h : 0x80 ≤ c.toNat) :
    ∃ (b x : UInt8) (tail : List UInt8) (lead : Lead), encodeChar c = b :: x :: tail ∧
      lead.Announces b ∧ (lead.low ≤ x ∧ x ≤ lead.high) ∧ tail.length = lead.more ∧
      (∀ y ∈ tail, 0x80 ≤ y ∧ y ≤ 0xBF) ∧ joined lead.payload (x :: tail) = c.toNat := by
  have hvalid := isValidChar_toNat c
  generalize hn : c.toNat = n at h hvalid ⊢
  have hdigit : ∀ k, k < 64 → ((0x80 + k).toUInt8).toNat = 0x80 + k :=
    fun k hk => toNat_toUInt8 (by omega)
  have htail : ∀ k, k < 64 → (0x80 : UInt8) ≤ (0x80 + k).toUInt8 ∧ (0x80 + k).toUInt8 ≤ 0xBF := by
    intro k hk
    simp only [UInt8.le_iff_toNat_le, hdigit k hk, UInt8.reduceToNat]
    omega
  unfold Nat.isValidChar at hvalid
  -- two, three or four bytes; the digits to the base of 64 are those that the tail carries
  by_cases h₂ : n < 0x800
  · have hsecond := htail (n % 64) (by omega)
    refine ⟨(0xC0 + n / 64).toUInt8, (0x80 + n % 64).toUInt8, [], ⟨n / 64, 0x80, 0xBF, 0⟩, ?_, ?_,
      hsecond, rfl, fun _ hy => (nomatch hy), ?_⟩
    · rw [encodeChar, hn, if_neg (by omega), if_pos h₂]
    · exact .two (by omega) (by omega) (toNat_toUInt8 (by omega))
    · rw [joined, List.foldl_cons, List.foldl_nil, hdigit _ (by omega)]
      dsimp only
      omega
  by_cases h₃ : n < 0x10000
  · have hthird := htail (n % 64) (by omega)
    refine ⟨(0xE0 + n / 4096).toUInt8, (0x80 + n / 64 % 64).toUInt8, [(0x80 + n % 64).toUInt8],
      _, ?_, .three (p := n / 4096) (by omega) (toNat_toUInt8 (by omega)), ?_, rfl,
      List.forall_mem_singleton.mpr hthird, ?_⟩
    · rw [encodeChar, hn, if_neg (by omega), if_neg h₂, if_pos h₃]
    · simp only [UInt8.le_iff_toNat_le, hdigit (n / 64 % 64) (by omega)]
      constructor <;> split <;> simp only [UInt8.reduceToNat] <;> omega
    · rw [joined, List.foldl_cons, List.foldl_cons, List.foldl_nil, hdigit _ (by omega),
        hdigit _ (by omega)]
      dsimp only
      omega
  · have hthird := htail (n / 64 % 64) (by omega)
    have hfourth := htail (n % 64) (by omega)
    refine ⟨(0xF0 + n / 262144).toUInt8, (0x80 + n / 4096 % 64).toUInt8,
      [(0x80 + n / 64 % 64).toUInt8, (0x80 + n % 64).toUInt8], _, ?_,
      .four (p := n / 262144) (by omega) (toNat_toUInt8 (by omega)), ?_, rfl,
      List.forall_mem_cons.mpr ⟨hthird, List.forall_mem_singleton.mpr hfourth⟩, ?_⟩
    · rw [encodeChar, hn, if_neg (by omega), if_neg h₂, if_neg h₃]
    · simp only [UInt8.le_iff_toNat_le, hdigit (n / 4096 % 64) (by omega)]
      constructor <;> split <;> simp only [UInt8.reduceToNat] <;> omega
    · rw [joined, List.foldl_cons, List.foldl_cons, List.foldl_cons, List.foldl_nil,
        hdigit _ (by omega), hdigit _ (by omega), hdigit _ (by omega)]
      dsimp only
      omega

theorem length_encodeChar_le (c : Char) : (encodeChar c).length ≤ 4 := by
  unfold encodeChar
  grind

theorem length_encode_le (chars : List Char) : (encode chars).length ≤ 4 * chars.length := by
  induction chars with
  | nil => exact Nat.le_refl _
  | cons c chars ih =>
    have hc := length_encodeChar_le c
    unfold encode at ih ⊢
    rw [List.flatMap_cons, List.length_append, List.length_cons]
    omega

theorem first_encodeChar (c : Char) (rest : List UInt8) :
    ∃ b bytes, encodeChar c ++ rest = b :: bytes ∧ first b bytes = (.char c, rest) := by
  by_cases hc : c.toNat < 0x80
  · refine ⟨c.toNat.toUInt8, rest, ?_, ?_⟩
    · rw [encodeChar, if_pos hc]
      rfl
    · rw [first, if_pos, toNat_toUInt8 (by omega), Char.ofNat_toNat]
      rw [UInt8.lt_iff_toNat_lt, toNat_toUInt8 (by omega)]
      exact hc
  · obtain ⟨b, x, tail, lead, hencode, hlead, hx, hlength, htail, hvalue⟩ :=
      announces_encodeChar (Nat.le_of_not_lt hc)
    refine ⟨b, x :: (tail ++ rest), by rw [hencode]; rfl, ?_⟩
    have hb : ¬ b < 0x80 := by
      rw [UInt8.lt_iff_toNat_lt]
      simp only [UInt8.reduceToNat]
      cases hlead <;> omega
    rw [first, if_neg hb, Lead.of?_of_announces hlead]
    change continued lead.low lead.high lead.payload 1 lead.more _ = _
    rw [← hlength, continued_char rest hx htail, hvalue, Char.ofNat_toNat]

theorem pieces_encode (chars : List Char) : pieces (encode chars) = chars.map .char := by
  induction chars with
  | nil =>
    rw [encode, List.flatMap_nil, pieces]
    rfl
  | cons c chars ih =>
    obtain ⟨b, bytes, hbytes, hfirst⟩ := first_encodeChar c (encode chars)
    have hencode : encode (c :: chars) = b :: bytes := hbytes
    rw [hencode, pieces, hfirst, ih]
    rfl

theorem encode_of_pieces {bytes : List UInt8} {chars : List Char}
    (h : pieces bytes = chars.map .char) : encode chars = bytes := by
  induction chars generalizing bytes with
  | nil =>
    cases bytes with
    | nil => rfl
    | cons b bytes =>
      rw [pieces] at h
      cases h
  | cons c chars ih =>
    cases bytes with
    | nil =>
      rw [pieces] at h
      cases h
    | cons b bytes =>
      rw [pieces, List.map_cons] at h
      obtain ⟨hfirst, hrest⟩ := List.cons.inj h
      have hfirst : first b bytes = (.char c, (first b bytes).2) := Prod.ext hfirst rfl
      rw [encodeChar_of_first hfirst, ← ih hrest]
      rfl

theorem charsOf_eq_ok_iff {index : Nat} {ps : List Piece} {chars : List Char} :
    charsOf index ps = .ok chars ↔ ps = chars.map .char := by
  induction ps generalizing index chars with
  | nil =>
    rw [charsOf, Except.ok.injEq, eq_comm]
    cases chars <;> simp
  | cons p ps ih =>
    cases p with
    | char c =>
      rw [charsOf]
      cases chars with
      | nil =>
        cases charsOf (index + (encodeChar c).length) ps <;> simp [Except.map]
      | cons d chars =>
        have hmap : (charsOf (index + (encodeChar c).length) ps).map (c :: ·) = .ok (d :: chars) ↔
            c = d ∧ charsOf (index + (encodeChar c).length) ps = .ok chars := by
          cases charsOf (index + (encodeChar c).length) ps <;> simp [Except.map]
        rw [hmap, ih, List.map_cons, List.cons.injEq, Piece.char.injEq]
    | malformed n => cases chars <;> simp [charsOf]
    | unfinished => cases chars <;> simp [charsOf]

/-- Strict reading accepts what writing gives, and nothing else. -/
theorem decode_eq_ok_iff {bytes : List UInt8} {chars : List Char} :
    decode bytes = .ok chars ↔ bytes = encode chars := by
  rw [decode, charsOf_eq_ok_iff]
  constructor
  · exact fun h => (encode_of_pieces h).symm
  · rintro rfl
    exact pieces_encode chars

end ScopeIR.Text.Utf8
