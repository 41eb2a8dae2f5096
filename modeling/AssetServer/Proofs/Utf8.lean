import AssetServer.Text.Utf8
import Mathlib.Tactic

/-!
# Text as bytes and back

- `Utf8.piece_encode`: the bytes of a character are cut off in front of a text as this character.
- `Utf8.decode?_encode`: text that is written as bytes is read back.
- `Utf8.encode_piece`: no other bytes are cut off as a character.
- `Utf8.pieces_append`, `Utf8.exists_append`: bytes are cut into the characters of a text at the front
  and other pieces exactly if they start with the bytes of the text.
-/

namespace AssetServer.Utf8

variable {b b₁ b₂ b₃ first low high : UInt8} {after rest : Bytes} {n : Nat} {c : Char}

/-- The first of two bytes. -/
theorem lead?_two {k : Nat} (h : 2 ≤ k ∧ k < 32) :
    lead? (UInt8.ofNat (k + 192)) = some (1, 0x80, 0xBF) := by
  have hall : ∀ k : Fin 32, 2 ≤ k.val →
      lead? (UInt8.ofNat (k.val + 192)) = some (1, 0x80, 0xBF) := by
    decide
  exact hall ⟨k, h.2⟩ h.1

/-- The first of three bytes: the second is bounded to keep out overlong forms and surrogates. -/
theorem lead?_three {k : Nat} (h : k < 16) : lead? (UInt8.ofNat (k + 224)) =
    some (2, if k = 0 then 0xA0 else 0x80, if k = 13 then 0x9F else 0xBF) := by
  have hall : ∀ k : Fin 16, lead? (UInt8.ofNat (k.val + 224)) =
      some (2, if k.val = 0 then 0xA0 else 0x80, if k.val = 13 then 0x9F else 0xBF) := by decide
  exact hall ⟨k, h⟩

/-- The first of four bytes: the second is bounded to keep out overlong forms and values past
    U+10FFFF. -/
theorem lead?_four {k : Nat} (h : k < 5) : lead? (UInt8.ofNat (k + 240)) =
    some (3, if k = 0 then 0x90 else 0x80, if k = 4 then 0x8F else 0xBF) := by
  have hall : ∀ k : Fin 5, lead? (UInt8.ofNat (k.val + 240)) =
      some (3, if k.val = 0 then 0x90 else 0x80, if k.val = 4 then 0x8F else 0xBF) := by decide
  exact hall ⟨k, h⟩

theorem following_cons (h : low.toNat ≤ b.toNat ∧ b.toNat ≤ high.toNat) :
    following low high (n + 1) (b :: rest) = b :: following 0x80 0xBF n rest := by
  rw [following, if_pos (by rwa [UInt8.le_iff_toNat_le, UInt8.le_iff_toNat_le])]

@[simp] theorem following_zero : following low high 0 rest = [] := by
  cases rest <;> rfl

theorem toNat_byte {k : Nat} (h : k < 256) : (UInt8.ofNat k).toNat = k :=
  UInt8.toNat_ofNat_of_lt' h

/-- The bytes behind the first two hold six bits each. -/
theorem following_tail (m : Nat) :
    following 0x80 0xBF (n + 1) (UInt8.ofNat (m % 64 + 128) :: rest) =
      UInt8.ofNat (m % 64 + 128) :: following 0x80 0xBF n rest := by
  refine following_cons ?_
  rw [toNat_byte (by omega)]
  simp only [UInt8.reduceToNat]
  omega

/-- A first byte with all the bytes behind it that it asks for is a character. -/
theorem piece_whole (hfirst : 0x80 ≤ first.toNat)
    (hlead : lead? first = some (after.length, low, high))
    (hafter : following low high after.length (after ++ rest) = after) :
    piece first (after ++ rest) = (some (Char.ofNat (codePoint first after)), after.length) := by
  have hlong : ¬ first < 0x80 := by
    rw [UInt8.lt_iff_toNat_lt]
    exact Nat.not_lt.mpr hfirst
  unfold piece
  rw [if_neg hlong, hlead]
  simp only [hafter, if_pos]

/-- The bytes of a character are cut off as this character. -/
theorem piece_encode (c : Char) (rest : Bytes) : ∃ first after,
    String.utf8EncodeChar c = first :: after ∧
      piece first (after ++ rest) = (some c, after.length) := by
  have hvalid : c.toNat < 0xD800 ∨ (0xDFFF < c.toNat ∧ c.toNat < 0x110000) := c.valid
  have hchar : ∀ n, n = c.toNat → Char.ofNat n = c := by
    rintro _ rfl
    exact Char.ofNat_toNat c
  have hnat : c.val.toNat = c.toNat := rfl
  unfold String.utf8EncodeChar
  simp only [hnat]
  -- one case for each number of bytes; with more than one, they hold the digits of the code to the
  -- base 64
  split_ifs with h₁ h₂ h₃
  · refine ⟨_, [], rfl, ?_⟩
    have hshort : UInt8.ofNat c.toNat < 0x80 := by
      rw [UInt8.lt_iff_toNat_lt, toNat_byte (by omega)]
      exact Nat.lt_succ_of_le h₁
    rw [piece, if_pos hshort, hchar _ (toNat_byte (by omega))]
    rfl
  · have hlead := lead?_two (k := c.toNat / 64 % 32) (by omega)
    refine ⟨_, _, rfl, (piece_whole (by rw [toNat_byte (by omega)]; omega) hlead ?_).trans ?_⟩
    · change following _ _ 1 (_ :: rest) = _
      rw [following_tail, following_zero]
    · rw [hchar]
      simp only [codePoint, List.length_singleton, List.foldl_cons, List.foldl_nil]
      rw [toNat_byte (by omega), toNat_byte (by omega)]
      omega
  · have hlead := lead?_three (k := c.toNat / 4096 % 16) (by omega)
    refine ⟨_, _, rfl, (piece_whole (by rw [toNat_byte (by omega)]; omega) hlead ?_).trans ?_⟩
    · change following _ _ 2 (_ :: _ :: rest) = _
      rw [following_cons, following_tail, following_zero]
      rw [toNat_byte (by omega)]
      split_ifs <;> simp only [UInt8.reduceToNat] <;> omega
    · rw [hchar]
      simp only [codePoint, List.length_cons, List.length_nil, List.foldl_cons, List.foldl_nil]
      rw [toNat_byte (by omega), toNat_byte (by omega), toNat_byte (by omega)]
      omega
  · have hlead := lead?_four (k := c.toNat / 262144 % 8) (by omega)
    refine ⟨_, _, rfl, (piece_whole (by rw [toNat_byte (by omega)]; omega) hlead ?_).trans ?_⟩
    · change following _ _ 3 (_ :: _ :: _ :: rest) = _
      rw [following_cons, following_tail, following_tail, following_zero]
      rw [toNat_byte (by omega)]
      split_ifs <;> simp only [UInt8.reduceToNat] <;> omega
    · rw [hchar]
      simp only [codePoint, List.length_cons, List.length_nil, List.foldl_cons, List.foldl_nil]
      rw [toNat_byte (by omega), toNat_byte (by omega), toNat_byte (by omega),
        toNat_byte (by omega)]
      omega

/-! ## Bytes that are read as characters -/

/-- What a first byte asks for tells which byte it is. -/
theorem lead?_cases (h : lead? b = some (n, low, high)) :
    (n = 1 ∧ low = 0x80 ∧ high = 0xBF ∧ 0xC2 ≤ b.toNat ∧ b.toNat ≤ 0xDF) ∨
    (n = 2 ∧ low = (if b.toNat = 0xE0 then 0xA0 else 0x80) ∧
      high = (if b.toNat = 0xED then 0x9F else 0xBF) ∧ 0xE0 ≤ b.toNat ∧ b.toNat ≤ 0xEF) ∨
    (n = 3 ∧ low = (if b.toNat = 0xF0 then 0x90 else 0x80) ∧
      high = (if b.toNat = 0xF4 then 0x8F else 0xBF) ∧ 0xF0 ≤ b.toNat ∧ b.toNat ≤ 0xF4) := by
  have hall : ∀ k : Fin 256, ∀ x ∈ lead? (UInt8.ofNat k.val),
      (x.1 = 1 ∧ x.2.1 = 0x80 ∧ x.2.2 = 0xBF ∧ 0xC2 ≤ k.val ∧ k.val ≤ 0xDF) ∨
      (x.1 = 2 ∧ x.2.1 = (if k.val = 0xE0 then 0xA0 else 0x80) ∧
        x.2.2 = (if k.val = 0xED then 0x9F else 0xBF) ∧ 0xE0 ≤ k.val ∧ k.val ≤ 0xEF) ∨
      (x.1 = 3 ∧ x.2.1 = (if k.val = 0xF0 then 0x90 else 0x80) ∧
        x.2.2 = (if k.val = 0xF4 then 0x8F else 0xBF) ∧ 0xF0 ≤ k.val ∧ k.val ≤ 0xF4) := by
    decide +kernel
  have hbyte : UInt8.ofNat b.toNat = b := UInt8.ofNat_toNat
  exact hall ⟨b.toNat, b.toNat_lt⟩ (n, low, high) (by simpa [hbyte] using h)

/-- Where as many bytes follow as are asked for, they are within bounds. -/
theorem following_length (h : (following low high (n + 1) rest).length = n + 1) :
    ∃ b more, rest = b :: more ∧ low.toNat ≤ b.toNat ∧ b.toNat ≤ high.toNat ∧
      (following 0x80 0xBF n more).length = n ∧
      following low high (n + 1) rest = b :: following 0x80 0xBF n more := by
  cases rest with
  | nil => simp [following] at h
  | cons b more =>
    rw [following] at h ⊢
    split_ifs at h ⊢ with hbounds
    · rw [UInt8.le_iff_toNat_le, UInt8.le_iff_toNat_le] at hbounds
      exact ⟨b, more, rfl, hbounds.1, hbounds.2, by simpa using h, rfl⟩

theorem val_ofNat {k : Nat} (h : k < 0xD800 ∨ (0xDFFF < k ∧ k < 0x110000)) :
    (Char.ofNat k).val.toNat = k := by
  have hvalid : k.isValidChar := h
  rw [Char.ofNat, dif_pos hvalid]
  rfl

theorem ofNat_eq {k : Nat} (h : k = b.toNat) : UInt8.ofNat k = b := by
  rw [h, UInt8.ofNat_toNat]

/-- The character of two bytes is written as these two. -/
theorem encode_two (hlow : 0xC2 ≤ first.toNat) (hhigh : first.toNat ≤ 0xDF)
    (hlow₁ : 0x80 ≤ b₁.toNat) (hhigh₁ : b₁.toNat ≤ 0xBF) :
    String.utf8EncodeChar (Char.ofNat (codePoint first [b₁])) = [first, b₁] := by
  have hfirst := first.toNat_lt
  simp only [codePoint, List.length_singleton, List.foldl_cons, List.foldl_nil]
  have hval := val_ofNat (k := first.toNat % 0x20 * 0x40 + b₁.toNat % 0x40) (by omega)
  unfold String.utf8EncodeChar
  simp only [hval]
  rw [if_neg (by omega), if_pos (by omega), ofNat_eq (b := first) (by omega),
    ofNat_eq (b := b₁) (by omega)]

/-- The character of three bytes is written as these three. The bounds of the second one keep out
    numbers that two bytes would do for, and those of no character. -/
theorem encode_three (hlow : 0xE0 ≤ first.toNat) (hhigh : first.toNat ≤ 0xEF)
    (hlow₁ : (if first.toNat = 0xE0 then 0xA0 else 0x80) ≤ b₁.toNat)
    (hhigh₁ : b₁.toNat ≤ if first.toNat = 0xED then 0x9F else 0xBF)
    (hlow₂ : 0x80 ≤ b₂.toNat) (hhigh₂ : b₂.toNat ≤ 0xBF) :
    String.utf8EncodeChar (Char.ofNat (codePoint first [b₁, b₂])) = [first, b₁, b₂] := by
  have hfirst := first.toNat_lt
  simp only [codePoint, List.length_cons, List.length_nil, List.foldl_cons, List.foldl_nil]
  have hsecond : 0x80 ≤ b₁.toNat ∧ b₁.toNat ≤ 0xBF ∧
      (first.toNat = 0xE0 → 0xA0 ≤ b₁.toNat) ∧ (first.toNat = 0xED → b₁.toNat ≤ 0x9F) := by
    split_ifs at hlow₁ hhigh₁ <;> omega
  have hval := val_ofNat
    (k := (first.toNat % 0x10 * 0x40 + b₁.toNat % 0x40) * 0x40 + b₂.toNat % 0x40) (by omega)
  unfold String.utf8EncodeChar
  simp only [hval]
  rw [if_neg (by omega), if_neg (by omega), if_pos (by omega), ofNat_eq (b := first) (by omega),
    ofNat_eq (b := b₁) (by omega), ofNat_eq (b := b₂) (by omega)]

/-- The character of four bytes is written as these four. -/
theorem encode_four (hlow : 0xF0 ≤ first.toNat) (hhigh : first.toNat ≤ 0xF4)
    (hlow₁ : (if first.toNat = 0xF0 then 0x90 else 0x80) ≤ b₁.toNat)
    (hhigh₁ : b₁.toNat ≤ if first.toNat = 0xF4 then 0x8F else 0xBF)
    (hlow₂ : 0x80 ≤ b₂.toNat) (hhigh₂ : b₂.toNat ≤ 0xBF)
    (hlow₃ : 0x80 ≤ b₃.toNat) (hhigh₃ : b₃.toNat ≤ 0xBF) :
    String.utf8EncodeChar (Char.ofNat (codePoint first [b₁, b₂, b₃])) = [first, b₁, b₂, b₃] := by
  have hfirst := first.toNat_lt
  simp only [codePoint, List.length_cons, List.length_nil, List.foldl_cons, List.foldl_nil]
  have hsecond : 0x80 ≤ b₁.toNat ∧ b₁.toNat ≤ 0xBF ∧
      (first.toNat = 0xF0 → 0x90 ≤ b₁.toNat) ∧ (first.toNat = 0xF4 → b₁.toNat ≤ 0x8F) := by
    split_ifs at hlow₁ hhigh₁ <;> omega
  -- the bounds on the second byte keep the code point in range
  have hval := val_ofNat
    (k := ((first.toNat % 0x08 * 0x40 + b₁.toNat % 0x40) * 0x40 + b₂.toNat % 0x40) * 0x40 +
      b₃.toNat % 0x40) (by omega)
  unfold String.utf8EncodeChar
  simp only [hval]
  rw [if_neg (by omega), if_neg (by omega), if_neg (by omega), ofNat_eq (b := first) (by omega),
    ofNat_eq (b := b₁) (by omega), ofNat_eq (b := b₂) (by omega), ofNat_eq (b := b₃) (by omega)]

/-- The bytes that a character is cut off from are those that it is written as. -/
theorem encode_piece (h : piece first rest = (some c, n)) :
    String.utf8EncodeChar c = first :: rest.take n := by
  have hfirst := first.toNat_lt
  unfold piece at h
  split at h
  · rename_i hshort
    cases h
    rw [UInt8.lt_iff_toNat_lt] at hshort
    simp only [UInt8.reduceToNat] at hshort
    have hval : (Char.ofNat first.toNat).val.toNat = first.toNat := val_ofNat (by omega)
    unfold String.utf8EncodeChar
    simp only [hval]
    rw [if_pos (by omega), UInt8.ofNat_toNat]
    rfl
  · split at h
    · cases h
    · rename_i m low high hlead
      simp only at h
      split_ifs at h with hlength
      · rw [Prod.mk.injEq, Option.some.injEq] at h
        obtain ⟨rfl, rfl⟩ := h
        -- one case for each number of bytes
        rcases lead?_cases hlead with ⟨rfl, rfl, rfl, hlow, hhigh⟩ | ⟨rfl, rfl, rfl, hlow, hhigh⟩ |
          ⟨rfl, rfl, rfl, hlow, hhigh⟩
        · obtain ⟨b₁, more, rfl, hlow₁, hhigh₁, -, hafter⟩ := following_length hlength
          rw [hafter, following_zero]
          exact encode_two hlow hhigh hlow₁ hhigh₁
        · obtain ⟨b₁, more, rfl, hlow₁, hhigh₁, hlength₂, hafter⟩ := following_length hlength
          obtain ⟨b₂, more, rfl, hlow₂, hhigh₂, -, hafter₂⟩ := following_length hlength₂
          rw [hafter, hafter₂, following_zero]
          rw [apply_ite UInt8.toNat] at hlow₁ hhigh₁
          exact encode_three hlow hhigh hlow₁ hhigh₁ hlow₂ hhigh₂
        · obtain ⟨b₁, more, rfl, hlow₁, hhigh₁, hlength₂, hafter⟩ := following_length hlength
          obtain ⟨b₂, more, rfl, hlow₂, hhigh₂, hlength₃, hafter₂⟩ := following_length hlength₂
          obtain ⟨b₃, more, rfl, hlow₃, hhigh₃, -, hafter₃⟩ := following_length hlength₃
          rw [hafter, hafter₂, hafter₃, following_zero]
          rw [apply_ite UInt8.toNat] at hlow₁ hhigh₁
          exact encode_four hlow hhigh hlow₁ hhigh₁ hlow₂ hhigh₂ hlow₃ hhigh₃
      · cases h

/-! ## Texts in front of other bytes -/

theorem piecesOnto_cons (done : List (Option Char)) (first : UInt8) (rest : Bytes) :
    piecesOnto done (first :: rest) =
      piecesOnto ((piece first rest).1 :: done) (rest.drop (piece first rest).2) := by
  rw [piecesOnto]

theorem piecesOnto_reverse (done : List (Option Char)) (bytes : Bytes) :
    piecesOnto done bytes = done.reverse ++ pieces bytes := by
  induction hlength : bytes.length using Nat.strong_induction_on generalizing done bytes with
  | _ n ih =>
  cases bytes with
  | nil => simp [pieces, piecesOnto]
  | cons first rest =>
    have hshort : (rest.drop (piece first rest).2).length < n := by
      rw [← hlength, List.length_drop, List.length_cons]
      omega
    unfold pieces
    rw [piecesOnto_cons, piecesOnto_cons, ih _ hshort _ _ rfl, ih _ hshort _ _ rfl]
    simp

@[simp] theorem pieces_nil : pieces [] = [] := by
  simp [pieces, piecesOnto]

theorem pieces_cons (first : UInt8) (rest : Bytes) :
    pieces (first :: rest) = (piece first rest).1 :: pieces (rest.drop (piece first rest).2) := by
  conv_lhs => unfold pieces
  rw [piecesOnto_cons, piecesOnto_reverse]
  simp

/-- A character in front of other bytes is cut off. -/
theorem pieces_encodeChar (c : Char) (rest : Bytes) :
    pieces (String.utf8EncodeChar c ++ rest) = some c :: pieces rest := by
  obtain ⟨first, after, hbytes, hpiece⟩ := piece_encode c rest
  rw [hbytes, List.cons_append, pieces_cons, hpiece]
  simp

/-- Whatever follows a text, its characters are cut off one after the other. -/
theorem pieces_append (cs : List Char) (rest : Bytes) :
    pieces (cs.flatMap String.utf8EncodeChar ++ rest) = cs.map some ++ pieces rest := by
  induction cs with
  | nil => simp
  | cons c cs ih => simp [List.append_assoc, pieces_encodeChar, ih]

/-- Text that is written as bytes is read back. -/
theorem decode?_encode (text : String) : decode? (encode text) = some text := by
  have hpieces : pieces (encode text) = text.toList.map some := by
    simpa [encode] using pieces_append text.toList []
  have hall : (text.toList.map some).all Option.isSome = true := by simp
  have hjoined : (text.toList.map some).filterMap id = text.toList := by
    simp [List.filterMap_map]
  rw [decode?, hpieces]
  simp only [hall, if_pos, hjoined, String.ofList_toList]

/-- Bytes from which the characters of a text are cut off start with the bytes of this text. -/
theorem exists_append {cs : List Char} {more : List (Option Char)} {bytes : Bytes}
    (h : pieces bytes = cs.map some ++ more) :
    ∃ rest, bytes = cs.flatMap String.utf8EncodeChar ++ rest ∧ pieces rest = more := by
  induction cs generalizing bytes with
  | nil => exact ⟨bytes, rfl, h⟩
  | cons c cs ih =>
    cases bytes with
    | nil => simp at h
    | cons first rest =>
      rw [pieces_cons, List.map_cons, List.cons_append, List.cons.injEq] at h
      obtain ⟨rest', hrest, hmore⟩ := ih h.2
      have hbytes := encode_piece (Prod.ext h.1 rfl : piece first rest = (some c, _))
      refine ⟨rest', ?_, hmore⟩
      rw [List.flatMap_cons, hbytes, List.append_assoc, ← hrest, List.cons_append,
        List.take_append_drop]

theorem map_some_filterMap {cut : List (Option Char)} (h : cut.all Option.isSome = true) :
    (cut.filterMap id).map some = cut := by
  induction cut with
  | nil => rfl
  | cons x rest ih =>
    cases x with
    | none => simp at h
    | some c => simpa using ih (by simpa using h)

/-- Bytes that a text is read from are those that it is written as. -/
theorem encode_of_decode? {bytes : Bytes} {text : String} (h : decode? bytes = some text) :
    bytes = encode text := by
  unfold decode? at h
  simp only [Option.ite_none_right_eq_some, Option.some.injEq] at h
  obtain ⟨hall, rfl⟩ := h
  obtain ⟨rest, hbytes, hrest⟩ :=
    exists_append ((map_some_filterMap hall).symm.trans (List.append_nil _).symm)
  have hnil : rest = [] := by
    cases rest with
    | nil => rfl
    | cons first more => simp [pieces_cons] at hrest
  rw [encode, String.toList_ofList, ← List.append_nil (List.flatMap ..), ← hnil]
  exact hbytes

theorem encode_ofList (cs : List Char) :
    encode (String.ofList cs) = cs.flatMap String.utf8EncodeChar := by
  simp [encode]

/-- A byte below 0x80 is the only one of its character. -/
theorem eq_of_mem_encodeChar (hmem : b ∈ String.utf8EncodeChar c) (hshort : b.toNat < 0x80) :
    c = Char.ofNat b.toNat := by
  have hval : c.val.toNat = c.toNat := rfl
  have hlast := c.valid
  unfold String.utf8EncodeChar at hmem
  simp only [hval] at hmem
  split_ifs at hmem
  · rw [List.mem_singleton] at hmem
    rw [hmem, toNat_byte (by omega), Char.ofNat_toNat]
  all_goals
    -- each byte of a longer character is at least 0x80
    exfalso
    simp only [List.mem_cons, List.not_mem_nil, or_false] at hmem
    rcases hmem with rfl | rfl | rfl | rfl <;> rw [toNat_byte (by omega)] at hshort <;> omega

end AssetServer.Utf8
