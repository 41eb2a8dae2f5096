import AssetServer.Json.Value
import AssetServer.Proofs.Utf8

/-!
# The grammar of JSON texts

What may be written in a JSON text, and that values which are not needed are skipped whole.

- `Json.Resolves` relates the bytes between the quotes of a string to the bytes that they stand for,
  `Json.Quotes` says which text they are, if they are one.
- `Json.IsNumber` is the grammar of numbers.
- `Json.Form` is what a text says, `Json.Writes` how it is written: with white space anywhere between
  tokens, and lists and objects nested to some depth.
- `Json.skipValue_writes`: a value that is not needed is skipped, whatever it is.
-/

namespace AssetServer.Json

/-! ## §1 Strings -/

/-- A byte that stands for itself in a string. -/
def Plain (b : UInt8) : Prop :=
  0x20 ≤ b ∧ b ≠ byte '"' ∧ b ≠ byte '\\'

instance (b : UInt8) : Decidable (Plain b) :=
  inferInstanceAs (Decidable (_ ∧ _))

/-- The letter of a short escape, and the byte that it stands for. -/
inductive Short : UInt8 → UInt8 → Prop where
  | quote : Short (byte '"') (byte '"')
  | backslash : Short (byte '\\') (byte '\\')
  | slash : Short (byte '/') (byte '/')
  | backspace : Short (byte 'b') 0x08
  | formFeed : Short (byte 'f') 0x0C
  | lineFeed : Short (byte 'n') 0x0A
  | carriageReturn : Short (byte 'r') 0x0D
  | tab : Short (byte 't') 0x09

/-- Four hexadecimal digits and their number. -/
inductive Quad : Bytes → Nat → Prop where
  | mk {a b c d : UInt8} {i j k l : Nat} (ha : hexDigit? a = some i) (hb : hexDigit? b = some j)
      (hc : hexDigit? c = some k) (hd : hexDigit? d = some l) :
      Quad [a, b, c, d] (((i * 16 + j) * 16 + k) * 16 + l)

/-- The bytes between the quotes of a string. The numbers of escapes may be any. -/
inductive Escaped : Bytes → Prop where
  | nil : Escaped []
  | plain {b : UInt8} {body : Bytes} (hb : Plain b) (hbody : Escaped body) : Escaped (b :: body)
  | short {letter value : UInt8} {body : Bytes} (hletter : Short letter value)
      (hbody : Escaped body) : Escaped (byte '\\' :: letter :: body)
  | code {quad body : Bytes} {n : Nat} (hquad : Quad quad n) (hbody : Escaped body) :
      Escaped (byte '\\' :: byte 'u' :: (quad ++ body))

/-- The bytes between the quotes of a string, and the bytes that they stand for. A character may be
    written by its number, or by two surrogates if this is above U+FFFF. -/
inductive Resolves : Bytes → Bytes → Prop where
  | nil : Resolves [] []
  | plain {b : UInt8} {body value : Bytes} (hb : Plain b) (hbody : Resolves body value) :
      Resolves (b :: body) (b :: value)
  | short {letter b : UInt8} {body value : Bytes} (hletter : Short letter b)
      (hbody : Resolves body value) : Resolves (byte '\\' :: letter :: body) (b :: value)
  | code {quad body value : Bytes} {c : Char} (hquad : Quad quad c.toNat)
      (hbody : Resolves body value) :
      Resolves (byte '\\' :: byte 'u' :: (quad ++ body)) (String.utf8EncodeChar c ++ value)
  | pair {high low body value : Bytes} {c : Char} (hc : 0x10000 ≤ c.toNat)
      (hhigh : Quad high (0xD800 + (c.toNat - 0x10000) / 0x400))
      (hlow : Quad low (0xDC00 + (c.toNat - 0x10000) % 0x400)) (hbody : Resolves body value) :
      Resolves (byte '\\' :: byte 'u' :: (high ++ byte '\\' :: byte 'u' :: (low ++ body)))
        (String.utf8EncodeChar c ++ value)

/-- The bytes between the quotes of a string that is a text, or is none since a surrogate stands
    alone or a byte belongs to no character. -/
def Quotes (text : Option String) (body : Bytes) : Prop :=
  Escaped body ∧ ∀ t, text = some t ↔ Resolves body (Utf8.encode t)

variable {b letter : UInt8} {body value rest quad : Bytes} {n fuel : Nat} {text : Option String}

theorem Short.shortEscape? (h : Short letter b) : shortEscape? letter = some b := by
  cases h <;> decide

theorem Short.ne_u (h : Short letter b) : letter ≠ byte 'u' := by
  cases h <;> decide

theorem Quad.length_eq (h : Quad quad n) : quad.length = 4 := by
  cases h
  rfl

theorem Quad.hexQuad (h : Quad quad n) (rest : Bytes) : hexQuad (quad ++ rest) = .ok (n, rest) := by
  cases h with
  | mk ha hb hc hd => simp [Json.hexQuad, ha, hb, hc, hd]

theorem skipString_plain (hb : Plain b) : skipString (fuel + 1) (b :: rest) = skipString fuel rest := by
  obtain ⟨hcontrol, hquote, hslash⟩ := hb
  conv_lhs => unfold skipString
  rw [if_neg hquote, if_neg hslash, if_neg (UInt8.not_lt.mpr hcontrol)]

theorem skipString_short (hletter : Short letter b) :
    skipString (fuel + 1) (byte '\\' :: letter :: rest) = skipString fuel rest := by
  conv_lhs => unfold skipString
  simp only [if_neg hletter.ne_u, hletter.shortEscape?]
  rw [if_neg (by decide), if_pos trivial]

theorem skipString_code (hquad : Quad quad n) :
    skipString (fuel + 1) (byte '\\' :: byte 'u' :: (quad ++ rest)) = skipString fuel rest := by
  conv_lhs => unfold skipString
  simp only [if_pos, hquad.hexQuad]
  rw [if_neg (by decide)]

/-- A string that is not needed is skipped. -/
theorem skipString_escaped (h : Escaped body) (rest : Bytes) (hfuel : body.length < fuel) :
    skipString fuel (body ++ byte '"' :: rest) = .ok rest := by
  -- a round of the loop for each character, however long its escape is
  induction h generalizing fuel with
  | nil =>
    obtain ⟨fuel, rfl⟩ := Nat.exists_eq_add_one_of_ne_zero (Nat.ne_zero_of_lt hfuel)
    simp [skipString]
  | plain hb _ ih =>
    obtain ⟨fuel, rfl⟩ := Nat.exists_eq_add_one_of_ne_zero (Nat.ne_zero_of_lt hfuel)
    rw [List.cons_append, skipString_plain hb]
    exact ih (by simpa using hfuel)
  | short hletter _ ih =>
    obtain ⟨fuel, rfl⟩ := Nat.exists_eq_add_one_of_ne_zero (Nat.ne_zero_of_lt hfuel)
    simp only [List.length_cons] at hfuel
    rw [List.cons_append, List.cons_append, skipString_short hletter]
    exact ih (by omega)
  | code hquad _ ih =>
    obtain ⟨fuel, rfl⟩ := Nat.exists_eq_add_one_of_ne_zero (Nat.ne_zero_of_lt hfuel)
    simp only [List.length_cons, List.length_append] at hfuel
    rw [List.cons_append, List.cons_append, List.append_assoc, skipString_code hquad]
    exact ih (by omega)

theorem hexDigit?_lt {i : Nat} (h : hexDigit? b = some i) : i < 16 := by
  unfold hexDigit? Text.hexValue? at h
  have hnine : '9'.toNat = 57 := rfl
  have hzero : '0'.toNat = 48 := rfl
  have ha : 'a'.toNat = 97 := rfl
  have hf : 'f'.toNat = 102 := rfl
  have ha' : 'A'.toNat = 65 := rfl
  have hf' : 'F'.toNat = 70 := rfl
  split_ifs at h with hdigit hlower hupper
  · have hle : (Char.ofNat b.toNat).toNat ≤ '9'.toNat := hdigit.2
    cases h
    omega
  · have hle : (Char.ofNat b.toNat).toNat ≤ 'f'.toNat := hlower.2
    cases h
    omega
  · have hle : (Char.ofNat b.toNat).toNat ≤ 'F'.toNat := hupper.2
    cases h
    omega

theorem Quad.lt (h : Quad quad n) : n < 0x10000 := by
  cases h with
  | mk ha hb hc hd =>
    have hi := hexDigit?_lt ha
    have hj := hexDigit?_lt hb
    have hk := hexDigit?_lt hc
    have hl := hexDigit?_lt hd
    omega

theorem codePointBytes_toNat (c : Char) : codePointBytes c.toNat = String.utf8EncodeChar c := by
  rw [codePointBytes, Char.ofNat_toNat]

/-- The escape of a character by its number. -/
theorem unicodeEscape_code {c : Char} (hquad : Quad quad c.toNat) (rest : Bytes) :
    unicodeEscape (quad ++ rest) = .ok (String.utf8EncodeChar c, rest) := by
  have hvalid : c.toNat < 0xD800 ∨ (0xDFFF < c.toNat ∧ c.toNat < 0x110000) := c.valid
  simp only [unicodeEscape, hquad.hexQuad]
  rw [if_neg (by omega), if_pos (by omega), codePointBytes_toNat]

/-- The escape of a character by two surrogates. -/
theorem unicodeEscape_pair {high low : Bytes} {c : Char} (hc : 0x10000 ≤ c.toNat)
    (hhigh : Quad high (0xD800 + (c.toNat - 0x10000) / 0x400))
    (hlow : Quad low (0xDC00 + (c.toNat - 0x10000) % 0x400)) (rest : Bytes) :
    unicodeEscape (high ++ byte '\\' :: byte 'u' :: (low ++ rest)) =
      .ok (String.utf8EncodeChar c, rest) := by
  have hvalid : c.toNat < 0xD800 ∨ (0xDFFF < c.toNat ∧ c.toNat < 0x110000) := c.valid
  simp only [unicodeEscape, hhigh.hexQuad]
  rw [if_neg (by omega), if_neg (by omega)]
  simp only [ne_eq, not_true_eq_false, if_false, hlow.hexQuad]
  rw [if_neg (by omega), ← codePointBytes_toNat]
  congr 3
  omega

theorem stringOnto_plain (hb : Plain b) (done : Bytes) :
    stringOnto (fuel + 1) done (b :: rest) = stringOnto fuel (b :: done) rest := by
  obtain ⟨hcontrol, hquote, hslash⟩ := hb
  conv_lhs => unfold stringOnto
  rw [if_neg hquote, if_neg hslash, if_neg (UInt8.not_lt.mpr hcontrol)]

theorem stringOnto_short (hletter : Short letter b) (done : Bytes) :
    stringOnto (fuel + 1) done (byte '\\' :: letter :: rest) = stringOnto fuel (b :: done) rest := by
  conv_lhs => unfold stringOnto
  simp only [if_neg hletter.ne_u, hletter.shortEscape?]
  rw [if_neg (by decide), if_pos trivial]

theorem stringOnto_code (done : Bytes) :
    stringOnto (fuel + 1) done (byte '\\' :: byte 'u' :: rest) =
      match unicodeEscape rest with
      | .error e => .error e
      | .ok (bytes, rest) => stringOnto fuel (bytes.reverse ++ done) rest := by
  conv_lhs => unfold stringOnto
  simp only [if_pos]
  exact if_neg (by decide)

/-- A string is read as the bytes that it stands for. -/
theorem stringOnto_resolves (h : Resolves body value) (done rest : Bytes)
    (hfuel : body.length < fuel) :
    stringOnto fuel done (body ++ byte '"' :: rest) = .ok (done.reverse ++ value, rest) := by
  -- a round of the loop for each character; a pair of escapes is taken in one round
  induction h generalizing fuel done with
  | nil =>
    obtain ⟨fuel, rfl⟩ := Nat.exists_eq_add_one_of_ne_zero (Nat.ne_zero_of_lt hfuel)
    simp [stringOnto]
  | plain hb _ ih =>
    obtain ⟨fuel, rfl⟩ := Nat.exists_eq_add_one_of_ne_zero (Nat.ne_zero_of_lt hfuel)
    rw [List.cons_append, stringOnto_plain hb, ih _ (by simpa using hfuel)]
    simp
  | short hletter _ ih =>
    obtain ⟨fuel, rfl⟩ := Nat.exists_eq_add_one_of_ne_zero (Nat.ne_zero_of_lt hfuel)
    simp only [List.length_cons] at hfuel
    rw [List.cons_append, List.cons_append, stringOnto_short hletter, ih _ (by omega)]
    simp
  | code hquad _ ih =>
    obtain ⟨fuel, rfl⟩ := Nat.exists_eq_add_one_of_ne_zero (Nat.ne_zero_of_lt hfuel)
    simp only [List.length_cons, List.length_append] at hfuel
    rw [List.cons_append, List.cons_append, List.append_assoc, stringOnto_code,
      unicodeEscape_code hquad]
    simp only
    rw [ih _ (by omega)]
    simp
  | pair hc hhigh hlow _ ih =>
    obtain ⟨fuel, rfl⟩ := Nat.exists_eq_add_one_of_ne_zero (Nat.ne_zero_of_lt hfuel)
    simp only [List.length_cons, List.length_append] at hfuel
    rw [List.cons_append, List.cons_append, List.append_assoc, List.cons_append, List.cons_append,
      List.append_assoc, stringOnto_code, unicodeEscape_pair hc hhigh hlow]
    simp only
    rw [ih _ (by omega)]
    simp

theorem Resolves.escaped (h : Resolves body value) : Escaped body := by
  induction h with
  | nil => exact .nil
  | plain hb _ ih => exact .plain hb ih
  | short hletter _ ih => exact .short hletter ih
  | code hquad _ ih => exact .code hquad ih
  | pair hc hhigh hlow _ ih => exact .code hhigh (.code hlow ih)

/-- A string stands for one text at most. -/
theorem Resolves.quotes {t : String} (h : Resolves body (Utf8.encode t)) : Quotes (some t) body := by
  refine ⟨h.escaped, fun t' => ⟨fun heq => Option.some.inj heq ▸ h, fun h' => ?_⟩⟩
  have hread := stringOnto_resolves h [] [] body.length.lt_succ_self
  rw [stringOnto_resolves h' [] [] body.length.lt_succ_self] at hread
  simp only [List.reverse_nil, List.nil_append, Except.ok.injEq, Prod.mk.injEq, and_true] at hread
  rw [← Utf8.decode?_encode t, ← hread, Utf8.decode?_encode]

/-- A text without quotes, backslashes and control characters can stand between quotes as it is. -/
theorem quotes_plain {t : String} (h : ∀ b ∈ Utf8.encode t, Plain b) :
    Quotes (some t) (Utf8.encode t) := by
  have hresolves : ∀ bytes : Bytes, (∀ b ∈ bytes, Plain b) → Resolves bytes bytes := by
    intro bytes
    induction bytes with
    | nil => exact fun _ => .nil
    | cons b bytes ih =>
      intro hplain
      rw [List.forall_mem_cons] at hplain
      exact .plain hplain.1 (ih hplain.2)
  exact (hresolves _ h).quotes

/-- A character that is escaped by its number, or by two surrogates. -/
theorem exists_of_unicodeEscape {bytes left : Bytes} (hquad : Quad quad n) (hbody : Escaped body)
    (h : unicodeEscape (quad ++ (body ++ byte '"' :: rest)) = .ok (bytes, left)) :
    ∃ c : Char, bytes = String.utf8EncodeChar c ∧
      (n = c.toNat ∧ left = body ++ byte '"' :: rest ∨
        ∃ low body', 0x10000 ≤ c.toNat ∧ n = 0xD800 + (c.toNat - 0x10000) / 0x400 ∧
          Quad low (0xDC00 + (c.toNat - 0x10000) % 0x400) ∧
          body = byte '\\' :: byte 'u' :: (low ++ body') ∧ Escaped body' ∧
          left = body' ++ byte '"' :: rest) := by
  have hn := hquad.lt
  simp only [unicodeEscape, hquad.hexQuad] at h
  split_ifs at h with hlone hsingle
  · have htoNat : (Char.ofNat n).toNat = n := Utf8.val_ofNat (by omega)
    cases h
    exact ⟨Char.ofNat n, rfl, .inl ⟨htoNat.symm, rfl⟩⟩
  · -- a high surrogate needs a low one behind it
    cases hbody with
    | nil => simp [show byte '"' ≠ byte '\\' by decide] at h
    | plain hb => simp [hb.2.2] at h
    | short hletter => simp [hletter.ne_u] at h
    | code hlow hbody' =>
      rename_i low body' m
      have hm := hlow.lt
      simp only [List.cons_append, List.append_assoc, ne_eq, not_true_eq_false, if_false,
        hlow.hexQuad] at h
      split_ifs at h with hrange
      obtain ⟨k, hk⟩ : ∃ k, k = (n - 0xD800) * 0x400 + (m - 0xDC00) + 0x10000 := ⟨_, rfl⟩
      rw [← hk] at h
      have htoNat : (Char.ofNat k).toNat = k := Utf8.val_ofNat (by omega)
      cases h
      refine ⟨_, rfl, .inr ⟨low, body', ?_, ?_, ?_, rfl, hbody', rfl⟩⟩
      · omega
      · omega
      · convert hlow using 1
        omega

/-- What is read as a string is what its bytes stand for. -/
theorem exists_resolves {done left v : Bytes} (hbody : Escaped body)
    (h : stringOnto fuel done (body ++ byte '"' :: rest) = .ok (v, left)) :
    left = rest ∧ ∃ value, v = done.reverse ++ value ∧ Resolves body value := by
  -- by the steps of the reader: one for each byte, short escape, number or pair of surrogates
  induction fuel generalizing body done with
  | zero => cases h
  | succ fuel ih =>
    cases hbody with
    | nil =>
      simp only [List.nil_append, stringOnto, if_pos] at h
      cases h
      exact ⟨rfl, [], by simp, .nil⟩
    | plain hb hbody =>
      rw [List.cons_append, stringOnto_plain hb] at h
      obtain ⟨hleft, value, rfl, hvalue⟩ := ih hbody h
      exact ⟨hleft, _, by simp, .plain hb hvalue⟩
    | short hletter hbody =>
      rw [List.cons_append, List.cons_append, stringOnto_short hletter] at h
      obtain ⟨hleft, value, rfl, hvalue⟩ := ih hbody h
      exact ⟨hleft, _, by simp, .short hletter hvalue⟩
    | code hquad hbody =>
      rw [List.cons_append, List.cons_append, List.append_assoc, stringOnto_code] at h
      split at h
      · cases h
      · rename_i bytes after hescape
        obtain ⟨c, rfl, ⟨rfl, rfl⟩ | ⟨low, body', hc, rfl, hlow, rfl, hbody', rfl⟩⟩ :=
          exists_of_unicodeEscape hquad hbody hescape
        · obtain ⟨hleft, value, rfl, hvalue⟩ := ih hbody h
          exact ⟨hleft, _, by simp, .code hquad hvalue⟩
        · obtain ⟨hleft, value, rfl, hvalue⟩ := ih hbody' h
          exact ⟨hleft, _, by simp, .pair hc hquad hlow hvalue⟩

/-- A string is read as its text. -/
theorem string_text {t : String} (h : Quotes (some t) body) (rest : Bytes) :
    string (body ++ byte '"' :: rest) = .ok (t, rest) := by
  have hfuel : body.length < (body ++ byte '"' :: rest).length + 1 := by
    rw [List.length_append]
    omega
  simp only [string, stringOnto_resolves ((h.2 t).mp rfl) [] rest hfuel]
  simp [Utf8.decode?_encode]

/-- A string that is no text is refused. -/
theorem string_none (h : Quotes none body) (rest : Bytes) :
    ∃ e, string (body ++ byte '"' :: rest) = .error e := by
  obtain ⟨hescaped, htext⟩ := h
  simp only [string]
  split
  · exact ⟨_, rfl⟩
  · rename_i value left hread
    obtain ⟨-, value, rfl, hvalue⟩ := exists_resolves hescaped hread
    split
    · rename_i t hdecode
      have hresolves : Resolves body (Utf8.encode t) := Utf8.encode_of_decode? hdecode ▸ hvalue
      exact absurd ((htext t).mpr hresolves) (by simp)
    · exact ⟨_, rfl⟩

/-! ## §2 Numbers -/

/-- Decimal digits, at least one. -/
def Digits (ds : Bytes) : Prop :=
  ds ≠ [] ∧ ∀ d ∈ ds, isDigit d = true

/-- The part of a number before its point. -/
def Whole (ds : Bytes) : Prop :=
  ds = [byte '0'] ∨ Digits ds ∧ ds.head? ≠ some (byte '0')

/-- The part of a number after its digits before the point, if it has one. -/
def Fraction (bytes : Bytes) : Prop :=
  bytes = [] ∨ ∃ ds, Digits ds ∧ bytes = byte '.' :: ds

/-- The exponent of a number, if it has one. -/
def Exponent (bytes : Bytes) : Prop :=
  bytes = [] ∨ ∃ letter sign ds, (letter = byte 'e' ∨ letter = byte 'E') ∧
    (sign = [] ∨ sign = [byte '+'] ∨ sign = [byte '-']) ∧ Digits ds ∧
    bytes = letter :: (sign ++ ds)

/-- A number. -/
inductive IsNumber : Bytes → Prop where
  | mk {sign whole fraction exponent : Bytes} (hsign : sign = [] ∨ sign = [byte '-'])
      (hwhole : Whole whole) (hfraction : Fraction fraction) (hexponent : Exponent exponent) :
      IsNumber (sign ++ (whole ++ (fraction ++ exponent)))

/-- What can follow a value: white space, a comma, a closing bracket or brace, or nothing. -/
def Stops (rest : Bytes) : Prop :=
  ∀ b ∈ rest.head?, isSpace b = true ∨ b = byte ',' ∨ b = byte ']' ∨ b = byte '\x7d'

/-- A byte that ends the digits of a number. -/
def EndsDigits (rest : Bytes) : Prop :=
  ∀ b ∈ rest.head?, isDigit b = false

variable {ds whole fraction exponent : Bytes}

theorem Stops.not_digit (h : Stops rest) : EndsDigits rest := by
  intro b hb
  rcases h b hb with hspace | rfl | rfl | rfl
  · unfold isSpace at hspace
    simp only [Bool.or_eq_true, beq_iff_eq] at hspace
    rcases hspace with ((rfl | rfl) | rfl) | rfl <;> decide
  all_goals decide

/-- What follows a value goes on with no part of a number. -/
theorem Stops.not_mark (h : Stops rest) :
    ∀ b ∈ rest.head?, b ≠ byte '.' ∧ b ≠ byte 'e' ∧ b ≠ byte 'E' := by
  intro b hb
  rcases h b hb with hspace | rfl | rfl | rfl
  · unfold isSpace at hspace
    simp only [Bool.or_eq_true, beq_iff_eq] at hspace
    rcases hspace with ((rfl | rfl) | rfl) | rfl <;> decide
  all_goals decide

theorem digits_append (hds : ∀ d ∈ ds, isDigit d = true) (hrest : EndsDigits rest) :
    digits (ds ++ rest) = (ds, rest) := by
  rw [digits, List.span_eq_takeWhile_dropWhile, List.takeWhile_append_of_pos hds,
    List.dropWhile_append_of_pos hds]
  cases rest with
  | nil => simp
  | cons b more => simp [hrest b rfl]

theorem Digits.exists_cons (h : Digits ds) : ∃ d more, ds = d :: more ∧ isDigit d = true ∧
    ∀ c ∈ more, isDigit c = true := by
  obtain ⟨hne, hall⟩ := h
  obtain ⟨d, more, rfl⟩ := List.exists_cons_of_ne_nil hne
  exact ⟨d, more, rfl, hall d (by simp), fun c hc => hall c (by simp [hc])⟩

/-- What follows the digits in front of the point. -/
def skipFraction (bytes : Bytes) : Except Problem Bytes :=
  match bytes with
  | [] => .ok []
  | b :: rest =>
    if b = byte '.' then
      match digits rest with
      | ([], _) => .error .invalidNumber
      | (_, after) =>
        match after with
        | [] => .ok []
        | e :: more => if e = byte 'e' ∨ e = byte 'E' then skipExponent more else .ok after
    else if b = byte 'e' ∨ b = byte 'E' then skipExponent rest
    else .ok bytes

theorem Whole.exists_cons (h : Whole whole) : ∃ d more, whole = d :: more ∧ isDigit d = true := by
  rcases h with rfl | ⟨hdigits, -⟩
  · exact ⟨_, _, rfl, by decide⟩
  · obtain ⟨d, more, rfl, hd, -⟩ := hdigits.exists_cons
    exact ⟨d, more, rfl, hd⟩

/-- A number that is not needed is skipped from its point on after its first digits. -/
theorem skipNumber_whole (h : Whole whole) (hrest : EndsDigits rest) :
    skipNumber (whole ++ rest) = skipFraction rest := by
  rcases h with rfl | ⟨hdigits, hzero⟩
  · cases rest with
    | nil => rfl
    | cons c more =>
      have hc := hrest c rfl
      simp only [skipNumber, List.singleton_append, if_pos, hc]
      rfl
  · obtain ⟨d, more, rfl, hd, hmore⟩ := hdigits.exists_cons
    have hfirst : d ≠ byte '0' := by simpa using hzero
    simp only [skipNumber, List.cons_append, if_neg hfirst, if_pos hd, digits_append hmore hrest]
    rfl

theorem skipExponent_digits {sign : Bytes} (hsign : sign = [] ∨ sign = [byte '+'] ∨ sign = [byte '-'])
    (hds : Digits ds) (hrest : EndsDigits rest) : skipExponent (sign ++ ds ++ rest) = .ok rest := by
  obtain ⟨d, more, rfl, hd, hmore⟩ := hds.exists_cons
  have hplus : ¬ (d = byte '+' ∨ d = byte '-') := by
    rintro (rfl | rfl) <;> exact absurd hd (by decide)
  rcases hsign with rfl | rfl | rfl <;>
    simp [skipExponent, hplus, hd, digits_append hmore hrest]

theorem skipFraction_exponent (hexponent : Exponent exponent) (hstops : Stops rest) :
    skipFraction (exponent ++ rest) = .ok rest := by
  rcases hexponent with rfl | ⟨letter, sign, ds, hletter, hsign, hds, rfl⟩
  · cases rest with
    | nil => rfl
    | cons b more =>
      obtain ⟨hpoint, he, hE⟩ := hstops.not_mark b rfl
      simp [skipFraction, hpoint, he, hE]
  · have hpoint : letter ≠ byte '.' := by
      rcases hletter with rfl | rfl <;> decide
    rw [List.cons_append, skipFraction, if_neg hpoint, if_pos hletter]
    exact skipExponent_digits hsign hds hstops.not_digit

theorem Exponent.endsDigits (hexponent : Exponent exponent) (hstops : Stops rest) :
    EndsDigits (exponent ++ rest) := by
  rcases hexponent with rfl | ⟨letter, sign, ds, hletter, -, -, rfl⟩
  · exact hstops.not_digit
  · intro b hb
    cases hb
    rcases hletter with rfl | rfl <;> decide

/-- A number that is not needed is skipped. -/
theorem skipNumber_parts (hwhole : Whole whole) (hfraction : Fraction fraction)
    (hexponent : Exponent exponent) (hstops : Stops rest) :
    skipNumber (whole ++ (fraction ++ exponent) ++ rest) = .ok rest := by
  rw [List.append_assoc]
  rcases hfraction with rfl | ⟨ds, hds, rfl⟩
  · rw [List.nil_append, skipNumber_whole hwhole (hexponent.endsDigits hstops)]
    exact skipFraction_exponent hexponent hstops
  · rw [skipNumber_whole hwhole (by intro b hb; cases hb; decide), List.append_assoc,
      List.cons_append, skipFraction, if_pos rfl,
      digits_append hds.2 (hexponent.endsDigits hstops)]
    -- a fraction has a digit at least, so that the exponent comes next
    obtain ⟨d, more, rfl, -, -⟩ := hds.exists_cons
    rcases hexponent with rfl | ⟨letter, sign, ds', hletter, hsign, hds', rfl⟩
    · cases rest with
      | nil => rfl
      | cons b more =>
        obtain ⟨-, he, hE⟩ := hstops.not_mark b rfl
        simp [he, hE]
    · simp only [List.cons_append, if_pos hletter]
      exact skipExponent_digits hsign hds' hstops.not_digit

/-! ## §3 Values -/

/-- What a value says. Which number it is does not matter here; a string that is no text says none. -/
inductive Form where
  | null
  | boolean (value : Bool)
  | number
  | string (text : Option String)
  | list (items : List Form)
  | object (members : List (Option String × Form))

/-- White space between tokens. -/
def Spaces (bytes : Bytes) : Prop :=
  ∀ b ∈ bytes, isSpace b = true

/-- What stands in front of the first, or of another, element of a list or object. -/
inductive Lead : Bool → Bytes → Prop where
  | first {bytes : Bytes} (hbytes : Spaces bytes) : Lead true bytes
  | comma {before after : Bytes} (hbefore : Spaces before) (hafter : Spaces after) :
      Lead false (before ++ byte ',' :: after)

/-- Elements up to the bracket or brace that closes them, the first of them being the first of
    all or not. -/
inductive Items {α : Type} (element : α → Bytes → Prop) (close : UInt8) :
    Bool → List α → Bytes → Prop where
  | nil {first : Bool} {bytes : Bytes} (hbytes : Spaces bytes) :
      Items element close first [] (bytes ++ [close])
  | cons {first : Bool} {lead bytes inner : Bytes} {x : α} {xs : List α} (hlead : Lead first lead)
      (hx : element x bytes) (hinner : Items element close false xs inner) :
      Items element close first (x :: xs) (lead ++ (bytes ++ inner))

/-- A member of an object: its key, a colon and its value. -/
inductive Member (value : Form → Bytes → Prop) : Option String × Form → Bytes → Prop where
  | mk {key : Option String} {v : Form} {body before after bytes : Bytes} (hkey : Quotes key body)
      (hbefore : Spaces before) (hafter : Spaces after) (hv : value v bytes) :
      Member value (key, v)
        (byte '"' :: (body ++ byte '"' :: (before ++ byte ':' :: (after ++ bytes))))

/-- How a value is written in which lists and objects are nested at most `depth` deep. -/
def Writes : Nat → Form → Bytes → Prop
  | _, .null, bytes => bytes = letters "null"
  | _, .boolean true, bytes => bytes = letters "true"
  | _, .boolean false, bytes => bytes = letters "false"
  | _, .number, bytes => IsNumber bytes
  | _, .string text, bytes => ∃ body, Quotes text body ∧ bytes = byte '"' :: (body ++ [byte '"'])
  | 0, .list _, _ => False
  | 0, .object _, _ => False
  | depth + 1, .list items, bytes =>
    ∃ inner, Items (Writes depth) (byte ']') true items inner ∧ bytes = byte '[' :: inner
  | depth + 1, .object members, bytes =>
    ∃ inner, Items (Member (Writes depth)) (byte '\x7d') true members inner ∧
      bytes = byte '\x7b' :: inner

/-- A whole text: a value, nested to whatever depth, and white space around it. -/
def IsText (v : Form) (bytes : Bytes) : Prop :=
  ∃ depth before value after, Spaces before ∧ Spaces after ∧ Writes depth v value ∧
    bytes = before ++ (value ++ after)

/-- The first byte of a value. -/
def Form.Opens : Form → UInt8 → Prop
  | .null, b => b = byte 'n'
  | .boolean true, b => b = byte 't'
  | .boolean false, b => b = byte 'f'
  | .number, b => b = byte '-' ∨ isDigit b = true
  | .string _, b => b = byte '"'
  | .list _, b => b = byte '['
  | .object _, b => b = byte '\x7b'

/-- A byte that a value or a member can begin with. -/
structure Begins (b : UInt8) : Prop where
  not_space : isSpace b = false
  not_comma : b ≠ byte ','
  not_bracket : b ≠ byte ']'
  not_brace : b ≠ byte '\x7d'

variable {depth : Nat} {v : Form} {before bytes inner w : Bytes} {first : Bool}

/-- A list is nested one level deeper than its elements. -/
theorem Writes.list {items : List Form} (h : Writes depth (.list items) w) : ∃ d inner, d < depth ∧
    Items (Writes d) (byte ']') true items inner ∧ w = byte '[' :: inner := by
  cases depth with
  | zero => cases h
  | succ d =>
    obtain ⟨inner, hinner, hw⟩ := h
    exact ⟨d, inner, Nat.lt_succ_self d, hinner, hw⟩

/-- An object is nested one level deeper than its members. -/
theorem Writes.object {members : List (Option String × Form)}
    (h : Writes depth (.object members) w) : ∃ d inner, d < depth ∧
      Items (Member (Writes d)) (byte '\x7d') true members inner ∧ w = byte '\x7b' :: inner := by
  cases depth with
  | zero => cases h
  | succ d =>
    obtain ⟨inner, hinner, hw⟩ := h
    exact ⟨d, inner, Nat.lt_succ_self d, hinner, hw⟩

theorem Writes.exists_cons (h : Writes depth v w) : ∃ b more, w = b :: more ∧ v.Opens b := by
  cases v with
  | null =>
    rw [Writes] at h
    exact ⟨_, _, h, rfl⟩
  | boolean value =>
    cases value with
    | true =>
      rw [Writes] at h
      exact ⟨_, _, h, rfl⟩
    | false =>
      rw [Writes] at h
      exact ⟨_, _, h, rfl⟩
  | number =>
    rw [Writes] at h
    obtain ⟨hsign, hwhole, -, -⟩ := h
    rcases hsign with rfl | rfl
    · obtain ⟨d, more, rfl, hd⟩ := hwhole.exists_cons
      exact ⟨d, _, rfl, .inr hd⟩
    · exact ⟨_, _, rfl, .inl rfl⟩
  | string text =>
    rw [Writes] at h
    obtain ⟨body, -, rfl⟩ := h
    exact ⟨_, _, rfl, rfl⟩
  | list items =>
    obtain ⟨_, inner, -, -, rfl⟩ := h.list
    exact ⟨_, _, rfl, rfl⟩
  | object members =>
    obtain ⟨_, inner, -, -, rfl⟩ := h.object
    exact ⟨_, _, rfl, rfl⟩

theorem begins_quote : Begins (byte '"') :=
  ⟨by decide, by decide, by decide, by decide⟩

theorem Form.Opens.begins (h : v.Opens b) : Begins b := by
  cases v with
  | null => cases h; exact ⟨by decide, by decide, by decide, by decide⟩
  | boolean value =>
    cases value <;> (cases h; exact ⟨by decide, by decide, by decide, by decide⟩)
  | number =>
    rcases h with rfl | hdigit
    · exact ⟨by decide, by decide, by decide, by decide⟩
    · refine ⟨?_, ?_, ?_, ?_⟩
      · cases hspace : isSpace b with
        | false => rfl
        | true =>
          have hstops : Stops [b] := fun c hc => by cases hc; exact .inl hspace
          exact absurd hdigit (by simp [hstops.not_digit b rfl])
      all_goals
        rintro rfl
        exact absurd hdigit (by decide)
  | string text => cases h; exact begins_quote
  | list items => cases h; exact ⟨by decide, by decide, by decide, by decide⟩
  | object members => cases h; exact ⟨by decide, by decide, by decide, by decide⟩

theorem skipSpace_spaces (h : Spaces before) (rest : Bytes) :
    skipSpace (before ++ rest) = skipSpace rest :=
  List.dropWhile_append_of_pos h

theorem skipSpace_cons (h : isSpace b = false) (rest : Bytes) : skipSpace (b :: rest) = b :: rest := by
  simp [skipSpace, h]

theorem skipSpace_all (h : Spaces before) : skipSpace before = [] := by
  rw [← List.append_nil before, skipSpace_spaces h]
  rfl

/-- White space and what follows it, which is none. -/
theorem skipSpace_begins (h : Spaces before) (hb : isSpace b = false) (rest : Bytes) :
    skipSpace (before ++ b :: rest) = b :: rest := by
  rw [skipSpace_spaces h, skipSpace_cons hb]

theorem word_append (letters rest : Bytes) : word letters (letters ++ rest) = .ok rest := by
  induction letters with
  | nil => rfl
  | cons c more ih => simpa [word] using ih

/-- After an element comes white space, a comma or the closing bracket or brace. -/
theorem Items.stops {α : Type} {element : α → Bytes → Prop} {close : UInt8} {xs : List α}
    (h : Items element close false xs inner) (hclose : close = byte ']' ∨ close = byte '\x7d')
    (rest : Bytes) : Stops (inner ++ rest) := by
  have hspaces : ∀ {before : Bytes} {b : UInt8} {rest : Bytes}, Spaces before →
      (b = byte ',' ∨ b = byte ']' ∨ b = byte '\x7d') → Stops (before ++ b :: rest) := by
    intro before b rest hbefore hb
    cases before with
    | nil => intro c hc; cases hc; exact .inr hb
    | cons c more => intro d hd; cases hd; exact .inl (hbefore c (by simp))
  cases h with
  | nil hbytes =>
    rw [List.append_assoc, List.singleton_append]
    exact hspaces hbytes (.inr hclose)
  | cons hlead _ _ =>
    cases hlead with
    | comma hbefore _ =>
      rw [List.append_assoc, List.append_assoc, List.cons_append]
      exact hspaces hbefore (.inl rfl)

/-! ## §4 Values that are not needed -/

/-- What skipping does next inside a list or object whose first element is to come, or not. -/
def Skip.inside (first : Bool) : Skip :=
  if first then .opened else .after

/-- What closes a list or object. -/
def Frame.close : Frame → UInt8
  | .list => byte ']'
  | .object => byte '\x7d'

/-- A value is skipped in fewer steps than twice its bytes. -/
def Skips (w : Bytes) : Prop :=
  ∃ k < 2 * w.length, ∀ fuel frames before rest, Spaces before → Stops rest →
    skip (fuel + k) .value frames (before ++ (w ++ rest)) = skip fuel .after frames rest

/-- An element of a list, or a member of an object, is skipped. -/
def SkipsIn (frame : Frame) (w : Bytes) : Prop :=
  (∃ b more, w = b :: more ∧ Begins b) ∧
  ∃ k < 2 * w.length, ∀ fuel frames before rest, Spaces before → Stops rest →
    (skipKeyIn frame (before ++ (w ++ rest)) >>= skip (fuel + k) .value (frame :: frames)) =
      skip fuel .after (frame :: frames) rest

variable {frame : Frame} {frames : List Frame}

theorem Frame.close_iff (frame : Frame) (b : UInt8) :
    (frame = .list ∧ b = byte ']') ∨ (frame = .object ∧ b = byte '\x7d') ↔ b = frame.close := by
  cases frame <;> simp [Frame.close]

theorem Frame.close_cases (frame : Frame) :
    frame.close = byte ']' ∨ frame.close = byte '\x7d' := by
  cases frame <;> simp [Frame.close]

theorem Frame.not_space_close (frame : Frame) : isSpace frame.close = false := by
  cases frame <;> decide

theorem Begins.ne_close (h : Begins b) (frame : Frame) : b ≠ frame.close := by
  cases frame with
  | list => exact h.not_bracket
  | object => exact h.not_brace

/-- What a value that is skipped begins with. -/
theorem skip_value {fuel : Nat} (hbefore : Spaces before) (hb : isSpace b = false) :
    skip (fuel + 1) .value frames (before ++ b :: rest) =
      if b = byte 'n' then word (letters "ull") rest >>= skip fuel .after frames
      else if b = byte 't' then word (letters "rue") rest >>= skip fuel .after frames
      else if b = byte 'f' then word (letters "alse") rest >>= skip fuel .after frames
      else if b = byte '-' then skipNumber rest >>= skip fuel .after frames
      else if isDigit b then skipNumber (b :: rest) >>= skip fuel .after frames
      else if b = byte '"' then skipString (rest.length + 1) rest >>= skip fuel .after frames
      else if b = byte '[' then skip fuel .opened (.list :: frames) rest
      else if b = byte '\x7b' then skip fuel .opened (.object :: frames) rest
      else .error .expectedValue := by
  simp only [skip, skipSpace_begins hbefore hb]

/-- What comes first inside of a list or object. -/
theorem skip_opened {fuel : Nat} (hbefore : Spaces before) (hb : isSpace b = false) :
    skip (fuel + 1) .opened (frame :: frames) (before ++ b :: rest) =
      if b = frame.close then skip fuel .after frames rest
      else skipKeyIn frame (b :: rest) >>= skip fuel .value (frame :: frames) := by
  simp only [skip, skipSpace_begins hbefore hb, frame.close_iff]

/-- What comes after an element of a list or object. -/
theorem skip_after {fuel : Nat} (hbefore : Spaces before) (hb : b = frame.close ∨ b = byte ',') :
    skip (fuel + 1) .after (frame :: frames) (before ++ b :: rest) =
      if b = frame.close then skip fuel .after frames rest
      else skipKeyIn frame rest >>= skip fuel .value (frame :: frames) := by
  have hspace : isSpace b = false := by
    rcases hb with rfl | rfl
    · exact frame.not_space_close
    · decide
  simp only [skip, skipSpace_begins hbefore hspace, frame.close_iff]
  split_ifs with hclose hcomma
  · rfl
  · rfl
  · exact absurd (hb.resolve_left hclose) hcomma

/-- The closing bracket or brace. -/
theorem skip_close (hbefore : Spaces before) (first : Bool) (fuel : Nat) (frames : List Frame) :
    skip (fuel + 1) (.inside first) (frame :: frames) (before ++ frame.close :: rest) =
      skip fuel .after frames rest := by
  cases first with
  | true => exact (skip_opened hbefore frame.not_space_close).trans (if_pos rfl)
  | false => exact (skip_after hbefore (.inl rfl)).trans (if_pos rfl)

/-- The first element of a list or object. -/
theorem skip_first (hbefore : Spaces before) (hb : Begins b) :
    skip (fuel + 1) .opened (frame :: frames) (before ++ b :: rest) =
      (skipKeyIn frame (b :: rest) >>= skip fuel .value (frame :: frames)) :=
  (skip_opened hbefore hb.not_space).trans (if_neg (hb.ne_close frame))

/-- Another element of a list or object. -/
theorem skip_comma (hbefore : Spaces before) :
    skip (fuel + 1) .after (frame :: frames) (before ++ byte ',' :: rest) =
      (skipKeyIn frame rest >>= skip fuel .value (frame :: frames)) := by
  have hclose : byte ',' ≠ frame.close := by cases frame <;> decide
  exact (skip_after hbefore (.inr rfl)).trans (if_neg hclose)

/-- The elements of a list or object are skipped one after another. -/
theorem skip_items {α : Type} {element : α → Bytes → Prop} {xs : List α}
    (hskips : ∀ x w, element x w → SkipsIn frame w)
    (h : Items element frame.close first xs inner) :
    ∃ k ≤ 2 * inner.length, ∀ fuel frames rest,
      skip (fuel + k) (.inside first) (frame :: frames) (inner ++ rest) =
        skip fuel .after frames rest := by
  -- the steps of the elements add up, and each comma and bracket pays for one more
  induction h with
  | nil hbytes =>
    refine ⟨1, by simp; omega, fun fuel frames rest => ?_⟩
    rw [List.append_assoc, List.singleton_append, skip_close hbytes]
  | cons hlead hx hinner ih =>
    obtain ⟨⟨b, more, rfl, hb⟩, k, hk, hskip⟩ := hskips _ _ hx
    obtain ⟨m, hm, hrest⟩ := ih
    refine ⟨m + k + 1, by simp only [List.length_append]; omega, fun fuel frames rest => ?_⟩
    have hstops := hinner.stops frame.close_cases rest
    rw [show fuel + (m + k + 1) = fuel + m + k + 1 by omega]
    cases hlead with
    | first hbytes =>
      have hfirst := hskip (fuel + m) frames [] _ (by simp [Spaces]) hstops
      rw [List.append_assoc, List.append_assoc, List.cons_append]
      rw [List.nil_append, List.cons_append] at hfirst
      exact (skip_first hbytes hb).trans (hfirst.trans (hrest fuel frames rest))
    | comma hbefore hafter =>
      have hnext := hskip (fuel + m) frames _ _ hafter hstops
      rw [List.append_assoc, List.append_assoc, List.append_assoc, List.cons_append]
      exact (skip_comma hbefore).trans (hnext.trans (hrest fuel frames rest))

theorem skip_word {letter : UInt8} {more : List UInt8} {fuel : Nat}
    (hbefore : Spaces before) (hletter : letter = byte 'n' ∧ more = letters "ull" ∨
      letter = byte 't' ∧ more = letters "rue" ∨ letter = byte 'f' ∧ more = letters "alse") :
    skip (fuel + 1) .value frames (before ++ letter :: (more ++ rest)) =
      skip fuel .after frames rest := by
  rcases hletter with ⟨rfl, rfl⟩ | ⟨rfl, rfl⟩ | ⟨rfl, rfl⟩
  · rw [skip_value hbefore (by decide), if_pos rfl, word_append]
    rfl
  · rw [skip_value hbefore (by decide), if_neg (by decide), if_pos rfl, word_append]
    rfl
  · rw [skip_value hbefore (by decide), if_neg (by decide), if_neg (by decide), if_pos rfl,
      word_append]
    rfl

theorem skip_number {fuel : Nat} (hbefore : Spaces before) (hw : IsNumber w) (hstops : Stops rest) :
    skip (fuel + 1) .value frames (before ++ (w ++ rest)) = skip fuel .after frames rest := by
  obtain ⟨hsign, hwhole, hfraction, hexponent⟩ := hw
  have hskip := skipNumber_parts hwhole hfraction hexponent hstops
  rcases hsign with rfl | rfl
  · obtain ⟨d, more, rfl, hd⟩ := hwhole.exists_cons
    have hbegins : Begins d := Form.Opens.begins (v := .number) (.inr hd)
    have hother : ∀ {c : UInt8}, isDigit c = false → d ≠ c := by
      rintro c hc rfl
      rw [hc] at hd
      cases hd
    simp only [List.nil_append, List.cons_append] at hskip ⊢
    rw [skip_value hbefore hbegins.not_space, if_neg (hother (by decide)),
      if_neg (hother (by decide)), if_neg (hother (by decide)), if_neg (hother (by decide)),
      if_pos hd, hskip]
    rfl
  · simp only [List.nil_append, List.cons_append]
    rw [skip_value hbefore (by decide), if_neg (by decide), if_neg (by decide),
      if_neg (by decide), if_pos rfl, hskip]
    rfl

theorem skip_quoted {fuel : Nat} {body : Bytes} (hbefore : Spaces before) (hbody : Escaped body) :
    skip (fuel + 1) .value frames (before ++ byte '"' :: (body ++ byte '"' :: rest)) =
      skip fuel .after frames rest := by
  rw [skip_value hbefore begins_quote.not_space, if_neg (by decide), if_neg (by decide),
    if_neg (by decide), if_neg (by decide), if_neg (by decide), if_pos rfl, skipString_escaped hbody rest (by simp)]
  rfl

theorem skip_opening {fuel : Nat} (hbefore : Spaces before) (frame : Frame) (opening : UInt8)
    (hopening : frame = .list ∧ opening = byte '[' ∨ frame = .object ∧ opening = byte '\x7b') :
    skip (fuel + 1) .value frames (before ++ opening :: rest) =
      skip fuel .opened (frame :: frames) rest := by
  rcases hopening with ⟨rfl, rfl⟩ | ⟨rfl, rfl⟩
  · rw [skip_value hbefore (by decide), if_neg (by decide), if_neg (by decide), if_neg (by decide),
      if_neg (by decide), if_neg (by decide), if_neg (by decide), if_pos rfl]
  · rw [skip_value hbefore (by decide), if_neg (by decide), if_neg (by decide), if_neg (by decide),
      if_neg (by decide), if_neg (by decide), if_neg (by decide), if_neg (by decide), if_pos rfl]

/-- What is skipped in one step. -/
theorem Skips.of_step (hw : w ≠ []) (h : ∀ fuel frames before rest, Spaces before → Stops rest →
    skip (fuel + 1) .value frames (before ++ (w ++ rest)) = skip fuel .after frames rest) :
    Skips w := by
  have hlength := List.length_pos_iff.mpr hw
  exact ⟨1, by omega, h⟩

/-- The elements between brackets or braces are skipped. -/
theorem Skips.of_items {α : Type} {element : α → Bytes → Prop} {xs : List α} (frame : Frame)
    {opening : UInt8}
    (hopening : frame = .list ∧ opening = byte '[' ∨ frame = .object ∧ opening = byte '\x7b')
    (hskips : ∀ x w, element x w → SkipsIn frame w)
    (h : Items element frame.close true xs inner) : Skips (opening :: inner) := by
  obtain ⟨k, hk, hinner⟩ := skip_items hskips h
  refine ⟨k + 1, by simp only [List.length_cons]; omega, fun fuel frames before rest hbefore _ => ?_⟩
  exact (skip_opening hbefore frame opening hopening).trans (hinner fuel frames rest)

theorem colon_spaces (hbefore : Spaces before) :
    colon (before ++ byte ':' :: rest) = .ok rest := by
  simp only [colon, skipSpace_begins hbefore (by decide : isSpace (byte ':') = false), if_true]

/-- A member is skipped with its key. -/
theorem SkipsIn.of_member {value : Form → Bytes → Prop} (hskips : ∀ v w, value v w → Skips w)
    {x : Option String × Form} (h : Member value x w) : SkipsIn .object w := by
  obtain ⟨hkey, hbefore, hafter, hv⟩ := h
  obtain ⟨k, hk, hskip⟩ := hskips _ _ hv
  refine ⟨⟨_, _, rfl, begins_quote⟩, k, ?_, fun fuel frames front rest hfront hstops => ?_⟩
  · simp only [List.length_cons, List.length_append]
    omega
  · rw [← hskip fuel (.object :: frames) _ rest hafter hstops]
    simp only [List.cons_append, List.append_assoc, skipKeyIn, skipKey,
      skipSpace_begins hfront begins_quote.not_space, if_true]
    rw [skipString_escaped hkey.1 _ (by simp)]
    exact congrArg (· >>= skip (fuel + k) .value (.object :: frames)) (colon_spaces hbefore)

/-- Whatever is written is skipped. -/
theorem skips_writes (h : Writes depth v w) : Skips w := by
  -- the elements of a list or an object are nested less deeply than it is
  induction depth using Nat.strong_induction_on generalizing v w with
  | _ depth ih =>
  cases v with
  | null =>
    rw [Writes] at h
    subst h
    exact .of_step (by decide) fun _ _ _ _ hbefore _ => skip_word hbefore (.inl ⟨rfl, rfl⟩)
  | boolean value =>
    cases value with
    | true =>
      rw [Writes] at h
      subst h
      exact .of_step (by decide) fun _ _ _ _ hbefore _ => skip_word hbefore (.inr (.inl ⟨rfl, rfl⟩))
    | false =>
      rw [Writes] at h
      subst h
      exact .of_step (by decide) fun _ _ _ _ hbefore _ => skip_word hbefore (.inr (.inr ⟨rfl, rfl⟩))
  | number =>
    obtain ⟨b, more, hw, -⟩ := h.exists_cons
    rw [Writes] at h
    exact .of_step (by simp [hw]) fun _ _ _ _ hbefore hstops => skip_number hbefore h hstops
  | string text =>
    rw [Writes] at h
    obtain ⟨body, hbody, rfl⟩ := h
    refine .of_step (by simp) fun _ _ _ _ hbefore _ => ?_
    rw [List.cons_append, List.append_assoc]
    exact skip_quoted hbefore hbody.1
  | list items =>
    obtain ⟨d, inner, hd, hinner, rfl⟩ := h.list
    refine .of_items .list (.inl ⟨rfl, rfl⟩) (fun x w hx => ?_) hinner
    obtain ⟨b, more, rfl, hopens⟩ := hx.exists_cons
    obtain ⟨k, hk, hskip⟩ := ih d hd hx
    exact ⟨⟨b, more, rfl, hopens.begins⟩, k, hk, fun fuel frames => hskip fuel (.list :: frames)⟩
  | object members =>
    obtain ⟨d, inner, hd, hinner, rfl⟩ := h.object
    exact .of_items .object (.inr ⟨rfl, rfl⟩)
      (fun x w hx => .of_member (fun v w hv => ih d hd hv) hx) hinner

/-- A value that is not needed is skipped, whatever it is. -/
theorem skipValue_writes (h : Writes depth v w) (hbefore : Spaces before) (hstops : Stops rest) :
    skipValue (before ++ (w ++ rest)) = .ok rest := by
  obtain ⟨k, hk, hskip⟩ := skips_writes h
  obtain ⟨fuel, hfuel⟩ : ∃ fuel, 2 * (before ++ (w ++ rest)).length + 2 = fuel + 1 + k :=
    ⟨2 * (before ++ (w ++ rest)).length + 1 - k, by simp only [List.length_append]; omega⟩
  rw [skipValue, hfuel, hskip _ _ _ _ hbefore hstops]
  rfl

end AssetServer.Json
