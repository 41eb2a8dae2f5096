import AssetServer.Toml.Text
import Mathlib.Tactic

/-!
# Quoting and reading back

A text in quotes is read back as it was, whatever it holds.

- `Style.Writes` says what may stand between the quotes of a style for a text: each character as
  something that is read as this character, and never so many quotes in a row that they end it.
- `Style.Writes.body?`: what may stand there is read as the text.
- `Style.string?_write`: a text is read back from any style that can hold it.
- `Style.fits_ofText` and `Style.fits_ofKey`: the style that is chosen can hold the text.
-/

namespace AssetServer

/-! ## §1 Hexadecimal digits -/

namespace Text

@[simp] theorem length_hexDigits (width n : Nat) : (hexDigits width n).length = width := by
  induction width generalizing n with
  | zero => rfl
  | succ width ih => simp [hexDigits, ih]

/-- Digits read as the number that they are the last digits of. -/
theorem hexNumber?_hexDigits (width n : Nat) :
    hexNumber? (hexDigits width n) = some (n % 16 ^ width) := by
  induction width generalizing n with
  | zero => simp [hexNumber?, hexDigits, Nat.mod_one]
  | succ width ih =>
    have hfront : (hexDigits width (n / 16)).foldlM
        (fun n c => (hexValue? c).map (n * 16 + ·)) 0 = some (n / 16 % 16 ^ width) := ih _
    have hlast : hexValue? (hexDigit (n % 16)) = some (n % 16) :=
      hexValue?_hexDigit (Nat.mod_lt n (by decide))
    have hsplit : n / 16 % 16 ^ width * 16 + n % 16 = n % 16 ^ (width + 1) := by
      rw [pow_succ', Nat.mod_mul]
      ring
    simp [hexNumber?, hexDigits, List.foldlM_append, hfront, hlast, hsplit]

end Text

namespace Toml

variable {s : Style} {cs w after : List Char} {c : Char} {q : Nat}

/-- A character that is written with its code is read back. -/
theorem codePoint?_hexDigits {width : Nat} (h : c.toNat < 16 ^ width) (after : List Char) :
    codePoint? width (Text.hexDigits width c.toNat ++ after) = some (c, after) := by
  have hnumber : Text.hexNumber? ((Text.hexDigits width c.toNat ++ after).take width) =
      some c.toNat := by
    rw [List.take_left' (Text.length_hexDigits ..), Text.hexNumber?_hexDigits, Nat.mod_eq_of_lt h]
  have hvalid : c.toNat.isValidChar := c.valid
  have hlong : ¬ (Text.hexDigits width c.toNat ++ after).length < width := by simp
  rw [codePoint?, if_neg hlong, hnumber]
  simp only [if_pos hvalid, List.drop_left' (Text.length_hexDigits ..), Char.ofNat_toNat]

/-! ## §2 Between the quotes -/

/-- A string that ends here. -/
theorem body?_closed {found : List Char × List Char} (h : closing? s cs = some found) :
    body? s cs = some found := by
  rw [body?, h]

/-- A string that does not end here goes on with what is read first. -/
theorem body?_step {part rest : List Char} (hopen : closing? s cs = none)
    (hunit : unit? s cs = some (part, rest)) :
    body? s cs = (body? s rest).map fun (more, after) => (part ++ more, after) := by
  rw [body?, hopen]
  simp only
  split
  · rename_i hfound
    rw [hunit] at hfound
    cases hfound
    rfl
  · rename_i hnone
    rw [hunit] at hnone
    cases hnone

namespace Style

/-- How many quotes in a row may stand inside a string. -/
def allowance (s : Style) : Nat :=
  if s.many then 2 else 0

/-- What may stand between the quotes for a text, if `q` quotes stand right before it. -/
inductive Writes (s : Style) : Nat → List Char → List Char → Prop where
  | nil {q : Nat} : Writes s q [] []
  /-- A quote may be written as it is if there are not too many before it. -/
  | quote {q : Nat} {cs w : List Char} (hq : q < s.allowance) (hrest : Writes s (q + 1) cs w) :
      Writes s q (s.quote :: cs) (s.quote :: w)
  /-- Anything else, as something that is read as it and does not start with a quote. -/
  | unit {q : Nat} {c a : Char} {cs w part : List Char} (ha : a ≠ s.quote)
      (hunit : ∀ rest, unit? s (a :: part ++ rest) = some ([c], rest)) (hrest : Writes s 0 cs w) :
      Writes s q (c :: cs) (a :: part ++ w)

theorem quote_plain (s : Style) : isPlain s.quote = true ∧ s.quote ≠ '\\' := by
  rcases s with ⟨_ | _, _ | _⟩ <;> decide

/-- A quote that does not end a string over several lines is read as it is. -/
theorem unit?_quote (h : q < s.allowance) (rest : List Char) :
    unit? s (s.quote :: rest) = some ([s.quote], rest) := by
  have hmany : s.many = true := by
    by_contra hnot
    simp [allowance, hnot] at h
  obtain ⟨hplain, hbackslash⟩ := quote_plain s
  simp [unit?, hplain, hbackslash, hmany]

/-- Quotes that are too few do not end a string. -/
theorem closing?_few {k : Nat} {a : Char} (hk : k ≤ s.allowance) (ha : a ≠ s.quote)
    (rest : List Char) : closing? s (List.replicate k s.quote ++ a :: rest) = none := by
  cases k with
  | zero => simp [closing?, ha]
  | succ k =>
    have hmany : s.many = true := by
      by_contra hnot
      simp [allowance, hnot] at hk
    have hrun : ((List.replicate k s.quote ++ a :: rest).takeWhile (· == s.quote)).length = k := by
      rw [List.takeWhile_append_of_pos (by simp)]
      simp [ha]
    have hfew : k < 2 := by
      simpa [allowance, hmany, Nat.lt_iff_add_one_le] using hk
    simp only [List.replicate_succ, List.cons_append, closing?, hrun, hmany]
    simp [hfew]

/-- The quotes of a delimiter end a string, and those before them that may stand in it belong to
    it. -/
theorem closing?_delimiter {k : Nat} (hk : k ≤ s.allowance) (hafter : after.head? ≠ some s.quote) :
    closing? s (List.replicate k s.quote ++ (s.delimiter ++ after)) =
      some (List.replicate k s.quote, after) := by
  have hstop : after.takeWhile (· == s.quote) = [] := by
    cases after with
    | nil => rfl
    | cons a rest =>
      have ha : a ≠ s.quote := by simpa using hafter
      simp [ha]
  cases hmany : s.many with
  | false =>
    have hzero : k = 0 := by simpa [allowance, hmany] using hk
    simp [hzero, delimiter, hmany, closing?]
  | true =>
    -- the delimiter is the last three quotes of a row of at most five
    have hle : k ≤ 2 := by simpa [allowance, hmany] using hk
    have hall : List.replicate k s.quote ++ (s.delimiter ++ after) =
        s.quote :: (List.replicate (k + 2) s.quote ++ after) := by
      rw [← List.append_assoc, delimiter, hmany, if_pos rfl, List.replicate_append_replicate]
      rfl
    have hrun : ((List.replicate (k + 2) s.quote ++ after).takeWhile (· == s.quote)).length =
        k + 2 := by
      rw [List.takeWhile_append_of_pos (by simp), hstop]
      simp
    rw [hall]
    simp only [closing?, hrun, hmany]
    simp [hle]

namespace Writes

/-- What stands between the quotes starts with quotes that may stand there, and is either nothing
    more or goes on with something else. -/
theorem lead (h : s.Writes q cs w) : ∃ k, k ≤ s.allowance - q ∧
    ((cs = List.replicate k s.quote ∧ w = List.replicate k s.quote) ∨
      ∃ a more, a ≠ s.quote ∧ w = List.replicate k s.quote ++ a :: more) := by
  induction h with
  | nil => exact ⟨0, Nat.zero_le _, .inl ⟨rfl, rfl⟩⟩
  | quote hq _ ih =>
    obtain ⟨k, hk, hcase⟩ := ih
    refine ⟨k + 1, by omega, ?_⟩
    rcases hcase with ⟨rfl, rfl⟩ | ⟨a, more, ha, rfl⟩
    · exact .inl ⟨rfl, rfl⟩
    · exact .inr ⟨a, more, ha, rfl⟩
  | unit ha _ _ => exact ⟨0, Nat.zero_le _, .inr ⟨_, _, ha, rfl⟩⟩

/-- What may stand between the quotes for a text is read as the text. -/
theorem body? (h : s.Writes q cs w) (hafter : after.head? ≠ some s.quote) :
    Toml.body? s (w ++ (s.delimiter ++ after)) = some (cs, after) := by
  induction h with
  | nil => exact body?_closed (closing?_delimiter (k := 0) (Nat.zero_le _) hafter)
  | quote hq hrest ih =>
    obtain ⟨k, hk, ⟨hcs, hw⟩ | ⟨a, more, ha, hw⟩⟩ := (Writes.quote hq hrest).lead
    · -- nothing but quotes is left, which the end of the string takes in
      rw [hcs, hw]
      exact body?_closed (closing?_delimiter (by omega) hafter)
    · have hopen : closing? s (List.replicate k s.quote ++ a :: (more ++ (s.delimiter ++ after))) =
          none := closing?_few (by omega) ha _
      rw [← List.cons_append, ← List.append_assoc, ← hw, List.cons_append] at hopen
      rw [List.cons_append, body?_step hopen (unit?_quote hq _), ih]
      rfl
  | @unit q c a cs w part ha hunit hrest ih =>
    have hopen : closing? s (a :: part ++ (w ++ (s.delimiter ++ after))) = none :=
      closing?_few (k := 0) (Nat.zero_le _) ha _
    rw [List.append_assoc, body?_step hopen (hunit _), ih]
    rfl

end Writes

/-! ## §3 What is written -/

/-- A letter after a backslash is read as the character that it stands for. -/
theorem unit?_letter {d : Char} (hbasic : s.basic = true) (hu : d ≠ 'u') (hU : d ≠ 'U')
    (h : escapes.lookup d = some c) (rest : List Char) :
    unit? s ('\\' :: d :: rest) = some ([c], rest) := by
  have hescape : escape? (d :: rest) = some (c, rest) := by
    rw [escape?.eq_4 _ _ (by simpa using hu) (by simpa using hU), h]
    rfl
  simp [unit?, hbasic, hescape]

/-- A code after a backslash is read as the character with this code. -/
theorem unit?_code (hbasic : s.basic = true) (h : c.toNat < 16 ^ 4) (rest : List Char) :
    unit? s ('\\' :: 'u' :: Text.hexDigits 4 c.toNat ++ rest) = some ([c], rest) := by
  have hescape : escape? ('u' :: (Text.hexDigits 4 c.toNat ++ rest)) = some (c, rest) :=
    codePoint?_hexDigits h rest
  simp [unit?, hbasic, hescape]

/-- A character that stands for itself is read as it is. -/
theorem unit?_plain (hplain : isPlain c = true) (hquote : c ≠ s.quote)
    (hbackslash : s.basic = true → c ≠ '\\') (rest : List Char) :
    unit? s (c :: rest) = some ([c], rest) := by
  have hno : (s.basic && c == '\\') = false := by
    cases hbasic : s.basic with
    | false => rfl
    | true => simpa using hbackslash hbasic
  simp [unit?, hplain, hquote, hno]

/-- A line feed in a string over several lines is read as it is. -/
theorem unit?_lineFeed (hmany : s.many = true) (rest : List Char) :
    unit? s ('\n' :: rest) = some (['\n'], rest) := by
  simp [unit?, hmany, isPlain, lineEnd?]

/-- What is written for a character is a quote, or read as this character. -/
theorem escaped_cases (hbasic : s.basic = true) (q : Nat) (c : Char) :
    (c = s.quote ∧ q < s.allowance ∧ escaped s q c = ['"']) ∨
      ∃ a part, escaped s q c = a :: part ∧ a ≠ s.quote ∧
        ∀ rest, unit? s (a :: part ++ rest) = some ([c], rest) := by
  have hquote : s.quote = '"' := by simp [quote, hbasic]
  have hletter {d : Char} (hu : d ≠ 'u') (hU : d ≠ 'U') (h : escapes.lookup d = some c) :
      ∃ a part, ['\\', d] = a :: part ∧ a ≠ s.quote ∧
        ∀ rest, unit? s (a :: part ++ rest) = some ([c], rest) :=
    ⟨_, _, rfl, by rw [hquote]; decide, unit?_letter hbasic hu hU h⟩
  have hallowance : (if s.many then 2 else 0) = s.allowance := rfl
  rw [escaped, hallowance]
  -- a quote, a line feed, the characters with a letter, those that need a code, and all others
  split_ifs with hmark hfew hline h₁ h₂ h₃ h₄ h₅ h₆ hcode
  · exact .inl ⟨hmark.trans hquote.symm, hfew, by rw [hmark]⟩
  · exact .inr (hletter (by decide) (by decide) (by rw [hmark]; decide))
  · refine .inr ⟨c, [], rfl, by rwa [hquote], ?_⟩
    rw [hline.1]
    exact unit?_lineFeed hline.2
  · exact .inr (hletter (by decide) (by decide) (by rw [h₁]; decide))
  · exact .inr (hletter (by decide) (by decide) (by rw [h₂]; decide))
  · exact .inr (hletter (by decide) (by decide) (by rw [h₃]; decide))
  · exact .inr (hletter (by decide) (by decide) (by rw [h₄]; decide))
  · exact .inr (hletter (by decide) (by decide) (by rw [h₅]; decide))
  · exact .inr (hletter (by decide) (by decide) (by rw [h₆]; decide))
  · exact .inr ⟨_, _, rfl, by rw [hquote]; decide, unit?_code hbasic (by omega)⟩
  · have hplain : isPlain c = true := by
      simp only [isPlain, Bool.or_eq_true, Bool.and_eq_true, decide_eq_true_eq, bne_iff_ne]
      right
      omega
    have hne : c ≠ s.quote := by rwa [hquote]
    exact .inr ⟨c, [], rfl, hne, unit?_plain hplain hne fun _ => h₆⟩

/-- What is written with escapes may stand between the quotes. -/
theorem writes_escapeFrom (hbasic : s.basic = true) (q : Nat) (cs : List Char) :
    s.Writes q cs (escapeFrom s q cs) := by
  induction cs generalizing q with
  | nil => exact .nil
  | cons c cs ih =>
    rw [escapeFrom]
    -- a quote is written as it is as long as the row of quotes is short
    rcases escaped_cases hbasic q c with ⟨rfl, hq, hwritten⟩ | ⟨a, part, hwritten, ha, hunit⟩
    · have hquote : s.quote = '"' := by simp [quote, hbasic]
      simp only [hwritten, if_pos]
      rw [← hquote]
      exact .quote hq (ih (q + 1))
    · have hne : escaped s q c ≠ ['"'] := by
        rw [hwritten]
        simpa [quote, hbasic] using fun h : a = '"' => absurd h (by simpa [quote, hbasic] using ha)
      simp only [if_neg hne]
      rw [hwritten]
      exact .unit ha hunit (ih 0)

/-- The longest run of a character, if the longest so far has length `longest` and one of length
    `run` stands right before. -/
def longestFrom (d : Char) : Nat → Nat → List Char → Nat
  | longest, _, [] => longest
  | longest, run, c :: cs =>
    if c = d then longestFrom d (max longest (run + 1)) (run + 1) cs else longestFrom d longest 0 cs

theorem foldl_longest (d : Char) (longest run : Nat) (cs : List Char) :
    (cs.foldl (fun (longest, run) c =>
      if c = d then (max longest (run + 1), run + 1) else (longest, 0)) (longest, run)).1 =
        longestFrom d longest run cs := by
  induction cs generalizing longest run with
  | nil => rfl
  | cons c cs ih =>
    rw [List.foldl_cons, longestFrom]
    by_cases hc : c = d
    · simp only [if_pos hc, ih]
    · simp only [if_neg hc, ih]

theorem longestRun_eq (d : Char) (cs : List Char) : longestRun d cs = longestFrom d 0 0 cs :=
  foldl_longest d 0 0 cs

theorem le_longestFrom (d : Char) (longest run : Nat) (cs : List Char) :
    longest ≤ longestFrom d longest run cs := by
  fun_induction longestFrom d longest run cs with
  | case1 => exact Nat.le_refl _
  | case2 _ _ _ ih => exact (Nat.le_max_left ..).trans ih
  | case3 _ _ _ _ _ ih => exact ih

/-- Whether a style can hold a text: with escapes always, else if the quotes are few and all other
    characters stand for themselves. -/
def Fits (s : Style) (cs : List Char) : Prop :=
  s.basic = true ∨
    longestRun s.quote cs ≤ s.allowance ∧ ∀ c ∈ cs, isPlain c = true ∨ (s.many = true ∧ c = '\n')

/-- What is written as it is may stand between the quotes, if the quotes in it are few. -/
theorem writes_literal (hbasic : s.basic = false) {longest run : Nat}
    (hrun : longestFrom s.quote longest run cs ≤ s.allowance)
    (hplain : ∀ c ∈ cs, isPlain c = true ∨ (s.many = true ∧ c = '\n')) :
    s.Writes run cs cs := by
  induction cs generalizing longest run with
  | nil => exact .nil
  | cons c cs ih =>
    have hrest : ∀ d ∈ cs, isPlain d = true ∨ (s.many = true ∧ d = '\n') :=
      fun d hd => hplain d (List.mem_cons_of_mem _ hd)
    rw [longestFrom] at hrun
    by_cases hc : c = s.quote
    · -- the row of quotes is no longer than the longest, which is allowed
      rw [if_pos hc] at hrun
      have hbound : run + 1 ≤ s.allowance :=
        (Nat.le_max_right longest _).trans ((le_longestFrom ..).trans hrun)
      rw [hc]
      exact .quote hbound (ih hrun hrest)
    · rw [if_neg hc] at hrun
      have hunit : ∀ rest, unit? s ([c] ++ rest) = some ([c], rest) := by
        intro rest
        rcases hplain c List.mem_cons_self with hplain | ⟨hmany, rfl⟩
        · exact unit?_plain hplain hc (by simp [hbasic]) rest
        · exact unit?_lineFeed hmany rest
      show s.Writes run (c :: cs) ([c] ++ cs)
      exact .unit hc hunit (ih hrun hrest)

/-- What a style writes between its quotes. -/
def inside (s : Style) (cs : List Char) : List Char :=
  if s.basic then escapeFrom s 0 cs else cs

theorem Fits.writes (h : s.Fits cs) : s.Writes 0 cs (s.inside cs) := by
  unfold inside
  cases hbasic : s.basic with
  | true => exact writes_escapeFrom hbasic 0 cs
  | false =>
    rcases h with hyes | ⟨hrun, hplain⟩
    · rw [hbasic] at hyes
      cases hyes
    · exact writes_literal hbasic (longestRun_eq _ cs ▸ hrun) hplain

/-! ## §4 Whole strings -/

/-- A line end is read as a line feed. -/
theorem unit?_lineEnd {x rest : List Char} (hline : lineEnd? cs = some x)
    (hunit : unit? s cs = some ([c], rest)) : c = '\n' := by
  unfold lineEnd? at hline
  split at hline
  · simp only [unit?] at hunit
    split_ifs at hunit <;> simp_all [isPlain, lineEnd?]
    exact hunit.1.symm
  · simp only [unit?] at hunit
    split_ifs at hunit <;> simp_all [isPlain, lineEnd?]
    exact hunit.1.symm
  · cases hline

/-- What is written for a text without line feeds does not start with a line end. -/
theorem Writes.lineEnd? (h : s.Writes q cs w) (hline : '\n' ∉ cs) (after : List Char) :
    Toml.lineEnd? (w ++ (s.delimiter ++ after)) = none := by
  cases h with
  | nil => rcases s with ⟨_ | _, _ | _⟩ <;> rfl
  | quote _ _ => rcases s with ⟨_ | _, _ | _⟩ <;> rfl
  | @unit q c a cs w part _ hunit _ =>
    cases hstart : Toml.lineEnd? (a :: part ++ w ++ (s.delimiter ++ after)) with
    | none => rfl
    | some x =>
      rw [List.append_assoc] at hstart
      have hfeed : c = '\n' := unit?_lineEnd hstart (hunit _)
      exact absurd (hfeed ▸ List.mem_cons_self) hline

/-- What a style over several lines writes is read back. -/
theorem manyBody?_write (h : s.Fits cs) (hafter : after.head? ≠ some s.quote) :
    manyBody? s ((if cs.contains '\n' then ['\n'] else []) ++ (s.inside cs ++
      (s.delimiter ++ after))) = some (cs, after) := by
  unfold manyBody?
  by_cases hline : '\n' ∈ cs
  · have hcontains : cs.contains '\n' = true := by simpa using hline
    rw [if_pos hcontains]
    exact h.writes.body? hafter
  · have hcontains : ¬ cs.contains '\n' = true := by simpa using hline
    rw [if_neg hcontains, List.nil_append, h.writes.lineEnd? hline]
    exact h.writes.body? hafter

/-- What a style of one line writes does not start with three quotes. -/
theorem Writes.ne_quotes (hmany : s.many = false) (h : s.Writes q cs w)
    (hafter : after.head? ≠ some s.quote) (rest : List Char) :
    w ++ s.quote :: after ≠ s.quote :: s.quote :: rest := by
  obtain ⟨k, hk, hcase⟩ := h.lead
  have hzero : k = 0 := by simpa [allowance, hmany] using hk
  rw [hzero] at hcase
  rcases hcase with ⟨-, rfl⟩ | ⟨a, more, ha, rfl⟩
  · rintro heq
    simp only [List.replicate_zero, List.nil_append, List.cons.injEq, true_and] at heq
    exact hafter (by rw [heq]; rfl)
  · rintro heq
    exact ha (List.cons.inj heq).1

/-- A text is read back from a style that can hold it, if no quote follows. -/
theorem string?_write (h : s.Fits cs) (hafter : after.head? ≠ some s.quote) :
    string? (s.write cs ++ after) = some (String.ofList cs, after) := by
  have hwrite : s.write cs ++ after = s.delimiter ++ ((if s.many && cs.contains '\n' then ['\n']
      else []) ++ (s.inside cs ++ (s.delimiter ++ after))) := by
    simp [write, inside, List.append_assoc]
  rw [hwrite]
  have hmanyBody := manyBody?_write h hafter
  have hbody := h.writes.body? hafter
  have hne := fun hmany => h.writes.ne_quotes hmany hafter
  -- a single quote before anything but two more is the whole delimiter
  rcases s with ⟨_ | _, _ | _⟩
  · exact (string?.eq_4 _ (hne rfl)).trans (congrArg string?.asText hbody)
  · exact congrArg string?.asText hmanyBody
  · exact (string?.eq_2 _ (hne rfl)).trans (congrArg string?.asText hbody)
  · exact congrArg string?.asText hmanyBody

/-! ## §5 The styles that are chosen -/

theorem plain_of_needsCode (h : needsCode c = false) : isPlain c = true ∨ c = '\n' := by
  by_cases htab : c = '\t'
  · exact .inl (by rw [htab]; decide)
  by_cases hfeed : c = '\n'
  · exact .inr hfeed
  have hcode : 0x20 ≤ c.toNat ∧ c.toNat ≠ 0x7F := by simpa [needsCode, htab, hfeed] using h
  exact .inl (by simp [isPlain, hcode])

/-- Text without characters that need a code, and with line feeds only over several lines, stands
    for itself. -/
theorem plain_of_codes (hcodes : cs.any needsCode = false) (hline : s.many = true ∨ '\n' ∉ cs) :
    ∀ c ∈ cs, isPlain c = true ∨ (s.many = true ∧ c = '\n') := by
  intro c hc
  have hneeds : needsCode c = false := by
    simpa using List.any_eq_false.mp hcodes c hc
  rcases plain_of_needsCode hneeds with hplain | rfl
  · exact .inl hplain
  · exact .inr ⟨hline.resolve_right (fun hno => hno hc), rfl⟩

theorem longestFrom_of_not_mem {d : Char} (h : d ∉ cs) (longest run : Nat) :
    longestFrom d longest run cs = longest := by
  fun_induction longestFrom d longest run cs with
  | case1 => rfl
  | case2 => simp at h
  | case3 _ _ _ _ _ ih => exact ih fun hmem => h (List.mem_cons_of_mem _ hmem)

/-- The style that is chosen for a text can hold it. -/
theorem fits_ofText (cs : List Char) : (ofText cs).Fits cs := by
  unfold ofText
  simp only
  split_ifs with h₁ h₂ h₃ h₄
  · exact .inl rfl
  · simp only [Bool.and_eq_true, Bool.not_eq_true', decide_eq_true_eq] at h₂
    obtain ⟨⟨hcodes, hsingles⟩, hline⟩ := h₂
    exact .inr ⟨Nat.le_of_eq hsingles, plain_of_codes hcodes (.inr (by simpa using hline))⟩
  · exact .inl rfl
  · simp only [Bool.and_eq_true, Bool.not_eq_true', decide_eq_true_eq] at h₄
    exact .inr ⟨h₄.2, plain_of_codes h₄.1 (.inl rfl)⟩
  · exact .inl rfl

/-- The style that is chosen for a key can hold it. -/
theorem fits_ofKey (cs : List Char) : (ofKey cs).Fits cs := by
  unfold ofKey
  simp only
  split_ifs with h₁ h₂
  · exact .inl rfl
  · simp only [Bool.and_eq_true, Bool.not_eq_true', Bool.or_eq_false_iff] at h₂
    obtain ⟨⟨hcodes, hline⟩, hsingles⟩ := h₂
    refine .inr ⟨?_, plain_of_codes hcodes (.inr (by simpa using hline))⟩
    have hnone : '\'' ∉ cs := by simpa using hsingles
    rw [longestRun_eq]
    exact Nat.le_of_eq (longestFrom_of_not_mem hnone 0 0)
  · exact .inl rfl

theorem ofKey_many (cs : List Char) : (ofKey cs).many = false := by
  unfold ofKey
  simp only
  split_ifs <;> rfl

end Style

/-- A text is read back from how it is written as a value, if no quote follows. -/
theorem string?_quotedText (text : String) {after : List Char}
    (hafter : after.head? ≠ some '"' ∧ after.head? ≠ some '\'') :
    string? ((quotedText text).toList ++ after) = some (text, after) := by
  have hquote : after.head? ≠ some (Style.ofText text.toList).quote := by
    unfold Style.quote
    split
    · exact hafter.1
    · exact hafter.2
  rw [quotedText, String.toList_ofList, Style.string?_write (Style.fits_ofText _) hquote,
    String.ofList_toList]

end Toml

end AssetServer
