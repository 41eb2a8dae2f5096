import AssetServer.Proofs.JsonText

/-!
# Values that JSON texts are read as

A reader of JSON asks for one type of value. It gives what a value of this type means and stops
behind it; a value of another type it refuses.

- `Json.Reads` says this of a reader and of what it takes values for.
- `Json.reads_stringValue`, `Json.reads_optionalString` and `Json.reads_listValue` are about the
  readers of single types.
- `Json.members_items` and `Json.fieldInList_items` are about the fields of records, which are written
  as objects or as lists; `Json.reads_recordValue` puts them together.
- `Json.document_isText`: a whole text is read as its value.
-/

namespace AssetServer.Json

variable {α β σ : Type} {depth fuel : Nat} {v : Form} {b : UInt8} {before rest inner w : Bytes}
  {first : Bool}

/-! ## §1 Readers -/

/-- What a reader gives: what is meant, and what is left then, or a refusal if nothing is meant. -/
def Yields (result : Except Problem (α × Bytes)) (meant : Option α) (left : Bytes → Prop) : Prop :=
  match meant with
  | some a => ∃ bytes, result = .ok (a, bytes) ∧ left bytes
  | none => ∃ e, result = .error e

/-- A reader that goes on with what another one gives. -/
theorem Yields.bind {result : Except Problem (α × Bytes)} {meant : Option α}
    {left left' : Bytes → Prop} {f : α × Bytes → Except Problem (β × Bytes)} {g : α → Option β}
    (h : Yields result meant left) (hf : ∀ a bytes, left bytes → Yields (f (a, bytes)) (g a) left') :
    Yields (result >>= f) (meant.bind g) left' := by
  cases meant with
  | some a =>
    obtain ⟨bytes, rfl, hleft⟩ := h
    exact hf a bytes hleft
  | none =>
    obtain ⟨e, rfl⟩ := h
    exact ⟨e, rfl⟩

/-- A reader gives what values mean, wherever they stand, and stops behind them. -/
def Reads (reader : Bytes → Except Problem (α × Bytes)) (meaning : Form → Option α) : Prop :=
  ∀ {depth : Nat} {v : Form} {w before rest : Bytes}, Writes depth v w → Spaces before →
    Stops rest → Yields (reader (before ++ (w ++ rest))) (meaning v) (· = rest)

theorem Reads.here {reader : Bytes → Except Problem (α × Bytes)} {meaning : Form → Option α}
    (hreads : Reads reader meaning) (h : Writes depth v w) (hstops : Stops rest) :
    Yields (reader (w ++ rest)) (meaning v) (· = rest) := by
  have hnone : Spaces [] := by simp [Spaces]
  exact hreads h hnone hstops

/-- The text of a string. -/
def Form.text? : Form → Option String
  | .string text => text
  | _ => none

/-- The text of a string, or none for the word `null`. -/
def Form.optional? : Form → Option (Option String)
  | .null => some none
  | .string (some text) => some (some text)
  | _ => none

/-- What the elements of a list mean. -/
def Form.listOf? (meaning : Form → Option α) : Form → Option (List α)
  | .list items => items.mapM meaning
  | _ => none

/-- The texts of a list of strings. -/
def Form.texts? : Form → Option (List String) :=
  Form.listOf? Form.text?

theorem Form.Opens.string : v.Opens (byte '"') → ∃ text, v = .string text := by
  cases v with
  | string text => exact fun _ => ⟨text, rfl⟩
  | boolean value => cases value <;> (simp only [Opens]; exact fun h => absurd h (by decide))
  | null | number | list | object => simp only [Opens]; exact fun h => absurd h (by decide)

theorem Form.Opens.null : v.Opens (byte 'n') → v = .null := by
  cases v with
  | null => exact fun _ => rfl
  | boolean value => cases value <;> (simp only [Opens]; exact fun h => absurd h (by decide))
  | number | string | list | object => simp only [Opens]; exact fun h => absurd h (by decide)

theorem Form.Opens.list : v.Opens (byte '[') → ∃ items, v = .list items := by
  cases v with
  | list items => exact fun _ => ⟨items, rfl⟩
  | boolean value => cases value <;> (simp only [Opens]; exact fun h => absurd h (by decide))
  | null | number | string | object => simp only [Opens]; exact fun h => absurd h (by decide)

theorem Form.Opens.object : v.Opens (byte '\x7b') → ∃ members, v = .object members := by
  cases v with
  | object members => exact fun _ => ⟨members, rfl⟩
  | boolean value => cases value <;> (simp only [Opens]; exact fun h => absurd h (by decide))
  | null | number | string | list => simp only [Opens]; exact fun h => absurd h (by decide)

/-- What a value is read from, without the white space in front. -/
theorem Writes.skipSpace (h : Writes depth v w) (hbefore : Spaces before) (rest : Bytes) :
    ∃ b more, w = b :: more ∧ v.Opens b ∧ skipSpace (before ++ (w ++ rest)) = b :: (more ++ rest) := by
  obtain ⟨b, more, rfl, hopens⟩ := h.exists_cons
  exact ⟨b, more, rfl, hopens, skipSpace_begins hbefore hopens.begins.not_space _⟩

/-! ## §2 Strings -/

theorem yields_string {text : Option String} {body : Bytes} (h : Quotes text body) (rest : Bytes) :
    Yields (string (body ++ byte '"' :: rest)) text (· = rest) := by
  cases text with
  | some t => exact ⟨rest, string_text h rest, rfl⟩
  | none => exact string_none h rest

theorem reads_stringValue : Reads stringValue Form.text? := by
  intro depth v w before rest h hbefore _
  obtain ⟨b, more, rfl, hopens, hskip⟩ := h.skipSpace hbefore rest
  unfold stringValue
  rw [hskip]
  by_cases hquote : b = byte '"'
  · subst hquote
    obtain ⟨text, rfl⟩ := hopens.string
    rw [Writes] at h
    obtain ⟨body, hbody, hw⟩ := h
    obtain rfl : more = body ++ [byte '"'] := (List.cons.inj hw).2
    simp only [if_true, List.append_assoc, List.singleton_append]
    exact yields_string hbody rest
  · -- no other value opens with a quote
    have hnone : v.text? = none := by
      cases v with
      | string text => exact absurd hopens hquote
      | _ => rfl
    simp only [if_neg hquote, hnone]
    exact ⟨_, rfl⟩

theorem reads_optionalString : Reads optionalString Form.optional? := by
  intro depth v w before rest h hbefore hstops
  have hstring := reads_stringValue h hbefore hstops
  obtain ⟨b, more, rfl, hopens, hskip⟩ := h.skipSpace hbefore rest
  unfold optionalString
  rw [hskip]
  by_cases hnull : b = byte 'n'
  · subst hnull
    obtain rfl := hopens.null
    rw [Writes] at h
    obtain rfl : more = letters "ull" := (List.cons.inj h).2
    simp only [if_true, word_append]
    exact ⟨rest, rfl, rfl⟩
  · have hoptional : v.optional? = v.text?.bind fun text => some (some text) := by
      cases v with
      | null => exact absurd hopens hnull
      | string text => cases text <;> rfl
      | _ => rfl
    simp only [if_neg hnull, hoptional]
    exact hstring.bind fun text bytes hbytes => ⟨bytes, rfl, hbytes⟩

/-! ## §3 Lists -/

theorem nextElement_close (hbefore : Spaces before) :
    nextElement first (before ++ byte ']' :: rest) = .ok none := by
  simp [nextElement, skipSpace_begins hbefore (by decide : isSpace (byte ']') = false)]

theorem closeList_close (hbefore : Spaces before) :
    closeList (before ++ byte ']' :: rest) = .ok rest := by
  simp [closeList, skipSpace_begins hbefore (by decide : isSpace (byte ']') = false)]

/-- An element is found behind what stands in front of it. -/
theorem nextElement_lead {lead : Bytes} (hlead : Lead first lead) (hb : Begins b) :
    nextElement first (lead ++ b :: rest) = .ok (some (b :: rest)) := by
  cases hlead with
  | first hbytes =>
    simp [nextElement, skipSpace_begins hbytes hb.not_space, hb.not_bracket]
  | comma hbefore hafter =>
    have hcomma : byte ',' ≠ byte ']' := by decide
    rw [List.append_assoc, List.cons_append]
    simp [nextElement, skipSpace_begins hbefore (by decide : isSpace (byte ',') = false),
      skipSpace_begins hafter hb.not_space, hb.not_bracket, hcomma]

/-- More than the elements that are asked for. -/
theorem closeList_lead {lead : Bytes} (hlead : Lead false lead) (rest : Bytes) :
    ∃ e, closeList (lead ++ rest) = .error e := by
  cases hlead with
  | comma hbefore hafter =>
    rw [List.append_assoc, List.cons_append]
    simp only [closeList, skipSpace_begins hbefore (by decide : isSpace (byte ',') = false)]
    rw [if_neg (by decide), if_pos trivial]
    split
    · split <;> exact ⟨_, rfl⟩
    · exact ⟨_, rfl⟩

theorem Items.length_lt {element : α → Bytes → Prop} {close : UInt8} {xs : List α}
    (hne : ∀ x w, element x w → w ≠ []) (h : Items element close first xs inner) :
    xs.length < inner.length := by
  induction h with
  | nil => simp
  | cons _ hx _ ih =>
    have hpos := List.length_pos_iff.mpr (hne _ _ hx)
    simp only [List.length_cons, List.length_append]
    omega

theorem Writes.ne_nil (h : Writes depth v w) : w ≠ [] := by
  obtain ⟨b, more, rfl, -⟩ := h.exists_cons
  simp

/-- The elements of a list are read one after another. -/
theorem elementsOnto_items {element : Bytes → Except Problem (α × Bytes)}
    {meaning : Form → Option α} (hreads : Reads element meaning) {items : List Form}
    (h : Items (Writes depth) (byte ']') first items inner) (hfuel : items.length < fuel)
    (done : List α) (rest : Bytes) :
    Yields (elementsOnto element fuel first done (inner ++ rest))
      ((items.mapM meaning).map (done.reverse ++ ·)) (· = rest) := by
  -- one unit of fuel is used for each element, and one for the closing bracket
  induction h generalizing fuel done with
  | nil hbytes =>
    obtain ⟨fuel, rfl⟩ := Nat.exists_eq_add_one_of_ne_zero (Nat.ne_zero_of_lt hfuel)
    rw [List.append_assoc, List.singleton_append, elementsOnto, nextElement_close hbytes,
      closeList_close hbytes]
    exact ⟨rest, by simp; rfl, rfl⟩
  | cons hlead hx hinner ih =>
    obtain ⟨fuel, rfl⟩ := Nat.exists_eq_add_one_of_ne_zero (Nat.ne_zero_of_lt hfuel)
    have hvalue := hreads.here hx (hinner.stops (.inl rfl) rest)
    rename_i x xs
    have hmeant : ((x :: xs).mapM meaning).map (done.reverse ++ ·) =
        (meaning x).bind fun a => (xs.mapM meaning).map ((a :: done).reverse ++ ·) := by
      rw [List.mapM_cons]
      cases meaning x with
      | none => rfl
      | some a => cases xs.mapM meaning <;> simp
    obtain ⟨b, more, rfl, hopens⟩ := hx.exists_cons
    rw [hmeant, List.append_assoc, List.append_assoc, List.cons_append, elementsOnto,
      nextElement_lead hlead hopens.begins]
    refine hvalue.bind ?_
    rintro a bytes rfl
    exact ih (by simpa using hfuel) (a :: done)

/-- A list of values is read if each of its elements is. -/
theorem reads_listValue {element : Bytes → Except Problem (α × Bytes)} {meaning : Form → Option α}
    (hreads : Reads element meaning) : Reads (listValue element) (Form.listOf? meaning) := by
  intro depth v w before rest h hbefore _
  obtain ⟨b, more, rfl, hopens, hskip⟩ := h.skipSpace hbefore rest
  unfold listValue
  rw [hskip]
  by_cases hlist : b = byte '['
  · subst hlist
    obtain ⟨items, rfl⟩ := hopens.list
    obtain ⟨d, inner, -, hinner, hw⟩ := h.list
    obtain rfl : more = inner := (List.cons.inj hw).2
    have hlength := hinner.length_lt fun _ _ => Writes.ne_nil
    have hfuel : items.length < (more ++ rest).length + 1 := by
      simp only [List.length_append]
      omega
    have hitems := elementsOnto_items hreads hinner hfuel [] rest
    simpa [Form.listOf?] using hitems
  · -- no other value opens with a bracket
    have hnone : v.listOf? meaning = none := by
      cases v with
      | list items => exact absurd hopens hlist
      | _ => rfl
    simp only [if_neg hlist, hnone]
    exact ⟨_, rfl⟩

theorem reads_texts : Reads (listValue stringValue) Form.texts? :=
  reads_listValue reads_stringValue

/-! ## §4 Members of objects -/

/-- What the members of an object come to, one after another: each of them takes its value into a
    state, if its key is a text. -/
def takeMembers (take : String → Form → σ → Option σ) (state : σ)
    (members : List (Option String × Form)) : Option σ :=
  members.foldlM (fun s x => x.1.bind fun key => take key x.2 s) state

/-- A reader of members takes what their values mean. -/
def ReadsMember (member : String → σ → Bytes → Except Problem (σ × Bytes))
    (take : String → Form → σ → Option σ) : Prop :=
  ∀ (key : String) (state : σ) {depth : Nat} {v : Form} {w before after rest : Bytes},
    Writes depth v w → Spaces before → Spaces after → Stops rest →
    Yields (member key state (before ++ byte ':' :: (after ++ (w ++ rest)))) (take key v state)
      (· = rest)

theorem nextKey_close (hbefore : Spaces before) :
    nextKey first (before ++ byte '\x7d' :: rest) = .ok none := by
  simp [nextKey, skipSpace_begins hbefore (by decide : isSpace (byte '\x7d') = false)]

/-- A key is found behind what stands in front of it. -/
theorem nextKey_lead {lead : Bytes} (hlead : Lead first lead) :
    nextKey first (lead ++ byte '"' :: rest) = .ok (some rest) := by
  have hquote : byte '"' ≠ byte '\x7d' := by decide
  cases hlead with
  | first hbytes => simp [nextKey, skipSpace_begins hbytes begins_quote.not_space, hquote]
  | comma hbefore hafter =>
    have hcomma : byte ',' ≠ byte '\x7d' := by decide
    rw [List.append_assoc, List.cons_append]
    simp [nextKey, skipSpace_begins hbefore (by decide : isSpace (byte ',') = false),
      skipSpace_begins hafter begins_quote.not_space, hcomma]

/-- The members of an object are read one after another, up to the closing brace. -/
theorem members_items {member : String → σ → Bytes → Except Problem (σ × Bytes)}
    {take : String → Form → σ → Option σ} (hreads : ReadsMember member take)
    {members : List (Option String × Form)}
    (h : Items (Member (Writes depth)) (byte '\x7d') first members inner)
    (hfuel : members.length < fuel) (state : σ) (rest : Bytes) :
    Yields (Json.members member fuel first state (inner ++ rest)) (takeMembers take state members)
      (closeObject · = rest) := by
  induction h generalizing fuel state with
  | nil hbytes =>
    obtain ⟨fuel, rfl⟩ := Nat.exists_eq_add_one_of_ne_zero (Nat.ne_zero_of_lt hfuel)
    rw [List.append_assoc, List.singleton_append, Json.members, nextKey_close hbytes]
    -- the brace is seen here but passed only when the record is closed
    refine ⟨_, rfl, ?_⟩
    show (skipSpace _).drop 1 = rest
    rw [skipSpace_begins hbytes (by decide)]
    rfl
  | cons hlead hx hinner ih =>
    obtain ⟨fuel, rfl⟩ := Nat.exists_eq_add_one_of_ne_zero (Nat.ne_zero_of_lt hfuel)
    have hstops := hinner.stops (.inr rfl) rest
    cases hx with
    | mk hkey hbefore hafter hv =>
      have htake : ∀ (key : Option String) (v : Form) xs, takeMembers take state ((key, v) :: xs) =
          key.bind fun key => (take key v state).bind fun s => takeMembers take s xs := by
        intro key v xs
        unfold takeMembers
        rw [List.foldlM_cons, ← Option.bind_assoc]
        rfl
      rw [htake]
      simp only [List.append_assoc, List.cons_append]
      rw [Json.members, nextKey_lead hlead]
      refine (yields_string hkey _).bind ?_
      rintro key bytes rfl
      refine (hreads key state hv hbefore hafter hstops).bind ?_
      rintro s bytes rfl
      exact ih (by simpa using hfuel) s

/-! ## §5 Records -/

/-- Elements that are left of a list, with its closing bracket. -/
def Remains (items : List Form) (rest bytes : Bytes) : Prop :=
  ∃ depth inner, Items (Writes depth) (byte ']') false items inner ∧ bytes = inner ++ rest

/-- The next field of a record that is written as a list: what its element means, or what stands for
    it past the end. -/
def nextField (meaning : Form → Option α) (missing : Option α) : List Form → Option (α × List Form)
  | [] => missing.map (·, [])
  | x :: xs => (meaning x).map (·, xs)

/-- The next field of a record is read, and the elements after it remain. -/
theorem fieldInList_items {value : Bytes → Except Problem (α × Bytes)} {meaning : Form → Option α}
    (hreads : Reads value meaning) {missing : Except Problem α} {items : List Form}
    (h : Items (Writes depth) (byte ']') first items inner) (rest : Bytes)
    {f : α × Bytes → Except Problem (β × Bytes)} {g : α × List Form → Option β}
    {left : Bytes → Prop}
    (hf : ∀ a items bytes, Remains items rest bytes → Yields (f (a, bytes)) (g (a, items)) left) :
    Yields (fieldInList first value missing (inner ++ rest) >>= f)
      ((nextField meaning missing.toOption items).bind g) left := by
  cases h with
  | nil hbytes =>
    rw [List.append_assoc, List.singleton_append, fieldInList, nextElement_close hbytes]
    cases missing with
    | error e => exact ⟨e, rfl⟩
    | ok a => exact hf a [] _ ⟨depth, _, .nil hbytes, by simp⟩
  | cons hlead hx hinner =>
    rename_i x xs
    have hvalue := hreads.here hx (hinner.stops (.inl rfl) rest)
    obtain ⟨b, more, rfl, hopens⟩ := hx.exists_cons
    have hnext : (nextField meaning missing.toOption (x :: xs)).bind g =
        (meaning x).bind fun a => g (a, xs) := by
      show ((meaning x).map (·, xs)).bind g = _
      cases meaning x <;> rfl
    rw [hnext, List.append_assoc, List.append_assoc, List.cons_append, fieldInList,
      nextElement_lead hlead hopens.begins]
    refine hvalue.bind ?_
    rintro a bytes rfl
    exact hf a xs _ ⟨depth, _, hinner, rfl⟩

/-- What is left of a list is closed exactly if no elements are left. -/
theorem closeList_remains {items : List Form} {bytes : Bytes} (h : Remains items rest bytes) :
    (items = [] → closeList bytes = .ok rest) ∧
      (items ≠ [] → ∃ e, closeList bytes = .error e) := by
  obtain ⟨depth, inner, hinner, rfl⟩ := h
  cases hinner with
  | nil hbytes =>
    refine ⟨fun _ => ?_, fun hne => absurd rfl hne⟩
    rw [List.append_assoc, List.singleton_append, closeList_close hbytes]
  | cons hlead _ _ =>
    refine ⟨fun hnil => absurd hnil (by simp), fun _ => ?_⟩
    rw [List.append_assoc]
    exact closeList_lead hlead _

/-- What a record means that is written as an object or as a list. -/
def Form.record? (ofMembers : List (Option String × Form) → Option α)
    (ofItems : List Form → Option (α × List Form)) : Form → Option α
  | .object members => ofMembers members
  | .list items => (ofItems items).bind fun x => if x.2 = [] then some x.1 else none
  | _ => none

/-- A record is read if it is read from the members of an object and from the elements of a list. -/
theorem reads_recordValue {name : String} {ofObject ofList : Bytes → Except Problem (α × Bytes)}
    {ofMembers : List (Option String × Form) → Option α}
    {ofItems : List Form → Option (α × List Form)}
    (hobject : ∀ {depth members inner} (rest : Bytes),
      Items (Member (Writes depth)) (byte '\x7d') true members inner →
      Yields (ofObject (inner ++ rest)) (ofMembers members) (closeObject · = rest))
    (hlist : ∀ {depth items inner} (rest : Bytes),
      Items (Writes depth) (byte ']') true items inner →
      ∀ {β : Type} {f : α × Bytes → Except Problem (β × Bytes)} {g : α × List Form → Option β}
        {left : Bytes → Prop},
        (∀ a items bytes, Remains items rest bytes → Yields (f (a, bytes)) (g (a, items)) left) →
        Yields (ofList (inner ++ rest) >>= f) ((ofItems items).bind g) left) :
    Reads (recordValue name ofObject ofList) (Form.record? ofMembers ofItems) := by
  intro depth v w before rest h hbefore _
  obtain ⟨b, more, rfl, hopens, hskip⟩ := h.skipSpace hbefore rest
  unfold recordValue
  rw [hskip]
  by_cases hopen : b = byte '['
  · subst hopen
    obtain ⟨items, rfl⟩ := hopens.list
    obtain ⟨d, inner, -, hinner, hw⟩ := h.list
    obtain rfl : more = inner := (List.cons.inj hw).2
    refine hlist (g := fun x => if x.2 = [] then some x.1 else none) rest hinner ?_
    -- a record that is written as a list has no elements behind those of its fields
    intro a items bytes hremains
    obtain ⟨hclose, hmore⟩ := closeList_remains hremains
    show Yields _ (if items = [] then some a else none) _
    split_ifs with hnil
    · simp only [hclose hnil]
      exact ⟨_, rfl, rfl⟩
    · obtain ⟨e, herror⟩ := hmore hnil
      simp only [herror]
      exact ⟨e, rfl⟩
  · by_cases hbrace : b = byte '\x7b'
    · subst hbrace
      obtain ⟨members, rfl⟩ := hopens.object
      obtain ⟨d, inner, -, hinner, hw⟩ := h.object
      obtain rfl : more = inner := (List.cons.inj hw).2
      have hrecord : (Form.object members).record? ofMembers ofItems =
          (ofMembers members).bind some := by simp [Form.record?]
      simp only [if_neg hopen, if_true, hrecord]
      refine (hobject rest hinner).bind ?_
      rintro a bytes rfl
      exact ⟨_, rfl, rfl⟩
    · have hnone : v.record? ofMembers ofItems = none := by
        cases v with
        | list items => exact absurd hopens hopen
        | object members => exact absurd hopens hbrace
        | _ => rfl
      simp only [if_neg hopen, if_neg hbrace, hnone]
      exact ⟨_, rfl⟩

/-- A whole text is read as its value. -/
theorem document_isText {value : Bytes → Except Problem (α × Bytes)} {meaning : Form → Option α}
    (hreads : Reads value meaning) {bytes : Bytes} (h : IsText v bytes) :
    (document value bytes).toOption = meaning v := by
  obtain ⟨depth, before, w, after, hbefore, hafter, hw, rfl⟩ := h
  have hstops : Stops after := by
    intro b hb
    cases after with
    | nil => cases hb
    | cons c more => cases hb; exact .inl (hafter b (by simp))
  have hvalue := hreads hw hbefore hstops
  -- only white space is left behind the value
  unfold document
  cases hmeaning : meaning v with
  | some a =>
    rw [hmeaning] at hvalue
    obtain ⟨bytes, hread, rfl⟩ := hvalue
    simp [hread, bind, Except.bind, pure, Except.pure, skipSpace_all hafter, Except.toOption]
  | none =>
    rw [hmeaning] at hvalue
    obtain ⟨e, hread⟩ := hvalue
    simp [hread, bind, Except.bind, Except.toOption]

end AssetServer.Json
