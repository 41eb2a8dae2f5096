import AssetServer.Proofs.JsonReading
import AssetServer.Proofs.Mirror

/-!
# Manifests and their texts

A manifest can be written in many ways: its fields may come in any order, with white space, escapes and
further members anywhere, and a list may be left out if it is empty.

- `Json.takeMembers` takes members one after another; `Slot` and `Takes` say what this comes to for a
  single field and for all of them.
- `BundleUnit.Lists` and `Manifest.Lists` say which members list a unit or a manifest, whatever else is
  among them; `BundleUnit.Faulty` and `Manifest.Faulty` say which values are none.
- `Compiler.loadManifest_reads`: a text that lists a manifest is loaded as this manifest, and a text of a
  faulty value is refused.
-/

namespace AssetServer

open Json

/-! ## §1 Fields -/

section Fields

variable {α β σ : Type} {names : List String} {take : String → Form → σ → Option σ}
  {members : List (Option String × Form)} {x : Option String × Form} {s s' : σ} {key : String}
  {v : Form}

/-- No known key occurs twice. -/
def Unrepeated (names : List String) (members : List (Option String × Form)) : Prop :=
  ∀ key ∈ names, members.Pairwise fun x y => x.1 = some key → y.1 ≠ some key

/-- Takes what a field means, if the field has not been taken before. -/
def takeOnce (old meant : Option α) (store : α → σ) : Option σ :=
  if old.isSome then none else meant.map store

theorem takeOnce_eq_some {old meant : Option α} {store : α → σ} :
    takeOnce old meant store = some s ↔ old = none ∧ ∃ a, meant = some a ∧ store a = s := by
  cases old <;> simp [takeOnce]

theorem takeOnce_ne_none {old meant : Option α} {store : α → σ} :
    takeOnce old meant store ≠ none ↔ old = none ∧ meant ≠ none := by
  cases old <;> simp [takeOnce]

theorem takeMembers_cons : takeMembers take s (x :: members) = some s' ↔
    ∃ key t, x.1 = some key ∧ take key x.2 s = some t ∧ takeMembers take t members = some s' := by
  unfold takeMembers
  rw [List.foldlM_cons]
  constructor
  · intro h
    obtain ⟨t, ht, hrest⟩ := Option.bind_eq_some_iff.mp h
    obtain ⟨key, hkey, ht⟩ := Option.bind_eq_some_iff.mp ht
    exact ⟨key, t, hkey, ht, hrest⟩
  · rintro ⟨key, t, hkey, ht, hrest⟩
    refine Option.bind_eq_some_iff.mpr ⟨t, ?_, hrest⟩
    rw [hkey]
    exact ht

/-- The part of a state that one field is taken into: once, for what the field means, and no other
    field changes it. -/
structure Slot (take : String → Form → σ → Option σ) (key : String) (get : σ → Option β)
    (meaning : Form → Option β) : Prop where
  taken : ∀ {v s}, take key v s ≠ none ↔ get s = none ∧ meaning v ≠ none
  own : ∀ {v s s'}, take key v s = some s' → get s' = meaning v
  other : ∀ {key' v s s'}, key' ≠ key → take key' v s = some s' → get s' = get s

variable {get : σ → Option β} {meaning : Form → Option β}

namespace Slot

/-- A field that is taken once has a slot. -/
theorem of_takeOnce (store : σ → β → σ)
    (htake : ∀ v s, take key v s = takeOnce (get s) (meaning v) (store s))
    (hstore : ∀ s b, get (store s b) = some b)
    (hother : ∀ {key' v s s'}, key' ≠ key → take key' v s = some s' → get s' = get s) :
    Slot take key get meaning where
  taken := by simp only [htake, takeOnce_ne_none, implies_true]
  own h := by
    obtain ⟨-, b, hb, rfl⟩ := takeOnce_eq_some.mp ((htake _ _).symm.trans h)
    rw [hstore, hb]
  other := hother

/-- A field is free before it is taken. -/
theorem free (hslot : Slot take key get meaning) (h : take key v s = some s') : get s = none :=
  (hslot.taken.mp (h ▸ Option.some_ne_none s')).1

/-- A field that is taken means something. -/
theorem exists_own (hslot : Slot take key get meaning) (h : take key v s = some s') :
    ∃ b, meaning v = some b ∧ get s' = some b := by
  obtain ⟨b, hb⟩ := Option.ne_none_iff_exists'.mp (hslot.taken.mp (h ▸ Option.some_ne_none s')).2
  exact ⟨b, hb, (hslot.own h).trans hb⟩

/-- A field that has been taken does not occur again. -/
theorem kept (hslot : Slot take key get meaning) {b : β} (hget : get s = some b)
    (h : takeMembers take s members = some s') :
    (∀ x ∈ members, x.1 ≠ some key) ∧ get s' = some b := by
  induction members generalizing s with
  | nil =>
    cases h
    exact ⟨by simp, hget⟩
  | cons x rest ih =>
    obtain ⟨key', t, hkey', ht, hrest⟩ := takeMembers_cons.mp h
    -- taking the field again would need it to be free
    have hne : key' ≠ key := by
      rintro rfl
      simp [hslot.free ht] at hget
    obtain ⟨hall, hget'⟩ := ih ((hslot.other hne ht).trans hget) hrest
    refine ⟨?_, hget'⟩
    rw [List.forall_mem_cons]
    exact ⟨by simpa [hkey'] using hne, hall⟩

/-- A field that does not occur is not taken. -/
theorem absent (hslot : Slot take key get meaning) (h : takeMembers take s members = some s')
    (hall : ∀ x ∈ members, x.1 ≠ some key) : get s' = get s := by
  induction members generalizing s with
  | nil =>
    cases h
    rfl
  | cons x rest ih =>
    obtain ⟨key', t, hkey', ht, hrest⟩ := takeMembers_cons.mp h
    rw [List.forall_mem_cons] at hall
    have hne : key' ≠ key := fun heq => hall.1 (heq ▸ hkey')
    exact (ih hrest hall.2).trans (hslot.other hne ht)

/-- A field that occurs is taken for what it means. -/
theorem present (hslot : Slot take key get meaning) (h : takeMembers take s members = some s')
    (hmem : (some key, v) ∈ members) : ∃ b, meaning v = some b ∧ get s' = some b := by
  induction members generalizing s with
  | nil => cases hmem
  | cons x rest ih =>
    obtain ⟨key', t, hkey', ht, hrest⟩ := takeMembers_cons.mp h
    rcases List.mem_cons.mp hmem with rfl | hmem
    · cases hkey'
      obtain ⟨b, hb, hget⟩ := hslot.exists_own ht
      exact ⟨b, hb, (hslot.kept hget hrest).2⟩
    · exact ih hrest hmem

/-- A field occurs once at most. -/
theorem once (hslot : Slot take key get meaning) (h : takeMembers take s members = some s') :
    members.Pairwise fun x y => x.1 = some key → y.1 ≠ some key := by
  induction members generalizing s with
  | nil => exact .nil
  | cons x rest ih =>
    obtain ⟨key', t, hkey', ht, hrest⟩ := takeMembers_cons.mp h
    refine .cons (fun y hy hkey => ?_) (ih hrest)
    obtain rfl : key' = key := Option.some.inj (hkey'.symm.trans hkey)
    obtain ⟨b, -, hget⟩ := hslot.exists_own ht
    exact (hslot.kept hget hrest).1 y hy

end Slot

/-- Fields under known names have parts of a state to be taken into, all others are passed over. -/
structure Takes (take : String → Form → σ → Option σ) (names : List String) : Prop where
  known : ∀ key ∈ names, ∃ (β : Type) (get : σ → Option β) (meaning : Form → Option β),
    Slot take key get meaning
  unknown : ∀ key ∉ names, ∀ v s, take key v s = some s

namespace Takes

/-- Members that have been taken have no known key twice. -/
theorem unrepeated (htakes : Takes take names) (h : takeMembers take s members = some s') :
    Unrepeated names members := by
  intro key hkey
  obtain ⟨β, get, meaning, hslot⟩ := htakes.known key hkey
  exact hslot.once h

/-- What can be taken stays so when another field is taken. -/
theorem apart (htakes : Takes take names) {key' : String} {v' : Form} {t : σ} (hknown : key' ∈ names)
    (hne : key' ≠ key) (h : take key v s = some t) (h' : take key' v' s ≠ none) :
    take key' v' t ≠ none := by
  obtain ⟨β, get, meaning, hslot⟩ := htakes.known key' hknown
  have hother := hslot.other hne.symm h
  rw [hslot.taken] at h' ⊢
  rw [hother]
  exact h'

/-- Members are taken if no known key occurs twice and each member with a known key can be taken. -/
theorem exists_takeMembers (htakes : Takes take names) (hkeys : ∀ x ∈ members, x.1 ≠ none)
    (honce : Unrepeated names members)
    (htake : ∀ key ∈ names, ∀ v, (some key, v) ∈ members → take key v s ≠ none) :
    ∃ s', takeMembers take s members = some s' := by
  induction members generalizing s with
  | nil => exact ⟨s, rfl⟩
  | cons x rest ih =>
    obtain ⟨key, v⟩ := x
    rw [List.forall_mem_cons] at hkeys
    obtain ⟨key, rfl⟩ := Option.ne_none_iff_exists'.mp hkeys.1
    have hfirst : take key v s ≠ none := by
      by_cases hknown : key ∈ names
      · exact htake key hknown v List.mem_cons_self
      · simp [htakes.unknown key hknown]
    obtain ⟨t, ht⟩ := Option.ne_none_iff_exists'.mp hfirst
    -- a known key does not occur again, so taking this member leaves the others as they are
    have hrest : ∀ key' ∈ names, ∀ v', (some key', v') ∈ rest → take key' v' t ≠ none := by
      intro key' hknown v' hmem
      have hne : key' ≠ key := by
        rintro rfl
        exact (List.pairwise_cons.mp (honce key' hknown)).1 _ hmem rfl rfl
      exact htakes.apart hknown hne ht (htake key' hknown v' (List.mem_cons_of_mem _ hmem))
    obtain ⟨s', hs'⟩ := ih hkeys.2 (fun key hkey => (honce key hkey).tail) hrest
    exact ⟨s', takeMembers_cons.mpr ⟨key, t, rfl, ht, hs'⟩⟩

end Takes

/-- The bytes of an object are enough to bound the steps in which its members are read. -/
theorem Json.Items.length_lt_append {value : Form → Bytes → Prop} {close : UInt8} {first : Bool}
    {inner : Bytes} (h : Items (Member value) close first members inner) (rest : Bytes) :
    members.length < (inner ++ rest).length + 1 := by
  have hlength : members.length < inner.length := h.length_lt fun x w hx => by
    cases hx
    simp
  simp only [List.length_append]
  omega

/-- A field is read for what it means, unless it has been read before. -/
theorem yields_once {value : Bytes → Except Problem (α × Bytes)} {meaning : Form → Option α}
    (hreads : Reads value meaning) (name : String) (old : Option α) (store : α → σ) {depth : Nat}
    {w before after rest : Bytes} (h : Writes depth v w) (hbefore : Spaces before)
    (hafter : Spaces after) (hstops : Stops rest) :
    Yields (BundleUnit.once name old value store (before ++ byte ':' :: (after ++ (w ++ rest))))
      (takeOnce old (meaning v) store) (· = rest) := by
  unfold BundleUnit.once takeOnce
  cases old with
  -- a field that has been read already is refused, whatever stands behind its name
  | some a => exact ⟨_, rfl⟩
  | none =>
    have hvalue := hreads h hafter hstops
    simp only [Option.isSome_none, Bool.false_eq_true, if_false, afterColon, colon_spaces hbefore]
    cases hmeaning : meaning v with
    | none =>
      rw [hmeaning] at hvalue
      obtain ⟨e, herror⟩ := hvalue
      exact ⟨e, by simp [bind, Except.bind, herror]⟩
    | some a =>
      rw [hmeaning] at hvalue
      obtain ⟨bytes, hok, hleft⟩ := hvalue
      exact ⟨bytes, by simp [bind, Except.bind, hok], hleft⟩

/-- A field that is not known is passed over. -/
theorem yields_unknownField (state : σ) {depth : Nat} {w before after rest : Bytes}
    (h : Writes depth v w) (hbefore : Spaces before) (hafter : Spaces after)
    (hstops : Stops rest) :
    Yields (BundleUnit.unknownField state (before ++ byte ':' :: (after ++ (w ++ rest))))
      (some state) (· = rest) := by
  refine ⟨rest, ?_, rfl⟩
  simp [BundleUnit.unknownField, bind, Except.bind, colon_spaces hbefore,
    skipValue_writes h hafter hstops]
  rfl

/-- Members are read if those with known keys are, and the others are passed over. -/
theorem Takes.readsMember (htakes : Takes take names)
    {member : String → σ → Bytes → Except Problem (σ × Bytes)}
    (hunknown : ∀ key ∉ names, ∀ s, member key s = BundleUnit.unknownField s)
    (hknown : ∀ key ∈ names, ∀ (s : σ) {depth : Nat} {v : Form} {w before after rest : Bytes},
      Writes depth v w → Spaces before → Spaces after → Stops rest →
      Yields (member key s (before ++ byte ':' :: (after ++ (w ++ rest)))) (take key v s)
        (· = rest)) : ReadsMember member take := by
  intro key s depth v w before after rest h hbefore hafter hstops
  by_cases hkey : key ∈ names
  · exact hknown key hkey s h hbefore hafter hstops
  · rw [hunknown key hkey, htakes.unknown key hkey]
    exact yields_unknownField s h hbefore hafter hstops

/-- Every value under a key is of one kind, and there is one unless the key can be left out. -/
def Tells (key : String) (value : Form → Prop) (omissible : Prop)
    (members : List (Option String × Form)) : Prop :=
  (∀ v, (some key, v) ∈ members → value v) ∧ (omissible ∨ ∃ v, (some key, v) ∈ members)

/-- A field that is told can be taken, if it has not been taken yet. -/
theorem Slot.takes_told (hslot : Slot take key get meaning) {value : Form → Prop} {omissible : Prop}
    {b : β} (hvalue : ∀ v, value v → meaning v = some b) (h : Tells key value omissible members)
    (hmem : (some key, v) ∈ members) (hget : get s = none) : take key v s ≠ none := by
  apply hslot.taken.mpr
  simp [hget, hvalue v (h.1 v hmem)]

/-- What is taken for a field that can be left out for `a`. -/
theorem Slot.getD_of_tells (hslot : Slot take key get meaning) {value : Form → Prop} {a b : β}
    (hvalue : ∀ v, value v → meaning v = some b) (h : Tells key value (b = a) members)
    (htake : takeMembers take s members = some s') (hget : get s = none) :
    (get s').getD a = b := by
  by_cases hmem : ∃ v, (some key, v) ∈ members
  · obtain ⟨v, hmem⟩ := hmem
    obtain ⟨c, hc, hget'⟩ := hslot.present htake hmem
    obtain rfl : b = c := Option.some.inj ((hvalue v (h.1 v hmem)).symm.trans hc)
    simp [hget']
  · have hnone : ∀ x ∈ members, x.1 ≠ some key := fun x hx hkey => hmem ⟨x.2, hkey ▸ hx⟩
    rw [hslot.absent htake hnone, hget]
    exact (h.2.resolve_right hmem).symm

end Fields

/-- A list of strings. -/
def Json.Form.texts (texts : List String) : Form :=
  .list (texts.map fun text => .string (some text))

theorem Json.Form.texts?_eq_some {v : Form} {texts : List String} :
    v.texts? = some texts ↔ v = .texts texts := by
  constructor
  · intro h
    cases v with
    | list items =>
      have hmap : ∀ (items : List Form) (texts : List String), items.mapM Form.text? = some texts →
          items = texts.map fun text => .string (some text) := by
        intro items
        induction items with
        | nil => simp
        | cons x xs ih =>
          intro texts h
          simp only [List.mapM_cons, bind, Option.bind_eq_some_iff, pure, Option.some.injEq] at h
          obtain ⟨text, htext, more, hmore, rfl⟩ := h
          obtain rfl : x = .string (some text) := by
            cases x with
            | string t => exact congrArg Form.string htext
            | _ => cases htext
          rw [ih more hmore]
          rfl
      exact congrArg Form.list (hmap items texts h)
    | _ => cases h
  · rintro rfl
    show (texts.map fun text => Form.string (some text)).mapM Form.text? = some texts
    induction texts with
    | nil => rfl
    | cons t ts ih => simp [List.mapM_cons, Form.text?, ih]

/-- The fields of a record: the members of an object, or the elements of a list under the names of
    the fields in their order. -/
def Json.Form.fields (names : List String) : Form → List (Option String × Form)
  | .object members => members
  | .list items => (names.map some).zip items
  | _ => []

/-- What the elements of a list mean for its fields, the first of them and the others. -/
theorem Json.mem_zip_nextField {α : Type} {meaning : Form → Option α} {missing : Option α}
    {items : List Form} {next : α × List Form} {name : Option String} {names : List (Option String)}
    (h : nextField meaning missing items = some next) {x : Option String × Form}
    (hmem : x ∈ (name :: names).zip items) :
    x.1 = name ∧ meaning x.2 = some next.1 ∨ x ∈ names.zip next.2 := by
  cases items with
  | nil => cases hmem
  | cons v items =>
    obtain ⟨a, ha, rfl⟩ := Option.map_eq_some_iff.mp h
    rcases List.mem_cons.mp hmem with rfl | hmem
    · exact .inl ⟨rfl, ha⟩
    · exact .inr hmem

/-! ## §2 Units -/

namespace BundleUnit

variable {members : List (Option String × Form)} {s s' : Fields} {v w : Form} {key : String}

/-- The fields of a unit, in the order in which a list has them. -/
def names : List String :=
  ["File", "Level", "Externs", "Includes"]

/-- What is taken from one member of a unit. -/
def Fields.take (key : String) (v : Form) (fields : Fields) : Option Fields :=
  match key with
  | "File" => takeOnce fields.file v.text? fun x => { fields with file := some x }
  | "Level" => takeOnce fields.declared v.optional? fun x => { fields with declared := some x }
  | "Externs" => takeOnce fields.externs v.texts? fun x => { fields with externs := some x }
  | "Includes" => takeOnce fields.includes v.texts? fun x => { fields with includes := some x }
  | _ => some fields

theorem Fields.take_unknown (h : key ∉ names) (v : Form) (s : Fields) :
    s.take key v = some s := by
  unfold take
  split
  all_goals first | rfl | exact absurd (by simp [names]) h

/-- A member of a unit changes its own field. -/
theorem Fields.take_frame (h : s.take key v = some s') :
    (key ≠ "File" → s'.file = s.file) ∧ (key ≠ "Level" → s'.declared = s.declared) ∧
      (key ≠ "Externs" → s'.externs = s.externs) ∧ (key ≠ "Includes" → s'.includes = s.includes) := by
  unfold take at h
  split at h
  case h_5 =>
    cases h
    simp
  all_goals
    obtain ⟨-, x, -, rfl⟩ := takeOnce_eq_some.mp h
    simp

theorem file_slot : Slot Fields.take "File" Fields.file Form.text? :=
  .of_takeOnce (fun s x => { s with file := some x }) (fun _ _ => rfl) (fun _ _ => rfl)
    fun hne h => (Fields.take_frame h).1 hne

theorem level_slot : Slot Fields.take "Level" Fields.declared Form.optional? :=
  .of_takeOnce (fun s x => { s with declared := some x }) (fun _ _ => rfl) (fun _ _ => rfl)
    fun hne h => (Fields.take_frame h).2.1 hne

theorem externs_slot : Slot Fields.take "Externs" Fields.externs Form.texts? :=
  .of_takeOnce (fun s x => { s with externs := some x }) (fun _ _ => rfl) (fun _ _ => rfl)
    fun hne h => (Fields.take_frame h).2.2.1 hne

theorem includes_slot : Slot Fields.take "Includes" Fields.includes Form.texts? :=
  .of_takeOnce (fun s x => { s with includes := some x }) (fun _ _ => rfl) (fun _ _ => rfl)
    fun hne h => (Fields.take_frame h).2.2.2 hne

theorem takes : Takes Fields.take names where
  known := by
    simp only [names, List.forall_mem_cons, List.not_mem_nil, false_implies, implies_true, and_true]
    exact ⟨⟨_, _, _, file_slot⟩, ⟨_, _, _, level_slot⟩, ⟨_, _, _, externs_slot⟩,
      ⟨_, _, _, includes_slot⟩⟩
  unknown _ := Fields.take_unknown

theorem member_unknown (h : key ∉ names) (s : Fields) : member key s = unknownField s := by
  funext bytes
  unfold member
  split
  all_goals first | rfl | exact absurd (by simp [names]) h

theorem reads_member : ReadsMember member Fields.take := by
  apply takes.readsMember fun key => member_unknown
  intro key hknown s depth v w before after rest h hbefore hafter hstops
  fin_cases hknown
  · exact yields_once reads_stringValue _ _ _ h hbefore hafter hstops
  · exact yields_once reads_optionalString _ _ _ h hbefore hafter hstops
  · exact yields_once reads_texts _ _ _ h hbefore hafter hstops
  · exact yields_once reads_texts _ _ _ h hbefore hafter hstops

/-- The unit that the members of an object are. -/
def ofMembers? (members : List (Option String × Form)) : Option BundleUnit :=
  (takeMembers Fields.take default members).bind fun fields => (ofFields fields).toOption

/-- The unit that the first elements of a list are, and the elements after it. -/
def ofItems? (items : List Form) : Option (BundleUnit × List Form) :=
  (nextField Form.text? none items).bind fun file =>
  (nextField Form.optional? (some none) file.2).bind fun declared =>
  (nextField Form.texts? (some []) declared.2).bind fun externs =>
  (nextField Form.texts? (some []) externs.2).map fun includes =>
    (⟨file.1, declared.1, externs.1, includes.1⟩, includes.2)

/-- The unit that a value is. -/
def ofForm? : Form → Option BundleUnit :=
  Form.record? ofMembers? ofItems?

theorem reads_value : Reads value ofForm? := by
  refine reads_recordValue ?hobject ?hlist
  case hobject =>
    intro depth members inner rest hinner
    refine (members_items reads_member hinner (hinner.length_lt_append rest) default rest).bind ?_
    intro fields bytes hleft
    cases hfields : ofFields fields with
    | ok u => exact ⟨bytes, by simp [hfields, bind, Except.bind, pure, Except.pure], hleft⟩
    | error e => exact ⟨e, by simp [hfields, bind, Except.bind]⟩
  case hlist =>
    intro depth items inner rest hinner β f g left hf
    unfold ofList ofItems?
    simp only [bind_assoc, Option.bind_assoc, Option.bind_map]
    apply fieldInList_items reads_stringValue hinner rest
    rintro file items bytes ⟨depth, inner, hinner, rfl⟩
    apply fieldInList_items reads_optionalString hinner rest
    rintro declared items bytes ⟨depth, inner, hinner, rfl⟩
    apply fieldInList_items reads_texts hinner rest
    rintro externs items bytes ⟨depth, inner, hinner, rfl⟩
    apply fieldInList_items reads_texts hinner rest
    rintro includes items bytes hremains
    exact hf _ items bytes hremains

/-- The members of an object list a unit: in any order, with other members among them. The level and
    the lists may be left out if there are none. -/
structure Lists (u : BundleUnit) (members : List (Option String × Form)) : Prop where
  keys : ∀ x ∈ members, x.1 ≠ none
  once : Unrepeated names members
  file : Tells "File" (· = .string (some u.file)) False members
  level : Tells "Level" (· = u.declared.elim .null fun text => .string (some text))
    (u.declared = none) members
  externs : Tells "Externs" (· = .texts u.externs) (u.externs = []) members
  includes : Tells "Includes" (· = .texts u.includes) (u.includes = []) members

/-- What no unit is: an object with a field twice or without a file, or a record with something
    else than texts where these belong. -/
inductive Faulty : Form → Prop where
  | repeated {members : List (Option String × Form)} (h : ¬ Unrepeated names members) :
      Faulty (.object members)
  | unnamed {members : List (Option String × Form)} (h : ∀ x ∈ members, x.1 ≠ some "File") :
      Faulty (.object members)
  | textless {v w : Form} {key : String} (hkey : key = "Externs" ∨ key = "Includes")
      (hmem : (some key, w) ∈ v.fields names) (h : ∀ texts, w ≠ .texts texts) : Faulty v

/-- Members that list a unit are read as this unit. -/
theorem Lists.ofMembers? {u : BundleUnit} (h : u.Lists members) : ofMembers? members = some u := by
  have hfile : ∀ v : Form, v = .string (some u.file) → v.text? = some u.file := by
    rintro v rfl
    rfl
  have hlevel : ∀ v : Form, v = u.declared.elim .null (fun text => .string (some text)) →
      v.optional? = some u.declared := by
    rintro v rfl
    cases u.declared <;> rfl
  have htexts : ∀ {texts} (v : Form), v = .texts texts → v.texts? = some texts :=
    fun v => Form.texts?_eq_some.mpr
  -- from the state in which no field has been read, each member alone can be taken
  obtain ⟨fields, hfields⟩ := takes.exists_takeMembers (s := default) h.keys h.once <| by
    intro key hknown v hmem
    fin_cases hknown
    · exact file_slot.takes_told hfile h.file hmem rfl
    · exact level_slot.takes_told hlevel h.level hmem rfl
    · exact externs_slot.takes_told htexts h.externs hmem rfl
    · exact includes_slot.takes_told htexts h.includes hmem rfl
  obtain ⟨v, hmem⟩ := h.file.2.resolve_left id
  obtain ⟨file, hmeant, hget⟩ := file_slot.present hfields hmem
  obtain rfl : u.file = file := Option.some.inj ((hfile v (h.file.1 v hmem)).symm.trans hmeant)
  have hdeclared : fields.declared.getD none = u.declared :=
    level_slot.getD_of_tells hlevel h.level hfields rfl
  have hexterns : fields.externs.getD [] = u.externs :=
    externs_slot.getD_of_tells htexts h.externs hfields rfl
  have hincludes : fields.includes.getD [] = u.includes :=
    includes_slot.getD_of_tells htexts h.includes hfields rfl
  have hjoin : fields.declared.join = fields.declared.getD none := by
    cases fields.declared <;> rfl
  simp [BundleUnit.ofMembers?, hfields, ofFields, hget, hjoin, hdeclared, hexterns, hincludes,
    Except.toOption]

/-- A field of a unit that is a list of texts is written as one. -/
theorem exists_texts {u : BundleUnit} (h : ofForm? v = some u)
    (hkey : key = "Externs" ∨ key = "Includes") (hmem : (some key, w) ∈ v.fields names) :
    ∃ texts, w = .texts texts := by
  suffices ∃ texts, w.texts? = some texts by simpa only [Form.texts?_eq_some] using this
  cases v with
  | object members =>
    obtain ⟨fields, hfields, -⟩ := Option.bind_eq_some_iff.mp h
    rcases hkey with rfl | rfl
    · obtain ⟨texts, htexts, -⟩ := externs_slot.present hfields hmem
      exact ⟨texts, htexts⟩
    · obtain ⟨texts, htexts, -⟩ := includes_slot.present hfields hmem
      exact ⟨texts, htexts⟩
  | list items =>
    obtain ⟨⟨u', left⟩, hitems, -⟩ := Option.bind_eq_some_iff.mp h
    obtain ⟨file, hfile, hitems⟩ := Option.bind_eq_some_iff.mp hitems
    obtain ⟨declared, hdeclared, hitems⟩ := Option.bind_eq_some_iff.mp hitems
    obtain ⟨externs, hexterns, hitems⟩ := Option.bind_eq_some_iff.mp hitems
    obtain ⟨includes, hincludes, -⟩ := Option.map_eq_some_iff.mp hitems
    -- the file and the level come first and have other names
    rcases mem_zip_nextField hfile hmem with ⟨hname, -⟩ | hmem
    · obtain rfl : key = "File" := Option.some.inj hname
      simp at hkey
    rcases mem_zip_nextField hdeclared hmem with ⟨hname, -⟩ | hmem
    · obtain rfl : key = "Level" := Option.some.inj hname
      simp at hkey
    rcases mem_zip_nextField hexterns hmem with ⟨-, htexts⟩ | hmem
    · exact ⟨_, htexts⟩
    rcases mem_zip_nextField hincludes hmem with ⟨-, htexts⟩ | hmem
    · exact ⟨_, htexts⟩
    · cases hmem
  | _ => cases hmem

/-- What no unit is is not read as one. -/
theorem Faulty.ofForm? (h : Faulty v) : ofForm? v = none := by
  by_contra hne
  obtain ⟨u, hu⟩ := Option.ne_none_iff_exists'.mp hne
  cases h with
  | repeated h =>
    obtain ⟨fields, hfields, -⟩ := Option.bind_eq_some_iff.mp hu
    exact h (takes.unrepeated hfields)
  | unnamed h =>
    obtain ⟨fields, hfields, hu⟩ := Option.bind_eq_some_iff.mp hu
    have hfile : fields.file = none := file_slot.absent hfields h
    simp [ofFields, hfile, Except.toOption] at hu
  | textless hkey hmem h =>
    obtain ⟨texts, rfl⟩ := exists_texts hu hkey hmem
    exact h texts rfl

end BundleUnit

/-! ## §3 Manifests -/

namespace Manifest

variable {members : List (Option String × Form)} {s s' : Fields} {v w : Form} {key : String}

/-- The fields of a manifest, in the order in which a list has them. -/
def names : List String :=
  ["Externs", "Includes", "Units"]

/-- The units that a list has. -/
def units? : Form → Option (List BundleUnit) :=
  Form.listOf? BundleUnit.ofForm?

/-- What is taken from one member of a manifest. -/
def Fields.take (key : String) (v : Form) (fields : Fields) : Option Fields :=
  match key with
  | "Externs" => takeOnce fields.externs v.texts? fun x => { fields with externs := some x }
  | "Includes" => takeOnce fields.includes v.texts? fun x => { fields with includes := some x }
  | "Units" => takeOnce fields.units (units? v) fun x => { fields with units := some x }
  | _ => some fields

theorem Fields.take_unknown (h : key ∉ names) (v : Form) (s : Fields) :
    s.take key v = some s := by
  unfold take
  split
  all_goals first | rfl | exact absurd (by simp [names]) h

/-- A member of a manifest changes its own field. -/
theorem Fields.take_frame (h : s.take key v = some s') :
    (key ≠ "Externs" → s'.externs = s.externs) ∧ (key ≠ "Includes" → s'.includes = s.includes) ∧
      (key ≠ "Units" → s'.units = s.units) := by
  unfold take at h
  split at h
  case h_4 =>
    cases h
    simp
  all_goals
    obtain ⟨-, x, -, rfl⟩ := takeOnce_eq_some.mp h
    simp

theorem externs_slot : Slot Fields.take "Externs" Fields.externs Form.texts? :=
  .of_takeOnce (fun s x => { s with externs := some x }) (fun _ _ => rfl) (fun _ _ => rfl)
    fun hne h => (Fields.take_frame h).1 hne

theorem includes_slot : Slot Fields.take "Includes" Fields.includes Form.texts? :=
  .of_takeOnce (fun s x => { s with includes := some x }) (fun _ _ => rfl) (fun _ _ => rfl)
    fun hne h => (Fields.take_frame h).2.1 hne

theorem units_slot : Slot Fields.take "Units" Fields.units units? :=
  .of_takeOnce (fun s x => { s with units := some x }) (fun _ _ => rfl) (fun _ _ => rfl)
    fun hne h => (Fields.take_frame h).2.2 hne

theorem takes : Takes Fields.take names where
  known := by
    simp only [names, List.forall_mem_cons, List.not_mem_nil, false_implies, implies_true, and_true]
    exact ⟨⟨_, _, _, externs_slot⟩, ⟨_, _, _, includes_slot⟩, ⟨_, _, _, units_slot⟩⟩
  unknown _ := Fields.take_unknown

theorem reads_units : Reads (listValue BundleUnit.value) units? :=
  reads_listValue BundleUnit.reads_value

theorem member_unknown (h : key ∉ names) (s : Fields) : member key s = BundleUnit.unknownField s := by
  funext bytes
  unfold member
  split
  all_goals first | rfl | exact absurd (by simp [names]) h

theorem reads_member : ReadsMember member Fields.take := by
  apply takes.readsMember fun key => member_unknown
  intro key hknown s depth v w before after rest h hbefore hafter hstops
  fin_cases hknown
  · exact yields_once reads_texts _ _ _ h hbefore hafter hstops
  · exact yields_once reads_texts _ _ _ h hbefore hafter hstops
  · exact yields_once reads_units _ _ _ h hbefore hafter hstops

/-- The manifest that the members of an object are. -/
def ofMembers? (members : List (Option String × Form)) : Option Manifest :=
  (takeMembers Fields.take default members).map fun fields =>
    ⟨fields.externs.getD [], fields.includes.getD [], fields.units.getD []⟩

/-- The manifest that the first elements of a list are, and the elements after it. -/
def ofItems? (items : List Form) : Option (Manifest × List Form) :=
  (nextField Form.texts? (some []) items).bind fun externs =>
  (nextField Form.texts? (some []) externs.2).bind fun includes =>
  (nextField units? (some []) includes.2).map fun units =>
    (⟨externs.1, includes.1, units.1⟩, units.2)

/-- The manifest that a value is. -/
def ofForm? : Form → Option Manifest :=
  Form.record? ofMembers? ofItems?

theorem reads_record : Reads (recordValue "Manifest" ofObject ofList) ofForm? := by
  refine reads_recordValue ?hobject ?hlist
  case hobject =>
    intro depth members inner rest hinner
    unfold ofMembers?
    rw [Option.map_eq_bind]
    exact (members_items reads_member hinner (hinner.length_lt_append rest) default rest).bind
      fun fields bytes hleft => ⟨bytes, rfl, hleft⟩
  case hlist =>
    intro depth items inner rest hinner β f g left hf
    unfold ofList ofItems?
    simp only [bind_assoc, Option.bind_assoc, Option.bind_map]
    apply fieldInList_items reads_texts hinner rest
    rintro externs items bytes ⟨depth, inner, hinner, rfl⟩
    apply fieldInList_items reads_texts hinner rest
    rintro includes items bytes ⟨depth, inner, hinner, rfl⟩
    apply fieldInList_items reads_units hinner rest
    rintro units items bytes hremains
    exact hf _ items bytes hremains

/-- The members of an object list a manifest: in any order, with other members among them. A list may
    be left out if nothing is in it. -/
structure Lists (m : Manifest) (members : List (Option String × Form)) : Prop where
  keys : ∀ x ∈ members, x.1 ≠ none
  once : Unrepeated names members
  externs : Tells "Externs" (· = .texts m.externs) (m.externs = []) members
  includes : Tells "Includes" (· = .texts m.includes) (m.includes = []) members
  units : Tells "Units" (fun v => ∃ objects, v = .list (objects.map .object) ∧
    List.Forall₂ BundleUnit.Lists m.units objects) (m.units = []) members

/-- What no manifest is: an object with a field twice, or a record with something else than texts
    where these belong, or with what is no unit among its units. -/
inductive Faulty : Form → Prop where
  | repeated {members : List (Option String × Form)} (h : ¬ Unrepeated names members) :
      Faulty (.object members)
  | textless {v w : Form} {key : String} (hkey : key = "Externs" ∨ key = "Includes")
      (hmem : (some key, w) ∈ v.fields names) (h : ∀ texts, w ≠ .texts texts) : Faulty v
  | unit {v w : Form} {units : List Form} (hmem : (some "Units", .list units) ∈ v.fields names)
      (hunit : w ∈ units) (h : BundleUnit.Faulty w) : Faulty v

/-- Objects that list units are read as these units. -/
theorem units?_objects {units : List BundleUnit} {objects : List (List (Option String × Form))}
    (h : List.Forall₂ BundleUnit.Lists units objects) :
    units? (.list (objects.map .object)) = some units := by
  show (objects.map Form.object).mapM BundleUnit.ofForm? = some units
  induction h with
  | nil => rfl
  | cons hunit _ ih =>
    have hfirst : BundleUnit.ofForm? (.object _) = some _ := hunit.ofMembers?
    simp [List.mapM_cons, hfirst, ih]

/-- Members that list a manifest are read as this manifest. -/
theorem Lists.ofMembers? {m : Manifest} (h : m.Lists members) : ofMembers? members = some m := by
  have htexts : ∀ {texts} (v : Form), v = .texts texts → v.texts? = some texts :=
    fun v => Form.texts?_eq_some.mpr
  have hunits : ∀ v, (∃ objects, v = .list (objects.map .object) ∧
      List.Forall₂ BundleUnit.Lists m.units objects) → units? v = some m.units := by
    rintro v ⟨objects, rfl, hobjects⟩
    exact units?_objects hobjects
  obtain ⟨fields, hfields⟩ := takes.exists_takeMembers (s := default) h.keys h.once <| by
    intro key hknown v hmem
    fin_cases hknown
    · exact externs_slot.takes_told htexts h.externs hmem rfl
    · exact includes_slot.takes_told htexts h.includes hmem rfl
    · exact units_slot.takes_told hunits h.units hmem rfl
  -- each field holds what the members tell, or nothing if they do not tell it
  have hexterns : fields.externs.getD [] = m.externs :=
    externs_slot.getD_of_tells htexts h.externs hfields rfl
  have hincludes : fields.includes.getD [] = m.includes :=
    includes_slot.getD_of_tells htexts h.includes hfields rfl
  have hall : fields.units.getD [] = m.units :=
    units_slot.getD_of_tells hunits h.units hfields rfl
  simp [Manifest.ofMembers?, hfields, hexterns, hincludes, hall]

/-- A field of a manifest is written as a list of texts, or has units as its elements. -/
theorem fields_mean {m : Manifest} (h : ofForm? v = some m) (hmem : (some key, w) ∈ v.fields names) :
    (key = "Externs" ∨ key = "Includes" → ∃ texts, w = .texts texts) ∧
      (key = "Units" → ∃ units, units? w = some units) := by
  simp only [← Form.texts?_eq_some]
  cases v with
  | object members =>
    obtain ⟨fields, hfields, -⟩ := Option.map_eq_some_iff.mp h
    constructor
    · rintro (rfl | rfl)
      · obtain ⟨texts, htexts, -⟩ := externs_slot.present hfields hmem
        exact ⟨texts, htexts⟩
      · obtain ⟨texts, htexts, -⟩ := includes_slot.present hfields hmem
        exact ⟨texts, htexts⟩
    · rintro rfl
      obtain ⟨units, hunits, -⟩ := units_slot.present hfields hmem
      exact ⟨units, hunits⟩
  | list items =>
    -- a list has the fields in their order, and each is read before the next
    obtain ⟨⟨m', left⟩, hitems, -⟩ := Option.bind_eq_some_iff.mp h
    obtain ⟨externs, hexterns, hitems⟩ := Option.bind_eq_some_iff.mp hitems
    obtain ⟨includes, hincludes, hitems⟩ := Option.bind_eq_some_iff.mp hitems
    obtain ⟨units, hunits, -⟩ := Option.map_eq_some_iff.mp hitems
    rcases mem_zip_nextField hexterns hmem with ⟨hname, htexts⟩ | hmem
    · obtain rfl : key = "Externs" := Option.some.inj hname
      exact ⟨fun _ => ⟨_, htexts⟩, by simp⟩
    rcases mem_zip_nextField hincludes hmem with ⟨hname, htexts⟩ | hmem
    · obtain rfl : key = "Includes" := Option.some.inj hname
      exact ⟨fun _ => ⟨_, htexts⟩, by simp⟩
    rcases mem_zip_nextField hunits hmem with ⟨hname, hmeant⟩ | hmem
    · obtain rfl : key = "Units" := Option.some.inj hname
      exact ⟨by simp, fun _ => ⟨_, hmeant⟩⟩
    · cases hmem
  | _ => cases hmem

/-- Each element of a list that is read is read itself. -/
theorem exists_unit {items : List Form} {units : List BundleUnit}
    (h : units? (.list items) = some units) (hmem : w ∈ items) :
    ∃ u, BundleUnit.ofForm? w = some u := by
  replace h : items.mapM BundleUnit.ofForm? = some units := h
  induction items generalizing units with
  | nil => cases hmem
  | cons x items ih =>
    simp only [List.mapM_cons, bind, Option.bind_eq_some_iff] at h
    obtain ⟨u, hu, more, hmore, -⟩ := h
    rcases List.mem_cons.mp hmem with rfl | hmem
    · exact ⟨u, hu⟩
    · exact ih hmem hmore

/-- What no manifest is is not read as one. -/
theorem Faulty.ofForm? (h : Faulty v) : ofForm? v = none := by
  by_contra hne
  obtain ⟨m, hm⟩ := Option.ne_none_iff_exists'.mp hne
  cases h with
  | repeated h =>
    obtain ⟨fields, hfields, -⟩ := Option.map_eq_some_iff.mp hm
    exact h (takes.unrepeated hfields)
  | textless hkey hmem h =>
    obtain ⟨texts, rfl⟩ := (fields_mean hm hmem).1 hkey
    exact h texts rfl
  | unit hmem hunit h =>
    obtain ⟨units, hunits⟩ := (fields_mean hm hmem).2 rfl
    obtain ⟨u, hu⟩ := exists_unit hunits hunit
    simp [h.ofForm?] at hu

end Manifest

/-! ## §4 Manifests in files -/

namespace Compiler

variable {h : Host} {path : Path} {bytes : Bytes} {v : Form}

theorem loadManifest_ok {m : Manifest} (hbytes : h.tree.bytesAt h.directory path = .ok bytes)
    (hread : Manifest.read bytes = .ok m) : (loadManifest path).runOn h = (.ok m, h) :=
  loadManifest_ok_iff.mpr ⟨⟨bytes, hbytes, hread⟩, rfl⟩

theorem loadManifest_error {e : Problem} (hbytes : h.tree.bytesAt h.directory path = .ok bytes)
    (hread : Manifest.read bytes = .error e) :
    (loadManifest path).runOn h = (.error (.manifest path (.malformed e)), h) := by
  rw [Act.runOn_eq, loadManifest, runFrom_read]
  simp only [hbytes, hread]

/-- Every text that lists a manifest is loaded as this manifest, whatever order, spacing, escapes and
    further members it is written with. A text with a field twice, with a unit without a file or with
    something else than texts where they belong is refused. -/
theorem loadManifest_reads (h : Host) (path : Path) (bytes : Bytes)
    (hbytes : h.tree.bytesAt h.directory path = .ok bytes) :
    (∀ m : Manifest, ∀ members, m.Lists members → IsText (.object members) bytes →
      (loadManifest path).runOn h = (.ok m, h)) ∧
    (∀ v, Manifest.Faulty v → IsText v bytes →
      ∃ e, (loadManifest path).runOn h = (.error (.manifest path (.malformed e)), h)) := by
  have hread : ∀ v, IsText v bytes → (Manifest.read bytes).toOption = Manifest.ofForm? v :=
    fun v => document_isText Manifest.reads_record
  constructor
  · intro m members hlists htext
    have hmeaning : Manifest.ofForm? (.object members) = some m := hlists.ofMembers?
    have hm := (hread _ htext).trans hmeaning
    cases hresult : Manifest.read bytes with
    | ok m' =>
      obtain rfl : m' = m := by simpa [hresult, Except.toOption] using hm
      exact loadManifest_ok hbytes hresult
    | error e => simp [hresult, Except.toOption] at hm
  · intro v hfaulty htext
    have hnone := (hread _ htext).trans hfaulty.ofForm?
    cases hresult : Manifest.read bytes with
    | ok m => simp [hresult, Except.toOption] at hnone
    | error e => exact ⟨e, loadManifest_error hbytes hresult⟩

/-- A host whose only file is a text. -/
def textHost (bytes : Bytes) : Host :=
  .ofTree ⟨[([], .directory), (["a.bundle"], plainFile bytes)]⟩ fun _ => none

/-- A manifest of one unit, with a note, an escaped full stop and the fields of the unit in reverse. -/
def notedText : Bytes :=
  letters "\x7b\"Note\":[0], \"Units\":[\x7b\"Level\":null, \"File\":\"a\\u002ejs\"\x7d]\x7d"

/-- The members of the unit there. -/
def notedUnit : List (Option String × Form) :=
  [(some "Level", .null), (some "File", .string (some "a.js"))]

theorem isText_noted :
    IsText (.object [(some "Note", .list [.number]), (some "Units", .list [.object notedUnit])])
      notedText := by
  have hnone : Spaces [] := by simp [Spaces]
  have hcomma : Lead false [byte ',', byte ' '] :=
    @Lead.comma [] [byte ' '] hnone (by simp [Spaces, show isSpace (byte ' ') = true by decide])
  have hnumber : IsNumber [byte '0'] :=
    @IsNumber.mk [] [byte '0'] [] [] (.inl rfl) (.inl rfl) (.inl rfl) (.inl rfl)
  have hstop : Quad [byte '0', byte '0', byte '2', byte 'e'] (((0 * 16 + 0) * 16 + 2) * 16 + 14) :=
    .mk rfl rfl rfl rfl
  have hresolves : Resolves _ (byte 'a' :: (String.utf8EncodeChar '.' ++ letters "js")) :=
    .plain (by decide) (.code hstop (.plain (by decide) (.plain (by decide) .nil)))
  have hvalue : byte 'a' :: (String.utf8EncodeChar '.' ++ letters "js") = Utf8.encode "a.js" := by
    decide
  have hquotes : Quotes (some "a.js") _ := Resolves.quotes (hvalue ▸ hresolves)
  have hnote : Member (Writes 3) (some "Note", .list [.number]) _ :=
    .mk (quotes_plain (by decide +kernel)) hnone hnone ⟨_, .cons (.first hnone) hnumber (.nil hnone), rfl⟩
  have hlevel : Member (Writes 1) (some "Level", .null) _ :=
    .mk (quotes_plain (by decide +kernel)) hnone hnone rfl
  have hfile : Member (Writes 1) (some "File", .string (some "a.js")) _ :=
    .mk (quotes_plain (by decide +kernel)) hnone hnone ⟨_, hquotes, rfl⟩
  have hunits : Member (Writes 3) (some "Units", .list [.object notedUnit]) _ :=
    .mk (quotes_plain (by decide +kernel)) hnone hnone
      ⟨_, .cons (.first hnone) ⟨_, .cons (.first hnone) hlevel (.cons hcomma hfile (.nil hnone)), rfl⟩
        (.nil hnone), rfl⟩
  exact ⟨4, [], _, [], hnone, hnone,
    ⟨_, .cons (.first hnone) hnote (.cons hcomma hunits (.nil hnone)), rfl⟩, by decide +kernel⟩

/-- What that text says. -/
def notedManifest : Manifest :=
  ⟨[], [], [⟨"a.js", none, [], []⟩]⟩

theorem lists_noted : notedManifest.Lists
    [(some "Note", .list [.number]), (some "Units", .list [.object notedUnit])] where
  keys := by simp
  once := by simp [Unrepeated, Manifest.names]
  externs := ⟨by simp, .inl rfl⟩
  includes := ⟨by simp, .inl rfl⟩
  units := by
    refine ⟨fun v hmem => ⟨[notedUnit], by simpa using hmem, .cons ?_ .nil⟩, .inr ⟨_, by simp; rfl⟩⟩
    exact {
      keys := by simp [notedUnit]
      once := by simp [Unrepeated, BundleUnit.names, notedUnit]
      file := ⟨by simp [notedUnit], .inr ⟨_, by simp [notedUnit]; rfl⟩⟩
      level := ⟨by simp [notedUnit], .inl rfl⟩
      externs := ⟨by simp [notedUnit], .inl rfl⟩
      includes := ⟨by simp [notedUnit], .inl rfl⟩ }

/-- A manifest whose externs are null. -/
def nullText : Bytes :=
  letters "\x7b\"Externs\":null\x7d"

theorem isText_null : IsText (.object [(some "Externs", .null)]) nullText := by
  have hnone : Spaces [] := by simp [Spaces]
  have hmember : Member (Writes 0) (some "Externs", .null) _ :=
    .mk (quotes_plain (by decide +kernel)) hnone hnone rfl
  exact ⟨1, [], _, [], hnone, hnone, ⟨_, .cons (.first hnone) hmember (.nil hnone), rfl⟩,
    by decide +kernel⟩

/-- The one text is loaded and the other one is refused. -/
theorem noted_loaded : (textHost notedText).tree.bytesAt [] ⟨"a.bundle"⟩ = .ok notedText ∧
    (loadManifest ⟨"a.bundle"⟩).runOn (textHost notedText) =
      (.ok notedManifest, textHost notedText) ∧
    ∃ e, (loadManifest ⟨"a.bundle"⟩).runOn (textHost nullText) =
      (.error (.manifest ⟨"a.bundle"⟩ (.malformed e)), textHost nullText) := by
  have hnoted : (textHost notedText).tree.bytesAt [] ⟨"a.bundle"⟩ = .ok notedText := by
    decide +kernel
  have hnull : (textHost nullText).tree.bytesAt [] ⟨"a.bundle"⟩ = .ok nullText := by
    decide +kernel
  refine ⟨hnoted, ?_, ?_⟩
  · exact (loadManifest_reads _ _ _ hnoted).1 _ _ lists_noted isText_noted
  · apply (loadManifest_reads _ _ _ hnull).2 _ ?_ isText_null
    exact .textless (.inl rfl) (List.mem_singleton_self _) (by simp [Form.texts])

end Compiler

end AssetServer
