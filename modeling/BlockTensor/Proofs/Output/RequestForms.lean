import BlockTensor.Output.Request
import BlockTensor.Proofs.Output.FieldTexts

/-!
# The two forms of a request

A request is read from an object with its fields in any order, next to fields of other
names with any value, or from a list of its fields in order. For each form the members
are a list of `Field`s with a grammar of their own, and reading takes the texts of the
grammar and nothing else. The draft an object is read into lacks exactly the fields that
were not given yet (`Draft.lacks_set_iff`); what is left of a list is what its place
holds (`readNext_complete`, `readNext_sound`).
-/

namespace BlockTensor.Output.Request

open Json

-- ---------------------------------------------------------------------------
-- Fields
-- ---------------------------------------------------------------------------

def keys : List String := ["quantity", "unit", "per_atom", "explicit_gradients"]

inductive Field where
  | quantity (value : String)
  | unit (value : String)
  | perAtom (value : Bool)
  | explicitGradients (value : List String)
  /-- A field that is passed over. -/
  | other (key : String) (h : key ∉ keys)

namespace Field

def key : Field → String
  | quantity _ => "quantity"
  | unit _ => "unit"
  | perAtom _ => "per_atom"
  | explicitGradients _ => "explicit_gradients"
  | other key _ => key

def IsValue : Field → List Char → Prop
  | quantity value, text => Spells value.toList text
  | unit value, text => Spells value.toList text
  | perAtom value, text => text = writeBool value
  | explicitGradients value, text => IsTexts value text
  | other _ _, text => Json.IsValue text

/-- The texts of a field in an object: its key, a colon and its value. -/
def IsMember (field : Field) (text : List Char) : Prop :=
  ∃ key before after value, Spells field.key.toList key ∧ IsBlanks before ∧ IsBlanks after ∧
    field.IsValue value ∧ text = key ++ before ++ ':' :: after ++ value

def apply (request : Request) : Field → Request
  | quantity value => { request with quantity := value }
  | unit value => { request with unit := value }
  | perAtom value => { request with perAtom := value }
  | explicitGradients value => { request with explicitGradients := value }
  | other _ _ => request

end Field

/-- The request of the fields; those that are missing have their defaults. -/
def ofFields (fields : List Field) : Request := fields.foldl Field.apply {}

def Distinct (fields : List Field) : Prop :=
  fields.Pairwise fun field later => field.key = later.key → field.key ∉ keys

def fields (request : Request) : List Field :=
  [.quantity request.quantity, .unit request.unit, .perAtom request.perAtom,
    .explicitGradients request.explicitGradients]

theorem ofFields_fields (request : Request) : ofFields request.fields = request := rfl

-- ---------------------------------------------------------------------------
-- Drafts
-- ---------------------------------------------------------------------------

def Draft.set (draft : Draft) : Field → Draft
  | .quantity value => { draft with quantity := some value }
  | .unit value => { draft with unit := some value }
  | .perAtom value => { draft with perAtom := some value }
  | .explicitGradients value => { draft with explicitGradients := some value }
  | .other _ _ => draft

def Draft.Lacks (draft : Draft) : Field → Prop
  | .quantity _ => draft.quantity = none
  | .unit _ => draft.unit = none
  | .perAtom _ => draft.perAtom = none
  | .explicitGradients _ => draft.explicitGradients = none
  | .other _ _ => True

theorem Draft.lacks_set_iff {draft : Draft} {field later : Field} :
    (draft.set field).Lacks later ↔
      draft.Lacks later ∧ (field.key = later.key → field.key ∉ keys) := by
  cases field with
  | other key h => simp [set, Field.key, h]
  | _ =>
    cases later with
    | other key h =>
      simp only [Lacks, Field.key, true_and, true_iff]
      rintro rfl
      exact h
    | _ => simp [set, Lacks, Field.key, keys]

theorem ofDraft_set (draft : Draft) (field : Field) :
    ofDraft (draft.set field) = field.apply (ofDraft draft) := by
  cases field <;> rfl

theorem ofDraft_foldl (fields : List Field) (draft : Draft) :
    ofDraft (fields.foldl Draft.set draft) = fields.foldl Field.apply (ofDraft draft) :=
  (List.foldl_hom ofDraft fun draft field => (ofDraft_set draft field).symm).symm

-- ---------------------------------------------------------------------------
-- One field of an object
-- ---------------------------------------------------------------------------

theorem Field.IsValue.begins {field : Field} {text : List Char} (h : field.IsValue text) :
    Begins text := by
  cases field with
  | quantity => exact reads_text.begins h
  | unit => exact reads_text.begins h
  | perAtom => exact reads_bool.begins h
  | explicitGradients => exact reads_texts.begins h
  | other => exact Json.IsValue.begins h

section

variable {α : Type} {read : List Char → Option (α × List Char)} {Text : α → List Char → Prop}

/-- A field that is not given twice is read as its reader does. -/
theorem read_once_complete (hreads : Reads read Text) {given : Option α} (hgiven : given = none)
    {value : α} {gap text : List Char} (hgap : IsBlanks gap) (h : Text value text)
    (set : α → Draft) (rest : List Char) :
    (if given.isSome then none
      else (read (gap ++ (text ++ rest))).map fun (value, rest) => (set value, rest)) =
      some (set value, rest) := by
  rw [hgiven, hreads.complete h hgap]
  rfl

theorem read_once_sound (hreads : Reads read Text) {given : Option α} (set : α → Draft)
    {draft : Draft} {text rest : List Char}
    (h : (if given.isSome then none
      else (read text).map fun (value, rest) => (set value, rest)) = some (draft, rest)) :
    given = none ∧ ∃ value gap part, draft = set value ∧ IsBlanks gap ∧ Text value part ∧
      text = gap ++ (part ++ rest) := by
  split_ifs at h with hgiven
  obtain ⟨⟨value, _⟩, hread, h⟩ := Option.map_eq_some_iff.mp h
  cases h
  obtain ⟨gap, part, hgap, hpart, htext⟩ := hreads.sound hread
  exact ⟨by simpa using hgiven, value, gap, part, rfl, hgap, hpart, htext⟩

end

theorem readField_complete {field : Field} {draft : Draft} (hlacks : draft.Lacks field)
    {gap value : List Char} (hgap : IsBlanks gap) (h : field.IsValue value) {rest : List Char}
    (hrest : Ends rest) :
    readField field.key draft (gap ++ (value ++ rest)) = some (draft.set field, rest) := by
  cases field with
  | quantity =>
    simp only [readField, Field.key, ↓reduceIte]
    exact read_once_complete reads_text hlacks hgap h
      (fun value => draft.set (.quantity value)) rest
  | unit =>
    simp only [readField, Field.key, String.reduceEq, ↓reduceIte]
    exact read_once_complete reads_text hlacks hgap h (fun value => draft.set (.unit value)) rest
  | perAtom =>
    simp only [readField, Field.key, String.reduceEq, ↓reduceIte]
    exact read_once_complete reads_bool hlacks hgap h (fun value => draft.set (.perAtom value)) rest
  | explicitGradients =>
    simp only [readField, Field.key, String.reduceEq, ↓reduceIte]
    exact read_once_complete reads_texts hlacks hgap h
      (fun value => draft.set (.explicitGradients value)) rest
  | other key hkey =>
    simp only [keys, List.mem_cons, List.not_mem_nil, or_false, not_or] at hkey
    have hskip := Json.IsValue.skipValue? h hgap hrest
    simp [readField, Field.key, hkey, ← List.append_assoc, hskip, Draft.set]

theorem readField_sound {key : String} {draft draft' : Draft} {text rest : List Char}
    (h : readField key draft text = some (draft', rest)) :
    ∃ field gap value, field.key = key ∧ draft.Lacks field ∧ draft' = draft.set field ∧
      IsBlanks gap ∧ field.IsValue value ∧ text = gap ++ (value ++ rest) := by
  unfold readField at h
  split at h
  next hkey =>
    obtain ⟨hlacks, value, gap, part, hset, hpart⟩ :=
      read_once_sound reads_text (fun value => draft.set (.quantity value)) h
    exact ⟨.quantity value, gap, part, hkey.symm, hlacks, hset, hpart⟩
  split at h
  next hkey =>
    obtain ⟨hlacks, value, gap, part, hset, hpart⟩ :=
      read_once_sound reads_text (fun value => draft.set (.unit value)) h
    exact ⟨.unit value, gap, part, hkey.symm, hlacks, hset, hpart⟩
  split at h
  next hkey =>
    obtain ⟨hlacks, value, gap, part, hset, hpart⟩ :=
      read_once_sound reads_bool (fun value => draft.set (.perAtom value)) h
    exact ⟨.perAtom value, gap, part, hkey.symm, hlacks, hset, hpart⟩
  split at h
  next hkey =>
    obtain ⟨hlacks, value, gap, part, hset, hpart⟩ :=
      read_once_sound reads_texts (fun value => draft.set (.explicitGradients value)) h
    exact ⟨.explicitGradients value, gap, part, hkey.symm, hlacks, hset, hpart⟩
  next hquantity hunit hperAtom hexplicit =>
    obtain ⟨_, hskip, h⟩ := Option.map_eq_some_iff.mp h
    cases h
    obtain ⟨gap, value, hgap, hvalue, htext⟩ := value_of_skipValue? hskip
    refine ⟨.other key ?_, gap, value, rfl, trivial, rfl, hgap, hvalue, by simp [htext]⟩
    simp [keys, hquantity, hunit, hperAtom, hexplicit]

-- ---------------------------------------------------------------------------
-- The object form
-- ---------------------------------------------------------------------------

theorem Field.IsMember.begins {field : Field} {text : List Char} (h : field.IsMember text) :
    Begins text := by
  obtain ⟨key, before, after, value, hkey, _, _, _, rfl⟩ := h
  simp only [List.append_assoc]
  exact (begins_of_spells hkey).append _

theorem Field.IsMember.read {field : Field} {member : List Char} (h : field.IsMember member)
    {draft : Draft} (hlacks : draft.Lacks field) {rest : List Char} (hrest : Ends rest) :
    ∃ afterKey value, read? (member ++ rest) = some (field.key.toList, afterKey) ∧
      afterColon? afterKey = some value ∧
      readField field.key draft value = some (draft.set field, rest) := by
  obtain ⟨key, before, after, value, hkey, hbefore, hafter, hvalue, rfl⟩ := h
  refine ⟨before ++ ':' :: (after ++ (value ++ rest)), after ++ (value ++ rest),
    read?_iff.mpr ⟨key, hkey, by simp⟩, hbefore.afterColon? _, ?_⟩
  exact readField_complete hlacks hafter hvalue hrest

theorem member_of_read {draft draft' : Draft} {text key afterKey value rest : List Char}
    (hkey : read? text = some (key, afterKey)) (hcolon : afterColon? afterKey = some value)
    (hfield : readField (String.ofList key) draft value = some (draft', rest)) :
    ∃ field member, field.IsMember member ∧ draft.Lacks field ∧ draft' = draft.set field ∧
      text = member ++ rest := by
  obtain ⟨literal, hliteral, rfl⟩ := read?_iff.mp hkey
  obtain ⟨before, hbefore, rfl⟩ := colon_of_afterColon? hcolon
  obtain ⟨field, after, part, hname, hlacks, hset, hafter, hpart, rfl⟩ := readField_sound hfield
  have hspells : Spells field.key.toList literal := by simpa [hname] using hliteral
  exact ⟨field, _, ⟨literal, before, after, part, hspells, hbefore, hafter, hpart, rfl⟩, hlacks,
    hset, by simp⟩

theorem readFieldsFrom_complete {first : Bool} {fields : List Field} {members : List Char}
    (h : Sequence Field.IsMember first fields members) (rest : List Char) {draft : Draft}
    (hlacks : ∀ field ∈ fields, draft.Lacks field) (hdistinct : Distinct fields) {fuel : Nat}
    (hfuel : fields.length < fuel) :
    readFieldsFrom fuel first draft (members ++ '\x7d' :: rest) =
      some (fields.foldl Draft.set draft, rest) := by
  induction h generalizing draft fuel with
  | @nil first gap h =>
    obtain ⟨fuel, rfl⟩ := Nat.exists_eq_add_one_of_ne_zero (Nat.ne_zero_of_lt hfuel)
    have hnext : next? first '\x7d' (gap ++ '\x7d' :: rest) = some (.done rest) :=
      next?_closing first .object h rest
    simp [readFieldsFrom, hnext]
  | @cons first separator member members field fields hseparator hmember hmembers ih =>
    obtain ⟨fuel, rfl⟩ := Nat.exists_eq_add_one_of_ne_zero (Nat.ne_zero_of_lt hfuel)
    obtain ⟨hfirst, hdistinct⟩ := List.pairwise_cons.mp hdistinct
    have hnext : next? first '\x7d' (separator ++ (member ++ (members ++ '\x7d' :: rest))) =
        some (.item (member ++ (members ++ '\x7d' :: rest))) :=
      next?_separated .object hseparator (hmember.begins.append _)
    have hends : Ends (members ++ '\x7d' :: rest) := hmembers.ends .object rest
    obtain ⟨_, _, hkey, hcolon, hfield⟩ := hmember.read (hlacks field List.mem_cons_self) hends
    have hlacksRest : ∀ later ∈ fields, (draft.set field).Lacks later := fun later hlater =>
      Draft.lacks_set_iff.mpr ⟨hlacks later (List.mem_cons_of_mem _ hlater), hfirst later hlater⟩
    have hrest := ih hlacksRest hdistinct (Nat.lt_of_succ_lt_succ hfuel)
    simp [readFieldsFrom, hnext, hkey, hcolon, hfield, hrest]

theorem readFieldsFrom_sound {fuel : Nat} {first : Bool} {draft draft' : Draft}
    {text rest : List Char} (h : readFieldsFrom fuel first draft text = some (draft', rest)) :
    ∃ fields members, Sequence Field.IsMember first fields members ∧
      text = members ++ '\x7d' :: rest ∧ (∀ field ∈ fields, draft.Lacks field) ∧
      Distinct fields ∧ draft' = fields.foldl Draft.set draft := by
  induction fuel generalizing first draft text with
  | zero => cases h
  | succ fuel ih =>
    obtain ⟨next, hnext, hread⟩ := Option.bind_eq_some_iff.mp h
    have hsplits : next.Splits first .object text := splits_of_next? hnext
    cases next with
    | done after =>
      cases hread
      obtain ⟨gap, hgap, rfl⟩ := hsplits
      exact ⟨[], gap, .nil hgap, rfl, by simp, .nil, rfl⟩
    | item tail =>
      obtain ⟨separator, hseparator, rfl⟩ := hsplits
      obtain ⟨⟨key, _⟩, hkey, hafterKey⟩ := Option.bind_eq_some_iff.mp hread
      obtain ⟨_, hcolon, hafterColon⟩ := Option.bind_eq_some_iff.mp hafterKey
      obtain ⟨⟨_, _⟩, hfield, hothers⟩ := Option.bind_eq_some_iff.mp hafterColon
      obtain ⟨field, member, hmember, hlacks, rfl, rfl⟩ := member_of_read hkey hcolon hfield
      obtain ⟨fields, members, hmembers, rfl, hrest, hdistinct, rfl⟩ := ih hothers
      have hlater : ∀ later ∈ fields, _ := fun later hmem =>
        Draft.lacks_set_iff.mp (hrest later hmem)
      refine ⟨field :: fields, _, .cons hseparator hmember hmembers, by simp, ?_, ?_, rfl⟩
      · exact List.forall_mem_cons.mpr ⟨hlacks, fun later hmem => (hlater later hmem).1⟩
      · exact .cons (fun later hmem => (hlater later hmem).2) hdistinct

-- ---------------------------------------------------------------------------
-- The list form
-- ---------------------------------------------------------------------------

/-- The fields left to read at the place, and the text behind the list. -/
def Place.Holds (fields : List Field) (rest : List Char) : Place → Prop
  | .inside first text =>
    ∃ values, Sequence Field.IsValue first fields values ∧ text = values ++ ']' :: rest
  | .behind after => fields = [] ∧ after = rest

/-- The next value: that of the first field, or the default if no field is left. -/
inductive Takes {α : Type} (field : α → Field) (default : α) :
    List Field → α → List Field → Prop where
  | next (value : α) (fields : List Field) :
    Takes field default (field value :: fields) value fields
  | default : Takes field default [] default []

section

variable {α : Type} {read : List Char → Option (α × List Char)} (field : α → Field)
  {default : α} {fields fields' : List Field} {value : α} {place place' : Place}
  {rest : List Char}

theorem readNext_complete (hreads : Reads read fun value => (field value).IsValue)
    (htakes : Takes field default fields value fields') (h : place.Holds fields rest) :
    ∃ place', readNext read default place = some (value, place') ∧ place'.Holds fields' rest := by
  cases place with
  | behind after =>
    obtain ⟨rfl, rfl⟩ := h
    cases htakes
    exact ⟨_, rfl, rfl, rfl⟩
  | inside first text =>
    obtain ⟨values, hvalues, rfl⟩ := h
    cases htakes with
    | default =>
      obtain ⟨hgap⟩ := hvalues
      have hnext : next? first ']' (values ++ ']' :: rest) = some (.done rest) :=
        next?_closing first .list hgap rest
      exact ⟨.behind rest, by simp [readNext, hnext], rfl, rfl⟩
    | next =>
      obtain _ | @⟨_, separator, text, values, _, _, hseparator, htext, hvalues⟩ := hvalues
      have hnext : next? first ']' (separator ++ (text ++ (values ++ ']' :: rest))) =
          some (.item (text ++ (values ++ ']' :: rest))) :=
        next?_separated .list hseparator ((hreads.begins htext).append _)
      exact ⟨.inside false (values ++ ']' :: rest),
        by simp [readNext, hnext, hreads.read_text htext], values, hvalues, rfl⟩

theorem readNext_sound (hreads : Reads read fun value => (field value).IsValue)
    (hread : readNext read default place = some (value, place')) (h : place'.Holds fields' rest) :
    ∃ fields, Takes field default fields value fields' ∧ place.Holds fields rest := by
  cases place with
  | behind after =>
    cases hread
    obtain ⟨rfl, rfl⟩ := h
    exact ⟨[], .default, rfl, rfl⟩
  | inside first text =>
    obtain ⟨next, hnext, hnextRead⟩ := Option.bind_eq_some_iff.mp hread
    have hsplits : next.Splits first .list text := splits_of_next? hnext
    cases next with
    | done after =>
      cases hnextRead
      obtain ⟨rfl, rfl⟩ := h
      obtain ⟨gap, hgap, rfl⟩ := hsplits
      exact ⟨[], .default, gap, .nil hgap, rfl⟩
    | item tail =>
      obtain ⟨separator, hseparator, rfl⟩ := hsplits
      obtain ⟨⟨_, _⟩, hvalue, hplace⟩ := Option.bind_eq_some_iff.mp hnextRead
      cases hplace
      obtain ⟨gap, part, hgap, hpart, rfl⟩ := hreads.sound hvalue
      obtain ⟨values, hvalues, rfl⟩ := h
      exact ⟨_, .next value fields', _, .cons (hseparator.append hgap) hpart hvalues, by simp⟩

end

theorem readEnd_iff {place : Place} {rest : List Char} :
    readEnd place = some rest ↔ place.Holds [] rest := by
  cases place with
  | behind after => simp [readEnd, Place.Holds]
  | inside first text =>
    constructor
    · intro h
      obtain ⟨next, hnext, hend⟩ := Option.bind_eq_some_iff.mp h
      have hsplits : next.Splits first .list text := splits_of_next? hnext
      cases next with
      | done after =>
        cases hend
        obtain ⟨gap, hgap, rfl⟩ := hsplits
        exact ⟨gap, .nil hgap, rfl⟩
      | item => cases hend
    · rintro ⟨gap, ⟨hgap⟩, rfl⟩
      have hnext : next? first ']' (gap ++ ']' :: rest) = some (.done rest) :=
        next?_closing first .list hgap rest
      simp [readEnd, hnext]

def Listing (fields : List Field) (request : Request) : Prop :=
  ∃ fields₁ fields₂ fields₃, Takes .quantity "" fields request.quantity fields₁ ∧
    Takes .unit "" fields₁ request.unit fields₂ ∧
    Takes .perAtom false fields₂ request.perAtom fields₃ ∧
    Takes .explicitGradients [] fields₃ request.explicitGradients []

theorem listing_iff {fields : List Field} {request : Request} :
    Listing fields request ↔
      (∃ full : Request, fields <+: full.fields) ∧ ofFields fields = request := by
  constructor
  · rintro ⟨_, _, _, hquantity, hunit, hperAtom, hexplicit⟩
    obtain ⟨quantity, unit, perAtom, explicitGradients⟩ := request
    refine ⟨⟨⟨quantity, unit, perAtom, explicitGradients⟩, ?_⟩, ?_⟩
    all_goals
      cases hquantity <;> cases hunit <;> cases hperAtom <;> cases hexplicit <;>
        simp [Request.fields, ofFields, Field.apply]
  · rintro ⟨⟨full, hprefix⟩, rfl⟩
    simp only [Request.fields, List.prefix_cons_iff, List.prefix_nil] at hprefix
    obtain rfl | ⟨_, rfl, rfl | ⟨_, rfl, rfl | ⟨_, rfl, rfl | ⟨_, rfl, rfl⟩⟩⟩⟩ := hprefix
    · exact ⟨_, _, _, .default, .default, .default, .default⟩
    · exact ⟨_, _, _, .next _ _, .default, .default, .default⟩
    · exact ⟨_, _, _, .next _ _, .next _ _, .default, .default⟩
    · exact ⟨_, _, _, .next _ _, .next _ _, .next _ _, .default⟩
    · exact ⟨_, _, _, .next _ _, .next _ _, .next _ _, .next _ _⟩

theorem readList_iff {text rest : List Char} {request : Request} :
    readList text = some (request, rest) ↔
      ∃ fields values, Listing fields request ∧ Sequence Field.IsValue true fields values ∧
        text = values ++ ']' :: rest := by
  constructor
  · intro h
    obtain ⟨⟨quantity, place₁⟩, hquantity, h₁⟩ := Option.bind_eq_some_iff.mp h
    obtain ⟨⟨unit, place₂⟩, hunit, h₂⟩ := Option.bind_eq_some_iff.mp h₁
    obtain ⟨⟨perAtom, place₃⟩, hperAtom, h₃⟩ := Option.bind_eq_some_iff.mp h₂
    obtain ⟨⟨explicitGradients, place₄⟩, hexplicit, h₄⟩ := Option.bind_eq_some_iff.mp h₃
    obtain ⟨_, hend, h₅⟩ := Option.bind_eq_some_iff.mp h₄
    cases h₅
    obtain ⟨_, htakes₄, hholds₃⟩ :=
      readNext_sound Field.explicitGradients reads_texts hexplicit (readEnd_iff.mp hend)
    obtain ⟨_, htakes₃, hholds₂⟩ := readNext_sound Field.perAtom reads_bool hperAtom hholds₃
    obtain ⟨_, htakes₂, hholds₁⟩ := readNext_sound Field.unit reads_text hunit hholds₂
    obtain ⟨fields, htakes₁, values, hvalues, htext⟩ :=
      readNext_sound Field.quantity reads_text hquantity hholds₁
    exact ⟨fields, values, ⟨_, _, _, htakes₁, htakes₂, htakes₃, htakes₄⟩, hvalues, htext⟩
  · rintro ⟨fields, values, ⟨_, _, _, htakes₁, htakes₂, htakes₃, htakes₄⟩, hvalues, rfl⟩
    have hholds : (Place.inside true (values ++ ']' :: rest)).Holds fields rest :=
      ⟨values, hvalues, rfl⟩
    obtain ⟨_, hquantity, hholds₁⟩ := readNext_complete Field.quantity reads_text htakes₁ hholds
    obtain ⟨_, hunit, hholds₂⟩ := readNext_complete Field.unit reads_text htakes₂ hholds₁
    obtain ⟨_, hperAtom, hholds₃⟩ := readNext_complete Field.perAtom reads_bool htakes₃ hholds₂
    obtain ⟨_, hexplicit, hholds₄⟩ :=
      readNext_complete Field.explicitGradients reads_texts htakes₄ hholds₃
    simp [readList, hquantity, hunit, hperAtom, hexplicit, readEnd_iff.mpr hholds₄]

end BlockTensor.Output.Request
