import BlockTensor.Output.Request
import BlockTensor.Proofs.Output.RequestForms

/-!
# Texts of requests

`IsText` is the grammar of the texts of requests and says which request each of them
has; `parse_iff` that reading accepts these texts and no others. What is written is one
of the texts of its request, so reading gives the request back.
-/

namespace BlockTensor.Output.Request

open Json

-- ---------------------------------------------------------------------------
-- The accepted texts
-- ---------------------------------------------------------------------------

inductive IsBody : Request → List Char → Prop where
  | object {fields : List Field} {members : List Char} (hdistinct : Distinct fields)
    (h : Sequence Field.IsMember true fields members) :
    IsBody (ofFields fields) ('\x7b' :: members ++ ['\x7d'])
  | list {fields : List Field} {values : List Char}
    (hordered : ∃ full : Request, fields <+: full.fields)
    (h : Sequence Field.IsValue true fields values) :
    IsBody (ofFields fields) ('[' :: values ++ [']'])

def IsText (request : Request) (text : List Char) : Prop :=
  ∃ before body after, IsBlanks before ∧ IsBody request body ∧ IsBlanks after ∧
    text = before ++ (body ++ after)

theorem IsBody.begins {request : Request} {body : List Char} (h : IsBody request body) :
    Begins body := by
  cases h with
  | object => exact ⟨_, _, rfl, Frame.object.opening_solid⟩
  | list => exact ⟨_, _, rfl, Frame.list.opening_solid⟩

def readBody : List Char → Option (Request × List Char)
  | '\x7b' :: rest =>
    (readFieldsFrom (rest.length + 1) true {} rest).map fun (draft, rest) => (ofDraft draft, rest)
  | '[' :: rest => readList rest
  | _ => none

theorem parse_eq (text : String) :
    parse text = (readBody (skipBlanks text.toList)).bind fun (request, rest) =>
      if skipBlanks rest = [] then some request else none := by
  rw [parse]
  generalize skipBlanks text.toList = body
  fun_cases readBody body with
  | case1 rest =>
    rw [Option.map_eq_bind, Option.bind_assoc]
    rfl
  | case2 => rfl
  | case3 => simp_all

theorem readBody_complete {request : Request} {body : List Char} (h : IsBody request body)
    (rest : List Char) : readBody (body ++ rest) = some (request, rest) := by
  cases h with
  | @object fields members hdistinct hmembers =>
    have hlength := hmembers.length_le fun _ _ => Field.IsMember.begins
    have hfuel : fields.length < (members ++ '\x7d' :: rest).length + 1 := by
      simp only [List.length_append]
      omega
    have hlacks : ∀ field ∈ fields, Draft.Lacks {} field := fun field _ => by
      cases field <;> trivial
    have hread := readFieldsFrom_complete hmembers rest hlacks hdistinct hfuel
    simp only [List.cons_append, List.append_assoc, List.nil_append, readBody]
    rw [hread, Option.map_some, ofDraft_foldl]
    rfl
  | list hordered hvalues =>
    simp only [List.cons_append, List.append_assoc, List.nil_append, readBody]
    exact readList_iff.mpr ⟨_, _, listing_iff.mpr ⟨hordered, rfl⟩, hvalues, rfl⟩

theorem readBody_sound {request : Request} {text rest : List Char}
    (h : readBody text = some (request, rest)) :
    ∃ body, IsBody request body ∧ text = body ++ rest := by
  unfold readBody at h
  split at h
  · obtain ⟨⟨draft, _⟩, hread, h⟩ := Option.map_eq_some_iff.mp h
    cases h
    obtain ⟨fields, members, hmembers, rfl, -, hdistinct, rfl⟩ := readFieldsFrom_sound hread
    rw [ofDraft_foldl]
    exact ⟨_, .object hdistinct hmembers, by simp⟩
  · obtain ⟨fields, values, hlisting, hvalues, rfl⟩ := readList_iff.mp h
    obtain ⟨hordered, rfl⟩ := listing_iff.mp hlisting
    exact ⟨_, .list hordered hvalues, by simp⟩
  · cases h

theorem parse_iff {text : String} {request : Request} :
    parse text = some request ↔ IsText request text.toList := by
  rw [parse_eq]
  constructor
  · intro h
    obtain ⟨⟨_, after⟩, hread, hend⟩ := Option.bind_eq_some_iff.mp h
    dsimp only at hend
    split_ifs at hend with hafter
    cases hend
    obtain ⟨before, hbefore, htext⟩ := exists_blanks text.toList
    obtain ⟨body, hbody, hsplit⟩ := readBody_sound hread
    exact ⟨before, body, after, hbefore, hbody, skipBlanks_eq_nil_iff.mp hafter, hsplit ▸ htext⟩
  · rintro ⟨before, body, after, hbefore, hbody, hafter, htext⟩
    rw [htext, hbefore.skip (hbody.begins.append after), readBody_complete hbody]
    simp [skipBlanks_eq_nil_iff.mpr hafter]

-- ---------------------------------------------------------------------------
-- The written text
-- ---------------------------------------------------------------------------

theorem spells_writeText (text : String) : Spells text.toList (writeText text) :=
  spells_encode text.toList

theorem sequence_writeTexts (texts : List String) :
    Sequence (fun text literal => Spells text.toList literal) false texts
      (texts.flatMap fun text => ',' :: writeText text) := by
  induction texts with
  | nil => exact .nil .nil
  | cons text texts ih => exact .cons (.comma .nil .nil) (spells_writeText text) ih

theorem isTexts_writeTexts (texts : List String) : IsTexts texts (writeTexts texts) := by
  cases texts with
  | nil => exact ⟨[], .nil .nil, rfl⟩
  | cons first rest =>
    exact ⟨_, .cons (.opening .nil) (spells_writeText first) (sequence_writeTexts rest), rfl⟩

theorem isMember_writeKey (field : Field) {value : List Char} (h : field.IsValue value) :
    field.IsMember (writeKey field.key ++ value) :=
  ⟨writeText field.key, [], [], value, spells_writeText field.key, .nil, .nil, h,
    by simp [writeKey]⟩

theorem distinct_fields (request : Request) : Distinct request.fields := by
  simp [Distinct, fields, Field.key]

theorem isText_write (request : Request) : IsText request (write request).toList := by
  have hquantity :=
    isMember_writeKey (.quantity request.quantity) (spells_writeText request.quantity)
  have hunit := isMember_writeKey (.unit request.unit) (spells_writeText request.unit)
  have hperAtom := isMember_writeKey (.perAtom request.perAtom) rfl
  have hexplicit := isMember_writeKey (.explicitGradients request.explicitGradients)
    (isTexts_writeTexts request.explicitGradients)
  have hcomma : Separator false ([] ++ [',']) := .comma .nil .nil
  have hmembers := Sequence.cons (.opening .nil) hquantity <| .cons hcomma hunit <|
    .cons hcomma hperAtom <| .cons hcomma hexplicit <| .nil .nil
  have hbody := IsBody.object (distinct_fields request) hmembers
  rw [ofFields_fields] at hbody
  refine ⟨[], _, [], .nil, hbody, .nil, ?_⟩
  simp [write, Field.key]

theorem parse_write (request : Request) : parse (write request) = some request :=
  parse_iff.mpr (isText_write request)

/-- A written request is read back, whatever characters its texts have. So what is read
from any text is written once and for all: reading it again and writing it again change
nothing. The texts that are read are those of the grammar: the fields of an object in any
order, some of them missing, others with any value between them, or a list of the fields
in order. -/
theorem text_laws :
    (∀ request, parse (write request) = some request) ∧
      (∀ text, ((parse text).map write).bind parse = parse text ∧
        (((parse text).map write).bind parse).map write = (parse text).map write) ∧
      ∀ text request, parse text = some request ↔ IsText request text.toList := by
  have hstable : ∀ text, ((parse text).map write).bind parse = parse text := by
    intro text
    cases parse text with
    | none => rfl
    | some request => rw [Option.map_some, Option.bind_some, parse_write]
  refine ⟨parse_write, fun text => ⟨hstable text, ?_⟩, fun text request => parse_iff⟩
  rw [hstable text]

example :
    parse "\x7b\"unit\":\"\\ud83d\\ude00\", \"x\":[\x7b\"y\":[1.5e-3]\x7d], \"per_atom\":true\x7d" =
      some { unit := "😀", perAtom := true } := by
  decide +kernel

end BlockTensor.Output.Request
