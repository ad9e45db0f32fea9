import BlockTensor.Proofs.Layer.Split
import BlockTensor.Proofs.Lookups

/-!
# Keyed layers work on each key alone

Layers are found through the index of their keys, blocks stand beside the keys
of the tensor, and the two lists of keys need not have one order. `forward_local`
says that this does no harm: the block of a key in the result depends on the
block of that key and on what is assigned to the key, and on nothing else.
-/

namespace BlockTensor

namespace KeyedLayers

def assignments (map : KeyedLayers) : List (Entry × Assignment) :=
  map.keys.entries.zip <|
    match map.properties with
    | none => map.layers.map fun layer => ⟨layer, none⟩
    | some given => map.layers.zipWith (fun layer properties => ⟨layer, some properties⟩) given

section
variable {map : KeyedLayers}

theorem find?_eq_some_iff (hmap : map.keys.Valid) {key : Entry} {assigned : Assignment} :
    map.find? key = some assigned ↔ (key, assigned) ∈ map.assignments := by
  simp only [find?, assignments, List.mem_iff_getElem?, List.getElem?_zip_eq_some,
    ← Labels.position?_eq_some_iff hmap.distinct, Option.bind_eq_bind, Option.bind_eq_some_iff]
  refine exists_congr fun i => and_congr_right fun _ => ?_
  cases map.properties with
  | none => simp
  | some given => simp [List.getElem?_zipWith_eq_some, Option.bind_eq_some_iff]

theorem keys_forward {tensor result : Tensor} (h : map.forward tensor = .ok result) :
    result.keys = tensor.keys := by
  obtain ⟨-, _, -, -, -, rfl⟩ := forward_ok.mp h
  rfl

theorem exists_image {tensor result : Tensor} (htensor : tensor.Valid)
    (h : map.forward tensor = .ok result) {key : Entry} {block : Block}
    (hmem : (key, block) ∈ tensor.items) :
    ∃ image, map.forwardItem (key, block) = .ok image ∧ (key, image) ∈ result.items := by
  obtain ⟨-, images, himages, -, -, rfl⟩ := forward_ok.mp h
  obtain ⟨image, hpair⟩ := exists_mem_zip_of_forall₂ himages hmem
  refine ⟨image, (List.forall₂_iff_zip.mp himages).2 hpair, ?_⟩
  show (key, image) ∈ tensor.keys.entries.zip images
  rw [← Tensor.map_fst_items htensor, List.zip_map_left]
  exact List.mem_map.mpr ⟨_, hpair, rfl⟩

theorem blockOf_forward (hmap : map.keys.Valid) {tensor result : Tensor} (htensor : tensor.Valid)
    (h : map.forward tensor = .ok result) {key : Entry} {block : Block} {assigned : Assignment}
    (hblock : tensor.blockOf key = .ok block) (hassigned : (key, assigned) ∈ map.assignments) :
    ∃ image, assigned.forward block = .ok image ∧ result.blockOf key = .ok image := by
  have hkeys : result.keys.Valid := by
    rw [keys_forward h]
    exact htensor.keys
  have hitem := (Tensor.blockOf_ok htensor.keys).mp hblock
  obtain ⟨image, himage, hmem⟩ := exists_image htensor h hitem
  obtain ⟨found, hfind, himage⟩ := forwardItem_ok.mp himage
  rw [(find?_eq_some_iff hmap).mpr hassigned] at hfind
  cases hfind
  exact ⟨image, himage, (Tensor.blockOf_ok hkeys).mpr hmem⟩

end

/-- Look-ups do not see the order of the keys. -/
theorem forward_of_perm {left right : KeyedLayers} (hleft : left.keys.Valid)
    (hright : right.keys.Valid) (hnames : left.keys.names = right.keys.names)
    (h : left.assignments.Perm right.assignments) : left.forward = right.forward := by
  have hfind (key : Entry) : left.find? key = right.find? key := by
    refine Option.ext fun assigned => ?_
    rw [find?_eq_some_iff hleft, find?_eq_some_iff hright, h.mem_iff]
  have hitem : left.forwardItem = right.forwardItem := by
    funext ⟨key, block⟩
    simp only [forwardItem, hfind]
  funext tensor
  simp only [forward, hnames, hitem]

/-- A key with the same block and the same assignment has the same image, whatever
else the two tensors and the two maps hold and in whatever order. -/
theorem forward_local {left right : KeyedLayers} (hleft : left.keys.Valid)
    (hright : right.keys.Valid) :
    (∀ tensor other result result' : Tensor, tensor.Valid → other.Valid →
      left.forward tensor = .ok result → right.forward other = .ok result' →
      ∀ key block assigned, tensor.blockOf key = .ok block → other.blockOf key = .ok block →
        (key, assigned) ∈ left.assignments → (key, assigned) ∈ right.assignments →
        ∃ image, result.blockOf key = .ok image ∧ result'.blockOf key = .ok image) ∧
    (left.keys.names = right.keys.names → left.assignments.Perm right.assignments →
      left.forward = right.forward) ∧
    ∀ tensor result : Tensor, left.forward tensor = .ok result → result.keys = tensor.keys := by
  refine ⟨?_, forward_of_perm hleft hright, fun _ _ => keys_forward⟩
  intro tensor other result result' htensor hother hresult hresult' key block assigned hblock
    hblock' hassigned hassigned'
  obtain ⟨image, himage, hfound⟩ := blockOf_forward hleft htensor hresult hblock hassigned
  obtain ⟨image', himage', hfound'⟩ := blockOf_forward hright hother hresult' hblock' hassigned'
  cases himage.symm.trans himage'
  exact ⟨image, hfound, hfound'⟩

def labelled (value : LabelValue) : Labels := ⟨["p"], [[value]]⟩

def keyedThree : KeyedLayers :=
  ⟨⟨["key"], [[3], [-1]]⟩, [.logistic, .chain []], some [labelled 7, labelled 8]⟩

/-- Both keys of `keyedThree` with what is assigned to them, the other way round. -/
def keyedSwapped : KeyedLayers :=
  ⟨⟨["key"], [[-1], [3]]⟩, [.chain [], .logistic], some [labelled 8, labelled 7]⟩

/-- The layer of the key 3 in another place, and another one for the key -1. -/
def keyedElsewhere : KeyedLayers :=
  ⟨⟨["key"], [[5], [-1], [3]]⟩, [.chain [], .logistic, .logistic],
    some [labelled 8, labelled 9, labelled 7]⟩

def twoColumnsElsewhere : Tensor :=
  ⟨⟨["key"], [[-1], [3]]⟩, [flatColumn [], flatColumn [.one, .zero]]⟩

theorem forward_local_elsewhere : ∃ result result' image,
    keyedThree.forward twoColumns = .ok result ∧
    keyedElsewhere.forward twoColumnsElsewhere = .ok result' ∧
    twoColumns.blockOf [3] = .ok (flatColumn [.one, .zero]) ∧
    twoColumnsElsewhere.blockOf [3] = .ok (flatColumn [.one, .zero]) ∧
    result.blockOf [3] = .ok image ∧ result'.blockOf [3] = .ok image ∧
    keyedThree.forward = keyedSwapped.forward := by
  have hleft : keyedThree.keys.Valid :=
    (Labels.ofEntries_ok.mp (show Labels.ofEntries ["key"] [[3], [-1]] = .ok _ from rfl)).1
  have hright : keyedElsewhere.keys.Valid :=
    (Labels.ofEntries_ok.mp (show Labels.ofEntries ["key"] [[5], [-1], [3]] = .ok _ from rfl)).1
  have hswapped : keyedSwapped.keys.Valid :=
    (Labels.ofEntries_ok.mp (show Labels.ofEntries ["key"] [[-1], [3]] = .ok _ from rfl)).1
  have htensor : twoColumns.Valid := Archive.valid_of_record rfl
  have hother : twoColumnsElsewhere.Valid := Archive.valid_of_record rfl
  have hresult : keyedThree.forward twoColumns = .ok _ := rfl
  have hresult' : keyedElsewhere.forward twoColumnsElsewhere = .ok _ := rfl
  obtain ⟨hlocal, -, -⟩ := forward_local hleft hright
  obtain ⟨image, hfound, hfound'⟩ := hlocal _ _ _ _ htensor hother hresult hresult' [3] _
    ⟨.logistic, some (labelled 7)⟩ rfl rfl (by simp [keyedThree, assignments])
    (by simp [keyedElsewhere, assignments])
  obtain ⟨-, hperm, -⟩ := forward_local hleft hswapped
  exact ⟨_, _, image, hresult, hresult', rfl, rfl, hfound, hfound',
    hperm rfl (List.Perm.swap _ _ _)⟩

end KeyedLayers

end BlockTensor
