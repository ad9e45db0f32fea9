import BlockTensor.Proofs.Array.Picked
import BlockTensor.Proofs.Projections
import BlockTensor.Proofs.Split.Renumbering

/-!
# Parts of valid blocks

`Block.cut` is what is left of a block at some positions of an axis: the array
and the labels there and, of every gradient, the columns or the rows that follow
them. Along samples the kept samples are numbered anew, for which there may be at
most `2 ^ 31` of them. A part of a valid block is the cut at the kept positions
(`part_ok`), so every group whose names are on the axis has one (`part_eq`).
-/

namespace BlockTensor

-- ---------------------------------------------------------------------------
-- Labels
-- ---------------------------------------------------------------------------

namespace Labels

def picked (positions : List Nat) (labels : Labels) : Labels :=
  ⟨⟨labels.names, pick positions labels.entries⟩⟩

def renumbered (kept : List Nat) (labels : Labels) : Labels :=
  ⟨⟨labels.names, labels.entries.filterMap (renumber (numbered kept))⟩⟩

section
variable {labels : Labels} {positions : List Nat}
  (hpositions : positions.Sublist (List.range labels.length))
include hpositions

theorem length_picked : (labels.picked positions).length = positions.length :=
  length_pick fun _ hmem => List.mem_range.mp (hpositions.subset hmem)

theorem picked_valid (h : labels.Valid) : (labels.picked positions).Valid :=
  ⟨⟨h.rows.names, fun entry hmem => h.rows.arity entry (mem_of_mem_pick hmem)⟩,
    h.distinct.sublist (pick_sublist hpositions)⟩

theorem entriesAt_eq (h : labels.Valid) :
    labels.entriesAt positions = .ok (labels.picked positions) :=
  ofFlat_flat (picked_valid hpositions h)

end

end Labels

-- ---------------------------------------------------------------------------
-- Arrays
-- ---------------------------------------------------------------------------

namespace AxesFit

variable {a : Values} {samples kept : Labels} {components : List Labels} {properties : Labels}
  {positions : List Nat} (h : AxesFit a.shape samples components properties)
include h

theorem shape_first : a.shape = [] ++ samples.length :: (components.map (fun c => c.length) ++
    [properties.length]) := h.shape

theorem last_eq :
    a.shape.length - 1 = (samples.length :: components.map fun c => c.length).length := by
  rw [h.shape, List.length_append, List.length_singleton, Nat.add_sub_cancel]

theorem select_first (ha : a.Valid) (hpositions : positions.Sublist (List.range samples.length)) :
    a.select 0 positions = .ok (a.picked 0 positions) :=
  Values.select_eq ha (fun i hmem => List.mem_range.mp (hpositions.subset hmem))
    (by simpa using hpositions.length_le) h.shape_first

theorem select_last (ha : a.Valid) (hpositions : positions.Sublist (List.range properties.length)) :
    a.keepLast positions = .ok (a.picked (a.shape.length - 1) positions) := by
  rw [Values.keepLast, h.last_eq]
  exact Values.select_eq ha (fun i hmem => List.mem_range.mp (hpositions.subset hmem))
    (by simpa using hpositions.length_le) h.shape

theorem picked_first (hkept : positions.length = kept.length) :
    AxesFit (a.picked 0 positions).shape kept components properties := by
  refine ⟨?_, h.componentNames⟩
  rw [Values.shape_picked, h.shape, List.cons_append, List.set_cons_zero, hkept, List.cons_append]

theorem picked_last (hkept : positions.length = kept.length) :
    AxesFit (a.picked (a.shape.length - 1) positions).shape samples components kept := by
  refine ⟨?_, h.componentNames⟩
  rw [Values.shape_picked, h.last_eq, h.shape, List.set_append_right _ _ (Nat.le_refl _),
    Nat.sub_self, hkept]
  rfl

end AxesFit

-- ---------------------------------------------------------------------------
-- Gradients
-- ---------------------------------------------------------------------------

namespace Gradients

def map (f : Block → Block) : Gradients → Gradients
  | nil => nil
  | cons parameter gradient rest => cons parameter (f gradient) (rest.map f)

variable (f : Block → Block) (gradients : Gradients)

theorem toList_map : (gradients.map f).toList =
    gradients.toList.map fun item => (item.1, f item.2) := by
  induction gradients with
  | nil => rfl
  | cons _ _ _ ih => rw [map, toList, toList, List.map_cons, ih]

theorem parameters_map : (gradients.map f).parameters = gradients.parameters := by
  induction gradients with
  | nil => rfl
  | cons _ _ _ ih => rw [map, parameters, parameters, ih]

theorem find?_map (parameter : String) :
    (gradients.map f).find? parameter = (gradients.find? parameter).map f := by
  induction gradients with
  | nil => rfl
  | cons key gradient rest ih =>
    simp only [map, find?]
    split
    · rfl
    · exact ih

theorem rebuilds_map {ε : Type} {f : Block → Block} {gradients : Gradients}
    {g : String × Block → Except ε Block}
    (h : ∀ item ∈ gradients.toList, g item = .ok (f item.2)) :
    List.Forall₂ (Block.Rebuilds g) gradients.toList (gradients.map f).toList := by
  rw [toList_map, List.forall₂_map_right_iff, List.forall₂_same]
  exact fun item hmem => ⟨rfl, h item hmem⟩

end Gradients

def Axis.kept (axis : Axis) (group : Labels) (block : Block) : List Nat :=
  positionsWhere ((axis.labels block).keeps group) (axis.labels block).entries

namespace Block

theorem Valid.assemble_map {block : Block} (h : block.Valid) {values : Values} {samples : Labels}
    {components : List Labels} {properties : Labels} {f : Block → Block}
    (haxes : AxesFit values.shape samples components properties)
    (hfits : ∀ item ∈ block.gradients.toList,
      Fits ⟨values, samples, components, properties, .nil⟩ (f item.2)) :
    Block.assemble values samples components properties (block.gradients.map f).toList =
      .ok ⟨values, samples, components, properties, block.gradients.map f⟩ := by
  obtain ⟨-, hdistinct, hreserved, -⟩ := valid_iff.mp h
  rw [← block.gradients.parameters_map f, Gradients.parameters_eq_map_toList]
    at hdistinct hreserved
  refine assemble_ok.mpr ⟨haxes, ⟨hdistinct, hreserved, fun _ _ => List.not_mem_nil,
    fun new hmem => ?_⟩, by rw [Gradients.ofList_toList]⟩
  rw [Gradients.toList_map] at hmem
  obtain ⟨item, hitem, rfl⟩ := List.mem_map.mp hmem
  exact hfits item hitem

-- ---------------------------------------------------------------------------
-- Cuts
-- ---------------------------------------------------------------------------

def keptRows (kept : List Nat) (gradient : Block) : List Nat :=
  positionsWhere (fun entry => (renumber (numbered kept) entry).isSome) gradient.samples.entries

/-- What is left of a gradient when its parent is cut; its own gradients go. -/
def cutGradient (axis : Axis) (kept : List Nat) (gradient : Block) : Block :=
  match axis with
  | .samples => ⟨gradient.values.picked 0 (gradient.keptRows kept),
      gradient.samples.renumbered kept, gradient.components, gradient.properties, .nil⟩
  | .properties => ⟨gradient.values.picked (gradient.values.shape.length - 1) kept,
      gradient.samples, gradient.components, gradient.properties.picked kept, .nil⟩

def cut (axis : Axis) (kept : List Nat) (block : Block) : Block :=
  match axis with
  | .samples => ⟨block.values.picked 0 kept, block.samples.picked kept, block.components,
      block.properties, block.gradients.map (cutGradient .samples kept)⟩
  | .properties => ⟨block.values.picked (block.values.shape.length - 1) kept, block.samples,
      block.components, block.properties.picked kept,
      block.gradients.map (cutGradient .properties kept)⟩

theorem gradients_cut (axis : Axis) (kept : List Nat) (block : Block) :
    (block.cut axis kept).gradients = block.gradients.map (cutGradient axis kept) := by
  cases axis <;> rfl

theorem cutGradient_valid {block : Block} {axis : Axis} {kept : List Nat}
    (h : (block.cut axis kept).Valid) {item : String × Block}
    (hmem : item ∈ block.gradients.toList) : (item.2.cutGradient axis kept).Valid := by
  have hnew : (item.1, item.2.cutGradient axis kept) ∈ (block.cut axis kept).gradients.toList := by
    rw [gradients_cut, Gradients.toList_map]
    exact List.mem_map_of_mem hmem
  exact (h.gradient hnew).2

section
variable {block parent gradient result : Block} {kept : List Nat}

theorem keptRows_sublist (kept : List Nat) (gradient : Block) :
    (gradient.keptRows kept).Sublist (List.range gradient.samples.length) :=
  positionsWhere_sublist _ _

theorem length_keptRows (kept : List Nat) (gradient : Block) :
    (gradient.keptRows kept).length = (gradient.samples.renumbered kept).length := by
  rw [keptRows, ← length_filterMap]
  rfl

theorem keepGradientSamples_eq (hgradient : gradient.Valid) (hfits : parent.Fits gradient)
    (hcount : kept.length ≤ 0x80000000) :
    gradient.keepGradientSamples (numbered kept) parent.properties =
      .ok (gradient.cutGradient .samples kept) := by
  have own := hgradient.labelled
  refine keepGradientSamples_ok.mpr ⟨_, _,
    Labels.ofFlat_flat (renumbered_valid hcount own.samples hfits.samples),
    own.axes.select_first own.values (keptRows_sublist kept gradient), ?_,
    by rw [← hfits.properties]; rfl⟩
  exact hfits.properties ▸ own.axes.picked_first (length_keptRows kept gradient)

theorem keepSamples_eq (hblock : block.Valid)
    (hkept : kept.Sublist (List.range block.samples.length)) (hcount : kept.length ≤ 0x80000000) :
    block.keepSamples kept = .ok (block.cut .samples kept) := by
  have own := hblock.labelled
  have hlength := (Labels.length_picked hkept).symm
  have hitems := Gradients.rebuilds_map fun item hmem => keepGradientSamples_eq
    (hblock.gradient hmem).2 (hblock.gradient hmem).1 hcount
  refine keepSamples_ok.mpr ⟨_, _, _, _, Labels.entriesAt_eq hkept own.samples,
    own.axes.select_first own.values hkept, renumbering_ok.mpr ⟨hcount, rfl⟩, hitems,
    hblock.assemble_map (own.axes.picked_first hlength) fun item hmem => ?_⟩
  obtain ⟨hfits, -⟩ := hblock.gradient hmem
  refine ⟨by simpa [cutGradient] using hfits.dtype, hfits.firstName, fun entry hentry => ?_,
    hfits.properties, hfits.components⟩
  obtain ⟨old, hold, hnew⟩ := List.mem_filterMap.mp hentry
  have hne : old ≠ [] := by
    rintro rfl
    cases hnew
  rw [renumber_eq hne, Option.map_eq_some_iff] at hnew
  obtain ⟨new, hposition, rfl⟩ := hnew
  obtain ⟨hlt, -⟩ := List.idxOf?_eq_some_iff.mp hposition
  rw [← hlength]
  exact isSampleIndex_ofNat hcount hlt

theorem keepProperties_eq (hblock : block.Valid)
    (hkept : kept.Sublist (List.range block.properties.length)) :
    block.keepProperties kept = .ok (block.cut .properties kept) := by
  have own := hblock.labelled
  have hlength := (Labels.length_picked hkept).symm
  have hitems : List.Forall₂ (Rebuilds fun item =>
      item.2.keepGradientProperties kept (block.properties.picked kept)) block.gradients.toList
      (block.gradients.map (cutGradient .properties kept)).toList := by
    refine Gradients.rebuilds_map fun item hmem => ?_
    obtain ⟨hfits, hgradient⟩ := hblock.gradient hmem
    have haxes := hfits.properties ▸ hgradient.labelled.axes
    exact keepGradientProperties_ok.mpr ⟨_, haxes.select_last hgradient.labelled.values hkept,
      haxes.picked_last hlength, by rw [← hfits.properties]; rfl⟩
  refine keepProperties_ok.mpr ⟨_, _, _, Labels.entriesAt_eq hkept own.properties,
    own.axes.select_last own.values hkept, hitems,
    hblock.assemble_map (own.axes.picked_last hlength) fun item hmem => ?_⟩
  obtain ⟨hfits, -⟩ := hblock.gradient hmem
  exact ⟨by simpa [cutGradient] using hfits.dtype, hfits.firstName, hfits.samples,
    congrArg (Labels.picked kept) hfits.properties, hfits.components⟩

end

-- ---------------------------------------------------------------------------
-- Parts
-- ---------------------------------------------------------------------------

section
variable {block part : Block} {axis : Axis} {group : Labels}

theorem part_ok (hblock : block.Valid) : block.part axis group = .ok part ↔ ∃ kept,
    keptPositions axis (axis.labels block) group = .ok kept ∧
      (axis = .samples → kept.length ≤ 0x80000000) ∧ part = block.cut axis kept := by
  simp only [Block.part, bind_ok]
  refine exists_congr fun kept => and_congr_right fun hkept => ?_
  have hsublist := keptPositions_sublist hkept
  cases axis with
  | samples =>
    constructor
    · intro h
      obtain ⟨_, _, numbering, _, -, -, hnumbering, -⟩ := keepSamples_ok.mp h
      have hcount := (renumbering_ok.mp hnumbering).1
      exact ⟨fun _ => hcount, Except.ok.inj (h.symm.trans (keepSamples_eq hblock hsublist hcount))⟩
    · rintro ⟨hcount, rfl⟩
      exact keepSamples_eq hblock hsublist (hcount rfl)
  | properties =>
    have hcut := keepProperties_eq hblock hsublist
    exact ⟨fun h => ⟨nofun, Except.ok.inj (h.symm.trans hcut)⟩, fun h => h.2 ▸ hcut⟩

section
variable (hblock : block.Valid) (hgroup : Labels.ValidNames group.names)
  (hnames : group.names ⊆ (axis.labels block).names)
include hblock hgroup hnames

theorem part_kept : block.part axis group = .ok part ↔
    (axis = .samples → (axis.kept group block).length ≤ 0x80000000) ∧
      part = block.cut axis (axis.kept group block) := by
  have hkept := keptPositions_ok axis hgroup hnames
  rw [part_ok hblock, hkept]
  constructor
  · rintro ⟨_, ⟨rfl⟩, h⟩
    exact h
  · exact fun h => ⟨_, rfl, h⟩

theorem part_eq (hcount : block.samples.length ≤ 0x80000000) :
    block.part axis group = .ok (block.cut axis (axis.kept group block)) := by
  refine (part_kept hblock hgroup hnames).mpr ⟨?_, rfl⟩
  rintro rfl
  exact Nat.le_trans (length_positionsWhere .. ▸ List.length_filter_le ..) hcount

end

end

end Block

end BlockTensor
