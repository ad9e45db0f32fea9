import BlockTensor.Proofs.Archive.RoundTrip
import BlockTensor.Proofs.Output.Contract

/-!
# Element types of checked outputs

Attaching a gradient compares its element type with that of its parent, so a
valid block has one element type at every depth. Nothing compares the blocks of
a tensor with each other, and the check looks at the first one. So an output
that passes has the expected type throughout exactly when its blocks share a
type. A standard output has a single block, and always has it.
-/

namespace BlockTensor

theorem Block.Valid.hasDType_iff {dtype : DType} {block : Block} (h : block.Valid) :
    block.HasDType dtype ↔ block.values.dtype = dtype := by
  induction block with
  | step block ih =>
    rw [Block.hasDType_iff]
    refine ⟨fun hall => hall.1, fun hvalues => ⟨hvalues, fun item hmem => ?_⟩⟩
    obtain ⟨hfits, hvalid⟩ := h.gradient hmem
    exact (ih item hmem hvalid).mpr (hfits.dtype.trans hvalues)

def Tensor.OneDType (tensor : Tensor) : Prop :=
  ∀ left ∈ tensor.blocks, ∀ right ∈ tensor.blocks, left.values.dtype = right.values.dtype

namespace Output

variable {counts : List Nat} {requested : Named Request} {selected : Option Labels}
  {outputs : Named Tensor} {expected : DType}

theorem keys_of_checkLayout {kind : Kind} {request : Request} {output : Tensor}
    (h : checkLayout kind counts request selected output = .ok ()) : output.keys = .single := by
  simp only [checkLayout, bind_ok, ensure_ok] at h
  obtain ⟨_, hkeys, _⟩ := h
  exact hkeys

/-- What the check has looked at in an output that passes: its first block and,
as the output is requested, the layout that its name stands for. -/
theorem first_and_layout_of_check {name : String} {output : Tensor}
    (h : check counts requested selected outputs expected = .ok ())
    (houtput : outputs.find? name = some output) :
    (∀ first rest, output.blocks = first :: rest → first.values.dtype = expected) ∧
      ∃ request, (Kind.ofName name).isStandard = true →
        checkLayout (Kind.ofName name) counts request selected output = .ok () := by
  simp only [check, bind_ok, forM_ok, checkProduced_ok, checkRequested_ok] at h
  obtain ⟨_, hproduced, hrequested⟩ := h
  obtain ⟨hname, hfirst⟩ := hproduced _ (Named.find?_eq_some_iff.mp houtput)
  obtain ⟨request, hrequest⟩ := Named.contains_iff.mp hname
  obtain ⟨found, hfound, hlayout⟩ := hrequested _ (Named.find?_eq_some_iff.mp hrequest)
  obtain rfl := Option.some.inj (hfound.symm.trans houtput)
  exact ⟨hfirst, request, hlayout⟩

theorem oneDType_of_single {output : Tensor} (h : output.Valid) (hkeys : output.keys = .single) :
    output.OneDType := by
  obtain ⟨only, honly⟩ := blocks_of_single h hkeys
  intro left hleft right hright
  rw [honly, List.mem_singleton] at hleft hright
  rw [hleft, hright]

theorem hasDType_of_check (h : check counts requested selected outputs expected = .ok ())
    {name : String} {output : Tensor} (houtput : outputs.find? name = some output)
    (hvalid : output.Valid) :
    (∀ first rest, output.blocks = first :: rest → first.HasDType expected) ∧
      (output.HasDType expected ↔ output.OneDType) ∧
      ((Kind.ofName name).isStandard = true → output.HasDType expected) := by
  obtain ⟨hfirst, request, hlayout⟩ := first_and_layout_of_check h houtput
  have hone : output.HasDType expected ↔ output.OneDType := by
    constructor
    · intro hall left hleft right hright
      rw [(hvalid.blocks left hleft).hasDType_iff.mp (hall left hleft),
        (hvalid.blocks right hright).hasDType_iff.mp (hall right hright)]
    · intro hone block hmem
      obtain ⟨first, rest, hblocks⟩ := List.exists_cons_of_ne_nil (List.ne_nil_of_mem hmem)
      have hhead : first ∈ output.blocks := hblocks ▸ List.mem_cons_self
      rw [(hvalid.blocks block hmem).hasDType_iff, hone block hmem first hhead]
      exact hfirst first rest hblocks
  refine ⟨fun first rest hblocks => ?_, hone, fun hstandard => ?_⟩
  · have hhead : first ∈ output.blocks := hblocks ▸ List.mem_cons_self
    exact (hvalid.blocks first hhead).hasDType_iff.mpr (hfirst first rest hblocks)
  · exact hone.mpr (oneDType_of_single hvalid (keys_of_checkLayout (hlayout hstandard)))

def zeroBlock (dtype : DType) (n : Nat) (properties : Labels) : Block :=
  ⟨.zeros dtype [n, 1], counting "system" n, [], properties, .nil⟩

def mixedDipole : Tensor :=
  ⟨⟨["key"], [[0], [1]]⟩, [zeroBlock .float64 1 .single, zeroBlock .float32 1 .single]⟩

def noEnergies : Tensor := ⟨.single, [zeroBlock .float64 0 (counting "energy" 1)]⟩

def mixedOutputs : Named Tensor :=
  (Named.empty.insert "dipole" mixedDipole).insert "energy" noEnergies

def mixedRequest : Named Request := (Named.empty.insert "dipole" {}).insert "energy" {}

theorem check_mixedOutputs : check [] mixedRequest none mixedOutputs .float64 = .ok () := by
  decide +kernel

theorem mixedOutputs_valid :
    ∀ name output, mixedOutputs.find? name = some output → output.Valid := by
  have hdipole : mixedDipole.Valid := Archive.valid_of_record rfl
  have henergy : noEnergies.Valid := Archive.valid_of_record rfl
  exact Named.forall_find?_insert henergy (Named.forall_find?_insert hdipole nofun)

theorem hasDType_of_check_mixedOutputs :
    check [] mixedRequest none mixedOutputs .float64 = .ok () ∧
      (mixedDipole.HasDType .float64 ↔ mixedDipole.OneDType) ∧ noEnergies.HasDType .float64 := by
  have hdipole : mixedOutputs.find? "dipole" = some mixedDipole := rfl
  have henergy : mixedOutputs.find? "energy" = some noEnergies := rfl
  have hfirst := hasDType_of_check check_mixedOutputs hdipole (mixedOutputs_valid _ _ hdipole)
  have hsecond := hasDType_of_check check_mixedOutputs henergy (mixedOutputs_valid _ _ henergy)
  exact ⟨check_mixedOutputs, hfirst.2.1, hsecond.2.2 rfl⟩

theorem not_hasDType_of_check : ¬ ∀ (counts : List Nat) (requested : Named Request)
    (selected : Option Labels) (outputs : Named Tensor) (expected : DType),
    (∀ name output, outputs.find? name = some output → output.Valid) →
    check counts requested selected outputs expected = .ok () →
      ∀ name output, outputs.find? name = some output → output.HasDType expected := by
  intro h
  have hall := h _ _ _ _ _ mixedOutputs_valid check_mixedOutputs "dipole" mixedDipole rfl
  have hsecond := hall _ (List.mem_cons_of_mem _ List.mem_cons_self)
  exact absurd (Block.hasDType_iff.mp hsecond).1 (by decide)

end Output

end BlockTensor
