import BlockTensor.Proofs.Array.Select
import BlockTensor.Proofs.LayerLaws

/-!
# Layers that work row by row

A function on arrays is `RowLocal` if it keeps the batch axes and makes of each
row what it would make of it in any other array: selecting along a batch axis
before it or after it gives one result. Affine layers are, the logistic layer
is, and so is what runs one such function after another. Hence every layer
built from them by chains is row local (`Layer.Standard.rowLocal`), and goes
before or after a selection along any axis but the last (`forward_selected`).
-/

namespace BlockTensor

-- ---------------------------------------------------------------------------
-- Functions on rows
-- ---------------------------------------------------------------------------

/-- The last axis aside, the shape stays, and entries along the other axes are
independent of each other. -/
structure RowLocal (f : Values → Except LayerFault Values) : Prop where
  valid : ∀ {a b : Values}, a.Valid → f a = .ok b → b.Valid
  dtype : ∀ {a b : Values}, f a = .ok b → b.dtype = a.dtype
  shape : ∀ {a b : Values} {batch : List Nat} {width : Nat}, a.shape = batch ++ [width] →
    f a = .ok b → ∃ width', b.shape = batch ++ [width']
  select : ∀ {a b part : Values} {outer inner : List Nat} {length width : Nat}
    {indices : List Nat}, (∀ i ∈ indices, i < length) → indices.length ≤ length → a.Valid →
    a.shape = outer ++ length :: inner ++ [width] → f a = .ok b →
    a.select outer.length indices = .ok part →
    ∃ image, b.select outer.length indices = .ok image ∧ f part = .ok image

namespace RowLocal

theorem ok : RowLocal .ok where
  valid ha h := Except.ok.inj h ▸ ha
  dtype h := by rw [Except.ok.inj h]
  shape hshape h := ⟨_, Except.ok.inj h ▸ hshape⟩
  select _ _ _ _ h hpart := ⟨_, Except.ok.inj h ▸ hpart, rfl⟩

theorem bind {f g : Values → Except LayerFault Values} (hf : RowLocal f) (hg : RowLocal g) :
    RowLocal fun a => f a >>= g where
  valid ha h := by
    obtain ⟨next, hnext, h⟩ := bind_ok.mp h
    exact hg.valid (hf.valid ha hnext) h
  dtype h := by
    obtain ⟨next, hnext, h⟩ := bind_ok.mp h
    exact (hg.dtype h).trans (hf.dtype hnext)
  shape hshape h := by
    obtain ⟨next, hnext, h⟩ := bind_ok.mp h
    obtain ⟨_, hshape⟩ := hf.shape hshape hnext
    exact hg.shape hshape h
  select hindices hcount ha hshape h hpart := by
    obtain ⟨next, hnext, h⟩ := bind_ok.mp h
    obtain ⟨middle, hmiddle, hfirst⟩ := hf.select hindices hcount ha hshape hnext hpart
    obtain ⟨_, hshape⟩ := hf.shape hshape hnext
    obtain ⟨image, himage, hsecond⟩ :=
      hg.select hindices hcount (hf.valid ha hnext) hshape h hmiddle
    exact ⟨image, himage, bind_ok.mpr ⟨middle, hfirst, hsecond⟩⟩

end RowLocal

-- ---------------------------------------------------------------------------
-- The logistic layer
-- ---------------------------------------------------------------------------

theorem Dense.select_map {α β : Type} (f : α → β) {a part : Dense α} {axis : Nat}
    {indices : List Nat} (h : a.select axis indices = .ok part) :
    (a.map f).select axis indices = .ok (part.map f) := by
  unfold select at h ⊢
  simp only [map]
  split at h
  · cases h
  · split at h
    · cases h
    next hfound =>
      obtain ⟨rfl, hvalid⟩ := ofShape_ok.mp h
      simp only [gather_map]
      exact ofShape_ok.mpr ⟨rfl, map_valid f hvalid⟩

theorem rowLocal_logistic : RowLocal Layer.logistic.forward where
  valid ha h := Except.ok.inj h ▸ Values.keepsLayout_logistic.valid _ ha
  dtype h := Except.ok.inj h ▸ Values.keepsLayout_logistic.dtype _
  shape hshape h := ⟨_, Except.ok.inj h ▸ (Values.keepsLayout_logistic.shape _).trans hshape⟩
  select {a b part _ _ _ _ _} _ _ _ _ h hpart := by
    obtain rfl := Except.ok.inj h
    cases a <;> obtain ⟨array, harray, rfl⟩ := map_ok.mp hpart <;>
      exact ⟨_, map_ok.mpr ⟨_, Dense.select_map _ harray, rfl⟩, rfl⟩

-- ---------------------------------------------------------------------------
-- Affine layers
-- ---------------------------------------------------------------------------

namespace Affine

/-- One weight for each input and output, one bias for each output: what `make`
gives from a whole matrix of weights. -/
structure Valid (layer : Affine) : Prop where
  weights : layer.weights.length = layer.inputs * layer.outputs
  bias : layer.bias.length = layer.outputs

theorem make_valid {inputs outputs : Nat} {weights bias : List Double} {layer : Affine}
    (hweights : weights.length = inputs * outputs)
    (h : make inputs outputs weights bias = .ok layer) : layer.Valid := by
  simp only [make, bind_ok, ensure_ok, pure_ok] at h
  obtain ⟨_, hbias, rfl⟩ := h
  exact ⟨hweights, hbias.symm⟩

theorem length_row {layer : Affine} (hlayer : layer.Valid) (x : List Double) :
    (layer.row x).length = layer.outputs := by
  rw [row, List.length_zipWith, hlayer.bias]
  refine Nat.min_eq_right (Nat.le_of_eq (Eq.symm ?_))
  -- Every partial sum has one entry for each output.
  refine List.foldlRecOn (motive := fun (sums : List Double) => sums.length = layer.outputs) _ _
    List.length_replicate fun sums hsums pair hmem => ?_
  have hweights := length_of_mem_pieces hlayer.weights (List.of_mem_zip hmem).2
  rw [List.length_zipWith, List.length_map, hsums, hweights, Nat.min_self]

theorem forward_ok {layer : Affine} {a b : Dense Double} {batch : List Nat} {width : Nat}
    (hshape : a.shape = batch ++ [width]) :
    layer.forward a = .ok b ↔ width = layer.inputs ∧ b.Valid ∧
      b = ⟨batch ++ [layer.outputs], mapRows layer.row (volume batch) width a.data⟩ := by
  have hlast : a.shape.getLast? = some width := by simp [hshape]
  have hbatch : a.shape.dropLast = batch := by simp [hshape]
  simp only [forward, hlast, hbatch, bind_ok, ensure_ok, ofTensor_ok, Dense.ofShape_ok]
  constructor
  · rintro ⟨_, hwidth, hb, hvalid⟩
    exact ⟨hwidth, hvalid, hb⟩
  · rintro ⟨hwidth, hvalid, hb⟩
    exact ⟨(), hwidth, hb, hvalid⟩

/-- Gathering rows before or after the layer gives the same rows. -/
theorem select_forward {layer : Affine} (hlayer : layer.Valid) {a b part : Dense Double}
    {outer inner : List Nat} {length width : Nat} {indices : List Nat}
    (hindices : ∀ i ∈ indices, i < length) (hcount : indices.length ≤ length) (ha : a.Valid)
    (hshape : a.shape = outer ++ length :: inner ++ [width]) (h : layer.forward a = .ok b)
    (hpart : a.select outer.length indices = .ok part) :
    ∃ image, b.select outer.length indices = .ok image ∧ layer.forward part = .ok image := by
  have hcut (n last : Nat) : outer ++ n :: inner ++ [last] = outer ++ n :: (inner ++ [last]) :=
    List.append_assoc ..
  obtain ⟨hwidth, hb, rfl⟩ := (forward_ok hshape).mp h
  have hafter := Dense.select_ok hindices hcount hb (hcut ..)
  refine ⟨_, hafter, ?_⟩
  have hbefore := Dense.select_ok hindices hcount ha (hshape.trans (hcut ..))
  obtain rfl := Except.ok.inj (hpart.symm.trans hbefore)
  have hdata : a.data.length = volume outer * (length * (volume inner * width)) := by
    rw [ha.size, hshape]
    simp only [volume_append, volume, Nat.mul_one, Nat.mul_assoc]
  refine (forward_ok (hcut ..).symm).mpr ⟨hwidth, (Dense.select_valid hafter).1, ?_⟩
  -- The shapes agree as they stand; the data does because the axis is not the last.
  have hrows := Dense.gather_mapRows hindices (fun x _ => length_row hlayer x) hdata
  simp only [volume_append, volume, Nat.mul_one, hrows, hcut]

end Affine

theorem Layer.forward_affine_ok {layer : Affine} {a b : Values} :
    (Layer.affine layer).forward a = .ok b ↔ ∃ array image, a = .float64 array ∧
      layer.forward array = .ok image ∧ b = .float64 image := by
  cases a with
  | float32 a => simp [forward]
  | float64 a =>
    simp only [forward, map_ok, Values.float64.injEq, exists_and_left, exists_eq_left']
    exact exists_congr fun image => and_congr_right fun _ => eq_comm

theorem rowLocal_affine {layer : Affine} (hlayer : layer.Valid) :
    RowLocal (Layer.affine layer).forward where
  valid ha h := Layer.forward_valid _ ha h
  dtype h := by
    obtain ⟨array, image, rfl, -, rfl⟩ := Layer.forward_affine_ok.mp h
    rfl
  shape hshape h := by
    obtain ⟨array, image, rfl, himage, rfl⟩ := Layer.forward_affine_ok.mp h
    obtain ⟨-, -, rfl⟩ := (Affine.forward_ok hshape).mp himage
    exact ⟨_, rfl⟩
  select hindices hcount ha hshape h hpart := by
    obtain ⟨array, image, rfl, himage, rfl⟩ := Layer.forward_affine_ok.mp h
    obtain ⟨part, harray, rfl⟩ := map_ok.mp hpart
    obtain ⟨corner, hcorner, hforward⟩ :=
      Affine.select_forward hlayer hindices hcount ha hshape himage harray
    exact ⟨.float64 corner, map_ok.mpr ⟨corner, hcorner, rfl⟩,
      Layer.forward_affine_ok.mpr ⟨part, corner, rfl, hforward, rfl⟩⟩

-- ---------------------------------------------------------------------------
-- Chains
-- ---------------------------------------------------------------------------

namespace Layer

inductive Standard : Layer → Prop
  | affine {layer : Affine} : layer.Valid → Standard (.affine layer)
  | logistic : Standard .logistic
  | chain {layers : List Layer} : (∀ layer ∈ layers, Standard layer) → Standard (.chain layers)

theorem rowLocal_forwardAll {layers : List Layer}
    (h : ∀ layer ∈ layers, RowLocal layer.forward) : RowLocal (forwardAll layers) := by
  induction layers with
  | nil => simpa only [forwardAll] using RowLocal.ok
  | cons layer rest ih =>
    obtain ⟨hlayer, hrest⟩ := List.forall_mem_cons.mp h
    simpa only [forwardAll] using hlayer.bind (ih hrest)

theorem Standard.rowLocal {layer : Layer} (h : layer.Standard) : RowLocal layer.forward := by
  induction h with
  | affine hlayer => exact rowLocal_affine hlayer
  | logistic => exact rowLocal_logistic
  | chain _ ih => simpa only [forward] using rowLocal_forwardAll ih

theorem exists_axes {shape : List Nat} {axis length : Nat} (haxis : axis + 1 < shape.length)
    (hlength : shape[axis]? = some length) :
    ∃ outer inner width, shape = outer ++ length :: inner ++ [width] ∧ outer.length = axis := by
  obtain ⟨outer, rest, rfl, rfl⟩ := axes_of_getElem? hlength
  have hne : rest ≠ [] := by
    rintro rfl
    simp at haxis
  refine ⟨outer, rest.dropLast, rest.getLast hne, ?_, rfl⟩
  rw [List.append_assoc, List.cons_append, List.dropLast_concat_getLast hne]

/-- A layer acts along the last axis alone: selecting along any other axis can be done before it
or after it. -/
theorem forward_selected {layer : Layer} (hlayer : layer.Standard) {a b : Values} (ha : a.Valid)
    (hb : layer.forward a = .ok b) {axis length : Nat} {indices : List Nat}
    (haxis : axis + 1 < a.shape.length) (hlength : a.shape[axis]? = some length)
    (hdistinct : indices.Nodup) (hindices : ∀ i ∈ indices, i < length) :
    b.shape.dropLast = a.shape.dropLast ∧ ∃ part image,
      a.select axis indices = .ok part ∧ layer.forward part = .ok image ∧
      b.select axis indices = .ok image ∧ image.shape = b.shape.set axis indices.length := by
  obtain ⟨outer, inner, width, hshape, rfl⟩ := exists_axes haxis hlength
  have hcount : indices.length ≤ length := by
    have hsubset : indices ⊆ List.range length := fun i hmem => List.mem_range.mpr (hindices i hmem)
    simpa using (List.subperm_of_subset hdistinct hsubset).length_le
  obtain ⟨part, hpart⟩ :=
    Values.select_ok hindices hcount ha (hshape.trans (List.append_assoc ..))
  obtain ⟨image, himage, hforward⟩ :=
    hlayer.rowLocal.select hindices hcount ha hshape hb hpart
  obtain ⟨width', hwidth'⟩ := hlayer.rowLocal.shape hshape hb
  refine ⟨?_, part, image, hpart, hforward, himage, (Values.select_valid himage).2.2⟩
  rw [hwidth', hshape, List.dropLast_concat, List.dropLast_concat]

def twoByThree : Values :=
  .float64 ⟨[2, 3, 2], [.one, .zero, .minusOne, .one, .zero, .zero, .one, .one, .invalid, .zero,
    .minusOne, .minusOne]⟩

/-- An affine layer to one output, then the logistic one inside a chain of its own. -/
def sumThenLogistic : Layer :=
  .chain [.affine ⟨2, 1, [.one, .minusOne], [.one]⟩, .chain [.logistic]]

theorem forward_selected_columns : ∃ b part image, sumThenLogistic.forward twoByThree = .ok b ∧
    twoByThree.select 1 [2, 0] = .ok part ∧ sumThenLogistic.forward part = .ok image ∧
    b.select 1 [2, 0] = .ok image ∧ image.shape = [2, 2, 1] := by
  have hlayer : sumThenLogistic.Standard := by
    have haffine : Standard (.affine ⟨2, 1, [.one, .minusOne], [.one]⟩) := .affine ⟨rfl, rfl⟩
    have hinner : Standard (.chain [.logistic]) := .chain (List.forall_mem_singleton.mpr .logistic)
    exact .chain (List.forall_mem_cons.mpr ⟨haffine, List.forall_mem_singleton.mpr hinner⟩)
  have hb : sumThenLogistic.forward twoByThree = .ok _ := rfl
  have ha : twoByThree.Valid := ⟨by decide, by decide⟩
  obtain ⟨-, part, image, hpart, hforward, himage, hshape⟩ :=
    forward_selected hlayer ha hb (show 1 + 1 < twoByThree.shape.length by decide) rfl
      (show [2, 0].Nodup by decide) (by decide)
  exact ⟨_, part, image, hb, hpart, hforward, himage, hshape⟩

end Layer

end BlockTensor
