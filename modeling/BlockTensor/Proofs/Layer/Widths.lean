import BlockTensor.Proofs.Layer.Rows

/-!
# Layers accept widths

Whether a standard layer accepts an array, and how wide the rows of the result are, is
known before it runs: `Layer.width?` reads both off the layer and the width of the rows
(`StandardOn.goesByWidth`). Batch axes play no part in it, except that an array with too
many elements cannot be made; `Layer.SizesFit` says that none on the way is one.
-/

namespace BlockTensor

namespace Layer

-- ---------------------------------------------------------------------------
-- Widths
-- ---------------------------------------------------------------------------

mutual
/-- How wide a layer makes rows of a width; nothing if it does not accept them. -/
def width? : Layer → Nat → Option Nat
  | .affine layer, width => if width = layer.inputs then some layer.outputs else none
  | .logistic, width => some width
  | .chain layers, width => widthAll? layers width
  | .custom _ _, _ => none
def widthAll? : List Layer → Nat → Option Nat
  | [], width => some width
  | layer :: rest, width => (layer.width? width).bind (widthAll? rest)
end

mutual
/-- Whether the arrays that a layer makes on its way, on these batch axes, are not too
large. Only affine layers make rows of another width. -/
def SizesFit (batch : List Nat) : Layer → Nat → Prop
  | .affine layer, width => width = layer.inputs →
    volume ((batch ++ [layer.outputs]).filter (· ≠ 0)) < sizeLimit
  | .logistic, _ => True
  | .chain layers, width => AllSizesFit batch layers width
  | .custom _ _, _ => True
def AllSizesFit (batch : List Nat) : List Layer → Nat → Prop
  | [], _ => True
  | layer :: rest, width => layer.SizesFit batch width ∧
    ∀ next, layer.width? width = some next → AllSizesFit batch rest next
end

/-- Standard layers for arrays of one element type; affine layers are for binary64 only. -/
inductive StandardOn (dtype : DType) : Layer → Prop
  | affine {layer : Affine} : layer.Valid → dtype = .float64 → StandardOn dtype (.affine layer)
  | logistic : StandardOn dtype .logistic
  | chain {layers : List Layer} : (∀ layer ∈ layers, StandardOn dtype layer) →
      StandardOn dtype (.chain layers)

theorem StandardOn.standard {dtype : DType} {layer : Layer} (h : layer.StandardOn dtype) :
    layer.Standard := by
  induction h with
  | affine hlayer _ => exact .affine hlayer
  | logistic => exact .logistic
  | chain _ ih => exact .chain ih

-- ---------------------------------------------------------------------------
-- Widths decide
-- ---------------------------------------------------------------------------

/-- On arrays of an element type the function goes by the width of the rows: it
succeeds where the width has an image and the sizes fit, and makes rows of that width. -/
structure GoesByWidth (dtype : DType) (f : Values → Except LayerFault Values)
    (image? : Nat → Option Nat) (fits : List Nat → Nat → Prop) : Prop where
  shape : ∀ {a b : Values} {batch : List Nat} {width : Nat}, a.shape = batch ++ [width] →
    f a = .ok b → ∃ next, image? width = some next ∧ b.shape = batch ++ [next]
  succeeds : ∀ {a : Values} {batch : List Nat} {width next : Nat}, a.Valid → a.dtype = dtype →
    a.shape = batch ++ [width] → fits batch width → image? width = some next → ∃ b, f a = .ok b

namespace GoesByWidth

variable {dtype : DType}

theorem ok : GoesByWidth dtype .ok some fun _ _ => True where
  shape hshape h := ⟨_, rfl, Except.ok.inj h ▸ hshape⟩
  succeeds _ _ _ _ _ := ⟨_, rfl⟩

theorem bind {f g : Values → Except LayerFault Values} {first? second? : Nat → Option Nat}
    {fits fits' : List Nat → Nat → Prop} (hlocal : RowLocal f)
    (hf : GoesByWidth dtype f first? fits) (hg : GoesByWidth dtype g second? fits') :
    GoesByWidth dtype (fun a => f a >>= g) (fun width => (first? width).bind second?)
      fun batch width => fits batch width ∧
        ∀ next, first? width = some next → fits' batch next where
  shape hshape h := by
    obtain ⟨middle, hmiddle, h⟩ := bind_ok.mp h
    obtain ⟨next, hnext, hshape⟩ := hf.shape hshape hmiddle
    obtain ⟨last, hlast, hshape⟩ := hg.shape hshape h
    exact ⟨last, Option.bind_eq_some_iff.mpr ⟨next, hnext, hlast⟩, hshape⟩
  succeeds {a batch width _} ha hdtype hshape hfits hlast := by
    obtain ⟨next, hnext, hlast⟩ := Option.bind_eq_some_iff.mp hlast
    obtain ⟨middle, hmiddle⟩ := hf.succeeds ha hdtype hshape hfits.1 hnext
    -- The array between the two has the width that the second one was asked about.
    obtain ⟨found, hfound, hmiddleShape⟩ := hf.shape hshape hmiddle
    obtain rfl := Option.some.inj (hfound.symm.trans hnext)
    obtain ⟨b, hb⟩ := hg.succeeds (hlocal.valid ha hmiddle) ((hlocal.dtype hmiddle).trans hdtype)
      hmiddleShape (hfits.2 _ hnext) hlast
    exact ⟨b, bind_ok.mpr ⟨middle, hmiddle, hb⟩⟩

end GoesByWidth

section
variable {dtype : DType}

theorem goesByWidth_logistic :
    GoesByWidth dtype logistic.forward logistic.width? (logistic.SizesFit ·) where
  shape hshape h := ⟨_, by rw [width?],
    Except.ok.inj h ▸ (Values.keepsLayout_logistic.shape _).trans hshape⟩
  succeeds {a _ _ _} _ _ _ _ _ := ⟨a.logistic, by rw [forward]⟩

theorem goesByWidth_affine {layer : Affine} (hlayer : layer.Valid) :
    GoesByWidth .float64 (affine layer).forward (affine layer).width? ((affine layer).SizesFit ·)
    where
  shape hshape h := by
    obtain ⟨array, image, rfl, himage, rfl⟩ := forward_affine_ok.mp h
    obtain ⟨hwidth, -, rfl⟩ := (Affine.forward_ok hshape).mp himage
    exact ⟨layer.outputs, by rw [width?, if_pos hwidth], rfl⟩
  succeeds {a batch width next} ha hdtype hshape hfits hnext := by
    rw [width?, Option.ite_none_right_eq_some] at hnext
    obtain ⟨hwidth, -⟩ := hnext
    rw [SizesFit] at hfits
    cases a with
    | float32 => cases hdtype
    | float64 array =>
      have hdata : array.data.length = volume batch * width := by
        rw [ha.size, show array.shape = _ from hshape, volume_append, volume, volume, Nat.mul_one]
      have hsize : (mapRows layer.row (volume batch) width array.data).length =
          volume batch * layer.outputs :=
        length_mapRows (fun x _ => Affine.length_row hlayer x) hdata
      refine ⟨_, forward_affine_ok.mpr ⟨array, _, rfl, (Affine.forward_ok hshape).mpr
        ⟨hwidth, ⟨?_, hfits hwidth⟩, rfl⟩, rfl⟩⟩
      rw [hsize, volume_append, volume, volume, Nat.mul_one]

theorem goesByWidth_forwardAll {layers : List Layer} (hlocal : ∀ layer ∈ layers, layer.Standard)
    (h : ∀ layer ∈ layers, GoesByWidth dtype layer.forward layer.width? (layer.SizesFit ·)) :
    GoesByWidth dtype (forwardAll layers) (widthAll? layers) (AllSizesFit · layers) := by
  induction layers with
  | nil =>
    have hok : GoesByWidth dtype .ok some fun _ _ => True := .ok
    simpa only [forwardAll, widthAll?, AllSizesFit] using hok
  | cons layer rest ih =>
    obtain ⟨hfirst, hothers⟩ := List.forall_mem_cons.mp hlocal
    obtain ⟨hlayer, hrest⟩ := List.forall_mem_cons.mp h
    have hbind := hlayer.bind hfirst.rowLocal (ih hothers hrest)
    simpa only [forwardAll, widthAll?, AllSizesFit] using hbind

theorem StandardOn.goesByWidth {layer : Layer} (h : layer.StandardOn dtype) :
    GoesByWidth dtype layer.forward layer.width? (layer.SizesFit ·) := by
  induction h with
  | affine hlayer hdtype =>
    subst hdtype
    exact goesByWidth_affine hlayer
  | logistic => exact goesByWidth_logistic
  | chain hlayers ih =>
    have hall := goesByWidth_forwardAll (fun layer hmem => (hlayers layer hmem).standard) ih
    simpa only [forward, width?, SizesFit] using hall

end

end Layer

end BlockTensor
