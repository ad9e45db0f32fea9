import BlockTensor.Block.Valid
import BlockTensor.Proofs.Checks

/-!
# Attaching gradients one after another

Every operation that rebuilds a block makes it without gradients and then
attaches the new gradients in order. `attachAll` is that loop and
`foldlM_attach_ok` finds it inside a fold. `assemble_ok` says when a whole
block comes out, and which: the checks of the constructors in one place.
-/

namespace BlockTensor

-- ---------------------------------------------------------------------------
-- Gradients as lists
-- ---------------------------------------------------------------------------

namespace Gradients

def ofList : List (String × Block) → Gradients
  | [] => nil
  | (parameter, gradient) :: rest => cons parameter gradient (ofList rest)

@[simp] theorem toList_ofList (items : List (String × Block)) : (ofList items).toList = items := by
  induction items with
  | nil => rfl
  | cons item rest ih => simp [ofList, toList, ih]

@[simp] theorem ofList_toList (gradients : Gradients) : ofList gradients.toList = gradients := by
  induction gradients with
  | nil => rfl
  | cons _ _ _ ih => simp [ofList, toList, ih]

theorem parameters_ofList {gradients : Gradients} {items : List (String × Block)}
    (h : List.Forall₂ (fun old new => old.1 = new.1) gradients.toList items) :
    (ofList items).parameters = gradients.parameters := by
  rw [parameters_eq_map_toList, parameters_eq_map_toList, toList_ofList, map_fst_of_forall₂ h]

theorem allValid_iff {gradients : Gradients} :
    gradients.AllValid ↔ ∀ item ∈ gradients.toList, item.2.Valid := by
  induction gradients with
  | nil => simp [AllValid, toList]
  | cons _ _ _ ih => simp [AllValid, toList, ih]

theorem mem_of_find? {gradients : Gradients} {key : String} {gradient : Block}
    (h : gradients.find? key = some gradient) : (key, gradient) ∈ gradients.toList := by
  induction gradients with
  | nil => cases h
  | cons parameter first rest ih =>
    rw [find?] at h
    split at h
    next heq =>
      cases h
      exact heq ▸ List.mem_cons_self
    next => exact List.mem_cons_of_mem _ (ih h)

theorem find?_of_mem {gradients : Gradients} (hdistinct : gradients.parameters.Nodup)
    {item : String × Block} (hmem : item ∈ gradients.toList) :
    gradients.find? item.1 = some item.2 := by
  induction gradients with
  | nil => cases hmem
  | cons parameter first rest ih =>
    obtain ⟨hnew, hdistinct⟩ := List.nodup_cons.mp hdistinct
    rcases List.mem_cons.mp hmem with rfl | hrest
    · exact if_pos rfl
    · have hne : parameter ≠ item.1 := by
        rintro rfl
        rw [parameters_eq_map_toList] at hnew
        exact hnew (List.mem_map_of_mem hrest)
      rw [find?, if_neg hne]
      exact ih hdistinct hrest

theorem mem_parameters_iff {gradients : Gradients} {key : String} :
    key ∈ gradients.parameters ↔ ∃ gradient, gradients.find? key = some gradient := by
  induction gradients with
  | nil => simp [parameters, find?]
  | cons parameter first rest ih =>
    simp only [parameters, find?, List.mem_cons, ih]
    split <;> simp_all [eq_comm]

end Gradients

/-- Blocks are built from their gradients up. -/
@[induction_eliminator] theorem Block.induction {P : Block → Prop}
    (step : ∀ block : Block, (∀ item ∈ block.gradients.toList, P item.2) → P block)
    (block : Block) : P block := by
  refine Block.rec (motive_1 := P)
    (motive_2 := fun gradients => ∀ item ∈ gradients.toList, P item.2) ?_ ?_ ?_ block
  · exact fun _ _ _ _ _ ih => step _ ih
  · exact fun _ hmem => nomatch hmem
  · exact fun _ _ _ hgradient hrest => List.forall_mem_cons.mpr ⟨hgradient, hrest⟩

namespace Block

-- ---------------------------------------------------------------------------
-- Attaching
-- ---------------------------------------------------------------------------

def attachAll (parent : Block) (items : List (String × Block)) : Except Error Block :=
  items.foldlM (fun parent item => parent.addGradient item.1 item.2) parent

/-- New parameters, none reserved or twice, whose gradients fit `parent`. -/
structure Accepts (parent : Block) (items : List (String × Block)) : Prop where
  distinct : (items.map Prod.fst).Nodup
  reserved : "values" ∉ items.map Prod.fst
  fresh : ∀ item ∈ items, item.1 ∉ parent.gradients.parameters
  fits : ∀ item ∈ items, parent.Fits item.2

theorem fits_with_gradients {parent gradient : Block} {gradients : Gradients} :
    Fits { parent with gradients } gradient ↔ parent.Fits gradient :=
  ⟨fun ⟨h1, h2, h3, h4, h5⟩ => ⟨h1, h2, h3, h4, h5⟩,
    fun ⟨h1, h2, h3, h4, h5⟩ => ⟨h1, h2, h3, h4, h5⟩⟩

theorem attachAll_ok {parent result : Block} {items : List (String × Block)} :
    parent.attachAll items = .ok result ↔ parent.Accepts items ∧
      result = { parent with gradients := .ofList (parent.gradients.toList ++ items) } := by
  induction items generalizing parent with
  | nil =>
    cases parent
    simp only [attachAll, List.foldlM_nil, pure_ok, List.append_nil, Gradients.ofList_toList]
    constructor
    · rintro rfl
      exact ⟨⟨by simp, by simp, by simp, by simp⟩, rfl⟩
    · rintro ⟨-, rfl⟩
      rfl
  | cons item rest ih =>
    obtain ⟨parameter, gradient⟩ := item
    -- The parent grows on the way: `ih` is about the parent that has the first
    -- gradient already, and so its parameter counts as taken.
    simp only [attachAll] at ih
    simp only [attachAll, List.foldlM_cons, bind_ok, addGradient_ok, ih]
    constructor
    · rintro ⟨_, ⟨hreserved, hfresh, hfits, rfl⟩, hrest, rfl⟩
      have hother : ∀ item ∈ rest, item.1 ∉ parent.gradients.parameters ∧ item.1 ≠ parameter := by
        intro item hmem
        simpa [Gradients.parameters_eq_map_toList, Gradients.toList_push] using
          hrest.fresh item hmem
      refine ⟨⟨?_, ?_, ?_, ?_⟩, by simp [Gradients.toList_push]⟩
      · refine List.nodup_cons.mpr ⟨fun hmem => ?_, hrest.distinct⟩
        obtain ⟨item, hitem, heq⟩ := List.mem_map.mp hmem
        exact (hother item hitem).2 heq
      · simpa [Ne.symm hreserved] using hrest.reserved
      · simpa using ⟨hfresh, fun a b hmem => (hother (a, b) hmem).1⟩
      · exact List.forall_mem_cons.mpr
          ⟨hfits, fun item hmem => fits_with_gradients.mp (hrest.fits item hmem)⟩
    · rintro ⟨⟨hdistinct, hreserved, hfresh, hfits⟩, rfl⟩
      simp only [List.map_cons, List.nodup_cons, List.mem_cons, not_or] at hdistinct hreserved
      refine ⟨_, ⟨Ne.symm hreserved.1, hfresh _ List.mem_cons_self, hfits _ List.mem_cons_self,
        rfl⟩, ⟨hdistinct.2, hreserved.2, ?_, ?_⟩, by simp [Gradients.toList_push]⟩
      · intro item hmem
        have hne : item.1 ≠ parameter :=
          fun heq => hdistinct.1 (heq ▸ List.mem_map_of_mem hmem)
        have hnew := hfresh item (List.mem_cons_of_mem _ hmem)
        simpa [Gradients.parameters_eq_map_toList, Gradients.toList_push, hne] using hnew
      · exact fun item hmem => fits_with_gradients.mpr (hfits item (List.mem_cons_of_mem _ hmem))

/-- A fold whose every step builds one gradient and attaches it builds all
gradients and attaches them. -/
theorem foldlM_attach_ok {ι ε : Type} {step : Block → ι → Except ε Block}
    {rebuilt : ι → String × Block → Prop}
    (hstep : ∀ parent item result, step parent item = .ok result ↔
      ∃ new, rebuilt item new ∧ parent.addGradient new.1 new.2 = .ok result)
    {items : List ι} {parent result : Block} :
    items.foldlM step parent = .ok result ↔
      ∃ news, List.Forall₂ rebuilt items news ∧ parent.attachAll news = .ok result := by
  induction items generalizing parent with
  | nil => simp [attachAll, pure_ok]
  | cons item rest ih =>
    simp only [List.foldlM_cons, bind_ok, hstep, ih, attachAll]
    constructor
    · rintro ⟨next, ⟨new, hnew, hnext⟩, news, hnews, hresult⟩
      refine ⟨new :: news, .cons hnew hnews, ?_⟩
      rw [List.foldlM_cons, bind_ok]
      exact ⟨next, hnext, hresult⟩
    · rintro ⟨_, hnews, hresult⟩
      cases hnews with
      | cons hnew hnews =>
        rw [List.foldlM_cons, bind_ok] at hresult
        obtain ⟨next, hnext, hresult⟩ := hresult
        exact ⟨next, ⟨_, hnew, hnext⟩, _, hnews, hresult⟩

def Rebuilds {α ε : Type} (f : String × α → Except ε Block) (old : String × α)
    (new : String × Block) : Prop :=
  old.1 = new.1 ∧ f old = .ok new.2

theorem map_fst_of_rebuilds {α ε : Type} {f : String × α → Except ε Block}
    {olds : List (String × α)} {news : List (String × Block)}
    (h : List.Forall₂ (Rebuilds f) olds news) : olds.map Prod.fst = news.map Prod.fst :=
  map_fst_of_forall₂ (h.imp fun _ _ hitem => hitem.1)

theorem foldlM_rebuild_ok {α : Type} {f : String × α → Except Error Block}
    {items : List (String × α)} {parent result : Block} :
    items.foldlM (fun parent item => do parent.addGradient item.1 (← f item)) parent = .ok result ↔
      ∃ news, List.Forall₂ (Rebuilds f) items news ∧ parent.attachAll news = .ok result := by
  refine foldlM_attach_ok fun parent item result => ?_
  rw [bind_ok]
  constructor
  · rintro ⟨new, hnew, hresult⟩
    exact ⟨(item.1, new), ⟨rfl, hnew⟩, hresult⟩
  · rintro ⟨⟨parameter, new⟩, ⟨rfl, hnew⟩, hresult⟩
    exact ⟨new, hnew, hresult⟩

-- ---------------------------------------------------------------------------
-- Whole blocks
-- ---------------------------------------------------------------------------

/-- A block from its parts and its gradients, through the checks. -/
def assemble (values : Values) (samples : Labels) (components : List Labels) (properties : Labels)
    (items : List (String × Block)) : Except Error Block := do
  (← make values samples components properties).attachAll items

theorem assemble_ok {values : Values} {samples : Labels} {components : List Labels}
    {properties : Labels} {items : List (String × Block)} {result : Block} :
    assemble values samples components properties items = .ok result ↔
      AxesFit values.shape samples components properties ∧
        Accepts ⟨values, samples, components, properties, .nil⟩ items ∧
        result = ⟨values, samples, components, properties, .ofList items⟩ := by
  simp only [assemble, bind_ok, make_ok, attachAll_ok]
  constructor
  · rintro ⟨_, ⟨haxes, rfl⟩, haccepts, rfl⟩
    exact ⟨haxes, haccepts, rfl⟩
  · rintro ⟨haxes, haccepts, rfl⟩
    exact ⟨_, ⟨haxes, rfl⟩, haccepts, rfl⟩

theorem distinct_of_assemble {values : Values} {samples : Labels} {components : List Labels}
    {properties : Labels} {items : List (String × Block)} {block : Block}
    (h : assemble values samples components properties items = .ok block) :
    block.gradients.parameters.Nodup := by
  obtain ⟨-, haccepts, rfl⟩ := assemble_ok.mp h
  rw [Gradients.parameters_eq_map_toList, Gradients.toList_ofList]
  exact haccepts.distinct

end Block

end BlockTensor
