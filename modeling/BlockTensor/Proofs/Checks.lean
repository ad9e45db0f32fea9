import BlockTensor.Check
import Mathlib.Data.List.Forall2

/-!
# Successful computations over lists

A traversal that succeeds has succeeded at every item. `mapM_ok` and `forM_ok`
say so as equivalences. Where two computations can be done in either order at
every item, they can be over lists (`exists_forall₂_square`).
-/

namespace BlockTensor

variable {ε ε' α β γ δ : Type}

theorem ensure_of {rule : Prop} [Decidable rule] {error : ε} (h : rule) :
    ensure rule error = .ok () :=
  if_pos h

theorem ensure_of_not {rule : Prop} [Decidable rule] {error : ε} (h : ¬rule) :
    ensure rule error = .error error :=
  if_neg h

theorem ensure_error {rule : Prop} [Decidable rule] {error found : ε} :
    ensure rule error = .error found ↔ ¬rule ∧ error = found := by
  unfold ensure
  split <;> simp_all

theorem eq_ok_iff {check : Except ε Unit} : check = .ok () ↔ ∀ error, check ≠ .error error := by
  cases check <;> simp

theorem bind_error {x : Except ε α} {f : α → Except ε β} {error : ε} :
    x >>= f = .error error ↔ x = .error error ∨ ∃ a, x = .ok a ∧ f a = .error error := by
  cases x <;> simp [bind, Except.bind]

theorem map_ok {x : Except ε α} {f : α → β} {b : β} :
    f <$> x = .ok b ↔ ∃ a, x = .ok a ∧ f a = b := by
  cases x <;> simp [Functor.map, Except.map]

theorem mapError_ok {x : Except ε α} {f : ε → ε'} {a : α} :
    x.mapError f = .ok a ↔ x = .ok a := by
  cases x <;> simp [Except.mapError]

theorem toOption_map (f : α → β) (x : Except ε α) : (f <$> x).toOption = x.toOption.map f := by
  cases x <;> rfl

theorem toOption_eq_map {f : α → β} {x : Except ε α} {y : Except ε' β}
    (hok : (∃ b, y = .ok b) ↔ ∃ a, x = .ok a) (heq : ∀ {a b}, x = .ok a → y = .ok b → b = f a) :
    y.toOption = x.toOption.map f := by
  cases hy : y with
  | error =>
    cases hx : x with
    | error => rfl
    | ok a =>
      obtain ⟨b, hb⟩ := hok.mpr ⟨a, hx⟩
      cases hy.symm.trans hb
  | ok b =>
    obtain ⟨a, hx⟩ := hok.mp ⟨b, hy⟩
    rw [hx, heq hx hy]
    rfl

theorem mapM_ok {f : α → Except ε β} {items : List α} {results : List β} :
    items.mapM f = .ok results ↔ List.Forall₂ (fun a b => f a = .ok b) items results := by
  induction items generalizing results with
  | nil => cases results <;> simp [pure_ok]
  | cons item rest ih =>
    simp only [List.mapM_cons, bind_ok, pure_ok, ih]
    constructor
    · rintro ⟨b, hb, bs, hbs, rfl⟩
      exact .cons hb hbs
    · intro h
      cases h with
      | cons hb hbs => exact ⟨_, hb, _, hbs, rfl⟩

/-- A traversal whose every step gives `g` of its item gives `g` of all items. -/
theorem mapM_ok_map {f : α → Except ε β} {g : α → β} {items : List α}
    (h : ∀ item ∈ items, f item = .ok (g item)) : items.mapM f = .ok (items.map g) := by
  rw [mapM_ok, List.forall₂_map_right_iff, List.forall₂_same]
  exact h

theorem exists_of_forall₂ {R : α → β → Prop} {items : List α} {results : List β} {b : β}
    (h : List.Forall₂ R items results) (hmem : b ∈ results) : ∃ a ∈ items, R a b := by
  induction h with
  | nil => cases hmem
  | cons hab _ ih =>
    rcases List.mem_cons.mp hmem with rfl | hmem
    · exact ⟨_, List.mem_cons_self, hab⟩
    · obtain ⟨a, ha, hab⟩ := ih hmem
      exact ⟨a, List.mem_cons_of_mem _ ha, hab⟩

theorem exists_forall₂ {R : α → β → Prop} {items : List α} (h : ∀ a ∈ items, ∃ b, R a b) :
    ∃ results, List.Forall₂ R items results := by
  induction items with
  | nil => exact ⟨[], .nil⟩
  | cons a rest ih =>
    obtain ⟨⟨b, hab⟩, hrest⟩ := List.forall_mem_cons.mp h
    obtain ⟨results, hresults⟩ := ih hrest
    exact ⟨b :: results, .cons hab hresults⟩

theorem exists_mem_zip_of_forall₂ {R : α → β → Prop} {items : List α} {results : List β}
    (h : List.Forall₂ R items results) {a : α} (hmem : a ∈ items) :
    ∃ b, (a, b) ∈ items.zip results := by
  induction h with
  | nil => cases hmem
  | cons _ _ ih =>
    rcases List.mem_cons.mp hmem with rfl | hmem
    · exact ⟨_, List.mem_cons_self⟩
    · obtain ⟨b, hb⟩ := ih hmem
      exact ⟨b, List.mem_cons_of_mem _ hb⟩

theorem forall₂_congr_of_mem {R S : α → β → Prop} {items : List α} {results : List β}
    (h : ∀ a ∈ items, ∀ b, R a b ↔ S a b) :
    List.Forall₂ R items results ↔ List.Forall₂ S items results := by
  simp only [List.forall₂_iff_zip]
  refine and_congr_right fun _ => ?_
  exact forall_congr' fun a => forall_congr' fun b =>
    imp_congr_right fun hmem => h a (List.of_mem_zip hmem).1 b

theorem map_fst_of_forall₂ {items : List (γ × α)} {results : List (γ × β)}
    (h : List.Forall₂ (fun a b => a.1 = b.1) items results) :
    items.map Prod.fst = results.map Prod.fst := by
  rwa [← List.forall₂_eq_eq_eq, List.forall₂_map_left_iff, List.forall₂_map_right_iff]

theorem filterMap_of_forall₂ {f : α → Option β} {items : List α} {results : List β}
    (h : List.Forall₂ (fun a b => f a = some b) items results) : items.filterMap f = results := by
  induction h with
  | nil => rfl
  | cons hab _ ih => rw [List.filterMap_cons_some hab, ih]

theorem forall₂_zipIdx_map {R : α → β → Prop} {items : List α} {g : α × Nat → β}
    (h : ∀ item ∈ items.zipIdx, R item.1 (g item)) :
    List.Forall₂ R items (items.zipIdx.map g) := by
  have hall : List.Forall₂ R (items.zipIdx.map Prod.fst) (items.zipIdx.map g) := by
    rw [List.forall₂_map_left_iff, List.forall₂_map_right_iff, List.forall₂_same]
    exact h
  rwa [List.zipIdx_map_fst] at hall

theorem forall₂_comp {R : α → β → Prop} {S : β → γ → Prop} {items : List α} {results : List γ} :
    List.Forall₂ (fun a c => ∃ b, R a b ∧ S b c) items results ↔
      ∃ middles, List.Forall₂ R items middles ∧ List.Forall₂ S middles results := by
  constructor
  · intro h
    induction h with
    | nil => exact ⟨[], .nil, .nil⟩
    | cons hab _ ih =>
      obtain ⟨b, hab, hbc⟩ := hab
      obtain ⟨middles, hleft, hright⟩ := ih
      exact ⟨b :: middles, .cons hab hleft, .cons hbc hright⟩
  · rintro ⟨middles, hleft, hright⟩
    induction hleft generalizing results with
    | nil =>
      cases hright
      exact .nil
    | cons hab _ ih =>
      cases hright with
      | cons hbc hright => exact .cons ⟨_, hab, hbc⟩ (ih hright)

theorem forall₂_zip_zip {R : α → β → Prop} {S : γ → δ → Prop} {items : List α} {results : List β}
    {others : List γ} {otherResults : List δ} (hR : List.Forall₂ R items results)
    (hS : List.Forall₂ S others otherResults) :
    List.Forall₂ (fun a b => R a.1 b.1 ∧ S a.2 b.2) (items.zip others)
      (results.zip otherResults) := by
  induction hR generalizing others otherResults with
  | nil => exact .nil
  | cons hab _ ih =>
    cases hS with
    | nil => exact .nil
    | cons hcd hS => exact .cons ⟨hab, hcd⟩ (ih hS)

theorem forall₂_zip {R : α → β → Prop} {items : List α} {results : List β} (keys : List γ)
    (h : List.Forall₂ R items results) :
    List.Forall₂ (fun a b => a.1 = b.1 ∧ R a.2 b.2) (keys.zip items) (keys.zip results) :=
  forall₂_zip_zip (List.forall₂_same.mpr fun _ _ => rfl) h

theorem forall₂_zip_right {R : α → β → Prop} {S : α → γ → Prop} {items : List α} {results : List β}
    {others : List γ} (hR : List.Forall₂ R items results) (hS : List.Forall₂ S items others) :
    List.Forall₂ (fun a pair => R a pair.1 ∧ S a pair.2) items (results.zip others) := by
  induction hR generalizing others with
  | nil => exact .nil
  | cons hab _ ih =>
    cases hS with
    | cons hac hS => exact .cons ⟨hab, hac⟩ (ih hS)

theorem exists_of_mapM_error {f : α → Except ε β} {items : List α} {error : ε}
    (h : items.mapM f = .error error) : ∃ item ∈ items, f item = .error error := by
  induction items with
  | nil => cases h
  | cons item rest ih =>
    simp only [List.mapM_cons, bind_error] at h
    rcases h with hitem | ⟨b, -, hrest | ⟨results, -, hpure⟩⟩
    · exact ⟨item, List.mem_cons_self, hitem⟩
    · obtain ⟨other, hmem, hother⟩ := ih hrest
      exact ⟨other, List.mem_cons_of_mem _ hmem, hother⟩
    · cases hpure

/-- Two runs over items that fail alike fail with the same error. -/
theorem mapM_error {f : α → Except ε β} {g : γ → Except ε δ} {items : List α} {others : List γ}
    (h : List.Forall₂ (fun a c => ∀ error, f a = .error error ↔ g c = .error error) items others)
    {error : ε} (herror : items.mapM f = .error error) : others.mapM g = .error error := by
  induction h with
  | nil => cases herror
  | @cons a c rest _ halike _ ih =>
    rw [List.mapM_cons] at herror ⊢
    cases ha : f a with
    | error =>
      rw [ha] at herror
      cases herror
      rw [(halike error).mp ha]
      rfl
    | ok =>
      rw [ha] at herror
      cases hrest : rest.mapM f with
      | ok =>
        rw [hrest] at herror
        cases herror
      | error =>
        rw [hrest] at herror
        cases herror
        cases hc : g c with
        | ok =>
          rw [ih hrest]
          rfl
        | error other => exact absurd ((halike other).mpr hc) (by rw [ha]; nofun)

/-- `F` leads down and `G` leads right. From there `H` leads right and `K` leads
down, and the two ways meet. -/
theorem exists_forall₂_square {F : α → β → Prop} {G : α → γ → Prop} {H : β → δ → Prop}
    {K : γ → δ → Prop} {items : List α} {below : List β} {right : List γ}
    (hF : List.Forall₂ F items below) (hG : List.Forall₂ G items right)
    (h : ∀ a ∈ items, ∀ b c, F a b → G a c → ∃ d, H b d ∧ K c d) :
    ∃ corner, List.Forall₂ H below corner ∧ List.Forall₂ K right corner := by
  induction hF generalizing right with
  | nil =>
    cases hG
    exact ⟨[], .nil, .nil⟩
  | cons hab _ ih =>
    cases hG with
    | cons hac hG =>
      obtain ⟨hitem, hrest⟩ := List.forall_mem_cons.mp h
      obtain ⟨d, hbd, hcd⟩ := hitem _ _ hab hac
      obtain ⟨corner, hbelow, hright⟩ := ih hG hrest
      exact ⟨d :: corner, .cons hbd hbelow, .cons hcd hright⟩

theorem forM_ok {f : α → Except ε Unit} {items : List α} {u : Unit} :
    items.forM f = .ok u ↔ ∀ item ∈ items, f item = .ok () := by
  induction items with
  | nil => simp [pure_ok]
  | cons item rest ih =>
    simp only [List.forM_eq_forM] at ih
    simp only [List.forM_eq_forM, List.forM_cons, bind_ok, ih, List.mem_cons, forall_eq_or_imp]
    constructor
    · rintro ⟨_, hitem, hrest⟩
      exact ⟨hitem, hrest⟩
    · rintro ⟨hitem, hrest⟩
      exact ⟨(), hitem, hrest⟩

theorem forM_congr {f g : α → Except ε Unit} {items : List α}
    (h : ∀ item ∈ items, f item = g item) : items.forM f = items.forM g := by
  induction items with
  | nil => rfl
  | cons item rest ih =>
    obtain ⟨hitem, hrest⟩ := List.forall_mem_cons.mp h
    simp only [List.forM_eq_forM] at ih
    simp only [List.forM_eq_forM, List.forM_cons, hitem, ih hrest]

theorem exists_of_forM_error {f : α → Except ε Unit} {items : List α} {error : ε}
    (h : items.forM f = .error error) : ∃ item ∈ items, f item = .error error := by
  induction items with
  | nil => cases h
  | cons item rest ih =>
    simp only [List.forM_eq_forM, List.forM_cons, bind_error] at h
    rcases h with hitem | ⟨_, -, hrest⟩
    · exact ⟨item, List.mem_cons_self, hitem⟩
    · obtain ⟨other, hmem, hother⟩ := ih hrest
      exact ⟨other, List.mem_cons_of_mem _ hmem, hother⟩

end BlockTensor
