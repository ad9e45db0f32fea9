import BlockTensor.Output.Violation
import BlockTensor.Proofs.ByteOrder
import BlockTensor.Proofs.Output.Contract

/-!
# Rules in order

Outputs can break several rules at once, and one violation is reported. A rule
is given by the violations that report it as broken, and `FirstBroken` says what
the first broken one of a list of rules reports. A check that `Reports` a list
of rules is put together as the list is. Sweeps over names stop at the smallest
name with a fault.
-/

namespace BlockTensor

namespace Output

-- ---------------------------------------------------------------------------
-- Rules in order
-- ---------------------------------------------------------------------------

/-- A rule, as the violations that report it as broken. -/
abbrev Rule := Violation → Prop

def demand (wanted : Prop) (violation : Violation) : Rule :=
  fun found => ¬wanted ∧ violation = found

def makes {α : Type} (result : Except Error α) : Rule :=
  fun found => ∃ error, result = .error error ∧ .metadata error = found

def given {α : Type} (result : Except Error α) (rule : α → Rule) : Rule :=
  fun found => ∃ a, result = .ok a ∧ rule a found

def either (first second : Rule) : Rule :=
  fun found => first found ∨ second found

inductive FirstBroken : List Rule → Violation → Prop
  | here {rule : Rule} {rules : List Rule} {violation : Violation} :
      rule violation → FirstBroken (rule :: rules) violation
  | later {rule : Rule} {rules : List Rule} {violation : Violation} :
      (∀ other, ¬rule other) → FirstBroken rules violation → FirstBroken (rule :: rules) violation

theorem firstBroken_nil {violation : Violation} : ¬FirstBroken [] violation :=
  nofun

theorem firstBroken_cons {rule : Rule} {rules : List Rule} {violation : Violation} :
    FirstBroken (rule :: rules) violation ↔
      rule violation ∨ (∀ other, ¬rule other) ∧ FirstBroken rules violation := by
  constructor
  · rintro (hrule | ⟨hkept, hrules⟩)
    · exact .inl hrule
    · exact .inr ⟨hkept, hrules⟩
  · rintro (hrule | ⟨hkept, hrules⟩)
    · exact .here hrule
    · exact .later hkept hrules

theorem forall_not_firstBroken_cons {rule : Rule} {rules : List Rule} :
    (∀ violation, ¬FirstBroken (rule :: rules) violation) ↔
      (∀ violation, ¬rule violation) ∧ ∀ violation, ¬FirstBroken rules violation := by
  constructor
  · intro h
    have hkept : ∀ violation, ¬rule violation := fun violation hrule => h violation (.here hrule)
    exact ⟨hkept, fun violation hrules => h violation (.later hkept hrules)⟩
  · rintro ⟨hrule, hrules⟩ violation (hbroken | ⟨-, hbroken⟩)
    · exact hrule violation hbroken
    · exact hrules violation hbroken

theorem firstBroken_append {before after : List Rule} {violation : Violation} :
    FirstBroken (before ++ after) violation ↔ FirstBroken before violation ∨
      (∀ other, ¬FirstBroken before other) ∧ FirstBroken after violation := by
  induction before with
  | nil => simp [firstBroken_nil]
  | cons rule rules ih =>
    rw [List.cons_append, firstBroken_cons, firstBroken_cons, forall_not_firstBroken_cons, ih]
    tauto

-- ---------------------------------------------------------------------------
-- Checks that report the first broken rule
-- ---------------------------------------------------------------------------

def Reports (check : Except Violation Unit) (rules : List Rule) : Prop :=
  ∀ violation, check = .error violation ↔ FirstBroken rules violation

namespace Reports

variable {α : Type} {first second check : Except Violation Unit} {before after rules : List Rule}

theorem ok_iff (h : Reports check rules) :
    check = .ok () ↔ ∀ violation, ¬FirstBroken rules violation :=
  eq_ok_iff.trans (forall_congr' fun violation => not_congr (h violation))

theorem nil : Reports (pure ()) [] := by
  intro violation
  simp [pure, Except.pure, firstBroken_nil]

/-- What is checked second needs to follow its rules only if the first check passes. -/
theorem append (hfirst : Reports first before) (hsecond : first = .ok () → Reports second after) :
    Reports (do first; second) (before ++ after) := by
  intro violation
  rw [firstBroken_append, ← hfirst.ok_iff, ← hfirst violation, bind_error]
  refine or_congr_right ⟨?_, ?_⟩
  · rintro ⟨⟨⟩, hok, herror⟩
    exact ⟨hok, (hsecond hok violation).mp herror⟩
  · rintro ⟨hok, hbroken⟩
    exact ⟨(), hok, (hsecond hok violation).mpr hbroken⟩

theorem single {holds wanted : Prop} [Decidable holds] {violation : Violation}
    (hiff : holds ↔ wanted) : Reports (ensure holds violation) [demand wanted violation] := by
  intro found
  simp [ensure_error, firstBroken_cons, firstBroken_nil, demand, hiff]

theorem cons {holds wanted : Prop} [Decidable holds] {violation : Violation}
    (hiff : holds ↔ wanted) (h : wanted → Reports second rules) :
    Reports (do ensure holds violation; second) (demand wanted violation :: rules) :=
  (single hiff).append fun hok => h (hiff.mp (ensure_ok.mp hok))

/-- A rule that is kept anyway needs no check. -/
theorem kept {wanted : Prop} {violation : Violation} (hwanted : wanted)
    (h : Reports check rules) : Reports check (demand wanted violation :: rules) := by
  intro found
  simp [firstBroken_cons, demand, hwanted, h found]

theorem metadata {result : Except Error α} {f : α → Except Violation Unit}
    (h : ∀ a, result = .ok a → Reports (f a) rules) :
    Reports (ofMetadata result >>= f) (makes result :: rules) := by
  intro violation
  cases hresult : result with
  | error error =>
    simp [ofMetadata, Except.mapError, Except.bind, Bind.bind, firstBroken_cons, makes]
  | ok a =>
    have hrest := h a hresult violation
    simpa [ofMetadata, Except.mapError, Except.bind, Bind.bind, firstBroken_cons, makes] using hrest

/-- Two rules that are not broken at once are one rule. -/
theorem merge {rule other : Rule} (h : Reports check (rule :: other :: rules))
    (hdisjoint : ∀ violation found, rule violation → ¬other found) :
    Reports check (either rule other :: rules) := by
  intro violation
  have hkept : other violation → ∀ found, ¬rule found :=
    fun hother found hrule => hdisjoint found violation hrule hother
  simp only [h violation, firstBroken_cons, either, not_or, forall_and]
  tauto

theorem flatMap {β : Type} {items : List β} {checkItem : β → Except Violation Unit}
    {itemRules : β → List Rule} (h : ∀ item ∈ items, Reports (checkItem item) (itemRules item)) :
    Reports (items.forM checkItem) (items.flatMap itemRules) := by
  induction items with
  | nil => exact nil
  | cons item rest ih =>
    obtain ⟨hitem, hrest⟩ := List.forall_mem_cons.mp h
    exact hitem.append fun _ => ih hrest

end Reports

theorem given_ok {α : Type} {result : Except Error α} {a : α} (h : result = .ok a)
    (rule : α → Rule) : given result rule = rule a := by
  funext found
  simp [given, h]

-- ---------------------------------------------------------------------------
-- Sweeps over names
-- ---------------------------------------------------------------------------

/-- What the smallest faulty name reports. Names are compared by their bytes. -/
def LeastFault (fault : String → Violation → Prop) (violation : Violation) : Prop :=
  ∃ name, fault name violation ∧ ∀ other found, fault other found → textBytes name ≤ textBytes other

theorem forM_error_iff {α : Type} {items : List (String × α)} (h : Ascending items)
    {f : String × α → Except Violation Unit} {violation : Violation} :
    items.forM f = .error violation ↔ ∃ item ∈ items, f item = .error violation ∧
      ∀ other ∈ items, other.1 < item.1 → f other = .ok () := by
  induction items with
  | nil => simp [Pure.pure, Except.pure]
  | cons head rest ih =>
    obtain ⟨hhead, hrest⟩ := List.pairwise_cons.mp h
    simp only [List.forM_eq_forM] at ih
    simp only [List.forM_eq_forM, List.forM_cons, bind_error, ih hrest, List.mem_cons,
      forall_eq_or_imp, exists_eq_or_imp]
    constructor
    · rintro (herror | ⟨⟨⟩, hok, item, hmem, herror, hsmaller⟩)
      · refine .inl ⟨herror, fun hlt => absurd hlt (String.lt_irrefl _), fun other hmem hlt => ?_⟩
        exact absurd hlt (String.lt_asymm (hhead other hmem))
      · exact .inr ⟨item, hmem, herror, fun _ => hok, hsmaller⟩
    · rintro (⟨herror, -⟩ | ⟨item, hmem, herror, hok, hsmaller⟩)
      · exact .inl herror
      · exact .inr ⟨(), hok (hhead item hmem), item, hmem, herror, hsmaller⟩

/-- A sweep over named values fails at the smallest name that fails. -/
theorem sweep_error {α : Type} {map : Named α} {f : String × α → Except Violation Unit}
    {fault : String → Violation → Prop}
    (hfault : ∀ name found, fault name found ↔ ∃ value, map.find? name = some value ∧
      f (name, value) = .error found) {violation : Violation} :
    map.items.forM f = .error violation ↔ LeastFault fault violation := by
  rw [forM_error_iff map.ascending]
  simp only [LeastFault, hfault, Named.find?_eq_some_iff]
  constructor
  · rintro ⟨⟨name, value⟩, hmem, herror, hsmaller⟩
    refine ⟨name, ⟨value, hmem, herror⟩, ?_⟩
    rintro other found ⟨item, hother, hfound⟩
    refine List.not_lt.mp fun hlt => ?_
    have hok := hsmaller _ hother (textBytes_lt_iff.mp hlt)
    cases hok.symm.trans hfound
  · rintro ⟨name, ⟨value, hmem, herror⟩, hleast⟩
    refine ⟨_, hmem, herror, fun other hother hlt => eq_ok_iff.mpr fun found hfound => ?_⟩
    have hle := hleast _ _ ⟨_, hother, hfound⟩
    exact List.not_lt.mpr hle (textBytes_lt_iff.mpr hlt)

end Output

end BlockTensor
