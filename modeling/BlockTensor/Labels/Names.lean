import BlockTensor.Check
import BlockTensor.Error

/-!
# Names of label columns

A name is an ASCII letter or underscore, then ASCII letters, digits and
underscores. A list of names is checked from the left: each name must be well
formed and new, and the first fault is reported. `checkNames_ok` says which
lists pass.
-/

namespace BlockTensor.Labels

def isName (text : String) : Bool :=
  match text.toList with
  | [] => false
  | first :: rest =>
    (first.isAlpha || first == '_') && rest.all fun c => c.isAlphanum || c == '_'

def checkNamesAfter (seen : List String) : List String → Except Error Unit
  | [] => .ok ()
  | name :: rest => do
    ensure (isName name) (.invalidLabels (.badName name))
    ensure (name ∉ seen) (.invalidLabels (.repeatedName name))
    checkNamesAfter (name :: seen) rest

def checkNames (names : List String) : Except Error Unit := do
  ensure (names ≠ []) (.invalidLabels .noNames)
  checkNamesAfter [] names

structure ValidNames (names : List String) : Prop where
  nonempty : names ≠ []
  wellFormed : ∀ name ∈ names, isName name = true
  distinct : names.Nodup

theorem checkNamesAfter_ok {seen names : List String} {u : Unit} :
    checkNamesAfter seen names = .ok u ↔
      (∀ name ∈ names, isName name = true ∧ name ∉ seen) ∧ names.Nodup := by
  induction names generalizing seen with
  | nil => simp [checkNamesAfter]
  | cons name rest ih =>
    simp only [checkNamesAfter, bind_ok, ensure_ok, ih, List.mem_cons, List.nodup_cons]
    constructor
    · rintro ⟨_, hname, _, hseen, hrest, hdistinct⟩
      refine ⟨?_, fun hmem => (hrest name hmem).2 (.inl rfl), hdistinct⟩
      rintro other (rfl | hmem)
      · exact ⟨hname, hseen⟩
      · exact ⟨(hrest other hmem).1, fun h => (hrest other hmem).2 (.inr h)⟩
    · rintro ⟨hall, hnew, hdistinct⟩
      refine ⟨(), (hall name (.inl rfl)).1, (), (hall name (.inl rfl)).2, ?_, hdistinct⟩
      intro other hmem
      refine ⟨(hall other (.inr hmem)).1, ?_⟩
      rintro (rfl | h)
      · exact hnew hmem
      · exact (hall other (.inr hmem)).2 h

theorem checkNames_ok {names : List String} {u : Unit} :
    checkNames names = .ok u ↔ ValidNames names := by
  simp only [checkNames, bind_ok, ensure_ok, checkNamesAfter_ok]
  constructor
  · rintro ⟨_, hne, hall, hdistinct⟩
    exact ⟨hne, fun name hmem => (hall name hmem).1, hdistinct⟩
  · rintro ⟨hne, hall, hdistinct⟩
    exact ⟨(), hne, fun name hmem => ⟨hall name hmem, by simp⟩, hdistinct⟩

end BlockTensor.Labels
