/-!
# Kinds of outputs

The name of an output determines its kind. Two names have a fixed layout, which
is checked; any other output is custom and is not.
-/

namespace BlockTensor.Output

inductive Kind where
  /-- One energy per system or atom. -/
  | energy
  /-- Several predictions of the energy per system or atom. -/
  | energyEnsemble
  | custom (name : String)
  deriving DecidableEq, Repr

namespace Kind

def ofName (name : String) : Kind :=
  if name = "energy" then energy
  else if name = "energy_ensemble" then energyEnsemble
  else custom name

def name : Kind → String
  | energy => "energy"
  | energyEnsemble => "energy_ensemble"
  | custom name => name

def isStandard : Kind → Bool
  | custom _ => false
  | _ => true

theorem name_ofName (text : String) : (ofName text).name = text := by
  unfold ofName
  split
  · simp_all [name]
  · split <;> simp_all [name]

end Kind

end BlockTensor.Output
