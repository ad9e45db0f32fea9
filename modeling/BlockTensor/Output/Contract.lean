import BlockTensor.Labels.Algebra
import BlockTensor.Labels.Construct
import BlockTensor.Named
import BlockTensor.Output.Kind
import BlockTensor.Output.Request
import BlockTensor.Output.Violation
import BlockTensor.Tensor.Lookup

/-!
# The output contract

`check` compares produced outputs with requested ones. In the order of their
names, every produced output must be requested and, unless it is empty, have
the expected element type; then every requested output must be produced and,
if it is standard, follow its layout: the single key, one sample per expected
system or atom, no components, the `energy` properties, and gradients of a
known layout. The first violation is reported.

The element type is looked up in the first block only.
-/

namespace BlockTensor.Output

def ofMetadata {α : Type} (result : Except Error α) : Except Violation α :=
  result.mapError .metadata

-- ---------------------------------------------------------------------------
-- Expected samples
-- ---------------------------------------------------------------------------

def atomEntries (system count : Nat) : Except Error (List Entry) := do
  let system ← labelValue system
  (List.range count).mapM fun atom => do pure [system, ← labelValue atom]

def allAtoms (counts : List Nat) : Except Error Labels := do
  let entries ← counts.zipIdx.mapM fun (count, system) => atomEntries system count
  Labels.ofFlat ["system", "atom"] entries.flatten.flatten

/-- The samples of an output: every atom or every system. A selection restricts
them to the selected atoms, or to the systems in which it selects some. -/
def expectedSamples (counts : List Nat) (perAtom : Bool) (selected : Option Labels) :
    Except Error Labels := do
  if perAtom then
    let all ← allAtoms counts
    match selected with
    | none => pure all
    | some selected => all.intersection selected
  else
    let all ← Labels.range "system" counts.length
    match selected with
    | none => pure all
    | some selected => all.intersection (← selected.select ["system"]).unique

def sampleNames (perAtom : Bool) : List String :=
  if perAtom then ["system", "atom"] else ["system"]

-- ---------------------------------------------------------------------------
-- Gradients
-- ---------------------------------------------------------------------------

/-- The sample names of a gradient, and the names of its components, each of
which counts from 0 to 2. -/
structure GradientLayout where
  samples : List String
  components : List String
  deriving DecidableEq, Repr

def gradientLayout? (parameter : String) : Option GradientLayout :=
  if parameter = "strain" then some ⟨["sample"], ["xyz_1", "xyz_2"]⟩
  else if parameter = "positions" then some ⟨["sample", "system", "atom"], ["xyz"]⟩
  else none

def checkGradientComponents (output parameter : String) (position : Nat) :
    List String → List Labels → Except Violation Unit
  | name :: names, component :: components => do
    let expected ← ofMetadata (Labels.range name 3)
    ensure (component = expected)
      (.components output (.gradientComponent parameter position name))
    checkGradientComponents output parameter (position + 1) names components
  | _, _ => .ok ()

def checkGradient (output : String) : String × Block → Except Violation Unit
  | (parameter, gradient) =>
    match gradientLayout? parameter with
    | none => .error (.gradient output parameter)
    | some layout => do
      ensure (gradient.samples.names = layout.samples)
        (.samples output (.gradientNames parameter layout.samples gradient.samples.names))
      ensure (gradient.components.length = layout.components.length)
        (.components output (.gradientCount parameter layout.components.length))
      checkGradientComponents output parameter 0 layout.components gradient.components

-- ---------------------------------------------------------------------------
-- Standard outputs
-- ---------------------------------------------------------------------------

/-- How many `energy` properties a block of this kind has: one, or for an
ensemble as many as its values have along the last axis. -/
def memberCount (kind : Kind) (block : Block) : Nat :=
  match kind with
  | .energyEnsemble => block.values.shape.getLastD 0
  | _ => 1

def propertiesText : Kind → String
  | .energyEnsemble => "`Labels('energy', [[0], ..., [n]])`"
  | _ => "`Labels('energy', [[0]])`"

def checkLayout (kind : Kind) (counts : List Nat) (request : Request) (selected : Option Labels)
    (output : Tensor) : Except Violation Unit := do
  let name := kind.name
  ensure (output.keys = .single) (.keys name)
  let block ← ofMetadata (output.blockAt 0)
  ensure (block.samples.names = sampleNames request.perAtom)
    (.samples name (.names (sampleNames request.perAtom) block.samples.names))
  let expected ← ofMetadata (expectedSamples counts request.perAtom selected)
  ensure (block.samples.entries.all expected.contains = true ∧
      block.samples.length = expected.length)
    (.samples name (.entries expected))
  ensure (block.components = []) (.components name .notEmpty)
  let properties ← ofMetadata (Labels.range "energy" (memberCount kind block))
  ensure (block.properties = properties) (.properties name (propertiesText kind))
  block.gradients.toList.forM (checkGradient name)

-- ---------------------------------------------------------------------------
-- All outputs
-- ---------------------------------------------------------------------------

def checkProduced (requested : Named Request) (expected : DType) :
    String × Tensor → Except Violation Unit
  | (name, output) => do
    ensure (requested.contains name) (.unrequested name)
    match output.blocks with
    | [] => pure ()
    | first :: _ =>
      ensure (first.values.dtype = expected)
        (.wrongDType name expected first.values.dtype)

def checkRequested (counts : List Nat) (selected : Option Labels) (outputs : Named Tensor) :
    String × Request → Except Violation Unit
  | (name, request) =>
    match outputs.find? name with
    | none => .error (.missing name)
    | some output =>
      let kind := Kind.ofName name
      if kind.isStandard then checkLayout kind counts request selected output else pure ()

/-- Checks the outputs produced for systems with these numbers of atoms. -/
def check (counts : List Nat) (requested : Named Request) (selected : Option Labels)
    (outputs : Named Tensor) (expected : DType) : Except Violation Unit := do
  outputs.items.forM (checkProduced requested expected)
  requested.items.forM (checkRequested counts selected outputs)

end BlockTensor.Output
