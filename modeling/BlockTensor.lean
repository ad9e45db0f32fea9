import BlockTensor.Archive.Basic
import BlockTensor.Array.Values
import BlockTensor.Atoms
import BlockTensor.Block.Valid
import BlockTensor.Block.Values
import BlockTensor.Labels.Algebra
import BlockTensor.Labels.Construct
import BlockTensor.Labels.Index
import BlockTensor.Labels.Lookup
import BlockTensor.Layer.Keyed
import BlockTensor.Logging
import BlockTensor.Metadata.Split
import BlockTensor.Output.Contract
import BlockTensor.Output.Request
import BlockTensor.Proofs.Archive.Files
import BlockTensor.Proofs.Archive.Forms
import BlockTensor.Proofs.Archive.Framing
import BlockTensor.Proofs.Archive.Header
import BlockTensor.Proofs.Archive.Normal
import BlockTensor.Proofs.Archive.ReadBack
import BlockTensor.Proofs.Archive.Records
import BlockTensor.Proofs.Archive.RoundTrip
import BlockTensor.Proofs.Array.Addition
import BlockTensor.Proofs.Array.Elements
import BlockTensor.Proofs.Array.Gather
import BlockTensor.Proofs.Array.Layout
import BlockTensor.Proofs.Array.Picked
import BlockTensor.Proofs.Array.Reversed
import BlockTensor.Proofs.Array.Rows
import BlockTensor.Proofs.Array.Select
import BlockTensor.Proofs.Array.ShapeLimits
import BlockTensor.Proofs.Array.Slices
import BlockTensor.Proofs.ArrayLaws
import BlockTensor.Proofs.Attach
import BlockTensor.Proofs.BlockLaws
import BlockTensor.Proofs.ByteOrder
import BlockTensor.Proofs.CanonicalRows
import BlockTensor.Proofs.Comparisons
import BlockTensor.Proofs.CompatibleGradients
import BlockTensor.Proofs.Consistency
import BlockTensor.Proofs.Construction
import BlockTensor.Proofs.GradientTree
import BlockTensor.Proofs.Json.Literals
import BlockTensor.Proofs.Json.Tokens
import BlockTensor.Proofs.Json.Values
import BlockTensor.Proofs.LabelAlgebra
import BlockTensor.Proofs.LabelIndex
import BlockTensor.Proofs.LabelLaws
import BlockTensor.Proofs.Layer.Locality
import BlockTensor.Proofs.Layer.Rows
import BlockTensor.Proofs.Layer.Split
import BlockTensor.Proofs.Layer.Success
import BlockTensor.Proofs.Layer.Tree
import BlockTensor.Proofs.Layer.Widths
import BlockTensor.Proofs.LayerLaws
import BlockTensor.Proofs.Output.Contract
import BlockTensor.Proofs.Output.ElementTypes
import BlockTensor.Proofs.Output.ExpectedSamples
import BlockTensor.Proofs.Output.FieldTexts
import BlockTensor.Proofs.Output.MalformedSelections
import BlockTensor.Proofs.Output.Precedence
import BlockTensor.Proofs.Output.RequestTexts
import BlockTensor.Proofs.Output.Rules
import BlockTensor.Proofs.Paths
import BlockTensor.Proofs.Projections
import BlockTensor.Proofs.SameMetadata
import BlockTensor.Proofs.Selections
import BlockTensor.Proofs.Split.Arithmetic
import BlockTensor.Proofs.Split.Commute
import BlockTensor.Proofs.Split.Elementwise
import BlockTensor.Proofs.Split.Kept
import BlockTensor.Proofs.Split.Lines
import BlockTensor.Proofs.Split.Outcome
import BlockTensor.Proofs.Split.Partition
import BlockTensor.Proofs.Split.Parts
import BlockTensor.Proofs.Split.Renumbering
import BlockTensor.Proofs.Split.Unique
import BlockTensor.Proofs.SplitLaws
import BlockTensor.Proofs.Sums
import BlockTensor.Proofs.TensorLaws
import BlockTensor.Proofs.UniqueMetadata
import BlockTensor.Proofs.ValueOperations
import BlockTensor.Proofs.WordIndex
import BlockTensor.Tensor.Arithmetic
import BlockTensor.Tensor.Lookup
import BlockTensor.Tensor.Valid
