import Multistage.Assoc
import Multistage.AttrDict
import Multistage.Buffer.Alloc
import Multistage.Buffer.Layout
import Multistage.Buffer.Views
import Multistage.Builder
import Multistage.Catalog
import Multistage.Context
import Multistage.Diagnostic
import Multistage.Encoding.Basic
import Multistage.Encoding.Permute
import Multistage.Encoding.Printer
import Multistage.Encoding.Swizzle
import Multistage.Failure
import Multistage.Graph.Basic
import Multistage.Graph.Clone
import Multistage.Graph.Create
import Multistage.Graph.Lemmas
import Multistage.Graph.Nesting
import Multistage.Graph.Path
import Multistage.Graph.Placement
import Multistage.Graph.Printer
import Multistage.Graph.Segments
import Multistage.Graph.Uses
import Multistage.Graph.Verify
import Multistage.Latency
import Multistage.Location
import Multistage.Loop.Distance
import Multistage.Loop.Options
import Multistage.Ops.Arith
import Multistage.Ops.Control
import Multistage.Ops.Kernel
import Multistage.Ops.Kinds
import Multistage.Ops.SharedMemory
import Multistage.Ops.TensorCore
import Multistage.Predication.Basic
import Multistage.Predication.Builtin
import Multistage.Predication.Mask
import Multistage.Predication.Registry
import Multistage.Predication.Strategy
import Multistage.Proofs.Buffer.Bracketing
import Multistage.Proofs.Buffer.CarefulViews
import Multistage.Proofs.Buffer.StageViewTypes
import Multistage.Proofs.Buffer.ViewBuilding
import Multistage.Proofs.Buffer.ViewProgress
import Multistage.Proofs.Buffer.ViewReplacement
import Multistage.Proofs.Buffer.ViewRun
import Multistage.Proofs.Buffer.ViewScopes
import Multistage.Proofs.Buffer.ViewSteps
import Multistage.Proofs.Buffer.ViewTree
import Multistage.Proofs.Buffer.ViewVerification
import Multistage.Proofs.Build.Advances
import Multistage.Proofs.Build.BlockFilling
import Multistage.Proofs.Build.Builder
import Multistage.Proofs.Build.BuilderSuccess
import Multistage.Proofs.Build.CarefulRuns
import Multistage.Proofs.Build.CreationOrder
import Multistage.Proofs.Build.Judgements
import Multistage.Proofs.Build.Reachable
import Multistage.Proofs.Build.TidyContexts
import Multistage.Proofs.Build.TidyFunctions
import Multistage.Proofs.Copy.CopyEdits
import Multistage.Proofs.Copy.CopyStages
import Multistage.Proofs.Copy.DeepCopies
import Multistage.Proofs.Copy.FreshNames
import Multistage.Proofs.Copy.PlantedCopies
import Multistage.Proofs.Encoding.DotUsers
import Multistage.Proofs.Encoding.LayoutChoice
import Multistage.Proofs.Encoding.MemoryOrders
import Multistage.Proofs.Encoding.OperandFeeds
import Multistage.Proofs.Encoding.Permutations
import Multistage.Proofs.Encoding.PermutedTypes
import Multistage.Proofs.Encoding.RegisterOrders
import Multistage.Proofs.Encoding.SwizzleParameters
import Multistage.Proofs.Encoding.TileFitting
import Multistage.Proofs.Encoding.Transposition
import Multistage.Proofs.Graph.BlockMembership
import Multistage.Proofs.Graph.EditSequences
import Multistage.Proofs.Graph.Edits
import Multistage.Proofs.Graph.Growth
import Multistage.Proofs.Graph.OpReplacement
import Multistage.Proofs.Graph.OperandChanges
import Multistage.Proofs.Graph.OperandSlots
import Multistage.Proofs.Graph.OrderlyGraphs
import Multistage.Proofs.Graph.Ownership
import Multistage.Proofs.Graph.Redirection
import Multistage.Proofs.Graph.SegmentFrames
import Multistage.Proofs.Graph.SegmentValues
import Multistage.Proofs.Graph.Segmentation
import Multistage.Proofs.Graph.Substitution
import Multistage.Proofs.Graph.Tables
import Multistage.Proofs.Graph.UseLists
import Multistage.Proofs.Loop.Distances
import Multistage.Proofs.Loop.Latencies
import Multistage.Proofs.Loop.Origins
import Multistage.Proofs.Loop.PartialLatencies
import Multistage.Proofs.OptionLists
import Multistage.Proofs.Predication.BranchSynthesis
import Multistage.Proofs.Predication.Branching
import Multistage.Proofs.Predication.ConditionalBuilding
import Multistage.Proofs.Predication.Conjunction
import Multistage.Proofs.Predication.EffectFreedom
import Multistage.Proofs.Predication.Effects
import Multistage.Proofs.Predication.FailedPredication
import Multistage.Proofs.Predication.Lanes
import Multistage.Proofs.Predication.Masking
import Multistage.Proofs.Predication.PredicationMoves
import Multistage.Proofs.Predication.Registration
import Multistage.Proofs.Predication.Suppression
import Multistage.Proofs.Predication.VerifiedPredication
import Multistage.Proofs.Printer.NameTables
import Multistage.Proofs.Printer.PrintedCopies
import Multistage.Proofs.Printer.PrintedNames
import Multistage.Proofs.Printer.PrintedOccurrences
import Multistage.Proofs.Printer.PrintedPhrases
import Multistage.Proofs.Text.EncodingTexts
import Multistage.Proofs.Text.Readings
import Multistage.Proofs.Text.TypeTexts
import Multistage.Proofs.Tree.CleanErasure
import Multistage.Proofs.Tree.Erasure
import Multistage.Proofs.Tree.Nesting
import Multistage.Proofs.Tree.PostOrder
import Multistage.Proofs.Tree.TreeOrder
import Multistage.Proofs.Tree.Undoing
import Multistage.Proofs.Tree.Walking
import Multistage.Proofs.Verify.Insertion
import Multistage.Proofs.Verify.Rewriting
import Multistage.Proofs.Verify.Verified
import Multistage.Proofs.Verify.VerifiedErasure
import Multistage.Proofs.Verify.VerifiedUses
import Multistage.Text.Printable
import Multistage.Text.Quoted
import Multistage.Ty.Basic
import Multistage.Ty.Layout
import Multistage.Ty.Printer
import Multistage.Word
