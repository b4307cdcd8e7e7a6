import FrankenSim.Library.Runs
import FrankenSim.Library.Words
import FrankenSim.Library.ExactFloat
import FrankenSim.Library.Binary64
import FrankenSim.Library.Propagation
import FrankenSim.Library.Closure
import FrankenSim.Library.Keyed
import FrankenSim.Library.SortedMap
import FrankenSim.Library.Envelope
import FrankenSim.Library.MerkleStack
import FrankenSim.Library.Refusals
import FrankenSim.Library.DiagonalForms
import FrankenSim.Library.Presentations
import FrankenSim.Library.LineOperations
import FrankenSim.Library.PivotTables
import FrankenSim.Library.Overwrites
import FrankenSim.Library.PrefixCodes
import FrankenSim.Library.StableSort
import FrankenSim.Library.Slots
import FrankenSim.Library.Accumulate
import FrankenSim.Library.Scoped
import FrankenSim.Library.Stores
import FrankenSim.Library.BinarySearch
import FrankenSim.Library.Groups
import FrankenSim.Library.Polls
import FrankenSim.Library.Chains
import FrankenSim.Library.UnionFind
import FrankenSim.Library.Components
import FrankenSim.Library.CountingSort
import FrankenSim.Library.Decimals
import FrankenSim.Library.Lines
import FrankenSim.Smith.Matrices
import FrankenSim.Smith.Verification
import FrankenSim.Smith.Witnesses
import FrankenSim.Smith.Construction
import FrankenSim.Smith.Elementary
import FrankenSim.Smith.Reduction
import FrankenSim.Lease.Identity
import FrankenSim.Lease.Receipts
import FrankenSim.Lease.State
import FrankenSim.Lease.Transfers
import FrankenSim.Lease.Machine
import FrankenSim.Lease.Accounts
import FrankenSim.Lease.Effects
import FrankenSim.Lease.Booking
import FrankenSim.Lease.Operations
import FrankenSim.Lease.Conservation
import FrankenSim.Lease.Sealing
import FrankenSim.Blake3.Compression
import FrankenSim.Blake3.Hasher
import FrankenSim.Blake3.Tree
import FrankenSim.Blake3.Streaming
import FrankenSim.Recompute.Record
import FrankenSim.Recompute.Semantic
import FrankenSim.Recompute.Store
import FrankenSim.Recompute.Invalidate
import FrankenSim.Recompute.Api
import FrankenSim.Recompute.Effects
import FrankenSim.Recompute.WellFormed
import FrankenSim.Recompute.Eviction
import FrankenSim.Recompute.Coverage
import FrankenSim.Recompute.Slack
import FrankenSim.Recompute.Frontier
import FrankenSim.Recompute.Verdicts
import FrankenSim.Recompute.Soundness
import FrankenSim.Recompute.Staleness
import FrankenSim.Recompute.Commits
import FrankenSim.Recompute.Migration
import FrankenSim.Recompute.Preimages
import FrankenSim.Recompute.Distinct
import FrankenSim.Recompute.Rows
import FrankenSim.Recompute.Snapshot
import FrankenSim.Race.Protocol
import FrankenSim.Race.Victory
import FrankenSim.Race.Progress
import FrankenSim.Race.Reports
import FrankenSim.Evidence.Identity
import FrankenSim.Evidence.Derived
import FrankenSim.Evidence.Color
import FrankenSim.Evidence.Composition
import FrankenSim.Revolve.Chain
import FrankenSim.Revolve.Treeverse
import FrankenSim.Revolve.Spill
import FrankenSim.Revolve.Binomial
import FrankenSim.Revolve.Capacity
import FrankenSim.Revolve.Schedule
import FrankenSim.Revolve.Plans
import FrankenSim.Revolve.Equivalence
import FrankenSim.Revolve.Optimality
import FrankenSim.Revolve.Invisible
import FrankenSim.Sparse.Csr
import FrankenSim.Sparse.Coo
import FrankenSim.Sparse.Tiles
import FrankenSim.Sparse.Parallel
import FrankenSim.Sparse.Kernels
import FrankenSim.Sparse.Compact
import FrankenSim.Sparse.Sell
import FrankenSim.Sparse.Packed
import FrankenSim.Sparse.Sliced
import FrankenSim.Sparse.Agreement
import FrankenSim.Sparse.Assembly
import FrankenSim.Sparse.Transpose
import FrankenSim.Sparse.Symmetrize
import FrankenSim.Sparse.RoundTrip
import FrankenSim.Sparse.Gustavson
import FrankenSim.Sparse.Products
import FrankenSim.Library.EliminationTree
import FrankenSim.Sparse.MinimumDegree
import FrankenSim.Sparse.Adjacency
import FrankenSim.Sparse.Passes
import FrankenSim.Sparse.QuotientGraph
import FrankenSim.Sparse.Ordering
import FrankenSim.Sparse.Symbolic
import FrankenSim.Sparse.EliminationForest
import FrankenSim.Sparse.ColumnStructure
import FrankenSim.Sparse.Postorder
import FrankenSim.Sparse.Orders
import FrankenSim.Sparse.Partition
import FrankenSim.Sparse.Analysis
import FrankenSim.Sparse.SymbolicLdlt
import FrankenSim.Relative.Complex
import FrankenSim.Relative.Boundary
import FrankenSim.Relative.Extraction
import FrankenSim.Relative.Transport
import FrankenSim.Relative.ChainComplex
import FrankenSim.Relative.Homology
import FrankenSim.Relative.Generators
import FrankenSim.Relative.Periods
import FrankenSim.Relative.Classes
import FrankenSim.Voxel.Field
import FrankenSim.Library.Elders
import FrankenSim.Voxel.Grid
import FrankenSim.Voxel.ElderSweep
import FrankenSim.Voxel.Barcode
import FrankenSim.Voxel.ElderRule
import FrankenSim.Voxel.Solid
import FrankenSim.Voxel.Census
import FrankenSim.Voxel.Betti
import FrankenSim.Ir.Ast
import FrankenSim.Ir.Numerals
import FrankenSim.Ir.Counts
import FrankenSim.Ir.JsonString
import FrankenSim.Ir.JsonSyntax
import FrankenSim.Ir.Atoms
import FrankenSim.Ir.Forms
import FrankenSim.Ir.Sexpr
import FrankenSim.Ir.JsonReader
import FrankenSim.Ir.Spans
import FrankenSim.Library.Radix
import FrankenSim.Ir.Printer
import FrankenSim.Ir.PrintedNumbers
import FrankenSim.Ir.PrintedLeaves
import FrankenSim.Ir.RoundTrip
import FrankenSim.Ir.Translation
import FrankenSim.Library.TopologicalOrder
import FrankenSim.Tropical.TaskDag
import FrankenSim.Tropical.Topology
import FrankenSim.Library.Extrema
import FrankenSim.Tropical.Finishes
import FrankenSim.Tropical.Paths
import FrankenSim.Tropical.CriticalPath
import FrankenSim.Tropical.TuneNext
import FrankenSim.Library.CycleMeans
import FrankenSim.Tropical.CycleMean
import FrankenSim.Tropical.Karp
import FrankenSim.Tropical.SimpleCycles
import FrankenSim.Library.BitParities
import FrankenSim.Library.PascalSystems
import FrankenSim.Qmc.Sobol
import FrankenSim.Qmc.Directions
import FrankenSim.Qmc.Scramble
import FrankenSim.Qmc.Nets
import FrankenSim.Library.Limbs
import FrankenSim.Library.Resumption
import FrankenSim.Cbc.LimbKernel
import FrankenSim.Cbc.AddMultiply
import FrankenSim.Cbc.Slices
import FrankenSim.Cbc.ExactNat
import FrankenSim.Cbc.Ordering
import FrankenSim.Cbc.Scores
import FrankenSim.Cbc.Capacities
import FrankenSim.Cbc.Exactness
import FrankenSim.Library.Ranking
import FrankenSim.Cbc.Certificate
import FrankenSim.Cbc.Recompute
import FrankenSim.Cbc.Minimality
import FrankenSim.Library.ScaledOrder
import FrankenSim.CertKernel.Dyadic
import FrankenSim.CertKernel.Directed
import FrankenSim.CertKernel.Enclosures
import FrankenSim.Library.Meters
import FrankenSim.Library.Deletion
import FrankenSim.Restoration.Plan
import FrankenSim.Restoration.Budget
import FrankenSim.Restoration.Elastic
import FrankenSim.Restoration.Solves
import FrankenSim.Restoration.Diagnose
import FrankenSim.Restoration.Irreducible
import FrankenSim.Restoration.Contracts
