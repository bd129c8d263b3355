import ImplicitTiling.Files.Tree
import ImplicitTiling.Loader.Run
import ImplicitTiling.Main
import ImplicitTiling.Proofs.Availability.EndToEnd
import ImplicitTiling.Proofs.Availability.Flattening
import ImplicitTiling.Proofs.Availability.Lengths
import ImplicitTiling.Proofs.Availability.Positions
import ImplicitTiling.Proofs.Availability.Quadrants
import ImplicitTiling.Proofs.Availability.Reduction
import ImplicitTiling.Proofs.Availability.Rows
import ImplicitTiling.Proofs.Availability.Splitting
import ImplicitTiling.Proofs.Bitset.Blocks
import ImplicitTiling.Proofs.Bitset.Packing
import ImplicitTiling.Proofs.Bitset.Subsets
import ImplicitTiling.Proofs.Files.Faults
import ImplicitTiling.Proofs.Files.Tree
import ImplicitTiling.Proofs.Generator.Completeness
import ImplicitTiling.Proofs.Generator.Delivery
import ImplicitTiling.Proofs.Json.Extent
import ImplicitTiling.Proofs.Json.Numerals
import ImplicitTiling.Proofs.Json.RoundTrip
import ImplicitTiling.Proofs.Loader.Bound
import ImplicitTiling.Proofs.Loader.Conservation
import ImplicitTiling.Proofs.Loader.Order
import ImplicitTiling.Proofs.Loader.Pending
import ImplicitTiling.Proofs.Loader.Priority
import ImplicitTiling.Proofs.Morton
import ImplicitTiling.Proofs.Morton.Descent
import ImplicitTiling.Proofs.Store.Answers
import ImplicitTiling.Proofs.Store.BlobFiles
import ImplicitTiling.Proofs.Store.BlobMap
import ImplicitTiling.Proofs.Store.Building
import ImplicitTiling.Proofs.Store.Consistency
import ImplicitTiling.Proofs.Store.Contract
import ImplicitTiling.Proofs.Store.Crowd
import ImplicitTiling.Proofs.Store.Exclusion
import ImplicitTiling.Proofs.Store.FailedSave
import ImplicitTiling.Proofs.Store.Failures
import ImplicitTiling.Proofs.Store.Healing
import ImplicitTiling.Proofs.Store.History
import ImplicitTiling.Proofs.Store.Nesting
import ImplicitTiling.Proofs.Store.Nodes
import ImplicitTiling.Proofs.Store.Occupied
import ImplicitTiling.Proofs.Store.OneThread
import ImplicitTiling.Proofs.Store.Progress
import ImplicitTiling.Proofs.Store.Recency
import ImplicitTiling.Proofs.Store.Recursion
import ImplicitTiling.Proofs.Store.Reuse
import ImplicitTiling.Proofs.Store.Service
import ImplicitTiling.Proofs.Store.Slots
import ImplicitTiling.Proofs.Store.Traversal
import ImplicitTiling.Proofs.Subtree.Chunks
import ImplicitTiling.Proofs.Subtree.Decoding
import ImplicitTiling.Proofs.Subtree.Description
import ImplicitTiling.Proofs.Subtree.Joining
import ImplicitTiling.Proofs.Subtree.Layout
import ImplicitTiling.Proofs.Subtree.Levels
import ImplicitTiling.Proofs.Subtree.Merging
import ImplicitTiling.Proofs.Subtree.Packing
import ImplicitTiling.Proofs.Subtree.Resolution
import ImplicitTiling.Proofs.Subtree.RoundTrip
import ImplicitTiling.Proofs.Subtree.Summaries
import ImplicitTiling.Proofs.Subtree.Truncation
import ImplicitTiling.Proofs.Subtree.Untrusted
import ImplicitTiling.Proofs.Tileset.RoundTrip
import ImplicitTiling.Proofs.Tileset.Templates
import ImplicitTiling.Store.LockTable
import ImplicitTiling.Store.MemoryCache
