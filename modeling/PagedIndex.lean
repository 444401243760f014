import PagedIndex.Block
import PagedIndex.Disk
import PagedIndex.Fault
import PagedIndex.FixedPoint
import PagedIndex.FixedWidth.Basic
import PagedIndex.FixedWidth.FieldType
import PagedIndex.FixedWidth.Word
import PagedIndex.LittleEndian
import PagedIndex.Node.Arithmetic
import PagedIndex.Node.Capacities
import PagedIndex.Node.Header
import PagedIndex.Node.Inner
import PagedIndex.Node.Leaf
import PagedIndex.Node.Search
import PagedIndex.Page
import PagedIndex.PageId
import PagedIndex.Pool.Basic
import PagedIndex.Pool.Counters
import PagedIndex.Pool.Flush
import PagedIndex.Pool.Frame
import PagedIndex.Pool.Guards
import PagedIndex.Pool.Recency
import PagedIndex.Pool.Residency
import PagedIndex.Pool.Storage
import PagedIndex.Proofs.DiskContents
import PagedIndex.Proofs.DiskService
import PagedIndex.Proofs.Encoding
import PagedIndex.Proofs.Ends
import PagedIndex.Proofs.KeyOrder
import PagedIndex.Proofs.Node.Arithmetic
import PagedIndex.Proofs.Node.Capacities
import PagedIndex.Proofs.Node.Columns
import PagedIndex.Proofs.Node.Header
import PagedIndex.Proofs.Node.Inner
import PagedIndex.Proofs.Node.Layouts
import PagedIndex.Proofs.Node.Leaf
import PagedIndex.Proofs.Node.Links
import PagedIndex.Proofs.Node.Margin
import PagedIndex.Proofs.Node.Occupancy
import PagedIndex.Proofs.Node.Probing
import PagedIndex.Proofs.Node.Routing
import PagedIndex.Proofs.Node.Search
import PagedIndex.Proofs.Node.SortedEntries
import PagedIndex.Proofs.Node.SortedSeparators
import PagedIndex.Proofs.Pool.Availability
import PagedIndex.Proofs.Pool.Balance
import PagedIndex.Proofs.Pool.Contents
import PagedIndex.Proofs.Pool.Dirtying
import PagedIndex.Proofs.Pool.Durability
import PagedIndex.Proofs.Pool.Elsewhere
import PagedIndex.Proofs.Pool.Flushing
import PagedIndex.Proofs.Pool.Invariant
import PagedIndex.Proofs.Pool.LeastRecent
import PagedIndex.Proofs.Pool.Operations
import PagedIndex.Proofs.Pool.Outcomes
import PagedIndex.Proofs.Pool.RecencyList
import PagedIndex.Proofs.Pool.RecencyOrder
import PagedIndex.Proofs.Pool.Representation
import PagedIndex.Proofs.Pool.Transparency
import PagedIndex.Proofs.Pool.Watching
import PagedIndex.Proofs.SegmentBytes
import PagedIndex.Proofs.Slots
import PagedIndex.Proofs.Tree.Adoption
import PagedIndex.Proofs.Tree.Alike
import PagedIndex.Proofs.Tree.Asking
import PagedIndex.Proofs.Tree.CacheIndependence
import PagedIndex.Proofs.Tree.Calls
import PagedIndex.Proofs.Tree.Chains
import PagedIndex.Proofs.Tree.Commons
import PagedIndex.Proofs.Tree.Descents
import PagedIndex.Proofs.Tree.Effects
import PagedIndex.Proofs.Tree.Erase
import PagedIndex.Proofs.Tree.Exactness
import PagedIndex.Proofs.Tree.Fidelity
import PagedIndex.Proofs.Tree.Focus
import PagedIndex.Proofs.Tree.Footprints
import PagedIndex.Proofs.Tree.Grasp
import PagedIndex.Proofs.Tree.Growth
import PagedIndex.Proofs.Tree.Handover
import PagedIndex.Proofs.Tree.Heights
import PagedIndex.Proofs.Tree.Ideal
import PagedIndex.Proofs.Tree.InOrder
import PagedIndex.Proofs.Tree.Insert
import PagedIndex.Proofs.Tree.Inspect
import PagedIndex.Proofs.Tree.Isolation
import PagedIndex.Proofs.Tree.Levels
import PagedIndex.Proofs.Tree.Lookup
import PagedIndex.Proofs.Tree.Moments
import PagedIndex.Proofs.Tree.Nodes
import PagedIndex.Proofs.Tree.Numbering
import PagedIndex.Proofs.Tree.Parents
import PagedIndex.Proofs.Tree.Partings
import PagedIndex.Proofs.Tree.Pins
import PagedIndex.Proofs.Tree.Reading
import PagedIndex.Proofs.Tree.Reopening
import PagedIndex.Proofs.Tree.Safety
import PagedIndex.Proofs.Tree.Scene
import PagedIndex.Proofs.Tree.Sentinel
import PagedIndex.Proofs.Tree.Sessions
import PagedIndex.Proofs.Tree.Shape
import PagedIndex.Proofs.Tree.Splits
import PagedIndex.Proofs.Tree.Trails
import PagedIndex.Proofs.Tree.Trimming
import PagedIndex.Proofs.Tree.Validate
import PagedIndex.SegmentStore
import PagedIndex.Tree.Access
import PagedIndex.Tree.Basic
import PagedIndex.Tree.Call
import PagedIndex.Tree.Erase
import PagedIndex.Tree.Insert
import PagedIndex.Tree.Inspect
import PagedIndex.Tree.Lookup
import PagedIndex.Violation
import PagedIndex.Volume.Basic
import PagedIndex.Volume.File
