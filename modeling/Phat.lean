import Phat.Foundation.BigEndian
import Phat.Foundation.DepthFirst
import Phat.Foundation.DepthFirstReach
import Phat.Foundation.DepthFirstTotals
import Phat.Foundation.DepthFirstGradient
import Phat.Foundation.Store
import Phat.Foundation.Adjacency
import Phat.Foundation.RunLength
import Phat.Foundation.HashIndex
import Phat.Foundation.Side
import Phat.Rbtree
import Phat.Stream
import Phat.Crc32
import Phat.State
import Phat.Heap
import Phat.Look
import Phat.Layout
import Phat.Resolve
import Phat.Print
import Phat.Dump
import Phat.Header
import Phat.Machine
import Phat.Readers
import Phat.Choice
import Phat.Changes
import Phat.Binding
import Phat.Identity
import Phat.Naming
import Phat.Span
import Phat.Counting
import Phat.Strings
import Phat.Framing
import Phat.Containment
import Phat.Hierarchy
import Phat.Classes
import Phat.HeapGraph
import Phat.Deeds
import Phat.ArcArray
import Phat.Traversal
import Phat.Turns
import Phat.Retained
import Phat.Arcs
import Phat.Sizes
import Phat.Accesses
import Phat.Footprint
import Phat.Initialised
import Phat.Superclasses
import Phat.Independence
import Phat.Repetition
import Phat.Varrays
import Phat.Widths
import Phat.Listing
import Phat.ArrayClasses
import Phat.Decoding
import Phat.Longs
import Phat.Closure
import Phat.Printing
import Phat.Reachability
import Phat.Nesting
import Phat.Fuel
import Phat.Looking
import Phat.Ledger
import Phat.SubRecords
import Phat.Pieces
import Phat.Forward
import Phat.Elements
import Phat.Ending
import Phat.Version
import Phat.ClassDump
import Phat.HeapTable
import Phat.Records
import Phat.Reached
import Phat.Foundation.Links
import Phat.Foundation.KeyedInsertion
import Phat.TreeWalks
import Phat.Foundation.Topological
import Phat.MapGraph
import Phat.SizeTable
import Phat.ArcSort
import Phat.Numbering
import Phat.Propagation
import Phat.Cycles
import Phat.Foundation.PointerTree
import Phat.Foundation.Dictionaries
import Phat.Balance
import Phat.Deletion
import Phat.Trbt
import Phat.TrbtShape
import Phat.TrbtInsertion
import Phat.TrbtDeletion
import Phat.TrbtRemoval
import Phat.TrbtWalks
import Phat.TrbtState
import Phat.TrbtRuns
import Phat.TrbtHistories
import Phat.TrbtDestruction
import Phat.ArrayKeys
import Phat.Talloc
import Phat.TallocLists
import Phat.TallocRuns
