import ConcurrencyKit.Misc.KeyedSet
import ConcurrencyKit.Misc.Tally
import ConcurrencyKit.Misc.Contents
import ConcurrencyKit.Misc.Doubling
import ConcurrencyKit.Misc.Lookup
import ConcurrencyKit.Misc.Beside
import ConcurrencyKit.Misc.Threads
import ConcurrencyKit.Misc.Recording
import ConcurrencyKit.Misc.Serial
import ConcurrencyKit.Misc.Counter
import ConcurrencyKit.Misc.Window
import ConcurrencyKit.Misc.Linear
import ConcurrencyKit.Misc.Lifo
import ConcurrencyKit.Misc.Queue
import ConcurrencyKit.Misc.Packed
import ConcurrencyKit.Misc.Places
import ConcurrencyKit.Misc.Triangular
import ConcurrencyKit.Misc.Visits
import ConcurrencyKit.Misc.Fairness
import ConcurrencyKit.Misc.Turns
import ConcurrencyKit.Misc.Chain
import ConcurrencyKit.Misc.Traversal
import ConcurrencyKit.Misc.Search
import ConcurrencyKit.Misc.Guarded
import ConcurrencyKit.Internal
import ConcurrencyKit.Misc.Retry
import ConcurrencyKit.Pr
import ConcurrencyKit.Callbacks
import ConcurrencyKit.Arrays
import ConcurrencyKit.Bitmaps
import ConcurrencyKit.Bitmaps.Queries
import ConcurrencyKit.Hs.Map
import ConcurrencyKit.Hs.Operations
import ConcurrencyKit.Hs.Probe
import ConcurrencyKit.Hs.Invariant
import ConcurrencyKit.Hs.Stores
import ConcurrencyKit.Hs.Grow
import ConcurrencyKit.Hs.Gc
import ConcurrencyKit.Hs.Refinement
import ConcurrencyKit.Hs.Concurrent
import ConcurrencyKit.Rhs.Map
import ConcurrencyKit.Rhs.Operations
import ConcurrencyKit.Rhs.Stores
import ConcurrencyKit.Rhs.Grow
import ConcurrencyKit.Rhs.Relocation
import ConcurrencyKit.Rhs.Failure
import ConcurrencyKit.Rhs.Sequence
import ConcurrencyKit.Rhs.Paths
import ConcurrencyKit.Rhs.Probe
import ConcurrencyKit.Rhs.Wanted
import ConcurrencyKit.Rhs.Valid
import ConcurrencyKit.Rhs.Deletion
import ConcurrencyKit.Rhs.Chain
import ConcurrencyKit.Rhs.Calls
import ConcurrencyKit.Rhs.Slots
import ConcurrencyKit.Rhs.Counting
import ConcurrencyKit.Rhs.Filling
import ConcurrencyKit.Rhs.Insertion
import ConcurrencyKit.Rhs.Crowding
import ConcurrencyKit.Ht.Map
import ConcurrencyKit.Ht.Operations
import ConcurrencyKit.Ht.Probe
import ConcurrencyKit.Ht.Packing
import ConcurrencyKit.Ht.Invariant
import ConcurrencyKit.Ht.Stores
import ConcurrencyKit.Ht.Changes
import ConcurrencyKit.Ht.Grow
import ConcurrencyKit.Ht.Gc
import ConcurrencyKit.Ht.Refinement
import ConcurrencyKit.Ht.Reader
import ConcurrencyKit.Ht.Standing
import ConcurrencyKit.Ht.Snapshot
import ConcurrencyKit.Growth
import ConcurrencyKit.Misc.Cursor
import ConcurrencyKit.Iteration
import ConcurrencyKit.Rhs.Bounds
import ConcurrencyKit.Rhs.Shifting
import ConcurrencyKit.Rhs.Exchange
import ConcurrencyKit.Rhs.Lookup
import ConcurrencyKit.Rhs.Restarts
import ConcurrencyKit.Rhs.Refinement
import ConcurrencyKit.Strides
import ConcurrencyKit.Ring.Model
import ConcurrencyKit.Ring.Invariant
import ConcurrencyKit.Ring.Multi
import ConcurrencyKit.Ring.Single
import ConcurrencyKit.Ring.Sizes
import ConcurrencyKit.Ring.Checks
import ConcurrencyKit.Spinlock.Swap
import ConcurrencyKit.Fifo.Spsc
import ConcurrencyKit.Fifo.Locked
import ConcurrencyKit.Fifo.Mpmc.Model
import ConcurrencyKit.Fifo.Mpmc.Invariant
import ConcurrencyKit.Fifo.Mpmc.Runs
import ConcurrencyKit.Stack.Model
import ConcurrencyKit.Stack.Invariant
import ConcurrencyKit.Stack.Runs
import ConcurrencyKit.Stack.Grace
import ConcurrencyKit.Stack.Exclusive
import ConcurrencyKit.HpFifo.Model
import ConcurrencyKit.HpFifo.Invariant
import ConcurrencyKit.HpFifo.Runs
import ConcurrencyKit.HpStack.Model
import ConcurrencyKit.HpStack.Invariant
import ConcurrencyKit.HpStack.Runs
import ConcurrencyKit.EventCount.Format
import ConcurrencyKit.EventCount.Model
import ConcurrencyKit.EventCount.Value
import ConcurrencyKit.EventCount.Wait
import ConcurrencyKit.EventCount.Wake
import ConcurrencyKit.EventCount.Time
import ConcurrencyKit.EventCount.Backoff
import ConcurrencyKit.EventCount.Sleeps
import ConcurrencyKit.Bytelock.Model
import ConcurrencyKit.Bytelock.Exclusion
import ConcurrencyKit.Cohort.Model
import ConcurrencyKit.Cohort.Exclusion
import ConcurrencyKit.Cohort.Release
import ConcurrencyKit.RwCohort.Model
import ConcurrencyKit.RwCohort.Handshake
import ConcurrencyKit.RwCohort.Exclusion
import ConcurrencyKit.Swlock.Model
import ConcurrencyKit.Swlock.Exclusion
import ConcurrencyKit.Tflock.Model
import ConcurrencyKit.Tflock.Fairness
import ConcurrencyKit.Pflock.Model
import ConcurrencyKit.Pflock.Invariant
import ConcurrencyKit.Pflock.Fairness
import ConcurrencyKit.Pflock.Service
import ConcurrencyKit.Lists.Model
import ConcurrencyKit.Lists.Slist
import ConcurrencyKit.Lists.Stailq
import ConcurrencyKit.Lists.List
import ConcurrencyKit.Lists.Runs
import ConcurrencyKit.Lists.Edits
import ConcurrencyKit.Lists.Foreach
import ConcurrencyKit.Barrier.Roster
import ConcurrencyKit.Barrier.Centralized
import ConcurrencyKit.Barrier.Dissemination.Model
import ConcurrencyKit.Barrier.Dissemination.Separation
import ConcurrencyKit.Barrier.Mcs.Model
import ConcurrencyKit.Barrier.Mcs.Separation
import ConcurrencyKit.Barrier.Tournament.Model
import ConcurrencyKit.Barrier.Tournament.Roles
import ConcurrencyKit.Barrier.Tournament.Init
import ConcurrencyKit.Barrier.Tournament.Separation
import ConcurrencyKit.Barrier.Combining.Model
import ConcurrencyKit.Barrier.Combining.Tree
import ConcurrencyKit.Barrier.Combining.Invariant
import ConcurrencyKit.Barrier.Combining.Separation
import ConcurrencyKit.Misc.Line
import ConcurrencyKit.Hclh.Model
import ConcurrencyKit.Hclh.Invariant
import ConcurrencyKit.Hclh.Steps
import ConcurrencyKit.Hclh.Exclusion
import ConcurrencyKit.Spinlock.Dec
import ConcurrencyKit.Spinlock.Ticket
import ConcurrencyKit.Spinlock.Anderson
import ConcurrencyKit.Spinlock.Locked
import ConcurrencyKit.Spinlock.Served
import ConcurrencyKit.Spinlock.Clh
import ConcurrencyKit.Spinlock.Mcs
import ConcurrencyKit.Spinlock.QueueServed
import ConcurrencyKit.Sequence
import ConcurrencyKit.Epoch.Model
import ConcurrencyKit.Epoch.Sections
import ConcurrencyKit.Epoch.Ends
import ConcurrencyKit.Epoch.Grace.Model
import ConcurrencyKit.Epoch.Grace.Records
import ConcurrencyKit.Epoch.Grace.Ticks
import ConcurrencyKit.Epoch.Grace.Synchronize
import ConcurrencyKit.Epoch.Grace.TwoEpochs
import ConcurrencyKit.Epoch.Grace.Dispatch
import ConcurrencyKit.Epoch.Grace.Reclamation
import ConcurrencyKit.Epoch.Calls.Model
import ConcurrencyKit.Epoch.Calls.Accounting
import ConcurrencyKit.Rwlock.Model
import ConcurrencyKit.Rwlock.Handshake
import ConcurrencyKit.Rwlock.Exclusion
import ConcurrencyKit.Brlock.Model
import ConcurrencyKit.Brlock.Invariant
import ConcurrencyKit.Brlock.Exclusion
import ConcurrencyKit.Hp.Reclaim
import ConcurrencyKit.Hp.Protocol
import ConcurrencyKit.Hp.Safety
import ConcurrencyKit.Registry
