import SphSc.Lib.Exec
import SphSc.Lib.Probing
import SphSc.Capacity
import SphSc.Hashtable.Model
import SphSc.Hashtable.Refinement
import SphSc.Hashtable.Lookups
import SphSc.Hashtable.Passed
import SphSc.Ikv.Keys
import SphSc.Ikv.Freeing
import SphSc.Ikv.Filling
import SphSc.Ikv.Integers
import SphSc.Ikv.Nesting
import SphSc.Ikv.Repeats
import SphSc.Ikv.Collisions
import SphSc.Ikv.Mixing
import SphSc.Ikv.RoundTrip
import SphSc.Lib.Pieces
import SphSc.Lib.Displacement
import SphSc.Lib.Rounding
import SphSc.SphSet.Layout
import SphSc.SphSet.Refinement
import SphSc.SphSet.Slots
import SphSc.Removal
import SphSc.Options
import SphSc.Strings
import SphSc.Strings.Building
import SphSc.ReadPaths
import SphSc.Directories
import SphSc.Creation
import SphSc.SphArray
import SphSc.FloatSum
import SphSc.Growth
import SphSc.Lockstep
import SphSc.Memory
import SphSc.Memreg
import SphSc.SplinePath.Bounds
import SphSc.SplinePath.Cursor
import SphSc.SplinePath.Sampling
import SphSc.SplinePath.Memory
import SphSc.SplinePath.Sessions
import SphSc.SplinePath.Nested
import SphSc.SplinePath.Validate
import SphSc.SplinePath.Folds
import SphSc.SplinePath.Again
import SphSc.Queue
import SphSc.Quicksort
import SphSc.SList
import SphSc.Random.Bounded
import SphSc.Random.Doubles
import SphSc.Random.Equidistribution
import SphSc.Random.State
import SphSc.DList.Validate
import SphSc.Futures.Deinit
import SphSc.Futures.Orphans
import SphSc.Futures.Returning
import SphSc.Futures.Touching
import SphSc.ThreadPool.Accounting
import SphSc.ThreadPool.Finishing
import SphSc.ThreadPool.Handles
import SphSc.ThreadPool.Queued
import SphSc.ThreadPool.Shrinking
import SphSc.Lib.Fairness
import SphSc.Futures.Evaluated
