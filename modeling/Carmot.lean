import Carmot.Lib.Range
import Carmot.Lib.SortedMap
import Carmot.Texas.Pipeline
import Carmot.Texas.Producer
import Carmot.Texas.Threads
import Carmot.Texas.Proofs.CleanHistory
import Carmot.Texas.Proofs.Conservation
import Carmot.Texas.Proofs.FinalSets
import Carmot.Texas.Proofs.PointLookup
import Carmot.Texas.Proofs.Lookup
import Carmot.Texas.Proofs.Nesting
import Carmot.Texas.Proofs.Stream
import Carmot.Texas.Proofs.Classified
import Carmot.Texas.Proofs.EndToEnd
import Carmot.Texas.Proofs.Invocations
import Carmot.Texas.Proofs.Progress
import Carmot.Texas.Proofs.Window
import Carmot.Texas.Proofs.Agreement
import Carmot.Wrapper.Proofs.Callstack
import Carmot.Wrapper.Proofs.Backtrace
import Carmot.PrettyPrint.Proofs.FixSets
import Carmot.Pass.Proofs.TouchSameObject
import Carmot.Pass.Proofs.Instrument
import Carmot.Texas.Proofs.Frees
import Carmot.Texas.Proofs.Records
import Carmot.Wrapper.Proofs.Save
import Carmot.Wrapper.Proofs.SavedIds
import Carmot.Texas.Proofs.Thinned
import Carmot.Wrapper.Proofs.Filters
import Carmot.Texas.Proofs.HashLookup
import Carmot.Wrapper.Proofs.PinInterface
import Carmot.Pass.Proofs.StoreAutomaton
import Carmot.Pass.Proofs.OnlyRead
import Carmot.Pass.Proofs.Regions
import Carmot.Texas.Proofs.Scheduler
import Carmot.Wrapper.Proofs.SavedForm
import Carmot.MemTrace.Proofs.Log
import Carmot.Texas.Proofs.ShadowsAgree
import Carmot.Texas.Proofs.StatePacker
import Carmot.Pass.Proofs.DebugData
import Carmot.Pass.Proofs.LoadStoreFunctions
import Carmot.Pass.Proofs.UniqueCallstacks
import Carmot.Pass.Proofs.StoreElements
import Carmot.Pass.Proofs.StaticSizes
import Carmot.Texas.Proofs.Footprint
import Carmot.Wrapper.Proofs.FailedCalls
import Carmot.Wrapper.Proofs.LRUCache
import Carmot.Texas.Proofs.Connections
import Carmot.Texas.Proofs.States
import Carmot.Texas.Proofs.Interleavings
import Carmot.Texas.Proofs.Buffers
import Carmot.Texas.Proofs.WholeProgram
import Carmot.Texas.Proofs.Tracking
import Carmot.Texas.Proofs.WeakPoint
import Carmot.Pass.Proofs.Accesses
import Carmot.Pass.Proofs.SkippedUsage
import Carmot.Pass.Proofs.AccessesOnce
import Carmot.Linked.Calls
import Carmot.Linked.Proofs.Sources
