import Tasking.Transition
import Tasking.Fallible
import Tasking.Family
import Tasking.Lineage
import Tasking.WorkerTree
import Tasking.Faults
import Tasking.Loops
import Tasking.LoopSplitting
import Tasking.RuntimeState
import Tasking.Victims
import Tasking.LazyFutures
import Tasking.StealRequests
import Tasking.Runtime
import Tasking.TokenProtocol
import Tasking.TokenInvariant
import Tasking.Custody
import Tasking.Abstraction
import Tasking.LocalState
import Tasking.Handling
import Tasking.SimulationRules
import Tasking.RequestSimulation
import Tasking.LifelineSimulation
import Tasking.TaskSimulation
import Tasking.SearchSimulation
import Tasking.Refinement
import Tasking.Shutdown
import Tasking.TerminationDetection
import Tasking.RequestAccounting
import Tasking.TaskConservation
import Tasking.FutureDelivery
import Tasking.Lifelines
import Tasking.OneWorker
import Tasking.Reduction
import Tasking.Ring
import Tasking.Bytes
import Tasking.Channel
import Tasking.ChannelRange
import Tasking.ChannelCache
import Tasking.RingFullness
import Tasking.Deque
import Tasking.Ownership
import Tasking.Containers
import Tasking.TaskObjects
import Tasking.Backoff
import Tasking.BitSet
import Tasking.VictimChoice
import Tasking.Circulation
import Tasking.CirculationHistory
import Tasking.Startup
import Tasking.TreeWalks
import Tasking.EmptyLoops
import Tasking.EqualShares
import Tasking.AdaptiveSharing
import Tasking.ChannelArithmetic
import Tasking.CacheOwnership
import Tasking.FutureBytes
import Tasking.ScopedFutures
import Tasking.Kinship
import Tasking.Parenthood
import Tasking.TaskAddresses
import Tasking.Quiescence
import Tasking.Broadcast
import Tasking.Departure
import Tasking.BoundedQueue
import Tasking.RandomVictim
import Tasking.AdaptiveInterval
import Tasking.ForkJoin
import Tasking.WorkSteps
import Tasking.Programs
import Tasking.ProgramRefinement
import Tasking.ProgramMeaning
import Tasking.ProgramAssertions
import Tasking.RecursivePrograms
import Tasking.IdleSearch
import Tasking.BarrierProgress
import Tasking.MpmcProtocol
import Tasking.UnbufferedProtocol
