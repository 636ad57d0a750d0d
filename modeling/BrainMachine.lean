import BrainMachine.SortedTree
import BrainMachine.RunQueueAccounting
import BrainMachine.Fairness
import BrainMachine.MissedWakeups
import BrainMachine.Isolation
import BrainMachine.Transparency
import BrainMachine.StoreCoherence
import BrainMachine.ReferenceBalance
import BrainMachine.Rendezvous
import BrainMachine.HoleAccounting
import BrainMachine.LoaderFormat
import BrainMachine.SemaphoreWakeups
import BrainMachine.LocalRuns
import BrainMachine.Retries
import BrainMachine.Forking
import BrainMachine.FailedCalls
import BrainMachine.ExecLoading
import BrainMachine.WrapAround
import BrainMachine.Pinning
import BrainMachine.ExactArithmetic
import BrainMachine.StackArithmetic
import BrainMachine.LifoStack
import BrainMachine.SpaceCopy
import BrainMachine.Decisions
import BrainMachine.LoaderTermination
import BrainMachine.ThreeFrames
import BrainMachine.FailedReferences
import BrainMachine.BlockChoice
import BrainMachine.WordReading
import BrainMachine.WaitLists
import BrainMachine.RunQueueRefinement
import BrainMachine.ExactRefinement
import BrainMachine.OrderedLocks
import BrainMachine.ArrivalOrder
import BrainMachine.PrintedWords
import BrainMachine.StackSum
import BrainMachine.FairShare
