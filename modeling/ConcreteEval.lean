import ConcreteEval.Prog
import ConcreteEval.Discipline
import ConcreteEval.StdMap
import ConcreteEval.ConcolicTypes
import ConcreteEval.DrApi
import ConcreteEval.World
import ConcreteEval.Client
import ConcreteEval.Machine
import ConcreteEval.Protocol
import ConcreteEval.Turns
import ConcreteEval.Suspension
import ConcreteEval.StopRecord
import ConcreteEval.Freshness
import ConcreteEval.LostStop
import ConcreteEval.Balance
import ConcreteEval.Alone
import ConcreteEval.Target
import ConcreteEval.Book
import ConcreteEval.Firing
import ConcreteEval.Activation
import ConcreteEval.Blocks
import ConcreteEval.Registers
import ConcreteEval.Independence
import ConcreteEval.Flushing
import ConcreteEval.Holder
import ConcreteEval.Deferral
import ConcreteEval.StopEvents
import ConcreteEval.Ledger
import ConcreteEval.Counts
import ConcreteEval.Elision
import ConcreteEval.Builds
import ConcreteEval.Assertions
import ConcreteEval.Translation
import ConcreteEval.Deletion
import ConcreteEval.Listing
import ConcreteEval.Thrift
import ConcreteEval.WeakOrder
import ConcreteEval.Decoding
import ConcreteEval.Ordering
import ConcreteEval.Rejection
import ConcreteEval.Instrumentation
import ConcreteEval.Relocation
import ConcreteEval.Results
import ConcreteEval.Service
import ConcreteEval.Session
import ConcreteEval.Connection
import ConcreteEval.Errors
import ConcreteEval.Critical
import ConcreteEval.History
import ConcreteEval.Serial
import ConcreteEval.Progress
import ConcreteEval.Observations
import ConcreteEval.Store
import ConcreteEval.Hits
import ConcreteEval.LastHit
import ConcreteEval.Schema
import ConcreteEval.Versions
