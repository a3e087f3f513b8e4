import FinancialLedger.PodBytes
import FinancialLedger.PosixFile
import FinancialLedger.IndexChain
import FinancialLedger.LruSet
import FinancialLedger.StepRun
import FinancialLedger.Simulation
import FinancialLedger.Trapping
import FinancialLedger.ReflectedCrc
import FinancialLedger.CrcPolynomial
import FinancialLedger.PosixDir
import FinancialLedger.PosixCrash
import FinancialLedger.ViewMemory
import FinancialLedger.Types
import FinancialLedger.LedgerState
import FinancialLedger.Validation
import FinancialLedger.IdempotencyCache
import FinancialLedger.CacheRefinement
import FinancialLedger.RingBuffer
import FinancialLedger.RingLaps
import FinancialLedger.RingInvariant
import FinancialLedger.RingCapacity
import FinancialLedger.Crc32
import FinancialLedger.CrcRemainder
import FinancialLedger.WalCodec
import FinancialLedger.WalWriter
import FinancialLedger.WalReader
import FinancialLedger.WalScan
import FinancialLedger.WalRoundTrip
import FinancialLedger.WalReencode
import FinancialLedger.Snapshot
import FinancialLedger.SnapshotRace
import FinancialLedger.TrialBalance
import FinancialLedger.Corruption
import FinancialLedger.Recovery
import FinancialLedger.RecoveryLaws
import FinancialLedger.Engine
import FinancialLedger.SequentialLedger
import FinancialLedger.ApplyLaws
import FinancialLedger.EngineInvariants
import FinancialLedger.Overflow
import FinancialLedger.ExactValidation
import FinancialLedger.OverdraftDecision
import FinancialLedger.ApplyRange
import FinancialLedger.OverflowRun
import FinancialLedger.Durability
import FinancialLedger.CrashConsistency
import FinancialLedger.Interleaving
import FinancialLedger.Checkpoint
import FinancialLedger.LogPreservation
import FinancialLedger.Deduplication
import FinancialLedger.Publication
import FinancialLedger.RingProgress
import FinancialLedger.Clients
import FinancialLedger.Linearizability
import FinancialLedger.ClientProgress
import FinancialLedger.Driver
import FinancialLedger.DriverRun
import FinancialLedger.DriverProgress
import FinancialLedger.SnapshotCrash
import FinancialLedger.StoreCrash
import FinancialLedger.WeakRing
import FinancialLedger.WeakRingInvariant
import FinancialLedger.WeakThreads
import FinancialLedger.WeakThreadsInvariant
import FinancialLedger.WeakThreadsSteps
import FinancialLedger.WeakPublication
import FinancialLedger.WeakThreadsWriter
