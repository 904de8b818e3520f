import OreoTxn.TimeSource
import OreoTxn.Transaction
import OreoTxn.Commit
import OreoTxn.OnePhaseCommit
import OreoTxn.Run
import OreoTxn.CommitPoint
import OreoTxn.CommitPhase
import OreoTxn.CommitOnce
import OreoTxn.AbortOnce
import OreoTxn.StartGuard
import OreoTxn.Durability
import OreoTxn.Completion
import OreoTxn.Protocol
import OreoTxn.Refinement
import OreoTxn.Atomicity
import OreoTxn.Remote
