import RedGreen.Clients
import RedGreen.Script.Request
import RedGreen.Proofs.History
import RedGreen.Proofs.InFlight
import RedGreen.Proofs.Interleaving
import RedGreen.Proofs.Overlap
import RedGreen.Proofs.Concurrency
import RedGreen.Proofs.Recovery
import RedGreen.Proofs.Alone
import RedGreen.Proofs.Shortcuts
import RedGreen.Proofs.FailedCalls
import RedGreen.Proofs.Abandonment
import RedGreen.Proofs.Serial
import RedGreen.Proofs.Economy
import RedGreen.Proofs.Unaffected
import RedGreen.Proofs.SessionSteps
import RedGreen.Proofs.Changes
import RedGreen.Proofs.Stamps
import RedGreen.Proofs.Renewals
import RedGreen.Proofs.Edits
import RedGreen.Proofs.ActiveStack
import RedGreen.Proofs.Cancellation
import RedGreen.Proofs.DependencyEdges
import RedGreen.Proofs.Clearing
import RedGreen.Proofs.Conflicts
import RedGreen.Proofs.EveryRequestEnds
import RedGreen.Proofs.Equalities
import RedGreen.Proofs.Coherence
import RedGreen.Proofs.Codes
import RedGreen.Proofs.Quotients
import RedGreen.Proofs.QuotientWorlds
import RedGreen.Proofs.QuotientSteps
import RedGreen.Proofs.QuotientRuns
import RedGreen.Proofs.QuotientRequests
import RedGreen.Proofs.EarlyCutoff
import RedGreen.Proofs.Echoes
import RedGreen.Proofs.EntryLock
import RedGreen.Proofs.InputStore
import RedGreen.Proofs.CallChain
import RedGreen.Proofs.Recording
import RedGreen.Proofs.Independence
import RedGreen.Proofs.ImmediateCalls
import RedGreen.Proofs.Spans
import RedGreen.Proofs.PlainEnds
import RedGreen.Proofs.OutsideReads
import RedGreen.Proofs.Naming
