import RecencyCache.Outline
import RecencyCache.Config
import RecencyCache.Fault
import RecencyCache.Callback
import RecencyCache.SlotList.Basic
import RecencyCache.SlotList.Lemmas
import RecencyCache.SlotList.Op
import RecencyCache.Metrics.Basic
import RecencyCache.Metrics.Report
import RecencyCache.Event
import RecencyCache.Cache.Basic
import RecencyCache.Cache.Effect
import RecencyCache.Cache.Operations
import RecencyCache.Cache.Op
import RecencyCache.Key
import RecencyCache.Script.Value
import RecencyCache.Script.Trace
import RecencyCache.Script.Predicate
import RecencyCache.Script.Callbacks
import RecencyCache.Script.Call
import RecencyCache.Script.Batch
import RecencyCache.Script.Command
import RecencyCache.Script.Session
import RecencyCache.Proofs.Keyed
import RecencyCache.Proofs.Metrics
import RecencyCache.Proofs.SlotList.Chain
import RecencyCache.Proofs.SlotList.Layout
import RecencyCache.Proofs.SlotList.Pairs
import RecencyCache.Proofs.Cache.Holds
import RecencyCache.Proofs.Sequence
import RecencyCache.Proofs.Sequence.Turns
import RecencyCache.Proofs.Sequence.Recency
import RecencyCache.Proofs.Sequence.History
import RecencyCache.Proofs.Sequence.Edits
import RecencyCache.Proofs.Sequence.Inclusion
import RecencyCache.Proofs.Sequence.Balance
import RecencyCache.Proofs.Sequence.Accesses
import RecencyCache.Proofs.Cache.Meets
import RecencyCache.Proofs.Cache.Operations
import RecencyCache.Proofs.Cache.Runs
import RecencyCache.Proofs.Cache.Recency
import RecencyCache.Proofs.Cache.Inclusion
import RecencyCache.Proofs.Cache.Balance
import RecencyCache.Proofs.Cache.Accesses
import RecencyCache.Proofs.Cache.Forms
import RecencyCache.Proofs.Cache.Atomic
import RecencyCache.Proofs.Cache.Sweeps
import RecencyCache.Proofs.Cache.Changes
import RecencyCache.Proofs.SlotList.Arena
import RecencyCache.Proofs.Cache.Arena
import RecencyCache.Proofs.Sequence.Lookups
import RecencyCache.Proofs.Cache.Lookups
import RecencyCache.Proofs.Sequence.Contents
import RecencyCache.Proofs.Sequence.Mixes
import RecencyCache.Proofs.Cache.Interleaving
import RecencyCache.Proofs.Cache.Notes
import RecencyCache.Proofs.Cache.Protocol
import RecencyCache.Proofs.Cache.OnDemand
import RecencyCache.Proofs.Cache.Removals
import RecencyCache.Proofs.Cache.Logs
import RecencyCache.Proofs.SlotList.Relocation
import RecencyCache.Proofs.SlotList.Strict
import RecencyCache.Proofs.SlotList.Links
import RecencyCache.Proofs.Cache.Strict
import RecencyCache.Proofs.Cache.Resolution
import RecencyCache.Proofs.Cache.Traversals
import RecencyCache.Proofs.Cache.Counters
