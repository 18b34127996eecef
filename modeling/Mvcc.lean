import Mvcc.Backend
import Mvcc.Bytes.Basic
import Mvcc.Bytes.Crc32
import Mvcc.Bytes.Decoder
import Mvcc.Bytes.Word
import Mvcc.Clock
import Mvcc.Database
import Mvcc.Engine.Basic
import Mvcc.Engine.Commit
import Mvcc.Engine.Error
import Mvcc.Engine.Lifecycle
import Mvcc.Engine.Open
import Mvcc.Engine.Session
import Mvcc.Json.Document
import Mvcc.Json.Quoted
import Mvcc.Json.Shape
import Mvcc.Json.Token
import Mvcc.Json.Value
import Mvcc.Medium
import Mvcc.OrderedMap
import Mvcc.Proofs.AllOrNothing
import Mvcc.Proofs.Annals
import Mvcc.Proofs.Catalog
import Mvcc.Proofs.Burst
import Mvcc.Proofs.Chain
import Mvcc.Proofs.ChainInvariant
import Mvcc.Proofs.Chains
import Mvcc.Proofs.Chronicle
import Mvcc.Proofs.CommitDecision
import Mvcc.Proofs.EarlyCheck
import Mvcc.Proofs.Engine
import Mvcc.Proofs.Grammar
import Mvcc.Proofs.Granted
import Mvcc.Proofs.Handmade
import Mvcc.Proofs.History
import Mvcc.Proofs.Intervals
import Mvcc.Proofs.Layout
import Mvcc.Proofs.Lifecycle
import Mvcc.Proofs.LoneWriter
import Mvcc.Proofs.OpenVersion
import Mvcc.Proofs.OrderedMap
import Mvcc.Proofs.Places
import Mvcc.Proofs.PrefixScan
import Mvcc.Proofs.Probe
import Mvcc.Proofs.Reader
import Mvcc.Proofs.Records
import Mvcc.Proofs.Recovery
import Mvcc.Proofs.Refinement
import Mvcc.Proofs.Remembered
import Mvcc.Proofs.Restart
import Mvcc.Proofs.ScanLog
import Mvcc.Proofs.Schedule
import Mvcc.Proofs.Serializability
import Mvcc.Proofs.Session
import Mvcc.Proofs.SnapshotReads
import Mvcc.Proofs.SettingsDocument
import Mvcc.Proofs.Sound
import Mvcc.Proofs.Statistics
import Mvcc.Proofs.Steps
import Mvcc.Proofs.Stepwise
import Mvcc.Proofs.Store
import Mvcc.Proofs.Stored
import Mvcc.Proofs.Timeline
import Mvcc.Proofs.Trace
import Mvcc.Proofs.Transparency
import Mvcc.Proofs.Tree
import Mvcc.Proofs.Untouched
import Mvcc.Proofs.Validation
import Mvcc.Proofs.Watermark
import Mvcc.Record.Json
import Mvcc.Record.Key
import Mvcc.Record.Layout
import Mvcc.Record.Version
import Mvcc.Release
import Mvcc.Settings.Basic
import Mvcc.Settings.Json
import Mvcc.Store.Basic
import Mvcc.Store.Error
import Mvcc.Store.Reading
import Mvcc.Store.Update
import Mvcc.Transaction.Footprint
import Mvcc.Transaction.Handle
import Mvcc.Transaction.Json
import Mvcc.Transaction.Status
import Mvcc.Tree
import Mvcc.Validation
import Mvcc.Proofs.Codec
