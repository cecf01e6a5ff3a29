import RustDfs.Conc.Flow
import RustDfs.Conc.Footprint
import RustDfs.Conc.Network
import RustDfs.Conc.Pool
import RustDfs.Conc.Prog
import RustDfs.Conc.RelyGuarantee
import RustDfs.Conc.Runs
import RustDfs.Conc.Sequential
import RustDfs.Conc.Solo
import RustDfs.Conc.Starts
import RustDfs.Conc.Waiting
import RustDfs.Lib.Bytes
import RustDfs.Lib.Cbor
import RustDfs.Lib.Chunks
import RustDfs.Lib.Codec
import RustDfs.Lib.Merkle
import RustDfs.Lib.Sha256
import RustDfs.Lib.Tally
import RustDfs.Lib.UnixPath
import RustDfs.Lib.Utf8
import RustDfs.Model.Domain
import RustDfs.Model.DownloadService
import RustDfs.Model.EventService
import RustDfs.Model.FileProcessing
import RustDfs.Model.Grpc
import RustDfs.Model.Lang
import RustDfs.Model.Network
import RustDfs.Model.Node
import RustDfs.Model.Reference
import RustDfs.Model.RocksDb
import RustDfs.Model.Search
import RustDfs.Model.SearchReference
import RustDfs.Model.World
import RustDfs.Proofs.Accounting
import RustDfs.Proofs.ActiveDownloads
import RustDfs.Proofs.Announced
import RustDfs.Proofs.Authentic
import RustDfs.Proofs.Calls
import RustDfs.Proofs.ChunkProofs
import RustDfs.Proofs.Completed
import RustDfs.Proofs.ContentAddress
import RustDfs.Proofs.Correlation
import RustDfs.Proofs.CrashSafe
import RustDfs.Proofs.DownloadComplete
import RustDfs.Proofs.DownloadFiles
import RustDfs.Proofs.DownloadRuns
import RustDfs.Proofs.DownloadTasks
import RustDfs.Proofs.Downloading
import RustDfs.Proofs.Effects
import RustDfs.Proofs.Footprints
import RustDfs.Proofs.HashedForm
import RustDfs.Proofs.Integrity
import RustDfs.Proofs.Joins
import RustDfs.Proofs.KeyPortability
import RustDfs.Proofs.LocalPeer
import RustDfs.Proofs.NeverStuck
import RustDfs.Proofs.NodeCauses
import RustDfs.Proofs.Places
import RustDfs.Proofs.Progress
import RustDfs.Proofs.PublishQueue
import RustDfs.Proofs.PublishRetry
import RustDfs.Proofs.RecordKeys
import RustDfs.Proofs.RejectedChunks
import RustDfs.Proofs.Remembered
import RustDfs.Proofs.RequestLog
import RustDfs.Proofs.Requests
import RustDfs.Proofs.RequestsEnd
import RustDfs.Proofs.RestoreFrame
import RustDfs.Proofs.Rules
import RustDfs.Proofs.SameDirectory
import RustDfs.Proofs.SaveMetadata
import RustDfs.Proofs.SearchCauses
import RustDfs.Proofs.SearchHits
import RustDfs.Proofs.SearchNetwork
import RustDfs.Proofs.SearchRules
import RustDfs.Proofs.SearchStream
import RustDfs.Proofs.Serving
import RustDfs.Proofs.SingleDownload
import RustDfs.Proofs.SplitRestore
import RustDfs.Proofs.StartUp
import RustDfs.Proofs.StoreMaps
import RustDfs.Proofs.Tasks
import RustDfs.Proofs.Waits
