import SlsteamMoon.NewestWins
import SlsteamMoon.RawCache.Queue
import SlsteamMoon.RawCache.Conservation
import SlsteamMoon.Runs
import SlsteamMoon.OwnerQueue.Queue
import SlsteamMoon.OwnerQueue.Machine
import SlsteamMoon.OwnerQueue.Shape
import SlsteamMoon.OwnerQueue.Locks
import SlsteamMoon.OwnerQueue.Order
import SlsteamMoon.OwnerQueue.Reconcile
import SlsteamMoon.ManifestId.Index
import SlsteamMoon.ManifestId.Coherence
import SlsteamMoon.PatternRefresh.Activation
import SlsteamMoon.PatternRefresh.Refresh
import SlsteamMoon.PatternRefresh.Recovery
import SlsteamMoon.InPlace
import SlsteamMoon.ManifestPlan.Planner
import SlsteamMoon.ManifestPlan.Flatten
import SlsteamMoon.ManifestPlan.Reconcile
import SlsteamMoon.ManifestPlan.Store
import SlsteamMoon.ManifestPlan.Redirect
import SlsteamMoon.ManifestPlan.Frozen
import SlsteamMoon.KeyValues.Text
import SlsteamMoon.KeyValues.Emit
import SlsteamMoon.KeyValues.Decode
import SlsteamMoon.KeyValues.Accept
import SlsteamMoon.AppInfo.Splice
import SlsteamMoon.AppInfo.Update
import SlsteamMoon.AppInfoState.DetourRuns
import SlsteamMoon.AppInfoState.TargetWrite
import SlsteamMoon.AppInfo.RoundTrip
import SlsteamMoon.AppInfo.Interning
import SlsteamMoon.AppInfo.MergeFrame
import SlsteamMoon.AppInfo.Recovery
import SlsteamMoon.AppInfo.MetadataSplice
import SlsteamMoon.AppInfo.Returns
import SlsteamMoon.Stats.PlayerStats
import SlsteamMoon.Stats.Concealment
import SlsteamMoon.HotReload.Coordinator
import SlsteamMoon.HotReload.Memo
import SlsteamMoon.HotReload.State
import SlsteamMoon.OwnerWork.Submit
import SlsteamMoon.OwnerWork.Shutdown
import SlsteamMoon.OwnerWork.Compat
import SlsteamMoon.PackagePatch.Vectors
import SlsteamMoon.PackagePatch.Package0
import SlsteamMoon.PackagePatch.Native
import SlsteamMoon.AtomicFile.WriteIfUnchanged
import SlsteamMoon.ProvisionCache.Metadata
import SlsteamMoon.ProvisionCache.CmVdf
import SlsteamMoon.ProvisionCache.Render
import SlsteamMoon.ProvisionCache.RenderMeaning
import SlsteamMoon.DlcMetadata.Cache
import SlsteamMoon.CachePair.Publish
import SlsteamMoon.CachePair.Rollback
import SlsteamMoon.CachePair.Read
import SlsteamMoon.ProvisionRefresh.Queue
import SlsteamMoon.LibraryRemoval.Queue
import SlsteamMoon.LibraryRemoval.Coverage
import SlsteamMoon.SortedRanges
import SlsteamMoon.TextSearch
import SlsteamMoon.HotReload.Publish
import SlsteamMoon.HotReload.Reclaim
import SlsteamMoon.HotReload.Refusal
import SlsteamMoon.PatternScan
import SlsteamMoon.PackagePatch.Carry
import SlsteamMoon.PackagePatch.RawVectors
import SlsteamMoon.PackagePatch.Transaction
import SlsteamMoon.PackagePatch.MergeSites
import SlsteamMoon.PackagePatch.Coalesce
import SlsteamMoon.PackagePatch.MergedWork
import SlsteamMoon.OwnerQueue.Conservation
import SlsteamMoon.OwnerQueue.Ledger
import SlsteamMoon.PackagePatch.RequestBooks
import SlsteamMoon.PackagePatch.RequestLog
import SlsteamMoon.PackagePatch.RuntimeRefresh
import SlsteamMoon.PackagePatch.RefreshGuard
import SlsteamMoon.PackagePatch.RefreshLoss
import SlsteamMoon.ManifestDonor.Worker
import SlsteamMoon.ManifestDonor.Posts
import SlsteamMoon.ManifestDonor.Retention
import SlsteamMoon.DepotMining.Scanner
import SlsteamMoon.DepotMining.FirstMatch
import SlsteamMoon.DepotMining.Depths
import SlsteamMoon.DepotMining.Agreement
import SlsteamMoon.ManifestFetch.BlobJobs
import SlsteamMoon.ManifestFetch.OneWorker
import SlsteamMoon.ManifestFetch.WorkerSteps
import SlsteamMoon.ManifestFetch.Overlap
import SlsteamMoon.ManifestCode.DonorSession
import SlsteamMoon.DepotKey.Import
import SlsteamMoon.LuaImport.EveryCall
import SlsteamMoon.ManifestId.Import
import SlsteamMoon.LuaImport.Calls
import SlsteamMoon.ManifestId.Relations
import SlsteamMoon.ManifestCode.DonorFutures
import SlsteamMoon.ManifestCode.DonorJobs
import SlsteamMoon.ManifestCode.DonorResets
import SlsteamMoon.ManifestCode.ServiceFrames
import SlsteamMoon.CursorLoop
import SlsteamMoon.CmClient.WebSocket
import SlsteamMoon.CmClient.Delivery
import SlsteamMoon.ManifestStore.Fallback
import SlsteamMoon.ManifestStore.Names
import SlsteamMoon.ManifestSynth.Manifest
import SlsteamMoon.ManifestSynth.Termination
import SlsteamMoon.FirstSeen
import SlsteamMoon.LastWriter
import SlsteamMoon.KeyValues.Tokens
import SlsteamMoon.ManifestStore.NewestIndex
import SlsteamMoon.Pics.StagePlan
import SlsteamMoon.ManifestSynth.FilenameRanges
import SlsteamMoon.DlcIds.Lists
import SlsteamMoon.DlcIds.ManifestName
import SlsteamMoon.ReconcilePin.Decoders
import SlsteamMoon.NetPacket.RoundTrip
import SlsteamMoon.BoundedExecutor.Progress
import SlsteamMoon.ProvisionCache.MetadataText
import SlsteamMoon.DlcMetadata.Normalize
import SlsteamMoon.DlcMetadata.Idempotent
import SlsteamMoon.ManifestSynth.InstallDir
import SlsteamMoon.DepotPrune.Prune
import SlsteamMoon.DepotPrune.Usable
import SlsteamMoon.ProviderCircuit.Circuit
import SlsteamMoon.ProtonMapping.Turns
import SlsteamMoon.ProtonMapping.Block
import SlsteamMoon.LabelledLines
import SlsteamMoon.ProvisionTerminal.Record
import SlsteamMoon.DepotQuarantine.Store
import SlsteamMoon.DepotQuarantine.Registry
import SlsteamMoon.CmClient.CmWire
import SlsteamMoon.Words
import SlsteamMoon.IpcFrame.Scan
import SlsteamMoon.IpcFrame.TrailingRoot
import SlsteamMoon.Stats.Wire
import SlsteamMoon.DepotKey.ManagedIndex
import SlsteamMoon.DepotKey.SaveFailure
import SlsteamMoon.ManifestId.Ownership
import SlsteamMoon.CheckedReads
import SlsteamMoon.NumberFields
import SlsteamMoon.ManifestZip.Extract
import SlsteamMoon.ManifestZip.Headers
import SlsteamMoon.ManifestZip.Payload
import SlsteamMoon.Parental.Settings
import SlsteamMoon.Signatures.Readers
import SlsteamMoon.Signatures.LiveScan
import SlsteamMoon.History
import SlsteamMoon.StatsPolicy.Store
import SlsteamMoon.StatsPolicy.Evidence
import SlsteamMoon.LibraryDates.Dates
import SlsteamMoon.LibraryDates.Stability
import SlsteamMoon.ExecutableFile.Sections
import SlsteamMoon.ExecutableFile.InTables
import SlsteamMoon.NoteRecords
import SlsteamMoon.ElfIdentity.LayoutFor
import SlsteamMoon.ElfIdentity.LayoutSpec
import SlsteamMoon.ElfIdentity.GetBuildId
import SlsteamMoon.ElfIdentity.NoteWalk
import SlsteamMoon.ElfIdentity.BuildIdTotal
import SlsteamMoon.Utf8Scan
import SlsteamMoon.PatternCatalog.Parse
import SlsteamMoon.PatternCatalog.Canonical
import SlsteamMoon.PatternCatalog.Accepts
import SlsteamMoon.KeyValues.Printed
import SlsteamMoon.InstalledDepots.Files
import SlsteamMoon.InstalledDepots.Exact
import SlsteamMoon.ManifestDonor.Sweep
import SlsteamMoon.ManifestDonor.Budget
import SlsteamMoon.ConfigDiscovery.State
import SlsteamMoon.ConfigDiscovery.InstallDir
import SlsteamMoon.ConfigDiscovery.Confirm
import SlsteamMoon.TicketCache.Machine
import SlsteamMoon.TicketCache.Removal
import SlsteamMoon.Updater.RefreshGate
import SlsteamMoon.Warmup.Waiting
import SlsteamMoon.Warmup.Progress
import SlsteamMoon.FileWatcher.NoLostWrite
import SlsteamMoon.FileWatcher.Settling
import SlsteamMoon.ProvisionRefresh.Workers
import SlsteamMoon.ProvisionRefresh.WorkedOff
import SlsteamMoon.IteratedHash
import SlsteamMoon.Sha256.Standard
import SlsteamMoon.Sha256.Stream
import SlsteamMoon.LaunchOptions.Reader
import SlsteamMoon.LaunchOptions.Exact
import SlsteamMoon.Provisioning.Pending
