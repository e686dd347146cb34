import S8000.Foundation.Bytes
import S8000.Foundation.Remainder
import S8000.Foundation.Dict
import S8000.Foundation.Holes
import S8000.Foundation.Memory
import S8000.Media.VerifyTapeCrc
import S8000.Media.LoadTape
import S8000.Media.SingleBitRepair
import S8000.Dump.Record
import S8000.Dump.Header
import S8000.Dump.Parse
import S8000.Dump.Stream
import S8000.Dump.Complete
import S8000.Dump.RoundTrip
import S8000.Dump.Loss
import S8000.Dump.Tree
import S8000.Dump.Merge
import S8000.Dump.Orphans
import S8000.Dump.Overlay
import S8000.Serial.Packet
import S8000.Serial.TapeServer
import S8000.Serial.ExactlyOnce
import S8000.Serial.Receiver
import S8000.Serial.Damage
import S8000.Serial.Strategy
import S8000.Serial.Transfer
import S8000.Serial.Pending
import S8000.Serial.StrategyCall
import S8000.Serial.Retry
import S8000.Sadie.Server
import S8000.Sadie.Driver
import S8000.Sadie.Frame
import S8000.Sadie.Link
import S8000.Sadie.Stored
import S8000.Sadie.Read
import S8000.Sadie.ReadCall
import S8000.Foundation.Namespace
import S8000.Media.TccCrc
import S8000.Dump.Contents
import S8000.Media.Simh
import S8000.Serial.Decoder
import S8000.Media.SimhRoundTrip
import S8000.Foundation.Grouping
import S8000.Media.Capture
import S8000.Media.SimhComplete
import S8000.Media.CaptureComplete
import S8000.Sadie.GiveUp
import S8000.Serial.Framing
import S8000.Foundation.Numerals
import S8000.Restore.Manifest
import S8000.Restore.Entry
import S8000.Restore.V7
import S8000.Restore.Ownership
import S8000.Restore.Growth
import S8000.Restore.Existing
import S8000.Restore.Install
import S8000.Restore.DumpManifest
import S8000.Dump.AllPaths
import S8000.Foundation.BitErrors
import S8000.Serial.Detection
import S8000.Sadie.OnTape
import S8000.Sadie.Crossing
import S8000.Foundation.Chunks
import S8000.Wega.BlockMap
import S8000.Wega.SparseRead
import S8000.Image.Build
import S8000.Restore.Files
import S8000.Image.HardLinks
import S8000.Restore.Members
import S8000.Restore.MemberNames
import S8000.Restore.OwnNames
import S8000.Restore.Steps
import S8000.Restore.Planting
import S8000.Restore.Sowing
import S8000.Restore.DumpTree
import S8000.Restore.DumpSections
import S8000.Restore.DumpReplay
import S8000.Restore.Temporary
import S8000.Restore.DumpRun
import S8000.Restore.Clash
import S8000.Restore.Invisible
import S8000.Restore.ManifestText
import S8000.Dump.SameNames
import S8000.Monitor.Disasm
import S8000.Monitor.Trace
import S8000.Monitor.Closure
import S8000.Serial.MonitorLoad
import S8000.Serial.MonitorDelivery
import S8000.Serial.Answered
import S8000.Serial.Finishes
import S8000.Monitor.Listing
import S8000.Monitor.Emit
import S8000.Foundation.Assembly
import S8000.Monitor.Assemble
import S8000.Monitor.Items
import S8000.Monitor.Reassembly
import S8000.Monitor.Symbols
import S8000.Monitor.Rebuild
import S8000.Monitor.Regions
import S8000.Filsys.Superblock
import S8000.Filsys.Dinode
import S8000.Filsys.FreeList
import S8000.Filsys.AllocFree
import S8000.Filsys.Inodes
import S8000.Filsys.Update
import S8000.Foundation.Records
import S8000.Foundation.Probing
import S8000.Foundation.IndexTree
import S8000.Filsys.Mkfs
import S8000.Filsys.Runs
import S8000.Filsys.Bio
import S8000.Filsys.BioRuns
import S8000.Filsys.Bmap
import S8000.Filsys.Rdwri
import S8000.Filsys.Itrunc
import S8000.Filsys.Store
import S8000.Filsys.StoreSteps
import S8000.Foundation.Simulation
import S8000.Filsys.StoreMkfs
import S8000.Filsys.StoreRuns
import S8000.Filsys.Directory
import S8000.Filsys.Incore
import S8000.Filsys.Links
import S8000.Filsys.Paths
import S8000.Filsys.Names
import S8000.Filsys.Calls
import S8000.Filsys.Mkdir
import S8000.Filsys.LinksRuns
