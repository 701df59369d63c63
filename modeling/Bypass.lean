import Bypass.Foundations.Prog
import Bypass.Foundations.Text
import Bypass.Core.Path
import Bypass.Core.Backend
import Bypass.Core.GpgId
import Bypass.Core.Store
import Bypass.Core.Plan
import Bypass.Core.StorePlan
import Bypass.Core.Mem
import Bypass.Core.Run
import Bypass.Core.EntryMap
import Bypass.Core.StoreMap
import Bypass.Core.Recipients
import Bypass.Core.Import
import Bypass.Core.ImportPaths
import Bypass.Foundations.Merkle
import Bypass.Git.Repo
import Bypass.Git.Names
import Bypass.Git.Commands
import Bypass.Cli.Audit
import Bypass.Cli.Vcs
import Bypass.Cli.Atomicity
import Bypass.Sync.Syncing
import Bypass.Sync.FastForward
import Bypass.Sync.Alone
import Bypass.Sync.ReceiveAudit
import Bypass.Sync.Serve
import Bypass.Sync.Insert
import Bypass.Sync.Undisturbed
import Bypass.Sync.Exchange
import Bypass.Foundations.Runs
import Bypass.Sync.Daemon
import Bypass.Sync.Handlers
import Bypass.Sync.Revocation
import Bypass.Sync.OneTask
import Bypass.Sync.Push
import Bypass.Sync.Pairing
import Bypass.Sync.PairedIdentity
import Bypass.Sync.PairingAgreement
import Bypass.Core.Entry
import Bypass.Core.Init
import Bypass.Ffi.BypassStore
import Bypass.Ffi.SplitStore
import Bypass.Cli.Backup
import Bypass.Cli.BackupRestore
import Bypass.Core.ImportBody
import Bypass.Cli.Framing
import Bypass.Cli.MessagingHost
import Bypass.Extension.NativeClient
import Bypass.Cli.Clipboard
import Bypass.Core.Asking
import Bypass.Cli.Rotation
import Bypass.Cli.Checkout
import Bypass.Cli.Mirror
import Bypass.Cli.RestoreFaults
import Bypass.Cli.RotationCommit
import Bypass.Core.Slug
import Bypass.Core.SlugPath
import Bypass.Core.ImportLoss
import Bypass.Core.InitResolve
import Bypass.Core.Csv
import Bypass.Core.Bitwarden
import Bypass.Foundations.Forest
import Bypass.Core.Keepass
import Bypass.Core.KeepassImport
import Bypass.Cli.ImportRun
import Bypass.Core.Gitattributes
import Bypass.Cli.Doctor
import Bypass.Cli.CommitFrame
import Bypass.Cli.Log
import Bypass.Extension.FirstLine
import Bypass.Foundations.FileSystem
import Bypass.Foundations.CreateDirs
import Bypass.Foundations.ReplaceFile
import Bypass.Foundations.Walk
import Bypass.Cli.StorageFs
import Bypass.Cli.StorageWrites
import Bypass.Ffi.AppStorage
import Bypass.Cli.BundleCounts
import Bypass.Cli.RenameCrash
import Bypass.Extension.InPlace
import Bypass.Sync.BuildPack
import Bypass.Sync.PeerWords
import Bypass.Sync.Peers
import Bypass.Sync.RateWindow
import Bypass.Cli.StorageList
import Bypass.Cli.StorageMap
import Bypass.Core.PathSafety
import Bypass.Sync.Timestamps
import Bypass.Cli.Shred
import Bypass.Cli.Tree
import Bypass.Cli.Edit
import Bypass.Sync.Libp2p
import Bypass.Android.CryptoUi
import Bypass.Foundations.Alike
import Bypass.Sync.Network
import Bypass.Core.StoreWhile
import Bypass.Cli.DiskStore
import Bypass.Extension.HostSession
import Bypass.Sync.Watcher
import Bypass.Cli.GpgPipes
import Bypass.Sync.Socket
import Bypass.Foundations.Pool
import Bypass.Cli.Processes
import Bypass.Extension.Popup
import Bypass.Extension.PopupSession
import Bypass.Sync.Identity
