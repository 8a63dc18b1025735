import Wubi.Core.LTS
import Wubi.Core.Num
import Wubi.Tasks.Model
import Wubi.Tasks.Tree
import Wubi.Tasks.Step
import Wubi.Tasks.Cancel
import Wubi.Tasks.Error
import Wubi.Tasks.Status
import Wubi.Tasks.Stack
import Wubi.Tasks.Closed
import Wubi.Tasks.Once
import Wubi.Tasks.Report
import Wubi.Tasks.Percent
import Wubi.Tasks.Progress
import Wubi.Backend.Model
import Wubi.Backend.Distro
import Wubi.Backend.Metalink
import Wubi.Backend.Iso
import Wubi.Backend.Verified
import Wubi.Backend.Secure
import Wubi.Launcher.Unpack
import Wubi.Core.Lines
import Wubi.Boot.Ini
import Wubi.Core.Find
import Wubi.Core.Words
import Wubi.Core.Replace
import Wubi.Boot.ConfigSys
import Wubi.Core.CommandLine
import Wubi.Launcher.Args
import Wubi.Metalink.Handler
import Wubi.Metalink.Document
import Wubi.Boot.Bcd
import Wubi.Backend.Arch
import Wubi.Backend.Verdict
import Wubi.Backend.Cached
import Wubi.Backend.Mirrors
import Wubi.Backend.Disks
import Wubi.Frontend.Page
import Wubi.Backend.Grub
import Wubi.Backend.GrubTask
import Wubi.Backend.Cached
import Wubi.Core.Substitute
import Wubi.Backend.InfoLine
import Wubi.Backend.Preseed
import Wubi.Backend.Queries
import Wubi.Backend.VirtualDisk
import Wubi.Boot.Attrib
import Wubi.Frontend.Sizes
import Wubi.Metalink.Entities
import Wubi.Backend.CheckFile
import Wubi.Backend.Crypt
import Wubi.Core.Disk
import Wubi.Launcher.DeleteDir
import Wubi.Launcher.Directories
import Wubi.Backend.RunCommand
import Wubi.Tasks.Adapters
import Wubi.Tasks.Preorder
import Wubi.Tasks.Silent
import Wubi.Tasks.NonFatal
import Wubi.Core.Wildcard
import Wubi.Winui.Dispatch
import Wubi.Core.Import
import Wubi.Pypack.Application
import Wubi.Pypack.Packable
import Wubi.Pypack.Complete
import Wubi.Core.Placement
import Wubi.Core.Medium
import Wubi.Core.Positions
import Wubi.Core.Chance
import Wubi.Core.Ensures
import Wubi.Core.Reader
import Wubi.Core.Frames
import Wubi.Bittorrent.StorageWrapper
import Wubi.Bittorrent.Pieces
import Wubi.Bittorrent.Blocks
import Wubi.Bittorrent.Resume
import Wubi.Bittorrent.Client
import Wubi.Bittorrent.Honest
import Wubi.Bittorrent.PiecePicker
import Wubi.Bittorrent.Downloader
import Wubi.Bittorrent.Downloads
import Wubi.Bittorrent.Swarm
import Wubi.Bittorrent.Encrypter
import Wubi.Bittorrent.Handshake
import Wubi.Bittorrent.Talk
import Wubi.Bittorrent.Choker
import Wubi.Bittorrent.Bitfield
import Wubi.Bittorrent.Wire
import Wubi.Bittorrent.Roster
import Wubi.Bittorrent.Connecter
