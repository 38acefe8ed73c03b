import Aegir.Args.Read
import Aegir.Bfs.Accepted
import Aegir.Bfs.Indices
import Aegir.Bfs.Overlay
import Aegir.Bfs.Sequences
import Aegir.Bfs.SmallData
import Aegir.Bfs.Split
import Aegir.Bfs.Walks
import Aegir.Block.Clamps
import Aegir.Console.Backing
import Aegir.Console.Incremental
import Aegir.Director.Build
import Aegir.Fat.Adopts
import Aegir.Fat.Ends
import Aegir.Fat.Files
import Aegir.Fat.Times
import Aegir.Fs.Handles
import Aegir.Hosted.Failing
import Aegir.Hosted.FreeBytes
import Aegir.Hosted.Granted
import Aegir.Hosted.WriteBack
import Aegir.Mem.Device
import Aegir.Mem.Nesting
import Aegir.Memory.Accounts
import Aegir.Mkfs.Directory
import Aegir.Mkfs.Image
import Aegir.Net.Delivery
import Aegir.Pattern.Matches
import Aegir.PipeFs.Pipes
import Aegir.Posix.Anchor
import Aegir.Posix.Attributes
import Aegir.Posix.Listing
import Aegir.Posix.Refines
import Aegir.Query.Grammar
import Aegir.Registry.Authority
import Aegir.Script.Boot
import Aegir.Script.OnePass
import Aegir.Script.Structured
import Aegir.Spawn.Elf
import Aegir.Timer.Answers
import Aegir.Trinket.Document
import Aegir.Trinket.Utf8
import Aegir.Trinket.Visual
import Aegir.Vfs.Merge
import Aegir.Vfs.Names
import Aegir.Vfs.Routing
import Aegir.Vfs.View
import Aegir.Virtio.Completion
