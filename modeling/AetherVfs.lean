import AetherVfs.Core.FinalName
import AetherVfs.Core.NameCache
import AetherVfs.Core.Wildcard
import AetherVfs.Ipc.RingProgress
import AetherVfs.Ipc.GateFairness
import AetherVfs.Ipc.Geometry
import AetherVfs.ReadCache.Accounting
import AetherVfs.ReadCache.Invalidation
import AetherVfs.Protocol.FileOps
import AetherVfs.Protocol.RegistryOps
import AetherVfs.Protocol.ShimConfig
import AetherVfs.Read.Plans
import AetherVfs.Registry.Coherence
import AetherVfs.Registry.Handles
import AetherVfs.Registry.Notify
import AetherVfs.Registry.SavesInvariant
import AetherVfs.Registry.Canonical
import AetherVfs.Registry.Enumerate
import AetherVfs.Registry.Moved
import AetherVfs.Registry.Mutators
import AetherVfs.Registry.Packing
import AetherVfs.Registry.Decoded
import AetherVfs.Storage.RamTier
import AetherVfs.Compose.MountChanges
import AetherVfs.Compose.OverlayView
import AetherVfs.Compose.DiskPaths
import AetherVfs.Compose.OverlayRemove
import AetherVfs.Compose.Seekable
import AetherVfs.Compose.MemoryRename
import AetherVfs.Compose.Glob
import AetherVfs.Compose.PathText
import AetherVfs.Archive.SeekTable
import AetherVfs.Director.RenameAcross
import AetherVfs.Inject.CommandLine
import AetherVfs.Pe.Relocations
import AetherVfs.Proton.Extract
import AetherVfs.Zip.Tree
