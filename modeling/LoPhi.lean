import LoPhi.Lib.Machine
import LoPhi.Lib.Python
import LoPhi.Lib.Bisect
import LoPhi.Sata.Frame
import LoPhi.Sata.Reconstructor
import LoPhi.Sata.Step
import LoPhi.Sata.DmaStack
import LoPhi.Sata.Lifecycle
import LoPhi.Sata.Slots
import LoPhi.Sata.TagTable
import LoPhi.Sata.TwoRuns
import LoPhi.Sata.Transparency
import LoPhi.Sata.Commutation
import LoPhi.Sata.Recovery
import LoPhi.Sata.Attribution
import LoPhi.Sata.Queuing
import LoPhi.Sata.Reassembly
import LoPhi.Lib.Struct
import LoPhi.Sata.Interpreter
import LoPhi.Lib.Heapq
import LoPhi.Disk.Physical
import LoPhi.Disk.Delivery
import LoPhi.Disk.Conservation
import LoPhi.Lib.Window
import LoPhi.Memory.Sensor
import LoPhi.Memory.Cached
import LoPhi.Memory.Holes
import LoPhi.Memory.Exactness
import LoPhi.Memory.Untouched
import LoPhi.Memory.Dump
import LoPhi.Memory.Virtual
import LoPhi.Memory.Agreement
import LoPhi.Lib.Effect
import LoPhi.Ntfs.Volume
import LoPhi.Ntfs.Records
import LoPhi.Ntfs.Engine
import LoPhi.Ntfs.Refresh
import LoPhi.Ntfs.Reload
import LoPhi.Ntfs.FileOrder
import LoPhi.Ntfs.WorkingImage
import LoPhi.Ntfs.Ownership
import LoPhi.Ntfs.Events
import LoPhi.Ntfs.Runs
import LoPhi.Ntfs.Conversion
import LoPhi.Ntfs.Paths
import LoPhi.Ntfs.Session
import LoPhi.Ntfs.Report
import LoPhi.Ntfs.Renames
import LoPhi.Ntfs.Changes
import LoPhi.Disk.Actions
import LoPhi.Ntfs.Resident
import LoPhi.Lib.File
import LoPhi.Ntfs.Images
import LoPhi.Lib.Format
import LoPhi.Data.DataStruct
import LoPhi.Capture.ReadBack
import LoPhi.Capture.Tail
import LoPhi.Capture.Truncated
import LoPhi.Capture.Generator
import LoPhi.Network.Framing
import LoPhi.Controller.Commands
import LoPhi.Controller.Totality
import LoPhi.Controller.InFrame
import LoPhi.Controller.StartOnce
import LoPhi.Controller.Submission
import LoPhi.Hypervisor.Hooks
import LoPhi.Hypervisor.Stream
import LoPhi.Hypervisor.Order
import LoPhi.Hypervisor.Mutex
import LoPhi.Server.Relay
import LoPhi.Server.Disconnect
import LoPhi.Server.Takeover
import LoPhi.Server.WaitingClients
import LoPhi.Server.ThreadItems
import LoPhi.Server.Connections
import LoPhi.Server.Stores
import LoPhi.Server.Departure
import LoPhi.Server.Undisturbed
import LoPhi.Noise.Memory
import LoPhi.Noise.Learning
import LoPhi.Noise.Threshold
import LoPhi.Noise.Training
import LoPhi.Noise.Disk
import LoPhi.Noise.Excess
import LoPhi.Sata.Sequence
import LoPhi.Sata.TagRange
import LoPhi.Sata.Direction
import LoPhi.Pxe.Dhcpd
import LoPhi.Pxe.Leases
import LoPhi.Pxe.Grants
import LoPhi.Lib.ReadModifyReplace
import LoPhi.Automation.Database
import LoPhi.Control.Virtual
import LoPhi.Control.Release
import LoPhi.Lib.Ledger
import LoPhi.Automation.Scheduler
import LoPhi.Automation.Steps
import LoPhi.Automation.Ids
import LoPhi.Automation.Cleanup
import LoPhi.Automation.Machines
import LoPhi.Automation.Progress
import LoPhi.Automation.PacketLoss
import LoPhi.Sata.Unexpected
import LoPhi.Disk.Representation
import LoPhi.Disk.Virtual
import LoPhi.Memory.Ageing
import LoPhi.Memory.Shifts
import LoPhi.Lib.Interaction
import LoPhi.Memory.Physical
import LoPhi.Memory.Chunking
import LoPhi.Memory.Retries
import LoPhi.Memory.Reattempts
import LoPhi.Memory.Connection
import LoPhi.Memory.Reliable
import LoPhi.Memory.Packets
import LoPhi.Memory.Closing
import LoPhi.Data.Assignment
import LoPhi.Data.Comparison
import LoPhi.Filesystems.Shadow
import LoPhi.Filesystems.Volumes
import LoPhi.Filesystems.Blocks
import LoPhi.Lib.Lockstep
import LoPhi.Tftp.Server
import LoPhi.Tftp.Transfer
import LoPhi.Tftp.Upload
import LoPhi.Tftp.Sessions
import LoPhi.Tftp.Exchange
import LoPhi.Tftp.Loss
import LoPhi.Tftp.BootConfig
import LoPhi.Lib.Tlv
import LoPhi.Pxe.Wire
import LoPhi.Pxe.Codec
import LoPhi.Pxe.Datagrams
import LoPhi.Lib.Claims
import LoPhi.Filesystems.Scan
import LoPhi.Filesystems.Accesses
import LoPhi.Disk.Replay
