import Cs111Labs.Image.Fsimgtoc
import Cs111Labs.Image.DirectAccess
import Cs111Labs.Image.Hardlinks
import Cs111Labs.Ospfs.Accounting
import Cs111Labs.Osprd.Order
import Cs111Labs.Osprd.Refused
import Cs111Labs.Osprd.ReadBalance
import Cs111Labs.Osprd.Wakeup
import Cs111Labs.Osprd.Replies
import Cs111Labs.Osprd.Requests
import Cs111Labs.Foundation.Windows
import Cs111Labs.Peer.CopyLoop
import Cs111Labs.Peer.DataPortion
import Cs111Labs.Peer.KeptFiles
import Cs111Labs.Peer.TrackerBounds
import Cs111Labs.Peer.ScanBounds
import Cs111Labs.Peer.MessageBuffer
import Cs111Labs.Peer.DecimalScan
import Cs111Labs.Peer.StartDownload
import Cs111Labs.Shell.Accepts
import Cs111Labs.Shell.Successive
import Cs111Labs.Shell.ExecuteSh
import Cs111Labs.Shell.FinalNewline
import Cs111Labs.Shell.WordBuffer
import Cs111Labs.Shell.WordArrays
import Cs111Labs.Shell.TokenBounds
import Cs111Labs.Shell.Collected
import Cs111Labs.Shell.PipeStatus
import Cs111Labs.Shell.TimeTravel
import Cs111Labs.Shell.Serialization
import Cs111Labs.Ospfs.IndirectFiles
import Cs111Labs.Ospfs.RemoveBlock
import Cs111Labs.Ospfs.FollowLink
import Cs111Labs.Ospfs.FailedCalls
import Cs111Labs.Ospfs.Overwrites
import Cs111Labs.Ospfs.Histories
import Cs111Labs.Ospfs.Formatter
import Cs111Labs.Ospfs.FullDisk
import Cs111Labs.Ospfs.ResizeRuns
import Cs111Labs.Schedos.Priorities
import Cs111Labs.Schedos.ShareChanges
import Cs111Labs.Schedos.Lottery
import Cs111Labs.Peer.Children
import Cs111Labs.Peer.DownloadEnds
import Cs111Labs.Miniproc.Killing
import Cs111Labs.Miniproc.Waiters
import Cs111Labs.Miniproc.Creation
import Cs111Labs.Miniproc.RoundRobin
import Cs111Labs.Miniproc.ForkStack
import Cs111Labs.Shell.Subshells
import Cs111Labs.Peer.DownloadDigest
import Cs111Labs.Ospfs.ChangeSize
import Cs111Labs.Ospfs.Listings
import Cs111Labs.Ospfsformat.Copying
import Cs111Labs.Ospfsformat.Refinement
