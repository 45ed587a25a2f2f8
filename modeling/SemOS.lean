import SemOS.Bogatyri.MsgqLeftBehind
import SemOS.Bogatyri.RegistryRank
import SemOS.Bogatyri.ExchangeRank
import SemOS.Bogatyri.SocketsToken
import SemOS.Bogatyri.ThreadsProgress
import SemOS.Signals.Termination
import SemOS.Relay.SysVProgress
import SemOS.Relay.PosixOrder
import SemOS.Mergesort.Partition
import SemOS.Shell.PipelineProgress
import SemOS.Shell.ParentTable
import SemOS.Shell.Progress
import SemOS.Shell.Arguments
import SemOS.Shell.Respacing
import SemOS.Wc.Events
import SemOS.Copy.MycpBytes
import SemOS.Pcat.LoopRuns
import SemOS.Pcat.Accounting
import SemOS.Pcat.Origins
import SemOS.Pcat.Traces
import SemOS.Relay.PosixReceive
import SemOS.Mergesort.Comparator
import SemOS.Copy.MycpDescriptors
import SemOS.Copy.Permission
import SemOS.Bogatyri.ThreadsFailure
import SemOS.Copy.Destination
import SemOS.Listing.Sections
import SemOS.Symlinks.Search
import SemOS.Mergesort.Reads
import SemOS.Bogatyri.RegistryRead
import SemOS.Bogatyri.MsgqTermination
import SemOS.Bogatyri.MsgqForkFailed
import SemOS.Bogatyri.SocketsOutput
import SemOS.Bogatyri.SocketsTermination
import SemOS.Shell.PipelineResult
import SemOS.Wc.ProgramEnd
import SemOS.Pcat.Termination
