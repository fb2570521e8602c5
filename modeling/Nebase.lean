import Nebase.Foundation.Machine
import Nebase.Foundation.Schedule
import Nebase.Evdp.Epoll.Delivery
import Nebase.Evdp.Rerun
import Nebase.Evdp.Agreement
import Nebase.Evdp.Foreach.Nesting
import Nebase.Evdp.Foreach.Counts
import Nebase.Random.Books
import Nebase.Random.Range
import Nebase.Random.Ring
import Nebase.Sock.Csum.Fill
import Nebase.Foundation.GoodSuffix
import Nebase.Net.Radix.Release
import Nebase.Str.Bm.Search
import Nebase.Str.Bm.Entries
import Nebase.Str.Bm.Progress
import Nebase.Time.Timespec
import Nebase.Evdp.Timer.Refinement
import Nebase.Evdp.Timer.Ownership
import Nebase.Evdp.Timer.Failure
import Nebase.Evdp.Timer.Nearest
import Nebase.Evdp.Timer.Reset
import Nebase.Evdp.SysTimer.Timerfd
import Nebase.Evdp.Poll.Tracking
import Nebase.Evdp.Poll.Batches
import Nebase.Evdp.Kevent.Bounds
import Nebase.Evdp.Epoll.Requests
import Nebase.Evdp.Timeout
import Nebase.Evdp.Wait
import Nebase.Evdp.Flush
import Nebase.Evdp.Destroy.Notify
import Nebase.Evdp.Destroy.Release
import Nebase.Evdp.Interest.Keeps
import Nebase.Evdp.SysTimer.Period
import Nebase.Evdp.SysTimer.Expirations
import Nebase.Thread.Ready
import Nebase.Pidfile.Content
import Nebase.Pidfile.Interleaving
import Nebase.Sock.Csum.Partial
import Nebase.File.Copy.Offset
import Nebase.Sock.Unix.RecvFds
import Nebase.Net.Ipaddr.Arpa
import Nebase.Net.Ipaddr.FillMask
import Nebase.Net.Ipaddr.Next
import Nebase.Net.Ipaddr.Pton
import Nebase.Net.Radix.Keys
import Nebase.Net.Radix.Unset
import Nebase.Sock.Unix.Installed
import Nebase.Io.Redirect
import Nebase.Time.Daytime
import Nebase.Sem.Create
import Nebase.Sem.Timedop
import Nebase.Pidfile.GetPid
import Nebase.Syslog.Truncate
import Nebase.Sock.Diag.Dump
import Nebase.Stats.Release
import Nebase.Stats.Columns
import Nebase.Stats.Swaps
import Nebase.Compat.Rbtree.Runs
import Nebase.Compat.Rbtree.Foreach
import Nebase.Thread.Registry.Runs
import Nebase.Evdp.Timer.TreeRuns
