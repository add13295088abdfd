import RuShell.BackgroundStdin
import RuShell.StoppedStages
import RuShell.StoppedJob
import RuShell.Leaks
import RuShell.Limits
import RuShell.Completion
import RuShell.EndOfInput
import RuShell.JobNumbers
import RuShell.Wait
import RuShell.StoppedFlag
import RuShell.Xv6.Demotion
import RuShell.Xv6.Starvation
import RuShell.Xv6.Fifo
import RuShell.Peek.Command
import RuShell.CommandLines
import RuShell.Relay
import RuShell.Hop.Previous
import RuShell.Quoting
import RuShell.SegmentArrays
import RuShell.Hop.Store
import RuShell.Hop.Frecency
import RuShell.Locate
import RuShell.Reveal.Terminates
import RuShell.Reveal.Listing
import RuShell.Arguments
import RuShell.Timeout
import RuShell.Messages
import RuShell.Activities
import RuShell.Snoop.Summary
import RuShell.Xv6.LockScan
import RuShell.Xv6.Response
import RuShell.LeaderNames
import RuShell.History.Editor
import RuShell.Xv6.SleepLock
import RuShell.Xv6.LogCrash
import RuShell.Xv6.RoundRobin
import RuShell.FrontEnd
