import Trailermatic.Base64
import Trailermatic.Base64Buffers
import Trailermatic.Body
import Trailermatic.Buffers
import Trailermatic.Bytes
import Trailermatic.Capacity
import Trailermatic.Children
import Trailermatic.Config.Beyond
import Trailermatic.Config.Blocks
import Trailermatic.Config.Braces
import Trailermatic.Config.Calls
import Trailermatic.Config.Delimited
import Trailermatic.Config.Endings
import Trailermatic.Config.Entries
import Trailermatic.Config.Filters
import Trailermatic.Config.Grammar
import Trailermatic.Config.Handled
import Trailermatic.Config.Indexed
import Trailermatic.Config.Interval
import Trailermatic.Config.Layout
import Trailermatic.Config.Missing
import Trailermatic.Config.Options
import Trailermatic.Config.Order
import Trailermatic.Config.Overruns
import Trailermatic.Config.Parser
import Trailermatic.Config.Proper
import Trailermatic.Config.Realized
import Trailermatic.Config.Segments
import Trailermatic.Config.Shorten
import Trailermatic.Config.SubOptions
import Trailermatic.Config.Turns
import Trailermatic.Config.Whole
import Trailermatic.Crashes
import Trailermatic.Curl
import Trailermatic.Daemon
import Trailermatic.DaemonMemory
import Trailermatic.Daemonize
import Trailermatic.Delivery
import Trailermatic.Destinations
import Trailermatic.Downloads
import Trailermatic.Eviction
import Trailermatic.Exchange
import Trailermatic.Extraction
import Trailermatic.Feed
import Trailermatic.FeedMemory
import Trailermatic.Files
import Trailermatic.Folder
import Trailermatic.Groups
import Trailermatic.Growing
import Trailermatic.Handles
import Trailermatic.History
import Trailermatic.HistoryMemory
import Trailermatic.Library.Allocation
import Trailermatic.Library.Descriptors
import Trailermatic.Library.Drain
import Trailermatic.Library.Fields
import Trailermatic.Library.Form
import Trailermatic.Library.Gather
import Trailermatic.Library.Heap
import Trailermatic.Library.Ledger
import Trailermatic.Library.Lines
import Trailermatic.Library.Loop
import Trailermatic.Library.Owners
import Trailermatic.Library.Scan
import Trailermatic.Library.Simulation
import Trailermatic.Library.Tokens
import Trailermatic.Library.Trace
import Trailermatic.Library.While
import Trailermatic.Library.Window
import Trailermatic.Lifecycle
import Trailermatic.Limit
import Trailermatic.LinkedList
import Trailermatic.Listing
import Trailermatic.Memory
import Trailermatic.Message
import Trailermatic.OnePass
import Trailermatic.Output
import Trailermatic.Overwriting
import Trailermatic.Program
import Trailermatic.ProgramMemory
import Trailermatic.Prowl
import Trailermatic.Recall
import Trailermatic.Regex
import Trailermatic.Reports
import Trailermatic.RequestMemory
import Trailermatic.Response
import Trailermatic.ResponseMemory
import Trailermatic.Restart
import Trailermatic.Retries
import Trailermatic.Runs
import Trailermatic.Sequence
import Trailermatic.Session
import Trailermatic.SessionMemory
import Trailermatic.Spacing
import Trailermatic.State
import Trailermatic.Tidy
import Trailermatic.Urlcode
import Trailermatic.Visits
import Trailermatic.Web
