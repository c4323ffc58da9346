import Petrush.Pudod.Policy
import Petrush.Asm.ParseI64
import Petrush.Configsh.RoundTrip
import Petrush.Verified.Calls
import Petrush.Verified.Children
import Petrush.Verified.ExitTrap
import Petrush.Mid.Parser
import Petrush.Verified.Arguments
import Petrush.Verified.Brackets
import Petrush.Verified.Plugins
import Petrush.Verified.Redirections
import Petrush.Verified.Trace
import Petrush.Verified.Refusals
import Petrush.Verified.Endings
import Petrush.Verified.LineReading
import Petrush.Verified.Groups
import Petrush.Verified.InputRedirs
import Petrush.Verified.Splitting
import Petrush.Verified.RoundTrip
import Petrush.Verified.WordParts
import Petrush.Asm.GlobMatch
import Petrush.Lib.Wildcard
import Petrush.Mid.GlobScan
import Petrush.Mid.Positional
import Petrush.Verified.Arithmetic
import Petrush.Verified.Braces
import Petrush.Verified.Pathnames
import Petrush.Verified.Quoting
import Petrush.Verified.Shift
import Petrush.Verified.ShortCircuit
import Petrush.Verified.Cloning
import Petrush.Verified.Capturing
import Petrush.Verified.Restoring
import Petrush.Verified.Atomic
import Petrush.Verified.Polling
import Petrush.Verified.JobLimit
import Petrush.Verified.Launching
import Petrush.Verified.Reading
import Petrush.Verified.Directories
import Petrush.Verified.Designators
import Petrush.Verified.AliasWords
import Petrush.Verified.HelperEnv
import Petrush.Verified.ClientPolicy
import Petrush.Verified.ConfigPaths
import Petrush.Verified.Highlighting
import Petrush.Verified.Completion
import Petrush.Verified.Utf8Columns
import Petrush.Verified.LoopWords
import Petrush.Verified.Idempotence
import Petrush.Verified.SingleQuotes
import Petrush.Verified.GroupSpans
import Petrush.Verified.Checksums
import Petrush.Verified.Ancestors
import Petrush.Verified.HexDigests
import Petrush.Verified.Inventory
import Petrush.Verified.TrapDump
import Petrush.Verified.Returns
import Petrush.Verified.Aborts
import Petrush.Verified.ControlFlow
import Petrush.Verified.Cursors
import Petrush.Verified.Netlink
import Petrush.Verified.Reports
import Petrush.Lib.Ledger
import Petrush.Verified.Accepted
import Petrush.Verified.JobReports
import Petrush.Verified.Delegation
