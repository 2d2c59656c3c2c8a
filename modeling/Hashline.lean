import Hashline.Lib.Machine
import Hashline.Lib.Utf8
import Hashline.Lib.Lines
import Hashline.Lib.Splice
import Hashline.Lib.Prog
import Hashline.Lib.Pool
import Hashline.Lib.Mutex
import Hashline.Lib.SingleFlight
import Hashline.Lib.Proc
import Hashline.Lib.Dialogue
import Hashline.Lib.Budget
import Hashline.Lib.Walk
import Hashline.Lib.Ledger
import Hashline.Lib.SortKey
import Hashline.Lib.Spans
import Hashline.Lib.Steps
import Hashline.Protocol
import Hashline.Text
import Hashline.Edits
import Hashline.Stamp
import Hashline.Snapshot
import Hashline.Addressing
import Hashline.Versioned
import Hashline.Engine
import Hashline.Batch
import Hashline.InTurn
import Hashline.Read
import Hashline.Path
import Hashline.Lossless
import Hashline.Lib.Numeral
import Hashline.Tokens
import Hashline.Search
import Hashline.Grep
import Hashline.Truncation
import Hashline.Shards
import Hashline.System
import Hashline.Load
import Hashline.Persist
import Hashline.Mutate
import Hashline.Payload
import Hashline.Cache
import Hashline.Glob
import Hashline.Tools
import Hashline.NoPanic
import Hashline.Dispatch
import Hashline.Unchanged
import Hashline.Classify
import Hashline.Flight
import Hashline.Recovery
import Hashline.Consistent
import Hashline.Resident
import Hashline.Cursor
import Hashline.Sections
import Hashline.Decoded
import Hashline.Views
import Hashline.Shown
import Hashline.Roots
import Hashline.Race
import Hashline.Turns
import Hashline.Exclusive
import Hashline.Lib.Links
import Hashline.Confine
import Hashline.Listed
import Hashline.Quiet
import Hashline.Atomic
import Hashline.History
import Hashline.Guard
import Hashline.Winner
import Hashline.Accounts
import Hashline.Litter
import Hashline.Cells
import Hashline.Callers
import Hashline.Waiting
import Hashline.Service
import Hashline.Moves
import Hashline.Deeds
import Hashline.Steady
import Hashline.Placed
import Hashline.Readers
import Hashline.Tearing
import Hashline.Shared
import Hashline.Sealed
import Hashline.Truthful
import Hashline.Hits
import Hashline.Whole
import Hashline.Found
import Hashline.Served
import Hashline.Searches
import Hashline.Serial
import Hashline.Updates
import Hashline.Reads
import Hashline.Attested
import Hashline.Creations
import Hashline.Reread
import Hashline.Paging
import Hashline.Crash
import Hashline.Progress
