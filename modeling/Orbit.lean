import Orbit.Bytes
import Orbit.Crc
import Orbit.Reader
import Orbit.Binary64
import Orbit.Error
import Orbit.Value
import Orbit.Format
import Orbit.Fields
import Orbit.Records
import Orbit.Groups
import Orbit.Log
import Orbit.Recovery
import Orbit.Corruption
import Orbit.Sorting
import Orbit.Snapshot
import Orbit.Store
import Orbit.Runs
import Orbit.Visible
import Orbit.Chains
import Orbit.Changes
import Orbit.Commits
import Orbit.History
import Orbit.Reopen
import Orbit.Atomic
import Orbit.Growth
import Orbit.Decoding
import Orbit.Accepted
import Orbit.Reencoding
import Orbit.Subscriptions
import Orbit.Endpoints
import Orbit.Schedules
import Orbit.Serial
import Orbit.Pins
import Orbit.Torn
import Orbit.Overruns
import Orbit.Durability
import Orbit.Query
import Orbit.Metered
import Orbit.Rounding
import Orbit.Nearest
import Orbit.Decimal
import Orbit.Lookup
import Orbit.Agree
import Orbit.Levels
import Orbit.Paths
import Orbit.Keys
import Orbit.Points
import Orbit.Expansion
import Orbit.Budgets
import Orbit.Equality
import Orbit.Comparisons
import Orbit.Cursor
import Orbit.Leases
import Orbit.Publishable
import Orbit.Generations
import Orbit.Effects
import Orbit.Overwrites
import Orbit.Staging
import Orbit.Delivery
import Orbit.Verification
import Orbit.Probes
import Orbit.Compaction
import Orbit.Phrases
import Orbit.Tokens
import Orbit.Parser
import Orbit.Numerals
import Orbit.Grammar
import Orbit.Conversions
import Orbit.Literals
import Orbit.Rounds
import Orbit.Scanner
import Orbit.Coverage
import Orbit.CommandLine
import Orbit.Picks
import Orbit.Projection
import Orbit.Ids
import Orbit.NestedLoops
import Orbit.Costs
import Orbit.Renderings
import Orbit.Lookalikes
import Orbit.Stages
import Orbit.Fingerprints
import Orbit.Thresholds
import Orbit.Needs
import Orbit.Cancellation
import Orbit.Hops
import Orbit.Reversal
import Orbit.Bitemporal
import Orbit.Refinement
import Orbit.Crash
import Orbit.Storable
import Orbit.Lasting
import Orbit.Extraction
import Orbit.Script
import Orbit.Mutations
import Orbit.Shell
import Orbit.Sessions
import Orbit.Reference
import Orbit.Mirrors
import Orbit.Tracking
import Orbit.Harness
