import TableAppend.AntiJoin
import TableAppend.Append.Plan
import TableAppend.Append.Preparation
import TableAppend.Append.Remark
import TableAppend.Append.Report
import TableAppend.Batch
import TableAppend.Cell
import TableAppend.Columnar.ColumnType
import TableAppend.Columnar.Compact
import TableAppend.Columnar.Date
import TableAppend.Columnar.File
import TableAppend.Columnar.Footer
import TableAppend.Columnar.Table
import TableAppend.Delimited.File
import TableAppend.Delimited.Reader
import TableAppend.Delimited.Record
import TableAppend.Dialect
import TableAppend.Double.Basic
import TableAppend.Double.Shortest
import TableAppend.Double.Text
import TableAppend.Failure
import TableAppend.Family
import TableAppend.FileTree
import TableAppend.Json.Basic
import TableAppend.Json.Fields
import TableAppend.Json.Numeral
import TableAppend.Json.Reader
import TableAppend.Json.Token
import TableAppend.Key
import TableAppend.Layout
import TableAppend.Limits
import TableAppend.LogFilter
import TableAppend.Medium
import TableAppend.Metadata
import TableAppend.Options.Basic
import TableAppend.Options.Document
import TableAppend.Path
import TableAppend.Proofs.AntiJoin
import TableAppend.Proofs.Append.Accounts
import TableAppend.Proofs.Append.Agreeing
import TableAppend.Proofs.Append.Buckets
import TableAppend.Proofs.Append.Causes
import TableAppend.Proofs.Append.ColumnOrder
import TableAppend.Proofs.Append.Commit
import TableAppend.Proofs.Append.Committable
import TableAppend.Proofs.Append.Continuing
import TableAppend.Proofs.Append.CutOff
import TableAppend.Proofs.Append.Equipped
import TableAppend.Proofs.Append.Failing
import TableAppend.Proofs.Append.Forecast
import TableAppend.Proofs.Append.Forgiving
import TableAppend.Proofs.Append.Frame
import TableAppend.Proofs.Append.Growth
import TableAppend.Proofs.Append.Intact
import TableAppend.Proofs.Append.Interrupted
import TableAppend.Proofs.Append.Layouts
import TableAppend.Proofs.Append.Leaving
import TableAppend.Proofs.Append.Ledgers
import TableAppend.Proofs.Append.Locating
import TableAppend.Proofs.Append.Once
import TableAppend.Proofs.Append.OneBelow
import TableAppend.Proofs.Append.Parity
import TableAppend.Proofs.Append.Parts
import TableAppend.Proofs.Append.Preparation
import TableAppend.Proofs.Append.Rearranging
import TableAppend.Proofs.Append.Recovery
import TableAppend.Proofs.Append.Reordering
import TableAppend.Proofs.Append.Repeating
import TableAppend.Proofs.Append.Rollover
import TableAppend.Proofs.Append.Room
import TableAppend.Proofs.Append.Runs
import TableAppend.Proofs.Append.Searching
import TableAppend.Proofs.Append.Sequence
import TableAppend.Proofs.Append.Sessions
import TableAppend.Proofs.Append.Simulation
import TableAppend.Proofs.Append.Sparing
import TableAppend.Proofs.Append.Tables
import TableAppend.Proofs.Append.Tally
import TableAppend.Proofs.Append.Twice
import TableAppend.Proofs.Append.Unequipped
import TableAppend.Proofs.Append.Unlisted
import TableAppend.Proofs.Append.Unreadable
import TableAppend.Proofs.Append.Unrecorded
import TableAppend.Proofs.Baselines
import TableAppend.Proofs.Batch
import TableAppend.Proofs.ColumnOrder
import TableAppend.Proofs.Columnar.Appending
import TableAppend.Proofs.Columnar.Counts
import TableAppend.Proofs.Columnar.Dates
import TableAppend.Proofs.Columnar.Encoding
import TableAppend.Proofs.Columnar.Inferring
import TableAppend.Proofs.Columnar.ReadBack
import TableAppend.Proofs.Columnar.Resaving
import TableAppend.Proofs.Columnar.Storable
import TableAppend.Proofs.Delimited.Additions
import TableAppend.Proofs.Delimited.Appending
import TableAppend.Proofs.Delimited.Extending
import TableAppend.Proofs.Delimited.Feeding
import TableAppend.Proofs.Delimited.Keeping
import TableAppend.Proofs.Delimited.RoundTrip
import TableAppend.Proofs.Delimited.Rows
import TableAppend.Proofs.Double.Exact
import TableAppend.Proofs.Family.Active
import TableAppend.Proofs.Family.Members
import TableAppend.Proofs.Family.Missing
import TableAppend.Proofs.Family.Names
import TableAppend.Proofs.Family.Resolution
import TableAppend.Proofs.Family.Search
import TableAppend.Proofs.FileTree.Changes
import TableAppend.Proofs.FileTree.Directories
import TableAppend.Proofs.FileTree.Entries
import TableAppend.Proofs.FileTree.Lookup
import TableAppend.Proofs.FileTree.Making
import TableAppend.Proofs.FileTree.Missing
import TableAppend.Proofs.FileTree.Skirting
import TableAppend.Proofs.FileTree.Spelling
import TableAppend.Proofs.FileTree.Walking
import TableAppend.Proofs.FileTree.Writable
import TableAppend.Proofs.Headers
import TableAppend.Proofs.Keys
import TableAppend.Proofs.Metadata
import TableAppend.Proofs.NamedValues
import TableAppend.Proofs.Options
import TableAppend.Proofs.Outcome
import TableAppend.Proofs.PartitionNames
import TableAppend.Proofs.Path.Destinations
import TableAppend.Proofs.Path.Listing
import TableAppend.Proofs.Path.Location
import TableAppend.Proofs.Path.Names
import TableAppend.Proofs.Path.Pieces
import TableAppend.Proofs.Projection
import TableAppend.Proofs.Records
import TableAppend.Proofs.Splitting
import TableAppend.Proofs.StoredKeys
import TableAppend.Proofs.World.Concurring
import TableAppend.Proofs.World.Confined
import TableAppend.Proofs.World.Counterpart
import TableAppend.Proofs.World.InFiles
import TableAppend.Proofs.World.Kept
import TableAppend.Proofs.World.MediumWriting
import TableAppend.Proofs.World.MetadataMap
import TableAppend.Proofs.World.Missing
import TableAppend.Proofs.World.Overlooking
import TableAppend.Proofs.World.Reading
import TableAppend.Proofs.World.Region
import TableAppend.Proofs.World.Sparing
import TableAppend.Proofs.World.Staying
import TableAppend.Proofs.World.Storing
import TableAppend.Proofs.World.Transfer
import TableAppend.Proofs.World.Writing
import TableAppend.Routing
import TableAppend.Sha256
import TableAppend.Text.Blank
import TableAppend.Text.Clip
import TableAppend.Text.Quoted
import TableAppend.Text.Unprintable
import TableAppend.Text.Utf8
import TableAppend.World
import TableAppend.Proofs.Json.Restating
import TableAppend.Proofs.Options
import TableAppend.Proofs.Projection
import TableAppend.Proofs.Records
