import PagedIndex.Main
import PagedIndex.Table
import PagedIndex.Proofs.Order
import PagedIndex.Proofs.Codec.Position
import PagedIndex.Proofs.Codec.Size
import PagedIndex.Proofs.Codec.Blocks
import PagedIndex.Proofs.Codec.Capacity
import PagedIndex.Proofs.Disk.Contents
import PagedIndex.Proofs.Effect
import PagedIndex.Proofs.Disk.Store
import PagedIndex.Proofs.Disk.Failures
import PagedIndex.Proofs.Cache.Recency
import PagedIndex.Proofs.Cache.Sound
import PagedIndex.Proofs.Cache.Content
import PagedIndex.Proofs.Cache.Transfer
import PagedIndex.Proofs.Cache.Recycle
import PagedIndex.Proofs.Session.Working
import PagedIndex.Proofs.Session.Guard
import PagedIndex.Proofs.Session.Runs
import PagedIndex.Proofs.Session.Transact
import PagedIndex.Proofs.Session.Survival
import PagedIndex.Proofs.Tree.Board
import PagedIndex.Proofs.Tree.Subtree
import PagedIndex.Proofs.Tree.Ledger
import PagedIndex.Proofs.Tree.Plan
import PagedIndex.Proofs.Tree.Delete
import PagedIndex.Proofs.Tree.Insert
import PagedIndex.Proofs.Tree.Survey
import PagedIndex.Proofs.Tree.Locate
import PagedIndex.Proofs.Tree.Neighbours
import PagedIndex.Proofs.Tree.Filed
import PagedIndex.Proofs.Tree.Calls
import PagedIndex.Proofs.Cache.Beside
import PagedIndex.Proofs.Session.Phases
import PagedIndex.Proofs.Tree.Closed
import PagedIndex.Proofs.Tree.Looking
import PagedIndex.Proofs.Tree.Deep
import PagedIndex.Proofs.Tree.Brothers
import PagedIndex.Proofs.Index.Requests
import PagedIndex.Proofs.Index.Effects
import PagedIndex.Proofs.Index.Handles
import PagedIndex.Proofs.Index.Sharing
import PagedIndex.Proofs.Index.Turns
import PagedIndex.Proofs.Index.Lockstep
import PagedIndex.Proofs.Codec.Header
import PagedIndex.Proofs.Index.Orderly
import PagedIndex.Proofs.Index.Opening
import PagedIndex.Proofs.Disk.History
import PagedIndex.Proofs.Cache.Steps
import PagedIndex.Proofs.Session.Shown
import PagedIndex.Proofs.Index.Afresh
import PagedIndex.Proofs.Tree.Sides
import PagedIndex.Proofs.Tree.Moves
import PagedIndex.Proofs.Index.Moving
import PagedIndex.Proofs.Cache.Spared
import PagedIndex.Proofs.Index.Upkeep
import PagedIndex.Proofs.Session.Heading
import PagedIndex.Proofs.Index.FileTasks
import PagedIndex.Proofs.Index.Locking
import PagedIndex.Proofs.Index.FileGroups
import PagedIndex.Proofs.Index.Catalog
import PagedIndex.Proofs.Index.Formats
import PagedIndex.Proofs.Cache.Tidy
import PagedIndex.Proofs.Cache.Seen
import PagedIndex.Proofs.Session.TidyFiles
import PagedIndex.Proofs.Tree.KeepsTidy
import PagedIndex.Proofs.Index.Meanwhile
import PagedIndex.Proofs.Index.Reopening
import PagedIndex.Proofs.Index.Ending
import PagedIndex.Proofs.Cache.Mirror
import PagedIndex.Proofs.Session.Reading
import PagedIndex.Proofs.Codec.Decoded
import PagedIndex.Proofs.Tree.Contents
import PagedIndex.Proofs.Tree.Outline
import PagedIndex.Proofs.Tree.Verdict
import PagedIndex.Proofs.Index.Verified
import PagedIndex.Proofs.Tree.Parted
import PagedIndex.Proofs.Index.Parted
import PagedIndex.Proofs.Index.Policies
import PagedIndex.Proofs.Codec.Stored
import PagedIndex.Proofs.Codec.Text
import PagedIndex.Proofs.Codec.Parsed
import PagedIndex.Proofs.Index.FreePositions
import PagedIndex.Proofs.Cache.Shifts
import PagedIndex.Proofs.Cache.Motions
import PagedIndex.Proofs.Cache.Reached
import PagedIndex.Proofs.Session.Failures
import PagedIndex.Proofs.Index.Prefixes
import PagedIndex.Proofs.Index.Removing
import PagedIndex.Proofs.Session.Fit
import PagedIndex.Proofs.Session.NotAbandoned
import PagedIndex.Proofs.Session.Visits
import PagedIndex.Proofs.Tree.Capacity
import PagedIndex.Proofs.Tree.KeepsLength
import PagedIndex.Proofs.Tree.NotAbandoned
import PagedIndex.Proofs.Tree.Routes
import PagedIndex.Proofs.Tree.Sweeps
import PagedIndex.Proofs.Index.WholeBlocks
import PagedIndex.Proofs.Index.Browsing
import PagedIndex.Proofs.Index.Cycles
import PagedIndex.Proofs.Codec.Scanned
import PagedIndex.Proofs.Codec.Admitted
import PagedIndex.Proofs.Index.Creating
import PagedIndex.Proofs.Index.Refused
import PagedIndex.Proofs.Cache.Operations
import PagedIndex.Proofs.Session.Roles
import PagedIndex.Proofs.Tree.UsesHeld
import PagedIndex.Proofs.Index.Pinned
import PagedIndex.Proofs.Index.OnlyReading
import PagedIndex.Proofs.Index.Scanning
import PagedIndex.Proofs.Tree.Economy
import PagedIndex.Proofs.Tree.Occupancy
import PagedIndex.Proofs.Codec.Sorted
import PagedIndex.Proofs.Index.Abandoned
import PagedIndex.Proofs.Table
