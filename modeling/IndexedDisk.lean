import IndexedDisk.FileSystem
import IndexedDisk.SectorMap.Lemmas
import IndexedDisk.Proofs.Layout
import IndexedDisk.Proofs.Contents
import IndexedDisk.Proofs.Stored
import IndexedDisk.Proofs.Free
import IndexedDisk.Proofs.Drawing
import IndexedDisk.Proofs.Releasing
import IndexedDisk.Proofs.Tree
import IndexedDisk.Proofs.Frame
import IndexedDisk.Proofs.Walk
import IndexedDisk.Proofs.Lookup
import IndexedDisk.Proofs.Creation
import IndexedDisk.Proofs.Creating
import IndexedDisk.Proofs.Removal
import IndexedDisk.Proofs.Formatting
import IndexedDisk.Proofs.Reading
import IndexedDisk.Proofs.Handles
import IndexedDisk.Proofs.Requests
import IndexedDisk.Proofs.Ownership
import IndexedDisk.Proofs.Footprint
import IndexedDisk.Proofs.Ledger
import IndexedDisk.Proofs.Listing
import IndexedDisk.Proofs.Naming
import IndexedDisk.Proofs.Obstacles
import IndexedDisk.Proofs.Making
import IndexedDisk.Proofs.Removing
import IndexedDisk.Proofs.OpenFiles
import IndexedDisk.Proofs.Persistence
import IndexedDisk.Proofs.Between
import IndexedDisk.Proofs.Failing
import IndexedDisk.Proofs.Refusing
import IndexedDisk.Proofs.Unreadable
import IndexedDisk.Proofs.Allocations
import IndexedDisk.Proofs.Breaches
import IndexedDisk.Proofs.Capacity
import IndexedDisk.Proofs.Addresses
import IndexedDisk.Proofs.NewEntries
import IndexedDisk.Proofs.Commuting
import IndexedDisk.Proofs.Labels
import IndexedDisk.Proofs.Touring
import IndexedDisk.Proofs.Twins
import IndexedDisk.Proofs.Residue
import IndexedDisk.Proofs.Serving
import IndexedDisk.Proofs.Placement
import IndexedDisk.Proofs.Undoing
import IndexedDisk.Proofs.Returning
import IndexedDisk.Proofs.Transfers
import IndexedDisk.Proofs.Prefixes
import IndexedDisk.Proofs.Words
import IndexedDisk.Proofs.Sets
import IndexedDisk.Proofs.Images
import IndexedDisk.Proofs.Strays
import IndexedDisk.Proofs.Spelling
import IndexedDisk.Proofs.Resolving
import IndexedDisk.Proofs.Tables
import IndexedDisk.Proofs.Slots
import IndexedDisk.Proofs.Printing
import IndexedDisk.Proofs.FileDisks
