import CoreForge.Main
import CoreForge.Placement.Insertion
import CoreForge.Proofs.BitNotation
import CoreForge.Proofs.Placement
import CoreForge.Proofs.Insertion
import CoreForge.Proofs.Editing
import CoreForge.Proofs.Unrolling
import CoreForge.Proofs.Overlaps
import CoreForge.Proofs.Duplicates
import CoreForge.Proofs.Agreement
import CoreForge.Proofs.Repetitions
import CoreForge.Proofs.Records
import CoreForge.Proofs.RoundTrip
import CoreForge.Proofs.Characters
import CoreForge.Proofs.Entities
import CoreForge.Proofs.Rereading
import CoreForge.Proofs.BusMembers
import CoreForge.Proofs.Keywords
import CoreForge.Proofs.Nesting
import CoreForge.Proofs.Printing
import CoreForge.Proofs.Comments
import CoreForge.Proofs.Entries
import CoreForge.Proofs.Declarations
import CoreForge.Proofs.Expansion
import CoreForge.Proofs.Libraries
import CoreForge.Proofs.UserSide
import CoreForge.Proofs.Caching
import CoreForge.Proofs.Caseless
import CoreForge.Proofs.Isolation
import CoreForge.Proofs.Literals
import CoreForge.Proofs.Spelling
import CoreForge.Proofs.LeastMoves
import CoreForge.Proofs.Ends
import CoreForge.Proofs.Naming
import CoreForge.Proofs.Scanning
import CoreForge.Proofs.FieldLayout
import CoreForge.Proofs.Tallies
import CoreForge.Proofs.Detection
import CoreForge.Proofs.Numerals
import CoreForge.Proofs.BlankAccess
import CoreForge.Proofs.InstanceNames
import CoreForge.Proofs.ResetValues
import CoreForge.Proofs.ArrayInstances
import CoreForge.Proofs.Ranges
import CoreForge.Proofs.Clauses
import CoreForge.Proofs.Slices
import CoreForge.Proofs.SlicedSearch
import CoreForge.Proofs.SlicedClauses
import CoreForge.Proofs.SlicedPorts
import CoreForge.Proofs.SlicedReading
import CoreForge.Proofs.KeywordPositions
