import Covering.Main
import Covering.Proofs.Mesh.Building
import Covering.Proofs.Mesh.Covers
import Covering.Proofs.SearchTree
import Covering.Proofs.Run.Moves
import Covering.Proofs.Run.Simulation
import Covering.Proofs.Run.Calls
import Covering.Proofs.Coverings
import Covering.Proofs.SearchTree.Following
import Covering.Proofs.Resumption
import Covering.Proofs.Recursion
import Covering.Proofs.Transparency
import Covering.Proofs.Mesh.Changes
import Covering.Proofs.Run.Closing
import Covering.Proofs.Run.Taking
import Covering.Proofs.Remainder
import Covering.Proofs.Json.Literals
import Covering.Proofs.Json.RoundTrip
import Covering.Proofs.Checkpoint.Format
import Covering.Proofs.Files.Path
import Covering.Proofs.Files.Replacing
import Covering.Proofs.Checkpoint.Keeping
import Covering.Proofs.Sittings
import Covering.Proofs.Mesh.Showing
import Covering.Proofs.Ring.Walks
import Covering.Proofs.Mesh.Misuse
import Covering.Proofs.SearchTree.Identical
import Covering.Proofs.Repetition
import Covering.Proofs.Sudoku.Names
import Covering.Proofs.Sudoku.Rules
import Covering.Proofs.Sudoku.Placements
import Covering.Proofs.Sudoku.Solving
import Covering.Proofs.Run.Counting
import Covering.Proofs.History
import Covering.Proofs.Course
import Covering.Proofs.Mesh.Courses
import Covering.Proofs.Run.Completion
import Covering.Proofs.FirstSolution
import Covering.Proofs.Sudoku.Printing
import Covering.Proofs.Sudoku.Repeating
import Covering.Proofs.Table.Defects
import Covering.Proofs.Files.Sparing
import Covering.Proofs.Mesh.Equality
import Covering.Proofs.Checkpoint.Saving
import Covering.Proofs.Json.Spelling
import Covering.Proofs.Checkpoint.Reading
import Covering.Proofs.Mesh.Sizes
import Covering.Proofs.Run.Replies
import Covering.Proofs.Diagnostics
import Covering.Proofs.Renaming
import Covering.Proofs.Files.Temporary
import Covering.Proofs.Checkpoint.Interruption
import Covering.Proofs.Run.Replaying
import Covering.Proofs.Run.Branches
import Covering.Proofs.Mesh.Recounting
import Covering.Proofs.Run.Breaking
