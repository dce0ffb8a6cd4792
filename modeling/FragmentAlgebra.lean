import FragmentAlgebra.Powers
import FragmentAlgebra.Hexadecimal
import FragmentAlgebra.EdgeTable
import FragmentAlgebra.State
import FragmentAlgebra.Fragment.Basic
import FragmentAlgebra.Fragment.Merge
import FragmentAlgebra.Fragment.Combinators
import FragmentAlgebra.Fragment.Language
import FragmentAlgebra.Search
import FragmentAlgebra.Binary64.Basic
import FragmentAlgebra.Binary64.Rounding
import FragmentAlgebra.Binary64.Shortest
import FragmentAlgebra.Json.Basic
import FragmentAlgebra.Json.Scan
import FragmentAlgebra.Json.Parse
import FragmentAlgebra.Json.Fields
import FragmentAlgebra.Json.Render
import FragmentAlgebra.BuildError
import FragmentAlgebra.Operand
import FragmentAlgebra.Description
import FragmentAlgebra.Random.Source
import FragmentAlgebra.Random.Tape
import FragmentAlgebra.Random.KeyStream
import FragmentAlgebra.Walk.Config
import FragmentAlgebra.Walk.Basic
import FragmentAlgebra.Snapshot.Id
import FragmentAlgebra.Snapshot.Instant
import FragmentAlgebra.Snapshot.Spelling
import FragmentAlgebra.Snapshot.Basic
import FragmentAlgebra.Snapshot.Text
import FragmentAlgebra.Snapshot.Binary
import FragmentAlgebra.Event
import FragmentAlgebra.Fragment.Construction
import FragmentAlgebra.Search.Plain
import FragmentAlgebra.Search.Reached
import FragmentAlgebra.Search.Trail
import FragmentAlgebra.Search.Stretch
import FragmentAlgebra.Description.Language
import FragmentAlgebra.Proofs.Additions
import FragmentAlgebra.Proofs.Closure
import FragmentAlgebra.Proofs.Acceptance
import FragmentAlgebra.Proofs.Merging
import FragmentAlgebra.Proofs.Products
import FragmentAlgebra.Proofs.Loops
import FragmentAlgebra.Proofs.Grammar
import FragmentAlgebra.Proofs.Choices
import FragmentAlgebra.Proofs.Descriptions
import FragmentAlgebra.Proofs.Walks
import FragmentAlgebra.Proofs.Backtracking
import FragmentAlgebra.Proofs.Restoring
import FragmentAlgebra.Proofs.Obtainable
import FragmentAlgebra.Proofs.Coins
import FragmentAlgebra.Proofs.Steering
import FragmentAlgebra.Proofs.Laws
import FragmentAlgebra.Proofs.Trim
import FragmentAlgebra.Proofs.RenamedWalks
import FragmentAlgebra.Proofs.Spellings
import FragmentAlgebra.Proofs.Instants
import FragmentAlgebra.Proofs.Encoding
import FragmentAlgebra.Proofs.Decoding
import FragmentAlgebra.Proofs.Reading
import FragmentAlgebra.Proofs.Texts
import FragmentAlgebra.Checked
import FragmentAlgebra.Proofs.Safety
import FragmentAlgebra.Proofs.Budgets
import FragmentAlgebra.Proofs.Defects
import FragmentAlgebra.Proofs.NormalRecords
import FragmentAlgebra.Proofs.Offences
import FragmentAlgebra.Proofs.Ingredients
import FragmentAlgebra.Proofs.Chains
import FragmentAlgebra.Proofs.Expansions
import FragmentAlgebra.Proofs.Leaving
import FragmentAlgebra.Proofs.Stretches
import FragmentAlgebra.Proofs.Stops
