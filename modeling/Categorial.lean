import Categorial.Category.Basic
import Categorial.Category.Reader
import Categorial.Chart.Basic
import Categorial.Chart.Beam
import Categorial.Chart.Cell
import Categorial.Chart.Outside
import Categorial.Chart.Slots
import Categorial.Chart.Step
import Categorial.Choices
import Categorial.Console
import Categorial.Decimal.Binary
import Categorial.Decimal.Fixed
import Categorial.Decimal.Shortest
import Categorial.Derivation
import Categorial.Fault
import Categorial.Features.LogVector
import Categorial.Features.Vector
import Categorial.Forest
import Categorial.Lexicon.Basic
import Categorial.Lexicon.Reader
import Categorial.Main
import Categorial.Model
import Categorial.Parser.Basic
import Categorial.Parser.Grammar
import Categorial.Parser.Job
import Categorial.Parser.Schedule
import Categorial.Parser.Sequential
import Categorial.Parser.Work
import Categorial.Proofs.Category.Grammar
import Categorial.Proofs.Category.Printing
import Categorial.Proofs.Category.Reading
import Categorial.Proofs.Category.RoundTrip
import Categorial.Proofs.Chart.Admissions
import Categorial.Proofs.Chart.Alike
import Categorial.Proofs.Chart.Arrival
import Categorial.Proofs.Chart.BeamInvariant
import Categorial.Proofs.Chart.BeamMoves
import Categorial.Proofs.Chart.Consistency
import Categorial.Proofs.Chart.Cutoff
import Categorial.Proofs.Chart.Keyed
import Categorial.Proofs.Chart.Layout
import Categorial.Proofs.Chart.Merging
import Categorial.Proofs.Chart.Names
import Categorial.Proofs.Chart.Offers
import Categorial.Proofs.Chart.Outline
import Categorial.Proofs.Chart.Outside
import Categorial.Proofs.Chart.Packing
import Categorial.Proofs.Chart.Ranking
import Categorial.Proofs.Chart.Room
import Categorial.Proofs.Chart.Same
import Categorial.Proofs.Chart.Seats
import Categorial.Proofs.Chart.Selection
import Categorial.Proofs.Chart.Slots
import Categorial.Proofs.Chart.Sparing
import Categorial.Proofs.Chart.Stocks
import Categorial.Proofs.Chart.Tallies
import Categorial.Proofs.Choices
import Categorial.Proofs.Computation
import Categorial.Proofs.Features.Accumulation
import Categorial.Proofs.Features.Values
import Categorial.Proofs.Forest.Analyses
import Categorial.Proofs.Forest.Averages
import Categorial.Proofs.Forest.Counts
import Categorial.Proofs.Forest.Expectations
import Categorial.Proofs.Forest.Linear
import Categorial.Proofs.Forest.NormalTrees
import Categorial.Proofs.Forest.Outside
import Categorial.Proofs.Forest.Passes
import Categorial.Proofs.Forest.Places
import Categorial.Proofs.Forest.Recounting
import Categorial.Proofs.Forest.Requests
import Categorial.Proofs.Forest.Rescoring
import Categorial.Proofs.Forest.Scores
import Categorial.Proofs.Forest.Spelling
import Categorial.Proofs.Forest.Trees
import Categorial.Proofs.Forest.Unfoldings
import Categorial.Proofs.Forest.Usage
import Categorial.Proofs.Forest.Visits
import Categorial.Proofs.Forest.Walks
import Categorial.Proofs.Lexicon.Groups
import Categorial.Proofs.Lexicon.Lines
import Categorial.Proofs.Lexicon.Printing
import Categorial.Proofs.Lexicon.Texts
import Categorial.Proofs.Parser.Building
import Categorial.Proofs.Parser.Candidates
import Categorial.Proofs.Parser.Comparison
import Categorial.Proofs.Parser.Completion
import Categorial.Proofs.Parser.Correspondence
import Categorial.Proofs.Parser.Coverage
import Categorial.Proofs.Parser.Crowding
import Categorial.Proofs.Parser.Equivalence
import Categorial.Proofs.Parser.Exactness
import Categorial.Proofs.Parser.Failure
import Categorial.Proofs.Parser.Faithful
import Categorial.Proofs.Parser.Faultless
import Categorial.Proofs.Parser.Filling
import Categorial.Proofs.Parser.Grounding
import Categorial.Proofs.Parser.Growth
import Categorial.Proofs.Parser.History
import Categorial.Proofs.Parser.InTurn
import Categorial.Proofs.Parser.Interleaving
import Categorial.Proofs.Parser.Matching
import Categorial.Proofs.Parser.Missed
import Categorial.Proofs.Parser.Normality
import Categorial.Proofs.Parser.Orderly
import Categorial.Proofs.Parser.Outlines
import Categorial.Proofs.Parser.Progress
import Categorial.Proofs.Parser.Raising
import Categorial.Proofs.Parser.Reading
import Categorial.Proofs.Parser.Registry
import Categorial.Proofs.Parser.Restricted
import Categorial.Proofs.Parser.Results
import Categorial.Proofs.Parser.Scheduling
import Categorial.Proofs.Parser.Sieve
import Categorial.Proofs.Parser.Trace
import Categorial.Proofs.Parser.Unpruned
import Categorial.Proofs.Parser.Vetting
import Categorial.Proofs.Parser.WellFormed
import Categorial.Proofs.Rule.Names
import Categorial.Proofs.Rule.NormalForm
import Categorial.Proofs.Scalar.LogReal
import Categorial.Proofs.Scalar.Ordered
import Categorial.Proofs.Sorting
import Categorial.Proofs.Sums
import Categorial.Proofs.Text.Cuts
import Categorial.Rule.Combinators
import Categorial.Rule.Name
import Categorial.Rule.NormalForm
import Categorial.Scalar.Basic
import Categorial.Scalar.Binary64
import Categorial.Scalar.Elementary
import Categorial.Scalar.LogSpace
import Categorial.Span
import Categorial.Text.Blank
import Categorial.Text.Hidden
import Categorial.Text.Quoted
import Categorial.Tree
