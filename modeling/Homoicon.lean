import Homoicon.Main
import Homoicon.Pattern.Search
import Homoicon.Proofs.Pattern.Blueprint
import Homoicon.Table
import Homoicon.Task
import Homoicon.Proofs.Pattern.Takes
import Homoicon.Proofs.Thread.Step
import Homoicon.Proofs.Thread.Completion
import Homoicon.Proofs.Failure
import Homoicon.Proofs.Search.Closure
import Homoicon.Proofs.Thread.Sound
import Homoicon.Proofs.Search.Run
import Homoicon.Proofs.Search.Matching
import Homoicon.Proofs.Search.Order
import Homoicon.Proofs.Reading.Tokens
import Homoicon.Proofs.Reading.Watch
import Homoicon.Proofs.Reading.Assembly
import Homoicon.Proofs.Reading.Lossless
import Homoicon.Proofs.Reading.Reconstruction
import Homoicon.Proofs.Pattern.Productive
import Homoicon.Proofs.Thread.Rank
import Homoicon.Proofs.Thread.Branch
import Homoicon.Proofs.Search.Address
import Homoicon.Proofs.Pattern.Span
import Homoicon.Proofs.Thread.Outcome
import Homoicon.Proofs.Thread.Backtrack
import Homoicon.Proofs.Search.Exploration
import Homoicon.Proofs.Thread.Return
import Homoicon.Proofs.Search.Priority
import Homoicon.Proofs.Search.Foremost
import Homoicon.Proofs.Search.Bindings
import Homoicon.Proofs.Node.Number
import Homoicon.Proofs.Node.Structure
import Homoicon.Proofs.Node.Hashing
import Homoicon.Proofs.Table.Placement
import Homoicon.Proofs.Table.History
import Homoicon.Proofs.Reading.Spared
import Homoicon.Proofs.Reading.Prompt
import Homoicon.Proofs.Reading.Descent
import Homoicon.Proofs.Reading.Lookback
import Homoicon.Proofs.Reading.Refinement
import Homoicon.Proofs.Pattern.Passage
import Homoicon.Proofs.Search.Captures
import Homoicon.Proofs.Thread.Shift
import Homoicon.Proofs.Search.Excerpt
import Homoicon.Proofs.Search.Independence
import Homoicon.Proofs.Reading.Occurrence
import Homoicon.Proofs.Reading.Places
import Homoicon.Proofs.Reading.Lines
import Homoicon.Proofs.Reading.Nesting
import Homoicon.Proofs.Node.Literal
import Homoicon.Proofs.Reading.Invariant
import Homoicon.Proofs.Reading.Reflexive
import Homoicon.Proofs.Reading.LineComment
import Homoicon.Proofs.Reading.Pieces
import Homoicon.Proofs.Reading.Relocation
import Homoicon.Proofs.Reading.Composition
import Homoicon.Proofs.Reading.Quoting
import Homoicon.Proofs.Search.Termination
import Homoicon.Proofs.Thread.Places
import Homoicon.Proofs.Search.Occupancy
import Homoicon.Proofs.Search.Continuation
import Homoicon.Proofs.Table.Representation
import Homoicon.Proofs.Table.Canonical
import Homoicon.Proofs.Task.Service
import Homoicon.Proofs.Token.Cutting
import Homoicon.Proofs.Render.Markup
import Homoicon.Proofs.Reading.Trace
import Homoicon.Proofs.Reading.Faults
import Homoicon.Proofs.Reading.Guarded
import Homoicon.Proofs.Reading.Tally
import Homoicon.Proofs.Reading.Safety
import Homoicon.Proofs.Search.Budget
import Homoicon.Proofs.Reading.Closing
import Homoicon.Proofs.Render.Excerpt
import Homoicon.Proofs.Reading.Report
import Homoicon.Proofs.Reading.Denotation
import Homoicon.Proofs.Reading.Faithful
import Homoicon.Proofs.Reading.Written
import Homoicon.Proofs.Token.Longest
import Homoicon.Proofs.Token.Maximal
import Homoicon.Proofs.Token.Linewise
import Homoicon.Proofs.Reading.Interpolation
import Homoicon.Proofs.Search.Best
import Homoicon.Proofs.Digest
import Homoicon.Proofs.Node.Separation
