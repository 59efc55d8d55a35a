import Mim.Main
import Mim.Proofs.Spanned
import Mim.Proofs.Step
import Mim.Proofs.Progress
import Mim.Proofs.Grouping.Grammar
import Mim.Proofs.Spells
import Mim.Proofs.Spells.Rules
import Mim.Proofs.Spells.Loops
import Mim.Proofs.Spells.Match
import Mim.Proofs.Apart
import Mim.Proofs.Covers
import Mim.Proofs.Covers.Grammar
import Mim.Proofs.Files
import Mim.Proofs.Isolation
import Mim.Proofs.Lexing.Layouts
import Mim.Proofs.Nesting
import Mim.Proofs.RoundTrip
import Mim.Proofs.Slices
import Mim.Proofs.Reports
import Mim.Proofs.Placeholders
import Mim.Proofs.DocComments
import Mim.Proofs.LaidOut
import Mim.Proofs.Reformatting
import Mim.Proofs.Trivia
import Mim.Proofs.Tiling
import Mim.Proofs.Restart
import Mim.Proofs.Lexing.Patterns
import Mim.Proofs.Lexing.Longest
import Mim.Proofs.Lexing.Rules
import Mim.Proofs.LongestMatch
import Mim.Proofs.Literals
import Mim.Proofs.Contained
import Mim.Proofs.Notes
import Mim.Proofs.WellFormed.Grammar
import Mim.Proofs.Labels
import Mim.Proofs.Integers
import Mim.Proofs.Choices.Formatted
import Mim.Proofs.Boundaries
import Mim.Proofs.StableOrder
