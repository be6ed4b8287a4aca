import ExtendedRegex.Matcher.Basic
import ExtendedRegex.Proofs.Runs
import ExtendedRegex.Proofs.StateTable
import ExtendedRegex.Regex.Display
import ExtendedRegex.Regex.Groups
import ExtendedRegex.Regex.Outline
import ExtendedRegex.Proofs.Preference
import ExtendedRegex.Proofs.Exploration
import ExtendedRegex.Proofs.Layout
import ExtendedRegex.Proofs.Scan
import ExtendedRegex.Proofs.Captures
import ExtendedRegex.Proofs.SearchTree
import ExtendedRegex.Proofs.Spans
import ExtendedRegex.Proofs.Recognition
import ExtendedRegex.Proofs.OrderedChoice
import ExtendedRegex.Proofs.Traversals
import ExtendedRegex.Proofs.GreedyLoops
import ExtendedRegex.Proofs.Counts
import ExtendedRegex.Proofs.RoundTrip
import ExtendedRegex.Proofs.StackLabels
import ExtendedRegex.Proofs.GroupNumbers
import ExtendedRegex.Proofs.StepCount
import ExtendedRegex.Proofs.Machine
import ExtendedRegex.Proofs.Excerpts
import ExtendedRegex.Proofs.Attempts
import ExtendedRegex.Proofs.Pieces
import ExtendedRegex.Proofs.Succession
import ExtendedRegex.Proofs.Expansion
import ExtendedRegex.Proofs.Nesting
import ExtendedRegex.Proofs.StackShape
import ExtendedRegex.Proofs.Splices
import ExtendedRegex.Proofs.Repetitions
import ExtendedRegex.Proofs.DecimalBounds
import ExtendedRegex.Proofs.SharedGroups
import ExtendedRegex.Proofs.PlainText
import ExtendedRegex.Proofs.BracketSets
import ExtendedRegex.Proofs.CanonicalRanges
import ExtendedRegex.Proofs.Lookups
import ExtendedRegex.Proofs.Visits
import ExtendedRegex.Proofs.Templates
import ExtendedRegex.Proofs.Unfolding
import ExtendedRegex.Proofs.LowestMarker
import ExtendedRegex.Proofs.UnclosedGroups
import ExtendedRegex.Proofs.Escaping
