import OperatorLALR.Analysis.Basic
import OperatorLALR.Analysis.First
import OperatorLALR.Analysis.Listing
import OperatorLALR.Analysis.RuleChain
import OperatorLALR.Automaton.Basic
import OperatorLALR.Automaton.Item
import OperatorLALR.Automaton.Listing
import OperatorLALR.Automaton.Lookahead
import OperatorLALR.Automaton.Predecessors
import OperatorLALR.Build
import OperatorLALR.Diagnostic
import OperatorLALR.Distinct
import OperatorLALR.Exploration
import OperatorLALR.FixedPoint
import OperatorLALR.Grammar.Basic
import OperatorLALR.Grammar.Definition
import OperatorLALR.Grammar.Listing
import OperatorLALR.Grammar.Order
import OperatorLALR.Grammar.Usage
import OperatorLALR.Index
import OperatorLALR.IndexSet
import OperatorLALR.Numbering
import OperatorLALR.Operator.Basic
import OperatorLALR.Operator.Specifier
import OperatorLALR.Operator.Table
import OperatorLALR.OrderedMap
import OperatorLALR.ParseTable.Basic
import OperatorLALR.ParseTable.Conflict
import OperatorLALR.ParseTable.Explicit
import OperatorLALR.ParseTable.Generated
import OperatorLALR.ParseTable.Listing
import OperatorLALR.ParseTable.Resolution
import OperatorLALR.Parser.Backtrack
import OperatorLALR.Parser.Basic
import OperatorLALR.Parser.Description
import OperatorLALR.Parser.Outcome
import OperatorLALR.Parser.Ranking
import OperatorLALR.Parser.Run
import OperatorLALR.Parser.Step
import OperatorLALR.Proofs.Analysis.Acyclic
import OperatorLALR.Proofs.Analysis.Buckets
import OperatorLALR.Proofs.Analysis.Chains
import OperatorLALR.Proofs.Analysis.Cycles
import OperatorLALR.Proofs.Analysis.First
import OperatorLALR.Proofs.Analysis.HiddenRecursion
import OperatorLALR.Proofs.Automaton.Canonical
import OperatorLALR.Proofs.Automaton.Expected
import OperatorLALR.Proofs.Automaton.FollowSets
import OperatorLALR.Proofs.Automaton.Kernels
import OperatorLALR.Proofs.Automaton.Lookaheads
import OperatorLALR.Proofs.Automaton.Origins
import OperatorLALR.Proofs.Automaton.Powers
import OperatorLALR.Proofs.Automaton.Predecessors
import OperatorLALR.Proofs.Automaton.Propagation
import OperatorLALR.Proofs.Automaton.StateNumbers
import OperatorLALR.Proofs.Automaton.States
import OperatorLALR.Proofs.Completeness.Choices
import OperatorLALR.Proofs.Completeness.Decisions
import OperatorLALR.Proofs.Completeness.Guides
import OperatorLALR.Proofs.Completeness.Offers
import OperatorLALR.Proofs.Completeness.Outcomes
import OperatorLALR.Proofs.Completeness.Plain
import OperatorLALR.Proofs.Completeness.Runs
import OperatorLALR.Proofs.Completeness.Yields
import OperatorLALR.Proofs.ConflictFree.Determinism
import OperatorLALR.Proofs.ConflictFree.Parses
import OperatorLALR.Proofs.ConflictFree.Prefixes
import OperatorLALR.Proofs.ConflictFree.Progress
import OperatorLALR.Proofs.Grammar.Consistency
import OperatorLALR.Proofs.Grammar.Declarations
import OperatorLALR.Proofs.Grammar.Reachability
import OperatorLALR.Proofs.Grammar.Successes
import OperatorLALR.Proofs.Operators.Definitions
import OperatorLALR.Proofs.Operators.Expressions
import OperatorLALR.Proofs.Operators.Independence
import OperatorLALR.Proofs.Operators.Interchange
import OperatorLALR.Proofs.Operators.Parses
import OperatorLALR.Proofs.Operators.Placement
import OperatorLALR.Proofs.Operators.Ranking
import OperatorLALR.Proofs.Operators.Scripts
import OperatorLALR.Proofs.Operators.Tables
import OperatorLALR.Proofs.Operators.Trees
import OperatorLALR.Proofs.ParseTable.Acceptance
import OperatorLALR.Proofs.ParseTable.Competitions
import OperatorLALR.Proofs.ParseTable.Covers
import OperatorLALR.Proofs.ParseTable.Exact
import OperatorLALR.Proofs.ParseTable.Permits
import OperatorLALR.Proofs.ParseTable.Precedences
import OperatorLALR.Proofs.ParseTable.Records
import OperatorLALR.Proofs.ParseTable.Settlement
import OperatorLALR.Proofs.ParseTable.Silence
import OperatorLALR.Proofs.Parser.Accounts
import OperatorLALR.Proofs.Parser.Calls
import OperatorLALR.Proofs.Parser.DeadEnds
import OperatorLALR.Proofs.Parser.Entries
import OperatorLALR.Proofs.Parser.Failures
import OperatorLALR.Proofs.Parser.Farthest
import OperatorLALR.Proofs.Parser.Limits
import OperatorLALR.Proofs.Parser.Moves
import OperatorLALR.Proofs.Parser.Recording
import OperatorLALR.Proofs.Parser.Requests
import OperatorLALR.Proofs.Parser.Restoring
import OperatorLALR.Proofs.Parser.Timely
import OperatorLALR.Proofs.Parser.Tokens
import OperatorLALR.Proofs.Parser.Undoing
import OperatorLALR.Proofs.Precedence.Cells
import OperatorLALR.Proofs.Precedence.Grammars
import OperatorLALR.Proofs.Precedence.Language
import OperatorLALR.Proofs.Precedence.Parses
import OperatorLALR.Proofs.Precedence.Stacks
import OperatorLALR.Proofs.Precedence.Trees
import OperatorLALR.Proofs.ReportOrders
import OperatorLALR.Proofs.Search.Branch
import OperatorLALR.Proofs.Search.Direct
import OperatorLALR.Proofs.Search.Exhaustive
import OperatorLALR.Proofs.Search.Exploration
import OperatorLALR.Proofs.Search.Input
import OperatorLALR.Proofs.Search.Likeness
import OperatorLALR.Proofs.Search.Simulation
import OperatorLALR.Proofs.Search.Termination
import OperatorLALR.Proofs.Sorting
import OperatorLALR.Proofs.Soundness.Branches
import OperatorLALR.Proofs.Soundness.Parses
import OperatorLALR.Proofs.Soundness.Paths
import OperatorLALR.Proofs.Soundness.Prefixes
import OperatorLALR.Proofs.Soundness.Priorities
import OperatorLALR.Proofs.Soundness.Safety
import OperatorLALR.Proofs.Termination.Consumption
import OperatorLALR.Proofs.Termination.Parses
import OperatorLALR.Proofs.Termination.Reductions
import OperatorLALR.Proofs.Termination.Stacks
import OperatorLALR.Proofs.Traversal
import OperatorLALR.Sorting
import OperatorLALR.Text.Alphanumeric
import OperatorLALR.Text.CharRanges
import OperatorLALR.Text.Layout
import OperatorLALR.Text.LowerCase
import OperatorLALR.Text.NameOrder
import OperatorLALR.Text.Printable
import OperatorLALR.Text.Quoted
import OperatorLALR.WorkQueue
