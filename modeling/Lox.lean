import Lox.Main
import Lox.Program.Equality
import Lox.Proofs.Bracketed.Identified
import Lox.Proofs.Bracketed.Legible
import Lox.Proofs.Bracketed.Nested
import Lox.Proofs.Bracketed.Reading
import Lox.Proofs.Bracketed.Trees
import Lox.Proofs.Bracketed.Words
import Lox.Proofs.Decimal.Numerals
import Lox.Proofs.Decimal.Rounding
import Lox.Proofs.Decimal.Shortest
import Lox.Proofs.Decimal.Unsigned
import Lox.Proofs.Decimal.Whole
import Lox.Proofs.Dispatch.Agreement
import Lox.Proofs.Dispatch.Calls
import Lox.Proofs.Dispatch.Construction
import Lox.Proofs.Dispatch.Evaluation
import Lox.Proofs.Dispatch.Execution
import Lox.Proofs.Dispatch.Sessions
import Lox.Proofs.Dispatch.Simulation
import Lox.Proofs.Environments.Access
import Lox.Proofs.Environments.Chains
import Lox.Proofs.Environments.Forest
import Lox.Proofs.Execution.Classes
import Lox.Proofs.Execution.Code
import Lox.Proofs.Execution.Counterparts
import Lox.Proofs.Execution.Follows
import Lox.Proofs.Execution.Invariant
import Lox.Proofs.Execution.Kept
import Lox.Proofs.Execution.Relabeled
import Lox.Proofs.Execution.Runs
import Lox.Proofs.Execution.Undisturbed
import Lox.Proofs.Execution.Values
import Lox.Proofs.Grammar.Derived
import Lox.Proofs.Grammar.Determined
import Lox.Proofs.Grammar.Disciplined
import Lox.Proofs.Grammar.Leading
import Lox.Proofs.Grammar.Precedence
import Lox.Proofs.Grammar.Rules
import Lox.Proofs.Grammar.Trees
import Lox.Proofs.Grammar.Written
import Lox.Proofs.Heap.Frame
import Lox.Proofs.Indexed.Agreement
import Lox.Proofs.Indexed.Boundaries
import Lox.Proofs.Indexed.Bounds
import Lox.Proofs.Indexed.Buffers
import Lox.Proofs.Indexed.Grammar
import Lox.Proofs.Indexed.Parser
import Lox.Proofs.Journal.Arguments
import Lox.Proofs.Journal.Journaled
import Lox.Proofs.Journal.Limited
import Lox.Proofs.Journal.Sessions
import Lox.Proofs.Journal.Traits
import Lox.Proofs.Lexical.Agreement
import Lox.Proofs.Lexical.Calls
import Lox.Proofs.Lexical.Correctness
import Lox.Proofs.Lexical.Declarations
import Lox.Proofs.Lexical.Declaring
import Lox.Proofs.Lexical.Evaluation
import Lox.Proofs.Lexical.Execution
import Lox.Proofs.Lexical.Names
import Lox.Proofs.Lexical.Simulation
import Lox.Proofs.Lexical.Values
import Lox.Proofs.Lexical.World
import Lox.Proofs.Lexing.Bytes
import Lox.Proofs.Lexing.Joined
import Lox.Proofs.Lexing.Listed
import Lox.Proofs.Lexing.Longest
import Lox.Proofs.Lexing.Scanner
import Lox.Proofs.Lexing.Sound
import Lox.Proofs.Lexing.Spaced
import Lox.Proofs.Lines.Pieces
import Lox.Proofs.Lines.Reading
import Lox.Proofs.Lines.Sessions
import Lox.Proofs.Loops.Interchange
import Lox.Proofs.Loops.Longhand
import Lox.Proofs.Loops.Replaced
import Lox.Proofs.Parsing.Accepts
import Lox.Proofs.Parsing.Appended
import Lox.Proofs.Parsing.Faithful
import Lox.Proofs.Parsing.Joined
import Lox.Proofs.Parsing.Limits
import Lox.Proofs.Parsing.Makes
import Lox.Proofs.Parsing.Parallel
import Lox.Proofs.Parsing.Parts
import Lox.Proofs.Parsing.Phrases
import Lox.Proofs.Parsing.Relabeled
import Lox.Proofs.Parsing.Settles
import Lox.Proofs.Parsing.Soundness
import Lox.Proofs.Parsing.Statement
import Lox.Proofs.Parsing.Takes
import Lox.Proofs.Parsing.Tolerates
import Lox.Proofs.Parsing.Trees
import Lox.Proofs.Parsing.Yields
import Lox.Proofs.Renaming.Calls
import Lox.Proofs.Renaming.Declarations
import Lox.Proofs.Renaming.Execution
import Lox.Proofs.Renaming.Locals
import Lox.Proofs.Renaming.Names
import Lox.Proofs.Renaming.Parsing
import Lox.Proofs.Renaming.Readings
import Lox.Proofs.Renaming.Respelling
import Lox.Proofs.Renaming.Scoping
import Lox.Proofs.Renaming.Simulation
import Lox.Proofs.Renaming.World
import Lox.Proofs.Returns.Pruned
import Lox.Proofs.Returns.Sessions
import Lox.Proofs.Returns.Trace
import Lox.Proofs.Safety.Sessions
import Lox.Proofs.Safety.Watch
import Lox.Proofs.Scopes.Calls
import Lox.Proofs.Scopes.Declarations
import Lox.Proofs.Scopes.Evaluation
import Lox.Proofs.Scopes.Execution
import Lox.Proofs.Scopes.Matches
import Lox.Proofs.Scopes.Overwriting
import Lox.Proofs.Scopes.Places
import Lox.Proofs.Scopes.Sealed
import Lox.Proofs.Scopes.Variant
import Lox.Proofs.Scopes.Walking
import Lox.Proofs.Scopes.World
import Lox.Proofs.Scoping.Accepted
import Lox.Proofs.Scoping.Addresses
import Lox.Proofs.Scoping.Balanced
import Lox.Proofs.Scoping.Joined
import Lox.Proofs.Scoping.Keys
import Lox.Proofs.Scoping.Linked
import Lox.Proofs.Scoping.Linking
import Lox.Proofs.Scoping.Pruned
import Lox.Proofs.Scoping.Relabeled
import Lox.Proofs.Scoping.Resolved
import Lox.Proofs.Scoping.Resolver
import Lox.Proofs.Scoping.Tables
import Lox.Proofs.Scoping.Violations
import Lox.Proofs.Session.Alike
import Lox.Proofs.Session.Expressions
import Lox.Proofs.Session.Failures
import Lox.Proofs.Session.Joined
import Lox.Proofs.Session.Lines
import Lox.Proofs.Session.Moments
import Lox.Proofs.Session.Numbering
import Lox.Proofs.Session.Relabeled
import Lox.Proofs.Session.Restored
import Lox.Proofs.Session.Shifted
import Lox.Proofs.Session.Stages
import Lox.Proofs.Tree.Leaves
import Lox.Proofs.Tree.Listings
import Lox.Proofs.Tree.Orderly
import Lox.Proofs.Tree.Proper
import Lox.Proofs.Tree.Pruned
import Lox.Proofs.Tree.Recoding
import Lox.Proofs.Tree.Relabel
import Lox.Proofs.Tree.Renumbered
import Lox.Proofs.Tree.Surroundings
