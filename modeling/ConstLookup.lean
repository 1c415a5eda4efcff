import ConstLookup.File.Tree
import ConstLookup.Main
import ConstLookup.Proofs.Expr.Progress
import ConstLookup.Proofs.Expr.Fuel
import ConstLookup.Proofs.Expr.Monotone
import ConstLookup.Proofs.Symbol.FixedPoint
import ConstLookup.Proofs.Symbol.Refolding
import ConstLookup.Proofs.Expr.Tree
import ConstLookup.Proofs.Expr.Grammar
import ConstLookup.Proofs.Expr.Spelling
import ConstLookup.Proofs.Expr.Shielding
import ConstLookup.Proofs.Expr.Successor
import ConstLookup.Proofs.Expr.Exactness
import ConstLookup.Proofs.Table.UniqueName
import ConstLookup.Proofs.Table.Collision
import ConstLookup.Proofs.Table.DefaultSplit
import ConstLookup.Proofs.Table.IntWidth
import ConstLookup.Proofs.Table.StemGroup
import ConstLookup.Proofs.Table.Assemble
import ConstLookup.Proofs.Table.Validity
import ConstLookup.Proofs.Table.Completeness
import ConstLookup.Proofs.Table.Removal
import ConstLookup.Proofs.Include.Graph
import ConstLookup.Proofs.Include.Order
import ConstLookup.Proofs.Include.Discover
import ConstLookup.Proofs.Include.Dependency
import ConstLookup.Proofs.Emit.BufferSize
import ConstLookup.Proofs.Emit.Defined
import ConstLookup.Proofs.Emit.Distinct
import ConstLookup.Proofs.Source.Formula
import ConstLookup.Proofs.Source.LineTokens
import ConstLookup.Proofs.Source.Commands
import ConstLookup.Proofs.Source.Lines
import ConstLookup.Proofs.Source.Branches
import ConstLookup.Proofs.Source.Condition
import ConstLookup.Proofs.Source.Untaken
import ConstLookup.Proofs.Source.Words
import ConstLookup.Proofs.Source.Members
import ConstLookup.Proofs.Source.Trace
import ConstLookup.Proofs.File.Tree
import ConstLookup.Proofs.File.Reading
import ConstLookup.Proofs.Cli.Run
import ConstLookup.Proofs.Symbol.Accounting
import ConstLookup.Proofs.Table.Partition
import ConstLookup.Proofs.Table.Reordering
import ConstLookup.Proofs.Table.Residual
import ConstLookup.Proofs.Table.Merging
import ConstLookup.Proofs.Table.Labels
import ConstLookup.Proofs.Table.DistinctValues
import ConstLookup.Proofs.Table.Composite
import ConstLookup.Proofs.Table.SubsetCount
import ConstLookup.Proofs.Expr.Balance
import ConstLookup.Proofs.Expr.Shadow
import ConstLookup.Proofs.Expr.Enclosed
import ConstLookup.Proofs.Expr.Unneeded
import ConstLookup.Proofs.Include.Sorting
import ConstLookup.Proofs.Include.Listed
import ConstLookup.Proofs.Include.Stuck
import ConstLookup.Proofs.Include.Pruning
import ConstLookup.Proofs.Include.Truncation
import ConstLookup.Proofs.Source.LineEnd
import ConstLookup.Proofs.Source.DirectiveLines
import ConstLookup.Proofs.Include.Comments
import ConstLookup.Proofs.Include.CommentFree
import ConstLookup.Proofs.Include.Written
import ConstLookup.Proofs.Include.Inclusions
import ConstLookup.Proofs.Text.Lines
import ConstLookup.Proofs.Source.LinkageBrace
import ConstLookup.Proofs.Source.Linkage
import ConstLookup.Proofs.Expr.Names
import ConstLookup.Proofs.Source.Expansion
import ConstLookup.Proofs.Source.DefinedOperator
import ConstLookup.Proofs.Source.LinkageGuard
import ConstLookup.Proofs.Source.LinkageBranches
import ConstLookup.Proofs.Source.MacroNames
import ConstLookup.Proofs.Source.Thinning
import ConstLookup.Proofs.Source.Respelling
import ConstLookup.Proofs.Compiler.SearchList
import ConstLookup.Proofs.Expr.Numeral
import ConstLookup.Proofs.Expr.Literal
import ConstLookup.Proofs.Symbol.History
import ConstLookup.Proofs.Emit.Dispatch
import ConstLookup.Proofs.Compiler.MakeRule
import ConstLookup.Proofs.Define
import ConstLookup.Proofs.Expr.HexLiteral
import ConstLookup.Proofs.Symbol.Marking
import ConstLookup.Proofs.Expr.Bookkeeping
import ConstLookup.Proofs.Expr.FlatChain
