import Horn.Engine.Search
import Horn.Json.Clause
import Horn.Json.Settings
import Horn.Literal.Equality
import Horn.Proofs.Fact.Key
import Horn.Proofs.Program.Candidates
import Horn.Proofs.Unification.MostGeneral
import Horn.Proofs.Search.Soundness
import Horn.Proofs.Program.Change
import Horn.Proofs.Engine.History
import Horn.Proofs.Engine.Retention
import Horn.Proofs.Search.Listing
import Horn.Proofs.Unification.Classes
import Horn.Proofs.Unification.Variants
import Horn.Proofs.Unification.Selection
import Horn.Proofs.Unification.Correspondence
import Horn.Proofs.Unification.Demands
import Horn.Proofs.Forest
import Horn.Proofs.Search.Likeness
import Horn.Proofs.Search.Pending
import Horn.Proofs.Search.Lead
import Horn.Proofs.Search.Completeness
import Horn.Proofs.Engine.Completeness
import Horn.Proofs.Engine.Agreement
import Horn.Proofs.Engine.Transparency
import Horn.Proofs.Engine.Termination
import Horn.Proofs.Engine.Pruning
import Horn.Proofs.Engine.Boundedness
import Horn.Proofs.Engine.EarlyExit
import Horn.Proofs.Engine.Asserted
import Horn.Proofs.Engine.FactTable
import Horn.Proofs.Engine.Definedness
import Horn.Proofs.Engine.Excursion
import Horn.Proofs.Search.FactTable
import Horn.Proofs.Engine.Renaming
import Horn.Proofs.Engine.Restoration
import Horn.Proofs.Program.Exchange
import Horn.Proofs.Engine.Isolation
import Horn.Proofs.Engine.Order
import Horn.Proofs.Program.Ledger
import Horn.Proofs.Program.Plain
import Horn.Proofs.Engine.Protection
import Horn.Proofs.Engine.Refusal
import Horn.Proofs.Fact.Renaming
import Horn.Proofs.Search.Feed
import Horn.Proofs.Search.Hit
import Horn.Proofs.Builtin.Cast
import Horn.Proofs.Builtin.Division
import Horn.Proofs.Expression.Evaluation
import Horn.Proofs.Builtin.Total
import Horn.Proofs.Builtin.Split
import Horn.Proofs.Builtin.Sort
import Horn.Proofs.Builtin.Extreme
import Horn.Proofs.Unification.Chains
import Horn.Proofs.Unification.Elimination
import Horn.Proofs.Builtin.Index
import Horn.Proofs.Memo.Enabling
import Horn.Proofs.Renaming
import Horn.Proofs.Search.Ancestry
import Horn.Proofs.Search.Lineage
import Horn.Proofs.Search.Descendants
import Horn.Proofs.Search.Compaction
import Horn.Proofs.Engine.Descendants
import Horn.Proofs.Engine.Compaction
import Horn.Proofs.Predicate
