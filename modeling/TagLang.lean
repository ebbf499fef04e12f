import TagLang.Diagnostic.Code
import TagLang.Diagnostic.Render
import TagLang.Logic.Script
import TagLang.Project
import TagLang.Proofs.Contract.Faithful
import TagLang.Proofs.Effect.Declared
import TagLang.Proofs.Logic.Decided
import TagLang.Proofs.Solver.Search
import TagLang.Solver.Record
import TagLang.Proofs.Grammar.Lockstep
import TagLang.Proofs.Grammar.Lockstep.Expression
import TagLang.Proofs.Grammar.Lockstep.Statement
import TagLang.Proofs.Grammar.Lockstep.Item
import TagLang.Proofs.Grammar.Nesting
import TagLang.Proofs.Grammar.Isolation
import TagLang.Proofs.Token.Lexes
import TagLang.Proofs.Token.Section
import TagLang.Proofs.Edit
import TagLang.Proofs.Grammar.ClosingId
import TagLang.Proofs.Contract.Sorted
import TagLang.Proofs.Contract.Conditions
import TagLang.Proofs.Contract.Verdict
import TagLang.Proofs.Binding.Scoping
import TagLang.Proofs.Grammar.Module
import TagLang.Proofs.FrontEnd
import TagLang.Proofs.Contract.Genuine
import TagLang.Proofs.Coverage.Exhaustive
import TagLang.Proofs.Effect.Hidden
import TagLang.Proofs.Binding.Identity
import TagLang.Proofs.Api.Callers
import TagLang.Proofs.Token.Place
import TagLang.Proofs.Token.Covered
import TagLang.Proofs.Token.Line
import TagLang.Proofs.Token.Join
import TagLang.Proofs.Contract.Account
import TagLang.Proofs.Contract.Literal
import TagLang.Proofs.Solver.Sexp
import TagLang.Proofs.Logic.Script
import TagLang.Proofs.Contract.Result
import TagLang.Proofs.Grammar.Consume
import TagLang.Proofs.Grammar.Spelling
import TagLang.Proofs.Contract.Operators
import TagLang.Proofs.Solver.Budget
import TagLang.Proofs.Solver.Model
import TagLang.Proofs.Coverage.Missing
import TagLang.Proofs.Coverage.Constant
import TagLang.Proofs.Coverage.Written
import TagLang.Proofs.Coverage.Dead
import TagLang.Proofs.Coverage.Listing
import TagLang.Proofs.Api.Classification
import TagLang.Proofs.Grammar.Chain
import TagLang.Proofs.Ty.RoundTrip
import TagLang.Proofs.Token.Integer
import TagLang.Proofs.Token.Quoted
import TagLang.Proofs.Effect.Catalog
import TagLang.Proofs.Grammar.Bounds
import TagLang.Proofs.Binding.LiteralRange
import TagLang.Proofs.Edit.Distance
import TagLang.Proofs.Coverage.Visits
import TagLang.Proofs.Grammar.Balance
import TagLang.Proofs.Grammar.EffectCodes
