import TypeExpr.Main
import TypeExpr.Proofs.Output
import TypeExpr.Proofs.Soundness
import TypeExpr.Proofs.Decode.Value
import TypeExpr.Proofs.Language
import TypeExpr.Proofs.FirstFailure
import TypeExpr.Proofs.Passes
import TypeExpr.Proofs.BadLine
import TypeExpr.Proofs.FirstFault
import TypeExpr.Proofs.Answered
import TypeExpr.Proofs.CommandLine
import TypeExpr.Proofs.Journal
import TypeExpr.Proofs.NormalForm
import TypeExpr.Proofs.CallableRule
import TypeExpr.Proofs.Alike
import TypeExpr.Proofs.Rearranged
import TypeExpr.Proofs.SourceLine
import TypeExpr.Proofs.LineLiteral
import TypeExpr.Proofs.Report
import TypeExpr.Proofs.Contexts
import TypeExpr.Proofs.Distinct
