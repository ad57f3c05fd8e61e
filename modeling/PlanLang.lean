import PlanLang.Proofs.Builder.Balance
import PlanLang.Proofs.Confinement
import PlanLang.Proofs.DefaultType
import PlanLang.Proofs.Domain
import PlanLang.Proofs.Gate
import PlanLang.Proofs.Grammar
import PlanLang.Proofs.Hierarchy
import PlanLang.Proofs.Outline.Written
import PlanLang.Proofs.Problem
import PlanLang.Proofs.Wording
import PlanLang.Proofs.Layout
import PlanLang.Proofs.Ending
import PlanLang.Proofs.Covered
import PlanLang.Proofs.Placement.Reader
import PlanLang.Proofs.Placement.Section
import PlanLang.Proofs.Placement
import PlanLang.Proofs.Token.Span
import PlanLang.Proofs.Builder.Failure
import PlanLang.Proofs.Written
import PlanLang.Proofs.Written.Formula
import PlanLang.Proofs.Written.Section
import PlanLang.Proofs.Reading.Description
import PlanLang.Proofs.TypedLists
import PlanLang.Proofs.Builder.Parts
import PlanLang.Proofs.Builder.Success
import PlanLang.Proofs.Builder.Isolation
import PlanLang.Proofs.Builder.Terms
import PlanLang.Proofs.Builder.TypedFirst
import PlanLang.Proofs.TypeDeclarations
import PlanLang.Proofs.Draft.Checkpoint
import PlanLang.Proofs.Outline.Title
import PlanLang.Proofs.Outline.Requirements
import PlanLang.Proofs.Hierarchy.Calls
import PlanLang.Proofs.Builder.EitherList
import PlanLang.Proofs.Hierarchy.Stability
import PlanLang.Proofs.Hierarchy.Stability
import PlanLang.Proofs.Builder.EitherList
