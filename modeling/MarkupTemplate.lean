import MarkupTemplate.Config.Reader
import MarkupTemplate.Session
import MarkupTemplate.Render.InPlace
import MarkupTemplate.Proofs.Data.PlainData
import MarkupTemplate.Proofs.Data.PathCase
import MarkupTemplate.Proofs.Data.GivenData
import MarkupTemplate.Proofs.Data.ModelNames
import MarkupTemplate.Proofs.Template.FilledAhead
import MarkupTemplate.Proofs.Template.Placeholders
import MarkupTemplate.Proofs.Template.Compiling
import MarkupTemplate.Proofs.Template.ArgumentOrder
import MarkupTemplate.Proofs.Markup.Writable
import MarkupTemplate.Proofs.Markup.WrittenTokens
import MarkupTemplate.Proofs.Markup.ReadBack
import MarkupTemplate.Proofs.Markup.WholeTokens
import MarkupTemplate.Proofs.Markup.BuilderSteps
import MarkupTemplate.Proofs.Markup.TextSpelling
import MarkupTemplate.Proofs.Markup.StartTags
import MarkupTemplate.Proofs.Markup.TokenSpans
import MarkupTemplate.Proofs.Markup.RawText
import MarkupTemplate.Proofs.Render.LoopPasses
import MarkupTemplate.Proofs.Render.IncludeExpansion
import MarkupTemplate.Proofs.Render.LoopNesting
import MarkupTemplate.Proofs.Render.ResolvedTags
import MarkupTemplate.Proofs.Render.TextDivision
import MarkupTemplate.Proofs.Render.LoopCourses
import MarkupTemplate.Proofs.Render.SplicedForests
import MarkupTemplate.Proofs.Render.SplicedChains
import MarkupTemplate.Proofs.Render.UnfoldedPasses
import MarkupTemplate.Proofs.Render.UnfoldedLoops
import MarkupTemplate.Proofs.Render.PlaceOfInclude
import MarkupTemplate.Proofs.Render.BodyFilling
import MarkupTemplate.Proofs.Render.SideBySide
import MarkupTemplate.Proofs.Render.VerbosityTold
import MarkupTemplate.Proofs.Render.LoopVisits
import MarkupTemplate.Proofs.Render.IncludeBudget
import MarkupTemplate.Proofs.Render.ChainMeaning
import MarkupTemplate.Proofs.Render.LoopCopies
import MarkupTemplate.Proofs.Render.IncludeTransparency
import MarkupTemplate.Proofs.Arena.Soundness
import MarkupTemplate.Proofs.Arena.ForestEdits
import MarkupTemplate.Proofs.Arena.ReadingOrder
import MarkupTemplate.Proofs.Arena.OutermostPieces
import MarkupTemplate.Proofs.Arena.StackSearch
import MarkupTemplate.Proofs.InPlace.InPlaceAgreement
import MarkupTemplate.Proofs.InPlace.FailedIncludes
import MarkupTemplate.Proofs.Engine.EngineCache
import MarkupTemplate.Proofs.Engine.TemplateRoot
