import MarkupTemplate.Config.Verbosity

namespace MarkupTemplate

/-- How much a render tells, where its templates are, and how many include expansions it may
make. -/
structure Config where
  verbosity : Verbosity := .concise
  templateRoot : Text := "./".toList
  maxSteps : Nat := 10000
deriving DecidableEq, Repr, Inhabited

end MarkupTemplate
