import MarkupTemplate.Config.Basic
import MarkupTemplate.Render.Rendering
import MarkupTemplate.Store.Cache
import MarkupTemplate.Store.Source

namespace MarkupTemplate

/-- An engine has a configuration and a source of templates. -/
structure Engine where
  config : Config
  source : Source
deriving Repr, Inhabited

/-- What a caller gets from a render: the text and the notices that the verbosity asks for. -/
structure Report where
  text : Text
  notices : List Notice
deriving DecidableEq, Repr

namespace Engine

/-- An engine whose templates are files below the root of the configuration. -/
def ofConfig (config : Config) : Engine :=
  ⟨config, .files config.templateRoot⟩

/-- An engine whose templates are in memory. -/
def ofTemplates (config : Config) (texts : Table Text) : Engine :=
  ⟨config, .templates texts⟩

/-- Tells more or less from now on. -/
def setVerbosity (engine : Engine) (verbosity : Verbosity) : Engine :=
  { engine with config := { engine.config with verbosity } }

/-- Reads templates from files below another root from now on. The cache of the engine is for the
caller to clear. -/
def setTemplateRoot (engine : Engine) (templateRoot : Text) : Engine :=
  ofConfig { engine.config with templateRoot }

/-- The raw text of a template whose name has no root in front. -/
def load (engine : Engine) (disk : Disk) (name : Text) : Except LoadError Text :=
  engine.source.load disk name

/-- The name of a template in the source and in the cache. -/
def templateName (engine : Engine) (name : Text) : Text :=
  nameBelow engine.config.templateRoot name

/-- The compiled template of a name. -/
def template (engine : Engine) (disk : Disk) (cache : Cache) (name : Text) :
    Except LoadError Text :=
  cache.compiled (engine.load disk) (engine.templateName name)

/-- The cache after a template has been asked for. -/
def keep (engine : Engine) (disk : Disk) (cache : Cache) (name : Text) : Cache :=
  cache.keep (engine.load disk) (engine.templateName name)

/-- What includes resolve to in a render. -/
def context (engine : Engine) (disk : Disk) (cache : Cache) : Context where
  template := engine.template disk cache
  maxSteps := engine.config.maxSteps
  verbosity := engine.config.verbosity

/-- Renders a compiled text. The cache then holds the templates that were included and can be had. -/
def renderCompiled? (engine : Engine) (disk : Disk) (depth : Nat) (cache : Cache) (model : Model)
    (compiled : Text) : Option (Report × Cache) := do
  let rendering ← render? (engine.context disk cache) depth model compiled
  some (⟨rendering.text, rendering.notices⟩,
    (rendering.expanded.filterMap id).foldl (engine.keep disk) cache)

/-- Renders a text that is not in the source. -/
def renderText? (engine : Engine) (disk : Disk) (depth : Nat) (cache : Cache) (model : Model)
    (text : Text) : Option (Report × Cache) :=
  engine.renderCompiled? disk depth cache model (compile text)

/-- Renders a template of the source. -/
def renderTemplate? (engine : Engine) (disk : Disk) (depth : Nat) (cache : Cache) (model : Model)
    (name : Text) : Option (Except LoadError Report × Cache) :=
  match engine.template disk cache name with
  | .error error => some (.error error, cache)
  | .ok compiled => do
    let (report, cache) ←
      engine.renderCompiled? disk depth (engine.keep disk cache name) model compiled
    some (.ok report, cache)

end Engine

end MarkupTemplate
