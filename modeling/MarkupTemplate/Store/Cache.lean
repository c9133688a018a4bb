import MarkupTemplate.Data.Table
import MarkupTemplate.Store.LoadError
import MarkupTemplate.Template.Compile

namespace MarkupTemplate

/-- Compiled templates that need not be loaded again. -/
abbrev Cache := Table Text

namespace Cache

/-- The compiled template of a name: the one that is kept, else that of the raw text. -/
def compiled (cache : Cache) (load : Text → Except LoadError Text) (name : Text) :
    Except LoadError Text :=
  match cache.find? name with
  | some template => .ok template
  | none => (load name).map compile

/-- Keeps the compiled template of a name, if it can be had. -/
def keep (cache : Cache) (load : Text → Except LoadError Text) (name : Text) : Cache :=
  match cache.compiled load name with
  | .ok template => Table.insert name template cache
  | .error _ => cache

end Cache

end MarkupTemplate
