import MarkupTemplate.Config.Verbosity
import MarkupTemplate.Markup.Document
import MarkupTemplate.Store.LoadError

namespace MarkupTemplate

/-- Something that a render had to put up with. -/
inductive Notice where
  | markup (warning : Warning)
  | gaveUp (maxSteps : Nat)
  | noCondition
  | unknownCondition (name : Text)
  | includeWithoutSource
  | includeFailed (source : Text) (error : LoadError)
  | argumentWithoutName (source : Text)
  | notAnArgument (markup source : Text)
  | textInInclude (source : Text)
  | loopWithoutValue
  | loopWithoutCollection
  | notCollection (name : Text)
  | undefinedCollection (name : Text)
  | unresolved (placeholder : Text)
deriving DecidableEq, Repr

namespace Notice

/-- The level that a notice belongs to. -/
def level : Notice → Verbosity
  | .markup _ => .debug
  | .unresolved _ => .verbose
  | _ => .concise

/-- The wording of a notice. -/
def message : Notice → Text
  | .markup warning => "markup: ".toList ++ warning.message
  | .gaveUp maxSteps =>
    "gave up after ".toList ++ natText maxSteps ++
      " include expansions, remaining includes are left as they are".toList
  | .noCondition => "conditional element found with no condition, treated as false".toList
  | .unknownCondition name => "condition references a nonexistent model value: ".toList ++ name
  | .includeWithoutSource =>
    "<include> element found with no src attribute, ignoring element".toList
  | .includeFailed source error =>
    "<include src=\"".toList ++ source ++ "\"> cannot be loaded, ignoring element: ".toList ++
      error.message
  | .argumentWithoutName source =>
    "<arg> element found with no attribute, ignoring <include src=\"".toList ++ source ++
      "\">".toList
  | .notAnArgument node source =>
    node ++ " inside <include src=\"".toList ++ source ++ "\"> is not an <arg> element".toList
  | .textInInclude source =>
    "text inside <include src=\"".toList ++ source ++ "\"> is ignored".toList
  | .loopWithoutValue =>
    "<foreach> element found with no \"val\" attribute, ignoring element".toList
  | .loopWithoutCollection =>
    "<foreach> element found with no \"in\" attribute, ignoring element".toList
  | .notCollection name =>
    "<foreach in=\"".toList ++ name ++ "\"> is not a collection, ignoring element".toList
  | .undefinedCollection name =>
    "<foreach in=\"".toList ++ name ++ "\"> refers to an undefined value, ignoring element".toList
  | .unresolved placeholder => "unresolved variable ".toList ++ placeholder

/-- The notices that are told at a verbosity. -/
def told (verbosity : Verbosity) (notices : List Notice) : List Notice :=
  notices.filter fun notice => verbosity.tells notice.level

end Notice

end MarkupTemplate
