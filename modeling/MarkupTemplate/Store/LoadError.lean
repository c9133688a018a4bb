import MarkupTemplate.Text.Basic

namespace MarkupTemplate

/-- Why the file of a template cannot be read, although something is there. -/
inductive ReadFailure where
  | isDirectory
  | notDirectory
  | notUnicode
  | nulInPath
  | pathTooLong
deriving DecidableEq, Repr

/-- The wording of a read failure. -/
def ReadFailure.message : ReadFailure → Text
  | .isDirectory => "Is a directory (os error 21)".toList
  | .notDirectory => "Not a directory (os error 20)".toList
  | .notUnicode => "stream did not contain valid UTF-8".toList
  | .nulInPath => "file name contained an unexpected NUL byte".toList
  | .pathTooLong => "File name too long (os error 36)".toList

/-- A template that is not there, or cannot be read. -/
inductive LoadError where
  | notFound (name : Text)
  | unreadable (name : Text) (failure : ReadFailure)
deriving DecidableEq, Repr

/-- The wording of a load error. -/
def LoadError.message : LoadError → Text
  | .notFound name => "template not found: ".toList ++ name
  | .unreadable name failure =>
    "failed to read template ".toList ++ name ++ ": ".toList ++ failure.message

end MarkupTemplate
