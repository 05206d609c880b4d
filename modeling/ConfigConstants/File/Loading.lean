import ConfigConstants.File.Path
import ConfigConstants.Source.Reading

/-!
Loading the constants of a file. The path is examined first: something has to exist there, it has
to be a regular file, and its extension has to be admitted, in this order. Then the bytes are read,
and whatever they are, they are a source text.
-/

set_option autoImplicit false

namespace ConfigConstants

/-- Why a path is not read at all. The extension that is not supported is given as it is shown. -/
inductive Rejection where
  | notFound
  | notAFile
  | unsupportedExtension (extension : Option Text)
  deriving DecidableEq, Repr

namespace Rejection

def reason : Rejection → Text
  | .notFound => "file not found".toList
  | .notAFile => "not a regular file".toList
  | .unsupportedExtension none => "missing file extension".toList
  | .unsupportedExtension (some extension) => "unsupported file extension: ".toList ++ extension

end Rejection

inductive LoadError where
  | rejected (rejection : Rejection)
  | unreadable (cause : Text)
  deriving DecidableEq, Repr

namespace LoadError

def message (path : Path) : LoadError → Text
  | .rejected rejection =>
      "invalid PHP configuration file ".toList ++ path.shown ++ ": ".toList ++ rejection.reason
  | .unreadable cause => "failed to read ".toList ++ path.shown ++ ": ".toList ++ cause

end LoadError

structure LoadReport where
  result : Except LoadError Constants
  events : List Event

namespace Loading

def sourceAt (system : FileSystem) (extensions : Extensions) (path : Path) :
    Except LoadError Text :=
  match system.find? path with
  | none => .error (.rejected .notFound)
  | some .other => .error (.rejected .notAFile)
  | some (.regular contents) =>
      if extensions.admits path then
        match contents with
        | .error cause => .error (.unreadable cause)
        | .ok bytes => .ok (Text.Utf8.decode bytes)
      else .error (.rejected (.unsupportedExtension (path.extension?.map Text.Utf8.decode)))

/-- Loads a file. A file that is not read leaves no events. -/
def load (system : FileSystem) (extensions : Extensions) (path : Path) : LoadReport :=
  match sourceAt system extensions path with
  | .error error => ⟨.error error, []⟩
  | .ok source =>
      let constants := Source.constants source
      ⟨.ok constants, Source.events source ++ [.loaded path.shown constants.size]⟩

end Loading

end ConfigConstants
