import ConfigConstants.NameMap
import ConfigConstants.Text.Utf8

/-!
Paths, where they lead, and which of them may be loaded. A path is any sequence of bytes, which
need not be text. Slashes at its end and components that mean "here" do not count, and a path that
ends by going up has no file name. The extensions that are admitted are texts; they are compared
exactly, and a point in front of one is not part of it. Unless told otherwise, `php` and `inc` are
admitted.
-/

set_option autoImplicit false

namespace ConfigConstants

structure Path where
  bytes : List UInt8
  deriving DecidableEq, Repr

namespace Path

/-- A text names the path of its UTF-8 bytes. -/
instance : Coe Text Path where
  coe text := ⟨Text.Utf8.encode text⟩

def shown (path : Path) : Text :=
  Text.Utf8.decode path.bytes

def slash : UInt8 := '/'.toUInt8

def point : UInt8 := '.'.toUInt8

def here : List UInt8 := [point]

def above : List UInt8 := [point, point]

/-- What stands between the slashes, empty components included. -/
def components (path : Path) : List (List UInt8) :=
  path.bytes.splitOn slash

/-- The last component that leads somewhere, unless it leads up. -/
def fileName? (path : Path) : Option (List UInt8) :=
  ((components path).filter fun component => component != [] && component != here).getLast?.filter
    fun name => name != above

/-- What follows the last point of a file name, if something stands in front of that point. -/
def nameExtension? (name : List UInt8) : Option (List UInt8) :=
  ((Text.splitAtLast? point name).filter fun (stem, _) => !stem.isEmpty).map Prod.snd

theorem nameExtension?_eq_some_iff {name extension : List UInt8} :
    nameExtension? name = some extension ↔
      ∃ stem, stem ≠ [] ∧ name = stem ++ point :: extension ∧ point ∉ extension := by
  simp only [nameExtension?, Option.map_eq_some_iff, Option.filter_eq_some_iff, Prod.exists,
    Text.splitAtLast?_eq_some_iff, Bool.not_eq_true', List.isEmpty_eq_false_iff]
  constructor
  · rintro ⟨stem, behind, ⟨parts, nonempty⟩, rfl⟩
    exact ⟨stem, nonempty, parts⟩
  · rintro ⟨stem, nonempty, parts⟩
    exact ⟨stem, extension, ⟨parts, nonempty⟩, rfl⟩

def extension? (path : Path) : Option (List UInt8) :=
  (fileName? path).bind nameExtension?

end Path

/-- What stands at the end of a path: a regular file, with its bytes or the reason why they cannot
be read, or anything else, such as a folder. -/
inductive FileEntry where
  | regular (contents : Except Text (List UInt8))
  | other

/-- The file system as a reader sees it, unchanging; a path may lead nowhere. -/
structure FileSystem where
  find? : Path → Option FileEntry

/-- A set of extensions, kept in ascending order. -/
abbrev Extensions := NameMap Unit

namespace Extensions

/-- An extension without the one point that may be written in front of it. -/
def withoutPoint : Text → Text
  | [] => []
  | head :: tail => if head = '.' then tail else head :: tail

def allow (extensions : Extensions) (extension : Text) : Extensions :=
  extensions.insert (withoutPoint extension) ()

def allowAll (extensions : Extensions) (added : List Text) : Extensions :=
  added.foldl allow extensions

def only (chosen : List Text) : Extensions :=
  allowAll NameMap.empty chosen

def standard : Extensions :=
  only ["php".toList, "inc".toList]

/-- Whether the path has an extension that is text and in the set. -/
def admits (extensions : Extensions) (path : Path) : Bool :=
  (path.extension?.bind Text.Utf8.toText?).any fun extension => extensions.contains extension

theorem contains_allow (extensions : Extensions) (added extension : Text) :
    (extensions.allow added).contains extension = true ↔
      withoutPoint added = extension ∨ extensions.contains extension = true := by
  rw [NameMap.contains_eq_isSome, NameMap.contains_eq_isSome, allow, NameMap.get?_insert]
  by_cases same : withoutPoint added = extension <;> simp [same]

theorem contains_allowAll (extensions : Extensions) (added : List Text) (extension : Text) :
    (extensions.allowAll added).contains extension = true ↔
      (∃ one ∈ added, withoutPoint one = extension) ∨ extensions.contains extension = true := by
  unfold allowAll
  induction added generalizing extensions with
  | nil => simp
  | cons one others ih =>
      rw [List.foldl_cons, ih, contains_allow]
      simp only [List.mem_cons, exists_eq_or_imp]
      rw [or_left_comm, ← or_assoc]

end Extensions

end ConfigConstants
