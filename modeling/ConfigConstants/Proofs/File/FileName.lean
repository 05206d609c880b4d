import ConfigConstants.File.Path
import ConfigConstants.Proofs.Text.Runs

/-!
The end of a path, described without cutting it up. A path leads to a name that stands whole behind
a slash or at the front, if nothing follows but slashes and points that mean "here". The main
statements say that the file name of a path is the name that it leads to, and the extension what
follows the last point of that.
-/

set_option autoImplicit false

namespace ConfigConstants

namespace Path

/-- What may follow a name and leads nowhere: slashes, each alone or with the point that means
"here". -/
inductive Idle : List UInt8 → Prop
  | nothing : Idle []
  | slash {behind : List UInt8} : Idle behind → Idle ('/'.toUInt8 :: behind)
  | slashHere {behind : List UInt8} : Idle behind → Idle ('/'.toUInt8 :: '.'.toUInt8 :: behind)

/-- Whether the path ends by leading to something of this name, which may be the folder above. -/
def LeadsTo (path : Path) (name : List UInt8) : Prop :=
  ∃ front behind, path.bytes = front ++ name ++ behind ∧
    (front = [] ∨ ['/'.toUInt8] <:+ front) ∧ '/'.toUInt8 ∉ name ∧ name ≠ [] ∧
    name ≠ ['.'.toUInt8] ∧ Idle behind

/-- Whether the path leads to a file name that ends in the extension. -/
def HasExtension (path : Path) (extension : List UInt8) : Prop :=
  ∃ stem, stem ≠ [] ∧ '.'.toUInt8 ∉ extension ∧
    stem ++ '.'.toUInt8 :: extension ≠ ['.'.toUInt8, '.'.toUInt8] ∧
    LeadsTo path (stem ++ '.'.toUInt8 :: extension)

def counts (component : List UInt8) : Bool :=
  component != [] && component != here

theorem counts_iff {component : List UInt8} :
    counts component = true ↔ component ≠ [] ∧ component ≠ here := by
  simp [counts]

theorem counts_eq_false_iff {component : List UInt8} :
    counts component = false ↔ component = [] ∨ component = here := by
  rw [counts, Bool.and_eq_false_iff, bne_eq_false_iff_eq, bne_eq_false_iff_eq]

/-- The components that count in a path of these bytes. -/
def steps (bytes : List UInt8) : List (List UInt8) :=
  (bytes.splitOn slash).filter counts

theorem fileName?_eq (path : Path) :
    fileName? path = (steps path.bytes).getLast?.filter fun name => name != above :=
  rfl

theorem steps_append_slash (front behind : List UInt8) :
    steps (front ++ slash :: behind) = steps front ++ steps behind := by
  rw [steps, List.splitOn_append_cons_self, List.filter_append]
  rfl

theorem steps_of_slash_notMem {name : List UInt8} (noSlash : slash ∉ name) :
    steps name = [name].filter counts := by
  rw [steps, List.splitOn_eq_singleton noSlash]

theorem steps_append_idle {name behind : List UInt8} (noSlash : slash ∉ name)
    (idle : Idle behind) : steps (name ++ behind) = [name].filter counts := by
  -- each slash of the idle part begins a component that does not count
  induction idle generalizing name with
  | nothing => rw [List.append_nil, steps_of_slash_notMem noSlash]
  | slash _ ih =>
      have nothingLater := ih List.not_mem_nil
      rw [List.nil_append] at nothingLater
      rw [← slash, steps_append_slash, nothingLater, steps_of_slash_notMem noSlash]
      simp [counts]
  | @slashHere rest _ ih =>
      have nothingLater : steps (here ++ rest) = [here].filter counts := ih (by decide)
      rw [here, point, List.singleton_append] at nothingLater
      rw [← slash, steps_append_slash, nothingLater, steps_of_slash_notMem noSlash]
      simp [counts, here, point]

theorem idle_flatMap {components : List (List UInt8)} (skipped : components.filter counts = []) :
    Idle (components.flatMap (slash :: ·)) := by
  induction components with
  | nil => exact .nothing
  | cons component others ih =>
      rw [List.filter_cons] at skipped
      split at skipped
      · contradiction
      · next skips =>
          rcases counts_eq_false_iff.mp (Bool.not_eq_true _ ▸ skips) with rfl | rfl
          · exact .slash (ih skipped)
          · exact .slashHere (ih skipped)

theorem front_ends_in_slash (components : List (List UInt8)) :
    components.flatMap (· ++ [slash]) = [] ∨
      [slash] <:+ components.flatMap (· ++ [slash]) := by
  rcases List.eq_nil_or_concat components with rfl | ⟨others, last, rfl⟩
  · exact .inl rfl
  · right
    rw [List.concat_eq_append, List.flatMap_append, List.flatMap_singleton, ← List.append_assoc]
    exact List.suffix_append _ _

theorem getLast?_steps_eq_some_iff {path : Path} {name : List UInt8} :
    (steps path.bytes).getLast? = some name ↔ LeadsTo path name := by
  constructor
  · intro isLast
    obtain ⟨earlier, stepsEq⟩ := List.getLast?_eq_some_iff.mp isLast
    obtain ⟨front, rest, parts, -, lastPart⟩ := List.filter_eq_append_iff.mp stepsEq
    obtain ⟨between, behind, rfl, -, nameCounts, skipped⟩ := List.filter_eq_cons_iff.mp lastPart
    rw [← List.append_assoc] at parts
    have isPart : name ∈ path.bytes.splitOn slash := by
      rw [parts]
      exact List.mem_append_right _ List.mem_cons_self
    obtain ⟨nonempty, notHere⟩ := counts_iff.mp nameCounts
    exact ⟨_, _, Text.eq_of_splitOn_eq_append_cons parts, front_ends_in_slash _,
      Text.notMem_of_mem_splitOn isPart, nonempty, notHere, idle_flatMap skipped⟩
  · rintro ⟨front, behind, parts, frontEnds, noSlash, nonempty, notHere, idle⟩
    rw [parts]
    have nameLast : steps (name ++ behind) = [name] := by
      rw [steps_append_idle noSlash idle]
      simp [counts_iff.mpr ⟨nonempty, notHere⟩]
    rcases frontEnds with rfl | ⟨folders, rfl⟩
    · rw [List.nil_append, nameLast]
      rfl
    · rw [List.append_assoc, List.append_assoc, List.singleton_append, ← slash,
        steps_append_slash, nameLast, List.getLast?_concat]

theorem fileName?_eq_some_iff {path : Path} {name : List UInt8} :
    fileName? path = some name ↔ LeadsTo path name ∧ name ≠ above := by
  rw [fileName?_eq, Option.filter_eq_some_iff, getLast?_steps_eq_some_iff, bne_iff_ne]

/-- The extension is found exactly where the path has one. -/
theorem extension?_eq_some_iff {path : Path} {extension : List UInt8} :
    extension? path = some extension ↔ HasExtension path extension := by
  simp only [extension?, Option.bind_eq_some_iff, fileName?_eq_some_iff,
    nameExtension?_eq_some_iff]
  constructor
  · rintro ⟨name, ⟨leads, notAbove⟩, stem, nonempty, rfl, noPoint⟩
    exact ⟨stem, nonempty, noPoint, notAbove, leads⟩
  · rintro ⟨stem, nonempty, noPoint, notAbove, leads⟩
    exact ⟨_, ⟨leads, notAbove⟩, stem, nonempty, rfl, noPoint⟩

theorem HasExtension.plain {path : Path} {extension : List UInt8}
    (has : HasExtension path extension) : point ∉ extension ∧ slash ∉ extension := by
  obtain ⟨stem, _, noPoint, _, _, _, _, _, noSlash, _⟩ := has
  exact ⟨noPoint, fun member => noSlash (List.mem_append_right _ (List.mem_cons_of_mem _ member))⟩

end Path

end ConfigConstants
