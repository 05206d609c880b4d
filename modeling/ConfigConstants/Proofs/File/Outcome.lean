import ConfigConstants.File.Loading
import ConfigConstants.Proofs.File.ExtensionHistory
import ConfigConstants.Proofs.Source.CountedScan

/-!
What loading a file comes to. Which of the five outcomes it is depends on where the path leads, on
its extension, and on whether the file can be read, but not on a single byte of the file. The main
statement gives the outcome of every load with its result and all its events, for a loader that
looks once and for one that asks question after question and counts in words that may be too small.
-/

set_option autoImplicit false

namespace ConfigConstants

open Numeral (Countable)
open Text.Utf8 (encode decode)

def Extensions.Admitted (extensions : Extensions) (path : Path) : Prop :=
  ∃ extension : Text, path.HasExtension (encode extension) ∧ extensions.contains extension = true

theorem Extensions.admits_iff (extensions : Extensions) (path : Path) :
    extensions.admits path = true ↔ extensions.Admitted path :=
  extensions.admits_iff_hasExtension path

theorem Extensions.admits_eq_false_iff (extensions : Extensions) (path : Path) :
    extensions.admits path = false ↔ ¬ extensions.Admitted path := by
  rw [← admits_iff, Bool.not_eq_true]

/-- What a loader is told about paths, one question at a time. -/
structure FileAnswers where
  isThere : Path → Bool
  isFile : Path → Bool
  read : Path → Except Text (List UInt8)

/-- Answers that are true of a file system. That something is there is taken as it is documented:
it is so just when the path leads somewhere. What is no file may be answered anything when it is
read. -/
structure FileAnswers.Describe (answers : FileAnswers) (system : FileSystem) : Prop where
  isThere_iff : ∀ path, answers.isThere path = true ↔ system.find? path ≠ none
  isFile_iff : ∀ path, answers.isFile path = true ↔
    ∃ contents, system.find? path = some (.regular contents)
  read_eq : ∀ path contents, system.find? path = some (.regular contents) →
    answers.read path = contents

def FileEntry.contents? : FileEntry → Option (Except Text (List UInt8))
  | .regular contents => some contents
  | .other => none

/-- The answers of a system that looks again for every question. -/
def FileAnswers.ofSystem (system : FileSystem) : FileAnswers where
  isThere path := (system.find? path).isSome
  isFile path := ((system.find? path).bind FileEntry.contents?).isSome
  read path := ((system.find? path).bind FileEntry.contents?).getD (.error [])

theorem FileAnswers.describe_ofSystem (system : FileSystem) :
    (ofSystem system).Describe system where
  isThere_iff path := Option.isSome_iff_ne_none
  isFile_iff path := by
    simp only [ofSystem]
    cases system.find? path with
    | none => simp
    | some entry => cases entry <;> simp [FileEntry.contents?]
  read_eq path contents found := by
    simp only [ofSystem, found]
    rfl

def FileEntry.rewritten (change : List UInt8 → List UInt8) : FileEntry → FileEntry
  | .regular contents => .regular (contents.map change)
  | .other => .other

/-- The system with other bytes in its files; every path leads where it led. -/
def FileSystem.rewritten (system : FileSystem) (change : Path → List UInt8 → List UInt8) :
    FileSystem :=
  ⟨fun path => (system.find? path).map (FileEntry.rewritten (change path))⟩

namespace Loading

/-- Examines a path with three questions, of which the first that is not answered well rejects
it. -/
def examine (answers : FileAnswers) (extensions : Extensions) (path : Path) :
    Except Rejection Unit :=
  if answers.isThere path = false then .error .notFound
  else if answers.isFile path = false then .error .notAFile
  else if extensions.admits path = false then
    .error (.unsupportedExtension (path.extension?.map decode))
  else .ok ()

/-- Examines the path, asks for the bytes, and scans them with everything that a scan keeps. There
is no report if the scan has to stop. -/
def loadByQuestions? (overflow : Overflow) (answers : FileAnswers) (extensions : Extensions)
    (path : Path) : Option LoadReport :=
  match examine answers extensions path with
  | .error rejection => some ⟨.error (.rejected rejection), []⟩
  | .ok () =>
      match answers.read path with
      | .error cause => some ⟨.error (.unreadable cause), []⟩
      | .ok bytes => do
          let scan ← Scan.ofSource? overflow (decode bytes)
          return ⟨.ok scan.constants, (scan.report (.loaded path.shown scan.constants.size)).log⟩

/-- The ways in which loading can end, each with its report. -/
inductive Outcome (system : FileSystem) (extensions : Extensions) (path : Path) : LoadReport → Prop
  | notFound : system.find? path = none →
      Outcome system extensions path ⟨.error (.rejected .notFound), []⟩
  | notAFile : system.find? path = some .other →
      Outcome system extensions path ⟨.error (.rejected .notAFile), []⟩
  | unsupportedExtension {contents : Except Text (List UInt8)} {extension : Option (List UInt8)} :
      system.find? path = some (.regular contents) → ¬ extensions.Admitted path →
      (∀ bytes, extension = some bytes ↔ path.HasExtension bytes) →
      Outcome system extensions path
        ⟨.error (.rejected (.unsupportedExtension (extension.map decode))), []⟩
  | unreadable {cause : Text} : system.find? path = some (.regular (.error cause)) →
      extensions.Admitted path → Outcome system extensions path ⟨.error (.unreadable cause), []⟩
  | loaded {bytes : List UInt8} : system.find? path = some (.regular (.ok bytes)) →
      extensions.Admitted path →
      Outcome system extensions path
        ⟨.ok (Source.constants (decode bytes)),
          Source.events (decode bytes) ++
            [.loaded path.shown (Source.constants (decode bytes)).size]⟩

theorem outcome_load (system : FileSystem) (extensions : Extensions) (path : Path) :
    Outcome system extensions path (load system extensions path) := by
  unfold load sourceAt
  cases found : system.find? path with
  | none => exact .notFound found
  | some entry =>
      cases entry with
      | other => exact .notAFile found
      | regular contents =>
          cases admitted : extensions.admits path with
          | false =>
              exact .unsupportedExtension found
                ((extensions.admits_eq_false_iff path).mp admitted)
                fun _ => Path.extension?_eq_some_iff
          | true =>
              have isAdmitted := (extensions.admits_iff path).mp admitted
              cases contents with
              | error cause => exact .unreadable found isAdmitted
              | ok bytes => exact .loaded found isAdmitted

theorem Outcome.unique {system : FileSystem} {extensions : Extensions} {path : Path}
    {report other : LoadReport} (outcome : Outcome system extensions path report)
    (otherOutcome : Outcome system extensions path other) : report = other := by
  have sameExtension {left right : Option (List UInt8)}
      (isLeft : ∀ bytes, left = some bytes ↔ path.HasExtension bytes)
      (isRight : ∀ bytes, right = some bytes ↔ path.HasExtension bytes) : left = right :=
    Option.ext fun bytes => (isLeft bytes).trans (isRight bytes).symm
  cases outcome with
  | unsupportedExtension found notAdmitted isExtension =>
      cases otherOutcome with
      | unsupportedExtension _ _ isOther => rw [sameExtension isExtension isOther]
      | notFound | notAFile | unreadable | loaded => simp_all
  | notFound | notAFile | unreadable | loaded => cases otherOutcome <;> simp_all

theorem load_eq_iff (system : FileSystem) (extensions : Extensions) (path : Path)
    (report : LoadReport) :
    load system extensions path = report ↔ Outcome system extensions path report := by
  constructor
  · rintro rfl
    exact outcome_load system extensions path
  · exact (outcome_load system extensions path).unique

theorem examine_eq {answers : FileAnswers} {system : FileSystem}
    (describe : answers.Describe system) (extensions : Extensions) (path : Path) :
    examine answers extensions path =
      match system.find? path with
      | none => .error .notFound
      | some .other => .error .notAFile
      | some (.regular _) =>
          if extensions.admits path = false then
            .error (.unsupportedExtension (path.extension?.map decode))
          else .ok () := by
  have isThere_iff := describe.isThere_iff path
  have isFile_iff := describe.isFile_iff path
  rw [examine]
  cases found : system.find? path with
  | none =>
      have notThere : answers.isThere path = false := by simpa [found] using isThere_iff
      rw [if_pos notThere]
  | some entry =>
      have isThere : ¬ answers.isThere path = false := by simpa [found] using isThere_iff
      rw [if_neg isThere]
      cases entry with
      | other =>
          have notFile : answers.isFile path = false := by simpa [found] using isFile_iff
          rw [if_pos notFile]
      | regular contents =>
          have isFile : ¬ answers.isFile path = false := by simpa [found] using isFile_iff
          rw [if_neg isFile]

/-- Asking one question after the other leads to the same report if the answers are true, unless the
bytes hold a line that cannot be counted. -/
theorem follows_loadByQuestions? (overflow : Overflow) {answers : FileAnswers} {system : FileSystem}
    (describe : answers.Describe system) (extensions : Extensions) (path : Path) :
    Follows (loadByQuestions? overflow answers extensions path) (load system extensions path)
      (∀ bytes, system.find? path = some (.regular (.ok bytes)) →
        ∀ line ∈ Text.lines (Source.dropByteOrderMark (decode bytes)),
          Countable overflow line) := by
  rw [loadByQuestions?, load, sourceAt, examine_eq describe]
  cases found : system.find? path with
  | none => exact Or.inl rfl
  | some entry =>
      cases entry with
      | other => exact Or.inl rfl
      | regular contents =>
          cases admitted : extensions.admits path with
          | false => exact Or.inl rfl
          | true =>
              simp only [describe.read_eq path contents found, Bool.true_eq_false, if_true,
                if_false]
              cases contents with
              | error cause => exact Or.inl rfl
              | ok bytes =>
                  obtain ⟨constantsEq, logEq⟩ := Scan.ofSource_eq (decode bytes)
                  apply Follows.bind
                  · apply (Scan.follows_ofSource? overflow (decode bytes)).of_imp
                    exact fun countable => countable bytes rfl
                  · left
                    simp only [Scan.report, constantsEq, logEq]
                    rfl

/-- Other bytes lead to the same error, if there was one, and to no error, if there was none. -/
theorem result_rewritten_eq_error_iff (system : FileSystem)
    (change : Path → List UInt8 → List UInt8) (extensions : Extensions) (path : Path)
    (error : LoadError) :
    (load (system.rewritten change) extensions path).result = .error error ↔
      (load system extensions path).result = .error error := by
  -- outcomes are unique, so it is enough to find one for the other bytes
  have sameReport {report : LoadReport}
      (outcome : Outcome (system.rewritten change) extensions path report) :
      load (system.rewritten change) extensions path = report :=
    (load_eq_iff _ _ _ _).mpr outcome
  have found_rewritten {entry : Option FileEntry} (found : system.find? path = entry) :
      (system.rewritten change).find? path = entry.map (FileEntry.rewritten (change path)) :=
    congrArg (Option.map (FileEntry.rewritten (change path))) found
  have outcome := outcome_load system extensions path
  generalize load system extensions path = report at outcome ⊢
  cases outcome with
  | notFound found => rw [sameReport (.notFound (found_rewritten found))]
  | notAFile found => rw [sameReport (.notAFile (found_rewritten found))]
  | unsupportedExtension found notAdmitted isExtension =>
      rw [sameReport (.unsupportedExtension (found_rewritten found) notAdmitted isExtension)]
  | unreadable found isAdmitted =>
      rw [sameReport (.unreadable (found_rewritten found) isAdmitted)]
  | loaded found isAdmitted =>
      rw [sameReport (.loaded (found_rewritten found) isAdmitted)]
      constructor
      all_goals
        intro isError
        contradiction

theorem load_of_larger (system : FileSystem) {extensions larger : Extensions}
    (includes : ∀ extension, extensions.contains extension = true →
      larger.contains extension = true) (path : Path) :
    load system larger path = load system extensions path ∨
      ∃ shown, (load system extensions path).result =
        .error (.rejected (.unsupportedExtension shown)) := by
  have stillAdmitted (isAdmitted : extensions.Admitted path) : larger.Admitted path := by
    obtain ⟨extension, isExtension, contained⟩ := isAdmitted
    exact ⟨extension, isExtension, includes extension contained⟩
  have outcome := outcome_load system extensions path
  generalize load system extensions path = report at outcome ⊢
  rw [load_eq_iff]
  cases outcome with
  | notFound found => exact .inl (.notFound found)
  | notAFile found => exact .inl (.notAFile found)
  | unsupportedExtension _ _ _ => exact .inr ⟨_, rfl⟩
  | unreadable found isAdmitted => exact .inl (.unreadable found (stillAdmitted isAdmitted))
  | loaded found isAdmitted => exact .inl (.loaded found (stillAdmitted isAdmitted))

/-- For every file system, every set of extensions and every path: a load reports the one outcome
that the path and the extensions decide. A load by questions has no other report, and it has one
where the lines of the file can be counted. Whatever bytes the files hold, the errors stay as they
are, and a larger set of extensions mends nothing but a wrong extension. -/
theorem load_decided_by_path_and_extensions (system : FileSystem) (extensions : Extensions)
    (path : Path) :
    (∀ report, load system extensions path = report ↔ Outcome system extensions path report) ∧
    (∀ answers : FileAnswers, answers.Describe system → ∀ overflow,
      (∀ report, loadByQuestions? overflow answers extensions path = some report →
        report = load system extensions path) ∧
      ((∀ bytes, system.find? path = some (.regular (.ok bytes)) →
          ∀ line ∈ Text.lines (Source.dropByteOrderMark (decode bytes)),
            overflow = .wraps ∨ Text.utf8Length line < 0x80000000) →
        (loadByQuestions? overflow answers extensions path).isSome = true)) ∧
    (∀ change error, (load (system.rewritten change) extensions path).result = .error error ↔
      (load system extensions path).result = .error error) ∧
    (∀ larger : Extensions, (∀ extension, extensions.contains extension = true →
        larger.contains extension = true) →
      load system larger path = load system extensions path ∨
        ∃ shown, (load system extensions path).result =
          .error (.rejected (.unsupportedExtension shown))) := by
  refine ⟨load_eq_iff system extensions path, ?byQuestions,
    fun change => result_rewritten_eq_error_iff system change extensions path,
    fun _ includes => load_of_larger system includes path⟩
  case byQuestions =>
    intro answers describe overflow
    have follows := follows_loadByQuestions? overflow describe extensions path
    exact ⟨fun _ => follows.eq_of_eq_some, follows.isSome⟩

/-- An extension that is no text is not the one in the set that is shown like it. -/
theorem load_of_extension_shown_alike :
    let path : Path := ⟨encode "a.ph".toList ++ [0xFF]⟩
    let system : FileSystem := ⟨fun asked =>
      if asked = path then some (.regular (.ok (encode "const A = 1;".toList))) else none⟩
    let extensions := Extensions.only [['p', 'h', '\uFFFD']]
    let report : LoadReport :=
      ⟨.error (.rejected (.unsupportedExtension (some ['p', 'h', '\uFFFD']))), []⟩
    extensions.contains ['p', 'h', '\uFFFD'] = true ∧ load system extensions path = report ∧
      loadByQuestions? .stops (.ofSystem system) extensions path = some report := by
  intro path system extensions report
  obtain ⟨isOutcome, byQuestions, _⟩ := load_decided_by_path_and_extensions system extensions path
  obtain ⟨sameReport, hasReport⟩ := byQuestions _ (FileAnswers.describe_ofSystem system) .stops
  have found : system.find? path = some (.regular (.ok (encode "const A = 1;".toList))) := by
    simp only [system, if_true]
  have isExtension : path.extension? = some (encode "ph".toList ++ [0xFF]) := by decide
  have notAdmitted : ¬ extensions.Admitted path :=
    (extensions.admits_eq_false_iff path).mp (by decide)
  have isReport : load system extensions path = report := by
    have outcome := Outcome.unsupportedExtension found notAdmitted
      fun _ => Path.extension?_eq_some_iff
    rw [isExtension] at outcome
    exact (isOutcome report).mpr outcome
  have linesShort : ∀ line ∈ Text.lines (Source.dropByteOrderMark
      (decode (encode "const A = 1;".toList))), Text.utf8Length line < 0x80000000 := by decide
  obtain ⟨other, isOther⟩ := Option.isSome_iff_exists.mp (hasReport (by
    intro bytes isFound line member
    rw [found] at isFound
    cases isFound
    exact Or.inr (linesShort line member)))
  rw [isOther, sameReport other isOther]
  exact ⟨by decide, isReport, congrArg some isReport⟩

end Loading

end ConfigConstants
