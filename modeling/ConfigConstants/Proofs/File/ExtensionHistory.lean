import Mathlib.Data.List.Induction
import ConfigConstants.File.Path
import ConfigConstants.Proofs.File.FileName
import ConfigConstants.Proofs.Text.AsciiBytes

/-!
Sets of extensions by the changes that made them. A choice forgets what was before it, and from then
on extensions are only added. The main statement says of every history which paths it admits, that
the order of the additions at its end does not matter, and that extensions which no path can have do
not matter at all.
-/

set_option autoImplicit false

namespace ConfigConstants

namespace Extensions

open Text.Utf8 (encode)

/-- A change to a set: one extension more, or others in place of all. -/
inductive Change where
  | allow (extension : Text)
  | only (chosen : List Text)

def change (extensions : Extensions) : Change → Extensions
  | .allow extension => extensions.allow extension
  | .only chosen => only chosen

def changeAll (extensions : Extensions) (changes : List Change) : Extensions :=
  changes.foldl change extensions

def after (history : List Change) : Extensions :=
  standard.changeAll history

/-- What a history comes to: the extensions that were chosen last, or the standard ones, and those
added since. -/
inductive ComesTo : List Change → List Text → List Text → Prop
  | fromStandard (added : List Text) :
      ComesTo (added.map .allow) ["php".toList, "inc".toList] added
  | fromChoice (earlier : List Change) (chosen added : List Text) :
      ComesTo (earlier ++ .only chosen :: added.map .allow) chosen added

/-- Whether the extension, without one point in front, still holds a point or a slash. -/
def Unfit (extension : Text) : Prop :=
  '.' ∈ withoutPoint extension ∨ '/' ∈ withoutPoint extension

/-- Whether two sets hold the same of the extensions that a path can have. -/
def AdmitAlike (left right : Extensions) : Prop :=
  ∀ extension, '.' ∉ extension → '/' ∉ extension →
    (left.contains extension = true ↔ right.contains extension = true)

/-! ## What a history comes to -/

theorem exists_comesTo (history : List Change) : ∃ chosen added, ComesTo history chosen added := by
  induction history using List.reverseRecOn with
  | nil => exact ⟨_, [], .fromStandard []⟩
  | append_singleton earlier last ih =>
      cases last with
      | only chosen => exact ⟨chosen, [], .fromChoice earlier chosen []⟩
      | allow extension =>
          obtain ⟨chosen, added, comesTo⟩ := ih
          refine ⟨chosen, added ++ [extension], ?_⟩
          cases comesTo with
          | fromStandard =>
              have whole := ComesTo.fromStandard (added ++ [extension])
              rwa [List.map_append] at whole
          | fromChoice before =>
              have whole := ComesTo.fromChoice before chosen (added ++ [extension])
              rwa [List.map_append, ← List.cons_append, ← List.append_assoc] at whole

theorem changeAll_append (extensions : Extensions) (earlier later : List Change) :
    extensions.changeAll (earlier ++ later) = (extensions.changeAll earlier).changeAll later :=
  List.foldl_append

theorem changeAll_map_allow (extensions : Extensions) (added : List Text) :
    extensions.changeAll (added.map .allow) = extensions.allowAll added :=
  List.foldl_map

theorem only_append (chosen added : List Text) :
    only (chosen ++ added) = (only chosen).allowAll added :=
  List.foldl_append

theorem after_eq_only {history : List Change} {chosen added : List Text}
    (comesTo : ComesTo history chosen added) : after history = only (chosen ++ added) := by
  rw [only_append, after]
  cases comesTo with
  | fromStandard => exact changeAll_map_allow standard added
  | fromChoice earlier =>
      rw [changeAll_append]
      exact changeAll_map_allow (only chosen) added

/-! ## Which extensions are in a set -/

theorem withoutPoint_eq_iff {configured extension : Text} (noPoint : '.' ∉ extension) :
    withoutPoint configured = extension ↔
      configured = extension ∨ configured = '.' :: extension := by
  cases configured with
  | nil => simp [withoutPoint]
  | cons head tail =>
      rw [withoutPoint]
      split
      · next isPoint =>
          subst isPoint
          have differs : '.' :: tail ≠ extension := fun same =>
            noPoint (same ▸ List.mem_cons_self)
          simp [differs]
      · next notPoint => simp [notPoint]

theorem contains_only_iff (chosen : List Text) {extension : Text} (noPoint : '.' ∉ extension) :
    (only chosen).contains extension = true ↔
      ∃ configured ∈ chosen, configured = extension ∨ configured = '.' :: extension := by
  simp only [only, contains_allowAll, withoutPoint_eq_iff noPoint]
  exact or_iff_left Bool.false_ne_true

theorem admits_iff_hasExtension (extensions : Extensions) (path : Path) :
    extensions.admits path = true ↔
      ∃ extension : Text, path.HasExtension (encode extension) ∧
        extensions.contains extension = true := by
  simp only [admits, Option.any_eq_true, Option.bind_eq_some_iff, Path.extension?_eq_some_iff,
    Text.Utf8.toText?_eq_some_iff]
  constructor
  · rintro ⟨extension, ⟨_, has, rfl⟩, contained⟩
    exact ⟨extension, has, contained⟩
  · rintro ⟨extension, has, contained⟩
    exact ⟨extension, ⟨_, has, rfl⟩, contained⟩

theorem plain_of_hasExtension {path : Path} {extension : Text}
    (has : path.HasExtension (encode extension)) : '.' ∉ extension ∧ '/' ∉ extension := by
  obtain ⟨noPoint, noSlash⟩ := has.plain
  exact ⟨fun member => noPoint (Text.Utf8.toUInt8_mem_encode (by decide) member),
    fun member => noSlash (Text.Utf8.toUInt8_mem_encode (by decide) member)⟩

theorem admits_only_iff (chosen : List Text) (path : Path) :
    (only chosen).admits path = true ↔
      ∃ configured ∈ chosen, ∃ extension : Text, path.HasExtension (encode extension) ∧
        (configured = extension ∨ configured = '.' :: extension) := by
  rw [admits_iff_hasExtension]
  constructor
  · rintro ⟨extension, has, contained⟩
    have noPoint := (plain_of_hasExtension has).1
    obtain ⟨configured, member, same⟩ := (contains_only_iff chosen noPoint).mp contained
    exact ⟨configured, member, extension, has, same⟩
  · rintro ⟨configured, member, extension, has, same⟩
    have noPoint := (plain_of_hasExtension has).1
    exact ⟨extension, has, (contains_only_iff chosen noPoint).mpr ⟨configured, member, same⟩⟩

theorem ext_contains {left right : Extensions}
    (same : ∀ extension, left.contains extension = true ↔ right.contains extension = true) :
    left = right := by
  apply NameMap.ext_get?
  intro extension
  have sameHere := same extension
  rw [NameMap.contains_eq_isSome, NameMap.contains_eq_isSome] at sameHere
  generalize left.get? extension = inLeft, right.get? extension = inRight at sameHere ⊢
  cases inLeft <;> cases inRight <;> simp at sameHere ⊢

theorem allowAll_eq_of_mem_iff (extensions : Extensions) {added other : List Text}
    (same : ∀ extension, extension ∈ added ↔ extension ∈ other) :
    extensions.allowAll added = extensions.allowAll other := by
  apply ext_contains
  intro extension
  simp only [contains_allowAll, same]

/-! ## Extensions that no path has -/

theorem AdmitAlike.admits_eq {left right : Extensions} (alike : AdmitAlike left right)
    (path : Path) : left.admits path = right.admits path := by
  rw [Bool.eq_iff_iff, admits_iff_hasExtension, admits_iff_hasExtension]
  apply exists_congr
  intro extension
  apply and_congr_right
  intro has
  obtain ⟨noPoint, noSlash⟩ := plain_of_hasExtension has
  exact alike extension noPoint noSlash

theorem AdmitAlike.change {left right : Extensions} (alike : AdmitAlike left right)
    (step : Change) : AdmitAlike (left.change step) (right.change step) := by
  cases step with
  | allow added =>
      intro extension noPoint noSlash
      simp only [Extensions.change, contains_allow, alike extension noPoint noSlash]
  | only chosen => exact fun _ _ _ => Iff.rfl

theorem AdmitAlike.changeAll {left right : Extensions} (alike : AdmitAlike left right)
    (changes : List Change) : AdmitAlike (left.changeAll changes) (right.changeAll changes) := by
  induction changes generalizing left right with
  | nil => exact alike
  | cons step later ih => exact ih (alike.change step)

theorem admitAlike_allow_of_unfit {added : Text} (unfit : Unfit added) (extensions : Extensions) :
    AdmitAlike (extensions.allow added) extensions := by
  intro extension noPoint noSlash
  rw [contains_allow]
  refine or_iff_right ?_
  rintro rfl
  exact unfit.elim noPoint noSlash

theorem admitAlike_only_of_unfit {configured : Text} (unfit : Unfit configured)
    (front back : List Text) :
    AdmitAlike (only (front ++ configured :: back)) (only (front ++ back)) := by
  rw [only_append, only_append, ← changeAll_map_allow, ← changeAll_map_allow]
  exact (admitAlike_allow_of_unfit unfit (only front)).changeAll (back.map .allow)

theorem admits_only_of_unfit {configured : Text} (unfit : Unfit configured) (path : Path) :
    (only [configured]).admits path = false := by
  have sameAsNone : (only [configured]).admits path = (only []).admits path :=
    (admitAlike_only_of_unfit unfit [] []).admits_eq path
  rw [sameAsNone, ← Bool.not_eq_true, admits_only_iff]
  simp

/-- Of every history of changes: it admits the paths whose extension was chosen last or added since,
one point in front aside; what was added at its end counts as a set; and an extension that still
holds a point or a slash admits no path and could have been left out wherever it stands. -/
theorem admits_after_history (history : List Change) (path : Path) :
    ((∃ chosen added, ComesTo history chosen added) ∧
      ∀ chosen added, ComesTo history chosen added →
        ((after history).admits path = true ↔
          ∃ configured ∈ chosen ++ added, ∃ extension : Text, path.HasExtension (encode extension) ∧
            (configured = extension ∨ configured = '.' :: extension))) ∧
    (∀ added other : List Text, (∀ extension, extension ∈ added ↔ extension ∈ other) →
      after (history ++ added.map .allow) = after (history ++ other.map .allow)) ∧
    (∀ configured, Unfit configured → (only [configured]).admits path = false ∧
      ∀ later,
        (after (history ++ .allow configured :: later)).admits path =
          (after (history ++ later)).admits path ∧
        ∀ front back,
          (after (history ++ .only (front ++ configured :: back) :: later)).admits path =
            (after (history ++ .only (front ++ back) :: later)).admits path) := by
  refine ⟨⟨exists_comesTo history, ?admitted⟩, ?reordered, ?unfit⟩
  case admitted =>
    intro chosen added comesTo
    rw [after_eq_only comesTo]
    exact admits_only_iff (chosen ++ added) path
  case reordered =>
    intro added other same
    simp only [after, changeAll_append, changeAll_map_allow]
    exact allowAll_eq_of_mem_iff _ same
  case unfit =>
    intro configured unfit
    refine ⟨admits_only_of_unfit unfit path, fun later => ?_⟩
    simp only [after, changeAll_append]
    constructor
    · exact ((admitAlike_allow_of_unfit unfit _).changeAll later).admits_eq path
    · intro front back
      exact ((admitAlike_only_of_unfit unfit front back).changeAll later).admits_eq path

theorem admits_behind_slash_and_point :
    let history : List Change :=
      [.allow "php5".toList, .only ["tar.gz".toList, "cfg".toList], .allow ".phtml".toList]
    let path : Path := "./a.php5/view.phtml/./".toList
    ComesTo history ["tar.gz".toList, "cfg".toList] [".phtml".toList] ∧
    path.HasExtension (encode "phtml".toList) ∧ (after history).admits path = true ∧
    Unfit "tar.gz".toList ∧
    (after [.allow "php5".toList, .only ["cfg".toList], .allow ".phtml".toList]).admits path =
      true ∧
    after (history ++ [.allow "x".toList, .allow "y".toList]) =
      after (history ++ [.allow "y".toList, .allow "x".toList, .allow "y".toList]) := by
  intro history path
  obtain ⟨⟨_, admitted⟩, reordered, _⟩ := admits_after_history history path
  have comesTo : ComesTo history ["tar.gz".toList, "cfg".toList] [".phtml".toList] :=
    .fromChoice [.allow "php5".toList] _ [".phtml".toList]
  have has : path.HasExtension (encode "phtml".toList) :=
    Path.extension?_eq_some_iff.mp (by decide)
  have isAdmitted := (admitted _ _ comesTo).mpr ⟨".phtml".toList, by decide, _, has, .inr rfl⟩
  have unfit : Unfit "tar.gz".toList := .inl (by decide)
  obtain ⟨_, _, droppable⟩ := admits_after_history [.allow "php5".toList] path
  have sameWithout := ((droppable _ unfit).2 [.allow ".phtml".toList]).2 [] ["cfg".toList]
  refine ⟨comesTo, has, isAdmitted, unfit, sameWithout ▸ isAdmitted,
    reordered ["x".toList, "y".toList] ["y".toList, "x".toList, "y".toList] fun extension => ?_⟩
  simp only [List.mem_cons, List.not_mem_nil, or_false]
  rw [← or_assoc, or_right_comm, or_self, or_comm]

end Extensions

end ConfigConstants
