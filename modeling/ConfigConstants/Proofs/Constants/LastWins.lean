import Mathlib.Data.List.Dedup
import ConfigConstants.Proofs.Source.Content
import ConfigConstants.Proofs.Text.Bytes

/-!
Constants as what is left of a list of declarations when the last of each name wins. The main
statements are all that a look-up, a count and a walk through the entries can find out, and that
declaring more is overriding: the names of the further declarations take their values, and every
other name keeps the one it has.
-/

set_option autoImplicit false

namespace ConfigConstants

namespace NameMap

variable {β : Type}

/-- The names of both maps; a name that both have takes its value from the second. -/
def override (first second : NameMap β) : NameMap β :=
  second.entries.foldl (fun map entry => map.insert entry.1 entry.2) first

theorem lookIn_eq_none_of_forall_precedes {name : Text} {entries : List (Text × β)}
    (before : ∀ entry ∈ entries, name.precedes entry.1 = true) : lookIn name entries = none := by
  apply Option.eq_none_iff_forall_ne_some.mpr
  intro value found
  exact absurd rfl (Text.ne_of_precedes (before _ (mem_of_lookIn found)))

theorem get?_foldl_insert {entries : List (Text × β)}
    (ascending : entries.Pairwise fun earlier later => earlier.1.precedes later.1 = true)
    (map : NameMap β) (name : Text) :
    (entries.foldl (fun map entry => map.insert entry.1 entry.2) map).get? name =
      (lookIn name entries).or (map.get? name) := by
  induction entries generalizing map with
  | nil => rfl
  | cons entry later ih =>
      obtain ⟨entryFirst, laterAscending⟩ := List.pairwise_cons.mp ascending
      rw [List.foldl_cons, ih laterAscending, get?_insert, lookIn]
      by_cases sameName : entry.1 = name
      · have onlyHere : lookIn name later = none :=
          lookIn_eq_none_of_forall_precedes (sameName ▸ entryFirst)
        rw [onlyHere, if_pos sameName, if_pos sameName]
        rfl
      · rw [if_neg sameName, if_neg sameName]

theorem get?_override (first second : NameMap β) (name : Text) :
    (first.override second).get? name = (second.get? name).or (first.get? name) :=
  get?_foldl_insert second.ascending first name

theorem nodup_names (map : NameMap β) : map.names.Nodup :=
  map.names_ascending.imp Text.ne_of_precedes

end NameMap

namespace Constants

/-- What is left of declarations when the last of each name wins, in ascending order of the UTF-8
bytes of the names. -/
structure IsLastWinsView (constants : Constants) (declared : List Declaration) : Prop where
  get?_eq (name : Text) :
    constants.get? name =
      (declared.reverse.find? fun declaration => declaration.name = name).map
        fun declaration => Scalar.ofLiteral declaration.literal
  contains_iff (name : Text) :
    constants.contains name = true ↔ ∃ value, constants.get? name = some value
  size_eq : constants.size = (declared.map Declaration.name).dedup.length
  isEmpty_iff : constants.isEmpty = true ↔ declared = []
  mem_entries_iff (name : Text) (value : Scalar) :
    (name, value) ∈ constants.entries ↔ constants.get? name = some value
  ascending : constants.entries.Pairwise fun earlier later =>
    Text.Utf8.encode earlier.1 < Text.Utf8.encode later.1
  nodup : constants.names.Nodup

theorem declareAll_append (constants : Constants) (earlier later : List Declaration) :
    constants.declareAll (earlier ++ later) = (constants.declareAll earlier).declareAll later :=
  List.foldl_append

theorem declareAll_eq_override (constants : Constants) (declarations : List Declaration) :
    constants.declareAll declarations = constants.override (ofDeclarations declarations) := by
  apply NameMap.ext_get?
  intro name
  rw [NameMap.get?_override, ofDeclarations, get?_declareAll, get?_declareAll, NameMap.get?_empty,
    Option.or_none]

theorem mem_names_ofDeclarations {declared : List Declaration} {name : Text} :
    name ∈ (ofDeclarations declared).names ↔ name ∈ declared.map Declaration.name := by
  rw [NameMap.mem_names_iff, ofDeclarations, get?_declareAll, NameMap.get?_empty, Option.or_none,
    Option.isSome_map, List.find?_isSome]
  simp

theorem isLastWinsView_ofDeclarations (declared : List Declaration) :
    (ofDeclarations declared).IsLastWinsView declared where
  get?_eq name := by
    rw [ofDeclarations, get?_declareAll, NameMap.get?_empty, Option.or_none]
  contains_iff name := by
    rw [NameMap.contains_eq_isSome, Option.isSome_iff_exists]
  size_eq := by
    have sameNames : (ofDeclarations declared).names.Perm
        (declared.map Declaration.name).dedup := by
      apply (List.perm_ext_iff_of_nodup (NameMap.nodup_names _) (List.nodup_dedup _)).mpr
      intro name
      rw [mem_names_ofDeclarations, List.mem_dedup]
    rw [← sameNames.length_eq, NameMap.names, List.length_map, NameMap.size]
  isEmpty_iff := by
    rw [NameMap.isEmpty, List.isEmpty_iff]
    constructor
    · intro noEntry
      apply List.eq_nil_iff_forall_not_mem.mpr
      intro declaration member
      have isName := mem_names_ofDeclarations.mpr (List.mem_map_of_mem member)
      rw [NameMap.names, noEntry] at isName
      contradiction
    · intro noDeclaration
      rw [noDeclaration]
      rfl
  mem_entries_iff name value := NameMap.mem_entries_iff
  ascending := (ofDeclarations declared).ascending.imp Text.Utf8.encode_lt_of_precedes
  nodup := NameMap.nodup_names _

end Constants

end ConfigConstants
