import ConfigConstants.Text.Order

/-!
Finite maps keyed by names, kept in ascending order of the names by code point, which is also the
order of their UTF-8 bytes. The main statements describe a map by its look-ups alone: what `insert`
does to them, and that two maps with the same look-ups are the same map.
-/

set_option autoImplicit false

namespace ConfigConstants

/-- Entries in strictly ascending order, so that every name occurs once. -/
structure NameMap (β : Type) where
  entries : List (Text × β)
  ascending : entries.Pairwise fun earlier later => earlier.1.precedes later.1 = true

namespace NameMap

variable {β : Type}

def insertInto (name : Text) (value : β) : List (Text × β) → List (Text × β)
  | [] => [(name, value)]
  | entry :: later =>
      if name.precedes entry.1 then (name, value) :: entry :: later
      else if name = entry.1 then (name, value) :: later
      else entry :: insertInto name value later

theorem mem_insertInto {name : Text} {value : β} {entries : List (Text × β)} {entry : Text × β}
    (member : entry ∈ insertInto name value entries) : entry = (name, value) ∨ entry ∈ entries := by
  fun_induction insertInto name value entries <;> grind

theorem pairwise_insertInto {name : Text} {value : β} {entries : List (Text × β)}
    (ascending : entries.Pairwise fun earlier later => earlier.1.precedes later.1 = true) :
    (insertInto name value entries).Pairwise fun earlier later =>
      earlier.1.precedes later.1 = true := by
  induction entries with
  | nil => simp [insertInto]
  | cons entry later ih =>
      obtain ⟨entryFirst, laterAscending⟩ := List.pairwise_cons.mp ascending
      rw [insertInto]
      split
      · next before =>
          refine List.pairwise_cons.mpr ⟨fun other member => ?_, ascending⟩
          rcases List.mem_cons.mp member with rfl | isLater
          · exact before
          · exact Text.precedes_trans before (entryFirst other isLater)
      · next notBefore =>
          split
          · next same =>
              exact List.pairwise_cons.mpr
                ⟨fun other member => same ▸ entryFirst other member, laterAscending⟩
          · next differ =>
              refine List.pairwise_cons.mpr ⟨fun other member => ?_, ih laterAscending⟩
              rcases mem_insertInto member with rfl | isLater
              · exact Text.precedes_of_ne (Bool.not_eq_true _ ▸ notBefore) differ
              · exact entryFirst other isLater

def empty : NameMap β where
  entries := []
  ascending := List.Pairwise.nil

def insert (map : NameMap β) (name : Text) (value : β) : NameMap β where
  entries := insertInto name value map.entries
  ascending := pairwise_insertInto map.ascending

def lookIn (name : Text) : List (Text × β) → Option β
  | [] => none
  | entry :: later => if entry.1 = name then some entry.2 else lookIn name later

def get? (map : NameMap β) (name : Text) : Option β :=
  lookIn name map.entries

def contains (map : NameMap β) (name : Text) : Bool :=
  map.entries.any fun entry => entry.1 == name

def size (map : NameMap β) : Nat :=
  map.entries.length

def isEmpty (map : NameMap β) : Bool :=
  map.entries.isEmpty

def names (map : NameMap β) : List Text :=
  map.entries.map Prod.fst

theorem lookIn_insertInto (name other : Text) (value : β) (entries : List (Text × β)) :
    lookIn other (insertInto name value entries) =
      if name = other then some value else lookIn other entries := by
  induction entries with
  | nil => simp [insertInto, lookIn]
  | cons entry later ih =>
      rw [insertInto]
      split
      · rfl
      · split
        · next same =>
            subst same
            by_cases sameName : entry.1 = other <;> simp [lookIn, sameName]
        · next differ =>
            rw [lookIn, lookIn, ih]
            by_cases sameName : entry.1 = other
            · have nameDiffers : name ≠ other := fun same => differ (same.trans sameName.symm)
              simp [sameName, nameDiffers]
            · simp [sameName]

theorem mem_of_lookIn {name : Text} {value : β} {entries : List (Text × β)}
    (found : lookIn name entries = some value) : (name, value) ∈ entries := by
  induction entries with
  | nil => simp [lookIn] at found
  | cons entry later ih =>
      rw [lookIn] at found
      split at found
      · next same =>
          cases found
          exact List.mem_cons.mpr (Or.inl (Prod.ext same.symm rfl))
      · exact List.mem_cons_of_mem _ (ih found)

theorem lookIn_of_mem {name : Text} {value : β} {entries : List (Text × β)}
    (ascending : entries.Pairwise fun earlier later => earlier.1.precedes later.1 = true)
    (member : (name, value) ∈ entries) : lookIn name entries = some value := by
  induction entries with
  | nil => simp at member
  | cons entry later ih =>
      obtain ⟨entryFirst, laterAscending⟩ := List.pairwise_cons.mp ascending
      rw [lookIn]
      rcases List.mem_cons.mp member with same | isLater
      · simp [← same]
      · rw [if_neg (Text.ne_of_precedes (entryFirst _ isLater)), ih laterAscending isLater]

@[simp] theorem get?_empty (name : Text) : (empty : NameMap β).get? name = none := rfl

theorem get?_insert (map : NameMap β) (name other : Text) (value : β) :
    (map.insert name value).get? other = if name = other then some value else map.get? other :=
  lookIn_insertInto name other value map.entries

theorem mem_entries_iff {map : NameMap β} {name : Text} {value : β} :
    (name, value) ∈ map.entries ↔ map.get? name = some value :=
  ⟨lookIn_of_mem map.ascending, mem_of_lookIn⟩

theorem contains_eq_isSome (map : NameMap β) (name : Text) :
    map.contains name = (map.get? name).isSome := by
  unfold contains get?
  induction map.entries with
  | nil => rfl
  | cons entry later ih =>
      rw [List.any_cons, lookIn, ih]
      by_cases same : entry.1 = name <;> simp [same]

theorem mem_names_iff {map : NameMap β} {name : Text} :
    name ∈ map.names ↔ (map.get? name).isSome = true := by
  rw [← contains_eq_isSome]
  simp [names, contains]

theorem names_ascending (map : NameMap β) :
    map.names.Pairwise fun earlier later => earlier.precedes later = true :=
  List.pairwise_map.mpr map.ascending

theorem ext_get? {left right : NameMap β} (same : ∀ name, left.get? name = right.get? name) :
    left = right := by
  obtain ⟨leftEntries, leftAscending⟩ := left
  obtain ⟨rightEntries, rightAscending⟩ := right
  have sameLookUps : ∀ name, lookIn name leftEntries = lookIn name rightEntries := same
  clear same
  congr 1
  induction leftEntries generalizing rightEntries with
  | nil =>
      cases rightEntries with
      | nil => rfl
      | cons entry later =>
          have found := sameLookUps entry.1
          simp [lookIn] at found
  | cons leftEntry leftLater ih =>
      cases rightEntries with
      | nil =>
          have found := sameLookUps leftEntry.1
          simp [lookIn] at found
      | cons rightEntry rightLater =>
          obtain ⟨leftFirst, leftRest⟩ := List.pairwise_cons.mp leftAscending
          obtain ⟨rightFirst, rightRest⟩ := List.pairwise_cons.mp rightAscending
          have absentLeft : ∀ name, leftEntry.1.precedes name = false →
              lookIn name leftLater = none := by
            intro name notAfter
            refine Option.eq_none_iff_forall_ne_some.mpr fun value found => ?_
            rw [leftFirst _ (mem_of_lookIn found)] at notAfter
            contradiction
          have absentRight : ∀ name, rightEntry.1.precedes name = false →
              lookIn name rightLater = none := by
            intro name notAfter
            refine Option.eq_none_iff_forall_ne_some.mpr fun value found => ?_
            rw [rightFirst _ (mem_of_lookIn found)] at notAfter
            contradiction
          -- of two first names that differ, the one that comes first is missing on the other side
          have sameName : leftEntry.1 = rightEntry.1 := by
            refine Decidable.byContradiction fun differ => ?_
            by_cases leftBefore : leftEntry.1.precedes rightEntry.1 = true
            · have found := sameLookUps leftEntry.1
              rw [lookIn, lookIn, if_pos rfl, if_neg (Ne.symm differ),
                absentRight _ (Text.precedes_asymm leftBefore)] at found
              contradiction
            · have found := sameLookUps rightEntry.1
              rw [lookIn, lookIn, if_neg differ, if_pos rfl,
                absentLeft _ (Bool.not_eq_true _ ▸ leftBefore)] at found
              contradiction
          have sameValue : leftEntry.2 = rightEntry.2 := by
            have found := sameLookUps leftEntry.1
            rw [lookIn, lookIn, if_pos rfl, if_pos sameName.symm] at found
            exact Option.some.inj found
          have sameLater : leftLater = rightLater := by
            refine ih leftRest rightLater rightRest fun name => ?_
            by_cases isFirst : leftEntry.1 = name
            · subst isFirst
              rw [absentLeft _ (Text.precedes_self _),
                absentRight _ (sameName ▸ Text.precedes_self _)]
            · have found := sameLookUps name
              rwa [lookIn, lookIn, if_neg isFirst, if_neg (sameName ▸ isFirst)] at found
          rw [sameLater, Prod.ext sameName sameValue]

/-- Whether two maps have the same names, with values that agree name by name. -/
def equalBy (agree : β → β → Bool) (left right : NameMap β) : Bool :=
  left.names == right.names &&
    (left.entries.zip right.entries).all fun (mine, other) => agree mine.2 other.2

end NameMap

end ConfigConstants
