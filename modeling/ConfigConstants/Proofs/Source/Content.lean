import ConfigConstants.Source.Reading

/-!
What of a list of declarations the constants keep. The last declaration of a name gives its value,
and where a declaration stands in the source has no influence.
-/

set_option autoImplicit false

namespace ConfigConstants

def Declaration.content (declaration : Declaration) : Text × Text :=
  (declaration.name, declaration.literal)

namespace Constants

theorem declareAll_cons (constants : Constants) (first : Declaration) (later : List Declaration) :
    constants.declareAll (first :: later) = (constants.declare first).declareAll later :=
  rfl

theorem declareAll_of_map_content {left right : List Declaration}
    (same : left.map Declaration.content = right.map Declaration.content)
    (constants : Constants) : constants.declareAll left = constants.declareAll right := by
  induction left generalizing right constants with
  | nil =>
      rw [List.map_nil, eq_comm, List.map_eq_nil_iff] at same
      rw [same]
  | cons first later ih =>
      cases right with
      | nil => contradiction
      | cons other others =>
          rw [List.map_cons, List.map_cons, List.cons.injEq] at same
          have sameFirst : constants.declare first = constants.declare other := by
            have sameName : first.name = other.name := congrArg Prod.fst same.1
            have sameLiteral : first.literal = other.literal := congrArg Prod.snd same.1
            rw [declare, declare, sameName, sameLiteral]
          rw [declareAll_cons, declareAll_cons, sameFirst]
          exact ih same.2 _

theorem get?_declareAll (constants : Constants) (declarations : List Declaration) (name : Text) :
    (constants.declareAll declarations).get? name =
      ((declarations.reverse.find? fun declaration => declaration.name = name).map
        fun declaration => Scalar.ofLiteral declaration.literal).or (constants.get? name) := by
  induction declarations generalizing constants with
  | nil => rfl
  | cons first later ih =>
      rw [declareAll_cons, ih, List.reverse_cons, List.find?_append, get?_declare]
      cases later.reverse.find? fun declaration => declaration.name = name with
      | some found => rfl
      | none =>
          by_cases sameName : first.name = name
          · simp [sameName]
          · simp [sameName]

theorem get?_ofDeclarations (declarations : List Declaration) (name : Text) :
    (ofDeclarations declarations).get? name =
      ((declarations.map Declaration.content).reverse.find? fun content => content.1 = name).map
        fun content => Scalar.ofLiteral content.2 := by
  rw [ofDeclarations, get?_declareAll, NameMap.get?_empty, Option.or_none, ← List.map_reverse,
    List.find?_map, Option.map_map]
  rfl

end Constants

namespace Source

/-- What the given events declare, places aside. -/
def contents (events : List Event) : List (Text × Text) :=
  (events.filterMap Event.declaration?).map Declaration.content

theorem contents_append (front back : List Event) :
    contents (front ++ back) = contents front ++ contents back := by
  rw [contents, List.filterMap_append, List.map_append]
  rfl

theorem lineEvents_nil (number : Nat) (hidden : Bool) : lineEvents number hidden [] = [] := by
  cases hidden <;> rfl

theorem dropByteOrderMark_of_head?_ne {text : Text} (noMark : text.head? ≠ some byteOrderMark) :
    dropByteOrderMark text = text := by
  cases text with
  | nil => rfl
  | cons head tail => exact if_neg fun isMark => noMark (congrArg some isMark)

/-- Two sources with the same declarations, places aside, have the same constants. -/
theorem constants_of_contents {left right : Text}
    (same : contents (events left) = contents (events right)) :
    constants left = constants right :=
  Constants.declareAll_of_map_content same NameMap.empty

end Source

end ConfigConstants
