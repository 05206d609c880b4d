import ConfigConstants.Proofs.Constants.LastWins
import ConfigConstants.Proofs.Literal.Scientific

/-!
Comparing the constants of two sources. Floating point numbers are compared as numbers, so that a
value which is not a number would differ from itself. No literal has such a value, because only
decimals are read as floating point numbers; the main statement is that on the constants of sources
the comparison is an equivalence, and that it goes name by name.
-/

set_option autoImplicit false

namespace ConfigConstants

namespace Binary64

theorem roundHalfEven_zero (denominator : Nat) : roundHalfEven 0 denominator = 0 := by
  unfold roundHalfEven
  simp

theorem magnitude_nearest_zero (negative : Bool) (denominator : Nat) :
    (nearest negative 0 denominator).magnitude = 0 := by
  have noUnits : nearestShift 0 denominator = 0 := by
    simp [nearestShift, wholeUnits]
  simp [nearest, ofMagnitude, nearestMagnitude, noUnits, roundHalfEven_zero]

theorem equal_of_magnitude_eq_zero {left right : Binary64} (leftZero : left.magnitude = 0)
    (rightZero : right.magnitude = 0) : left.equal right = true := by
  simp [equal, isNaN, leftZero, rightZero]

end Binary64

namespace NameMap

variable {β : Type}

theorem names_eq_iff {left right : NameMap β} :
    left.names = right.names ↔ ∀ name, left.contains name = right.contains name := by
  have contains_eq (map : NameMap β) (name : Text) :
      map.contains name = decide (name ∈ map.names) := by
    rw [contains_eq_isSome, Bool.eq_iff_iff, decide_eq_true_iff, mem_names_iff]
  constructor
  · intro sameNames name
    rw [contains_eq, contains_eq, sameNames]
  · intro sameMembers
    have sameEntries : left.names.Perm right.names := by
      apply (List.perm_ext_iff_of_nodup left.nodup_names right.nodup_names).mpr
      intro name
      have here := sameMembers name
      rwa [contains_eq, contains_eq, decide_eq_decide] at here
    refine sameEntries.eq_of_pairwise ?_ left.names_ascending right.names_ascending
    intro first second _ _ before behind
    rw [Text.precedes_asymm before] at behind
    contradiction

theorem all_zip_iff {agree : β → β → Bool} {left right : List (Text × β)}
    (sameNames : left.map Prod.fst = right.map Prod.fst)
    (ascending : left.Pairwise fun earlier later => earlier.1.precedes later.1 = true) :
    ((left.zip right).all fun (mine, other) => agree mine.2 other.2) = true ↔
      ∀ name mine other, lookIn name left = some mine → lookIn name right = some other →
        agree mine other = true := by
  induction left generalizing right with
  | nil =>
      rw [List.map_nil, eq_comm, List.map_eq_nil_iff] at sameNames
      simp [lookIn]
  | cons leftEntry leftLater ih =>
      cases right with
      | nil => contradiction
      | cons rightEntry rightLater =>
          rw [List.map_cons, List.map_cons, List.cons.injEq] at sameNames
          obtain ⟨sameName, laterNames⟩ := sameNames
          obtain ⟨entryFirst, laterAscending⟩ := List.pairwise_cons.mp ascending
          rw [List.zip_cons_cons, List.all_cons, Bool.and_eq_true, ih laterNames laterAscending]
          constructor
          · rintro ⟨here, later⟩ name mine other isMine isOther
            rw [lookIn] at isMine isOther
            by_cases isName : leftEntry.1 = name
            · rw [if_pos isName] at isMine
              rw [if_pos (sameName.symm.trans isName)] at isOther
              rw [← Option.some.inj isMine, ← Option.some.inj isOther]
              exact here
            · rw [if_neg isName] at isMine
              rw [if_neg fun same => isName (sameName.trans same)] at isOther
              exact later name mine other isMine isOther
          · intro byName
            constructor
            · apply byName leftEntry.1
              · rw [lookIn, if_pos rfl]
              · rw [lookIn, if_pos sameName.symm]
            · intro name mine other isMine isOther
              have differs : leftEntry.1 ≠ name :=
                Text.ne_of_precedes (entryFirst _ (mem_of_lookIn isMine))
              apply byName name mine other
              · rw [lookIn, if_neg differs, isMine]
              · rw [lookIn, if_neg fun same => differs (sameName.trans same), isOther]

/-- Two maps are equal by a comparison of values just when they have the same names with values that
agree. -/
theorem equalBy_iff {agree : β → β → Bool} {left right : NameMap β} :
    left.equalBy agree right = true ↔
      (∀ name, left.contains name = right.contains name) ∧
        ∀ name mine other, left.get? name = some mine → right.get? name = some other →
          agree mine other = true := by
  unfold equalBy
  rw [Bool.and_eq_true, beq_iff_eq]
  constructor
  · rintro ⟨sameNames, agreeing⟩
    exact ⟨names_eq_iff.mp sameNames, (all_zip_iff sameNames left.ascending).mp agreeing⟩
  · rintro ⟨sameMembers, agreeing⟩
    have sameNames := names_eq_iff.mpr sameMembers
    exact ⟨sameNames, (all_zip_iff sameNames left.ascending).mpr agreeing⟩

end NameMap

namespace Constants

def HoldsNumbers (constants : Constants) : Prop :=
  ∀ name number, constants.get? name = some (.float number) → number.isNaN = false

theorem equal_self {constants : Constants} (numbers : constants.HoldsNumbers) :
    constants.equal constants = true := by
  apply NameMap.equalBy_iff.mpr
  refine ⟨fun name => rfl, ?_⟩
  intro name mine other isMine isOther
  rw [isMine] at isOther
  cases isOther
  apply Scalar.equal_self_iff.mpr
  rintro number rfl
  exact numbers name number isMine

theorem equal_symm {left right : Constants} (same : left.equal right = true) :
    right.equal left = true := by
  obtain ⟨sameNames, agreeing⟩ := NameMap.equalBy_iff.mp same
  apply NameMap.equalBy_iff.mpr
  refine ⟨fun name => (sameNames name).symm, ?_⟩
  intro name mine other isMine isOther
  exact Scalar.equal_symm (agreeing name other mine isOther isMine)

theorem equal_trans {first second third : Constants} (left : first.equal second = true)
    (right : second.equal third = true) : first.equal third = true := by
  obtain ⟨leftNames, leftAgreeing⟩ := NameMap.equalBy_iff.mp left
  obtain ⟨rightNames, rightAgreeing⟩ := NameMap.equalBy_iff.mp right
  apply NameMap.equalBy_iff.mpr
  refine ⟨fun name => (leftNames name).trans (rightNames name), ?_⟩
  intro name mine other isMine isOther
  -- the map between them has the name too
  have inSecond : second.contains name = true := by
    rw [← leftNames, NameMap.contains_eq_isSome, isMine]
    rfl
  rw [NameMap.contains_eq_isSome] at inSecond
  obtain ⟨middle, isMiddle⟩ := Option.isSome_iff_exists.mp inSecond
  exact Scalar.equal_trans (leftAgreeing name mine middle isMine isMiddle)
    (rightAgreeing name middle other isMiddle isOther)

end Constants

namespace Source

theorem exists_declaration_of_get? {source name : Text} {value : Scalar}
    (stored : (constants source).get? name = some value) :
    ∃ declaration ∈ declarations source, declaration.name = name ∧
      Scalar.ofLiteral declaration.literal = value := by
  rw [constants, (Constants.isLastWinsView_ofDeclarations (declarations source)).get?_eq] at stored
  obtain ⟨declaration, found, valueEq⟩ := Option.map_eq_some_iff.mp stored
  have isNamed := List.find?_some found
  have isDeclared := List.mem_of_find?_eq_some found
  exact ⟨declaration, List.mem_reverse.mp isDeclared, of_decide_eq_true isNamed, valueEq⟩

theorem holdsNumbers_constants (source : Text) : (constants source).HoldsNumbers := by
  intro name number stored
  obtain ⟨declaration, _, _, isFloat⟩ := exists_declaration_of_get? stored
  exact Scalar.isNaN_ofLiteral isFloat

theorem equal_ofLiteral_of_zero {left right : Text} {mine other : Binary64}
    (isMine : Scalar.ofLiteral left = .float mine) (isOther : Scalar.ofLiteral right = .float other)
    (leftZero : Numeral.coefficient left = 0) (rightZero : Numeral.coefficient right = 0) :
    (Scalar.ofLiteral left).equal (Scalar.ofLiteral right) = true := by
  have mineEq := (Scalar.ofLiteral_eq_float_iff.mp isMine).2.2.2
  have otherEq := (Scalar.ofLiteral_eq_float_iff.mp isOther).2.2.2
  rw [isMine, isOther]
  apply Binary64.equal_of_magnitude_eq_zero
  · rw [mineEq, Numeral.nearest, leftZero]
    exact Binary64.magnitude_nearest_zero _ _
  · rw [otherEq, Numeral.nearest, rightZero]
    exact Binary64.magnitude_nearest_zero _ _

/-- On the constants of sources the comparison is an equivalence. A floating point number among them
was written as a decimal and is a number; so constants equal themselves, and two sources have equal
constants just when these have the same names with equal values. Zeros are equal whatever their
signs, though they are different values. -/
theorem comparison_of_constants :
    (∀ source name number, (constants source).get? name = some (.float number) →
      number.isNaN = false ∧
        ∃ declaration ∈ declarations source, declaration.name = name ∧
          Numeral.IsDecimal declaration.literal ∧
          number = Numeral.nearest declaration.literal) ∧
    (∀ literal number, Scalar.ofLiteral literal = .float number →
      Numeral.IsDecimal literal ∧ number = Numeral.nearest literal) ∧
    (∀ source, (constants source).equal (constants source) = true) ∧
    (∀ first second, (constants first).equal (constants second) = true →
      (constants second).equal (constants first) = true) ∧
    (∀ first second third, (constants first).equal (constants second) = true →
      (constants second).equal (constants third) = true →
        (constants first).equal (constants third) = true) ∧
    (∀ first second, (constants first).equal (constants second) = true ↔
      (∀ name, (constants first).contains name = (constants second).contains name) ∧
        ∀ name mine other, (constants first).get? name = some mine →
          (constants second).get? name = some other → mine.equal other = true) ∧
    (∀ left right mine other, Scalar.ofLiteral left = .float mine →
      Scalar.ofLiteral right = .float other →
        Numeral.coefficient left = 0 → Numeral.coefficient right = 0 →
          (Scalar.ofLiteral left).equal (Scalar.ofLiteral right) = true) ∧
    (constants "const A = +0;".toList).equal (constants "const A = -0;".toList) = true ∧
    constants "const A = +0;".toList ≠ constants "const A = -0;".toList := by
  refine ⟨?_, ?_, ?_, ?_, ?_, ?_, ?_, ?_, ?_⟩
  · intro source name number stored
    obtain ⟨declaration, declared, isNamed, isFloat⟩ := exists_declaration_of_get? stored
    obtain ⟨_, decimal, _, numberEq⟩ := Scalar.ofLiteral_eq_float_iff.mp isFloat
    exact ⟨Scalar.isNaN_ofLiteral isFloat, declaration, declared, isNamed, decimal, numberEq⟩
  · intro literal number isFloat
    obtain ⟨_, decimal, _, numberEq⟩ := Scalar.ofLiteral_eq_float_iff.mp isFloat
    exact ⟨decimal, numberEq⟩
  · intro source
    exact Constants.equal_self (holdsNumbers_constants source)
  · intro first second same
    exact Constants.equal_symm same
  · intro first second third left right
    exact Constants.equal_trans left right
  · intro first second
    exact NameMap.equalBy_iff
  · intro left right mine other isMine isOther leftZero rightZero
    exact equal_ofLiteral_of_zero isMine isOther leftZero rightZero
  · decide +kernel
  · intro same
    have sameValue := congrArg (fun all => all.get? ['A']) same
    revert sameValue
    decide +kernel

end Source

end ConfigConstants
