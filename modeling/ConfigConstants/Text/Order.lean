import ConfigConstants.Text.Basic

/-!
The order of texts by code point: the first place where two texts differ decides, and a text comes
before its own continuations. The main statements say that this is a strict order in which any two
texts are comparable.
-/

set_option autoImplicit false

namespace ConfigConstants

namespace Text

def precedes : Text → Text → Bool
  | [], [] => false
  | [], _ :: _ => true
  | _ :: _, [] => false
  | head :: tail, other :: others =>
      decide (head.toNat < other.toNat) || (head == other && precedes tail others)

theorem precedes_cons {head other : Char} {tail others : Text} :
    precedes (head :: tail) (other :: others) = true ↔
      head.toNat < other.toNat ∨ head = other ∧ precedes tail others = true := by
  simp [precedes]

theorem precedes_self (text : Text) : precedes text text = false := by
  induction text with
  | nil => rfl
  | cons head tail ih => simp [precedes, ih]

theorem ne_of_precedes {text other : Text} (before : precedes text other = true) :
    text ≠ other := by
  intro same
  rw [same, precedes_self] at before
  contradiction

theorem precedes_trans {first second third : Text} (left : precedes first second = true)
    (right : precedes second third = true) : precedes first third = true := by
  induction first generalizing second third with
  | nil =>
      cases third with
      | nil => cases second <;> contradiction
      | cons head tail => rfl
  | cons head tail ih =>
      cases second with
      | nil => contradiction
      | cons middle middleTail =>
          cases third with
          | nil => contradiction
          | cons last lastTail =>
              rw [precedes_cons] at left right ⊢
              rcases left with below | ⟨rfl, leftTail⟩
              · rcases right with above | ⟨rfl, _⟩
                · exact Or.inl (Nat.lt_trans below above)
                · exact Or.inl below
              · rcases right with above | ⟨rfl, rightTail⟩
                · exact Or.inl above
                · exact Or.inr ⟨rfl, ih leftTail rightTail⟩

theorem precedes_asymm {text other : Text} (before : precedes text other = true) :
    precedes other text = false := by
  cases behind : precedes other text with
  | false => rfl
  | true => exact absurd rfl (ne_of_precedes (precedes_trans before behind))

theorem precedes_of_ne {text other : Text} (notBefore : precedes text other = false)
    (differ : text ≠ other) : precedes other text = true := by
  induction text generalizing other with
  | nil =>
      cases other with
      | nil => exact absurd rfl differ
      | cons head tail => contradiction
  | cons head tail ih =>
      cases other with
      | nil => rfl
      | cons otherHead otherTail =>
          rw [precedes_cons]
          have notCons := mt precedes_cons.mpr (by rw [notBefore]; exact Bool.false_ne_true)
          by_cases sameHead : otherHead = head
          · subst sameHead
            have tailNotBefore : precedes tail otherTail = false := by
              cases before : precedes tail otherTail with
              | false => rfl
              | true => exact absurd (Or.inr ⟨rfl, before⟩) notCons
            have tailsDiffer : tail ≠ otherTail := fun same => differ (by rw [same])
            exact Or.inr ⟨rfl, ih tailNotBefore tailsDiffer⟩
          · have codesDiffer : otherHead.toNat ≠ head.toNat := fun same =>
              sameHead (Char.toNat_inj.mp same)
            have notBelow : ¬ head.toNat < otherHead.toNat := fun below => notCons (Or.inl below)
            exact Or.inl (by omega)

end Text

end ConfigConstants
