import ConfigConstants.Text.Basic

/-!
The two quotes that a literal may stand in. Taking a layer of quotes off undoes putting it on, and
nothing between the quotes is interpreted.
-/

set_option autoImplicit false

namespace ConfigConstants

inductive Quote where
  | single
  | double
  deriving DecidableEq, Repr

namespace Quote

def mark : Quote → Char
  | .single => '\x27'
  | .double => '\x22'

def ofMark? (char : Char) : Option Quote :=
  if char = mark .single then some .single
  else if char = mark .double then some .double
  else none

@[simp] theorem ofMark?_mark (quote : Quote) : ofMark? quote.mark = some quote := by
  cases quote <;> decide

theorem mark_eq_of_ofMark? {char : Char} {quote : Quote} (found : ofMark? char = some quote) :
    quote.mark = char := by
  unfold ofMark? at found
  split at found
  · next same => cases found; exact same.symm
  · split at found
    · next same => cases found; exact same.symm
    · contradiction

def wrap (quote : Quote) (inner : Text) : Text :=
  quote.mark :: (inner ++ [quote.mark])

/-- The text inside one layer of quotes, if the text has such a layer. A lone mark has none. -/
def unwrap? : Text → Option Text
  | [] => none
  | head :: tail =>
      if (ofMark? head).isSome ∧ tail.getLast? = some head then some tail.dropLast else none

@[simp] theorem unwrap?_wrap (quote : Quote) (inner : Text) :
    unwrap? (quote.wrap inner) = some inner := by
  simp [unwrap?, wrap]

theorem unwrap?_eq_some_iff {text inner : Text} :
    unwrap? text = some inner ↔ ∃ quote : Quote, text = quote.wrap inner := by
  constructor
  · intro found
    cases text with
    | nil => simp [unwrap?] at found
    | cons head tail =>
        rw [unwrap?] at found
        split at found
        · next layer =>
            cases found
            obtain ⟨quote, isQuote⟩ := Option.isSome_iff_exists.mp layer.1
            have headEq := mark_eq_of_ofMark? isQuote
            obtain ⟨init, tailEq⟩ := List.getLast?_eq_some_iff.mp layer.2
            refine ⟨quote, ?_⟩
            rw [wrap, headEq, tailEq, List.dropLast_concat]
        · contradiction
  · rintro ⟨quote, rfl⟩
    exact unwrap?_wrap quote inner

def bare (text : Text) : Text :=
  (unwrap? text).getD text

end Quote

end ConfigConstants
