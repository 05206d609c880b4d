import Mathlib.Logic.Function.Iterate
import ConfigConstants.Proofs.Declaration.Run

/-!
A reader of define calls that keeps what it has read in three registers: a stage, a key and a value.
They are written one at a time, and nothing in their type says which of them are full. The main
statement says that in every state that requests lead to a register is full exactly if the stage
needs it, so that a complete call always has its declaration, that a lexeme is looked at again at
most once, and that this reader answers every request as the one with open calls does.
-/

set_option autoImplicit false

namespace ConfigConstants

namespace DefineCall

inductive Stage where
  | seeking
  | afterWord
  | afterParenthesis
  | afterKey
  | afterComma
  | afterValue
  deriving DecidableEq, Repr

structure Registers where
  stage : Stage
  key : Option LocatedLexeme
  value : Option LocatedLexeme
  deriving DecidableEq, Repr

/-- A call given up, as it is logged. -/
structure Abandonment where
  stage : Stage
  breaking : LocatedLexeme
  deriving DecidableEq, Repr

/-- What one look at a lexeme comes to. A complete call may turn out to have no declaration; behind
a call given up the same lexeme is looked at again. -/
inductive Look where
  | settles (registers : Registers)
  | completes (registers : Registers) (declared : Option Declaration)
  | givesUp (registers : Registers) (abandonment : Abandonment)
  deriving DecidableEq, Repr

structure Looked where
  registers : Registers
  log : List Abandonment
  declared : Option Declaration
  deriving DecidableEq, Repr

namespace Registers

def cleared : Registers :=
  ⟨.seeking, none, none⟩

/-- Takes the key out of its register, then the value. There is no declaration if one is missing. -/
def emit (registers : Registers) : Registers × Option Declaration :=
  match registers.key with
  | none => (registers, none)
  | some key =>
      match registers.value with
      | none => ({ registers with key := none }, none)
      | some value =>
          ({ registers with key := none, value := none }, some (declaration key value))

/-- One look at a lexeme. The stage goes back before the declaration is made. -/
def look (lexeme : LocatedLexeme) (registers : Registers) : Look :=
  let givesUp := Look.givesUp cleared ⟨registers.stage, lexeme⟩
  match registers.stage with
  | .seeking =>
      if isDefineWord lexeme.toLexeme then .settles { registers with stage := .afterWord }
      else .settles { registers with stage := .seeking }
  | .afterWord =>
      if lexeme.kind = .openParenthesis then
        .settles { registers with stage := .afterParenthesis }
      else givesUp
  | .afterParenthesis =>
      if lexeme.kind.isArgument then
        .settles { registers with stage := .afterKey, key := some lexeme }
      else givesUp
  | .afterKey =>
      if lexeme.kind = .comma then .settles { registers with stage := .afterComma } else givesUp
  | .afterComma =>
      if lexeme.kind.isArgument then
        .settles { registers with stage := .afterValue, value := some lexeme }
      else givesUp
  | .afterValue =>
      if lexeme.kind = .closeParenthesis then
        let emitted := emit { registers with stage := .seeking }
        .completes emitted.1 emitted.2
      else givesUp

theorem of_look_eq_givesUp {lexeme : LocatedLexeme} {registers again : Registers}
    {abandonment : Abandonment} (gaveUp : look lexeme registers = .givesUp again abandonment) :
    registers.stage ≠ .seeking ∧ again = cleared := by
  obtain ⟨stage, key, value⟩ := registers
  cases stage <;> simp only [look] at gaveUp <;> split at gaveUp <;> simp_all

/-- Looks at a lexeme, and again if that gave up a call. -/
def step (lexeme : LocatedLexeme) (registers : Registers) : Looked :=
  match _looked : look lexeme registers with
  | .settles after => ⟨after, [], none⟩
  | .completes after declared => ⟨after, [], declared⟩
  | .givesUp again abandonment =>
      let looked := step lexeme again
      { looked with log := abandonment :: looked.log }
termination_by if registers.stage = .seeking then 0 else 1
decreasing_by
  obtain ⟨wasOpen, rfl⟩ := of_look_eq_givesUp _looked
  rw [if_neg wasOpen]
  exact Nat.zero_lt_one

def take (lexeme : LocatedLexeme) (registers : Registers) : Looked :=
  if lexeme.kind.separates then ⟨registers, [], none⟩ else step lexeme registers

/-- Whether exactly those registers are full that the stage needs. -/
structure FilledByStage (registers : Registers) : Prop where
  key_iff : registers.key.isSome = true ↔
    registers.stage = .afterKey ∨ registers.stage = .afterComma ∨ registers.stage = .afterValue
  value_iff : registers.value.isSome = true ↔ registers.stage = .afterValue

/-- The registers for an open call, or for none. -/
def ofCall : Option OpenCall → Registers
  | none => cleared
  | some .afterWord => ⟨.afterWord, none, none⟩
  | some .afterParenthesis => ⟨.afterParenthesis, none, none⟩
  | some (.afterKey key) => ⟨.afterKey, some key, none⟩
  | some (.afterComma key) => ⟨.afterComma, some key, none⟩
  | some (.afterValue key value) => ⟨.afterValue, some key, some value⟩

end Registers

structure RegisterReader where
  registers : Registers
  unread : List LocatedLexeme
  deriving DecidableEq, Repr

structure RegisterAnswer where
  log : List Abandonment
  declared : Option Declaration
  reader : RegisterReader
  deriving DecidableEq, Repr

namespace RegisterReader

open Registers

def ofLexemes (lexemes : List LocatedLexeme) : RegisterReader :=
  ⟨cleared, lexemes⟩

def nextFrom : Registers → List LocatedLexeme → RegisterAnswer
  | registers, [] => ⟨[], none, ⟨registers, []⟩⟩
  | registers, lexeme :: later =>
      let taken := take lexeme registers
      match taken.declared with
      | some declaration => ⟨taken.log, some declaration, ⟨taken.registers, later⟩⟩
      | none =>
          let answer := nextFrom taken.registers later
          { answer with log := taken.log ++ answer.log }

def next (reader : RegisterReader) : RegisterAnswer :=
  nextFrom reader.registers reader.unread

def rest (reader : RegisterReader) : RegisterReader :=
  reader.next.reader

/-- The states between two lexemes, from the start on. -/
inductive Reached (lexemes : List LocatedLexeme) : RegisterReader → Prop
  | start : Reached lexemes (ofLexemes lexemes)
  | take {registers : Registers} {lexeme : LocatedLexeme} {later : List LocatedLexeme} :
      Reached lexemes ⟨registers, lexeme :: later⟩ →
      Reached lexemes ⟨(take lexeme registers).registers, later⟩

end RegisterReader

def Outcome.abandonment? : Outcome → Option Abandonment
  | .declared _ => none
  | .abandoned call breaking => some ⟨(Registers.ofCall (some call)).stage, breaking⟩

/-- What reading a lexeme comes to, in registers. -/
def Looked.ofRead (result : Option OpenCall × Option Outcome) : Looked :=
  ⟨.ofCall result.1, (result.2.bind Outcome.abandonment?).toList,
    result.2.bind Outcome.declaration?⟩

def Reader.rest (reader : Reader) : Reader :=
  reader.next.reader

def RegisterReader.ofReader (reader : Reader) : RegisterReader :=
  ⟨.ofCall reader.call, reader.unread⟩

def RegisterAnswer.ofAnswer (answer : Answer) : RegisterAnswer :=
  ⟨answer.abandoned.filterMap Outcome.abandonment?, answer.declared, .ofReader answer.reader⟩

namespace Registers

theorem filledByStage_iff {registers : Registers} :
    registers.FilledByStage ↔ ∃ call, registers = ofCall call := by
  constructor
  · rintro ⟨key_iff, value_iff⟩
    obtain ⟨stage, key, value⟩ := registers
    cases stage with
    | seeking => exact ⟨none, by simp_all [ofCall, cleared]⟩
    | afterWord => exact ⟨some .afterWord, by simp_all [ofCall]⟩
    | afterParenthesis => exact ⟨some .afterParenthesis, by simp_all [ofCall]⟩
    | afterKey =>
        obtain ⟨held, rfl⟩ := Option.isSome_iff_exists.mp (key_iff.mpr (.inl rfl))
        exact ⟨some (.afterKey held), by simp_all [ofCall]⟩
    | afterComma =>
        obtain ⟨held, rfl⟩ := Option.isSome_iff_exists.mp (key_iff.mpr (.inr (.inl rfl)))
        exact ⟨some (.afterComma held), by simp_all [ofCall]⟩
    | afterValue =>
        obtain ⟨held, rfl⟩ := Option.isSome_iff_exists.mp (key_iff.mpr (.inr (.inr rfl)))
        obtain ⟨literal, rfl⟩ := Option.isSome_iff_exists.mp (value_iff.mpr rfl)
        exact ⟨some (.afterValue held literal), rfl⟩
  · rintro ⟨call, rfl⟩
    constructor <;> rcases call with _ | _ | _ | _ | _ | _ <;> simp [ofCall, cleared]

/-! ## One lexeme -/

theorem step_of_settles {lexeme : LocatedLexeme} {registers after : Registers}
    (settled : look lexeme registers = .settles after) :
    step lexeme registers = ⟨after, [], none⟩ := by
  rw [step]
  split <;> simp_all

theorem step_of_completes {lexeme : LocatedLexeme} {registers after : Registers}
    {declared : Option Declaration}
    (completed : look lexeme registers = .completes after declared) :
    step lexeme registers = ⟨after, [], declared⟩ := by
  rw [step]
  split <;> simp_all

theorem look_cleared (lexeme : LocatedLexeme) :
    look lexeme cleared = .settles (ofCall (begin? lexeme)) := by
  simp only [look, cleared, begin?]
  split <;> rfl

/-- The second look always settles. -/
theorem step_of_givesUp {lexeme : LocatedLexeme} {registers again : Registers}
    {abandonment : Abandonment} (gaveUp : look lexeme registers = .givesUp again abandonment) :
    step lexeme registers = ⟨ofCall (begin? lexeme), [abandonment], none⟩ := by
  obtain ⟨-, rfl⟩ := of_look_eq_givesUp gaveUp
  rw [step]
  split
  · simp_all
  · simp_all
  · next again' abandonment' looked =>
      rw [gaveUp] at looked
      cases looked
      rw [step_of_settles (look_cleared lexeme)]

theorem look_ofCall (lexeme : LocatedLexeme) (call : OpenCall) :
    look lexeme (ofCall (some call)) =
      match advance? lexeme call with
      | some (.goesOn longer) => .settles (ofCall (some longer))
      | some (.completes declared) => .completes cleared (some declared)
      | none => .givesUp cleared ⟨(ofCall (some call)).stage, lexeme⟩ := by
  cases call with
  | afterWord | afterParenthesis | afterKey | afterComma | afterValue =>
      simp only [look, ofCall, advance?]
      split <;> rfl

theorem step_ofCall (lexeme : LocatedLexeme) (call : Option OpenCall) :
    step lexeme (ofCall call) = .ofRead (read lexeme call) := by
  cases call with
  | none => exact step_of_settles (look_cleared lexeme)
  | some call =>
      have looked := look_ofCall lexeme call
      cases advanced : advance? lexeme call with
      | none =>
          rw [advanced] at looked
          rw [step_of_givesUp looked, read, advanced]
          rfl
      | some progress =>
          rw [advanced] at looked
          cases progress with
          | goesOn longer =>
              rw [step_of_settles looked, read, advanced]
              rfl
          | completes declared =>
              rw [step_of_completes looked, read, advanced]
              rfl

theorem length_log_step_le (lexeme : LocatedLexeme) (registers : Registers) :
    (step lexeme registers).log.length ≤ 1 := by
  cases looked : look lexeme registers with
  | settles after =>
      rw [step_of_settles looked]
      exact Nat.zero_le 1
  | completes after declared =>
      rw [step_of_completes looked]
      exact Nat.zero_le 1
  | givesUp again abandonment =>
      rw [step_of_givesUp looked]
      exact Nat.le_refl 1

theorem FilledByStage.look_eq_completes_iff {registers : Registers}
    (filled : registers.FilledByStage) {lexeme : LocatedLexeme} {after : Registers}
    {declared : Option Declaration} :
    look lexeme registers = .completes after declared ↔
      registers.stage = .afterValue ∧ lexeme.kind = .closeParenthesis ∧ after = cleared ∧
        ∃ key value, registers.key = some key ∧ registers.value = some value ∧
          declared = some (declaration key value) := by
  obtain ⟨call, rfl⟩ := filledByStage_iff.mp filled
  cases call with
  | none =>
      rw [ofCall, look_cleared]
      simp [cleared]
  | some call =>
      rw [look_ofCall]
      cases call with
      | afterValue key value =>
          by_cases isClosing : lexeme.kind = .closeParenthesis <;>
            simp [advance?, ofCall, isClosing, eq_comm]
      | afterWord | afterParenthesis | afterKey | afterComma =>
          simp only [advance?, ofCall]
          split <;> simp_all

end Registers

namespace RegisterReader

open Registers

/-! ## One request after the other -/

theorem next_ofReader (reader : Reader) : (ofReader reader).next = .ofAnswer reader.next := by
  obtain ⟨call, unread⟩ := reader
  simp only [next, ofReader, Reader.next]
  fun_induction Reader.nextFrom call unread with
  | case1 call => rfl
  | case2 call lexeme later separates ih =>
      rw [nextFrom, take, if_pos separates]
      exact ih
  | case3 call lexeme later takesPart nextCall declaration result =>
      rw [nextFrom, take, if_neg takesPart, step_ofCall, result]
      rfl
  | case4 call lexeme later takesPart nextCall broken breaking result answer ih =>
      rw [nextFrom, take, if_neg takesPart, step_ofCall, result]
      simp only [Looked.ofRead, Option.bind_some, Outcome.declaration?, ih]
      rfl
  | case5 call lexeme later takesPart nextCall result ih =>
      rw [nextFrom, take, if_neg takesPart, step_ofCall, result]
      simp only [Looked.ofRead, Option.bind_none, ih]
      rfl

theorem iterate_rest_ofReader (count : Nat) (reader : Reader) :
    rest^[count] (ofReader reader) = ofReader (Reader.rest^[count] reader) := by
  have together : Function.Semiconj ofReader Reader.rest rest := by
    intro reader
    rw [rest, next_ofReader]
    rfl
  exact (together.iterate_right count reader).symm

theorem unread_eq_nil_of_declared_eq_none {reader : RegisterReader}
    (ended : reader.next.declared = none) : reader.next.reader.unread = [] := by
  obtain ⟨registers, unread⟩ := reader
  simp only [next] at *
  fun_induction nextFrom registers unread with
  | case1 registers => rfl
  | case2 registers lexeme later taken declaration declared => contradiction
  | case3 registers lexeme later taken undeclared answer ih => exact ih ended

theorem next_of_unread_eq_nil {reader : RegisterReader} (nothingLeft : reader.unread = []) :
    reader.next = ⟨[], none, reader⟩ := by
  obtain ⟨registers, unread⟩ := reader
  cases nothingLeft
  rfl

theorem next_iterate_rest_of_declared_eq_none {reader : RegisterReader}
    (ended : reader.next.declared = none) (count : Nat) :
    (rest^[count] reader.rest).next = ⟨[], none, reader.rest⟩ := by
  have again : reader.rest.next = ⟨[], none, reader.rest⟩ :=
    next_of_unread_eq_nil (unread_eq_nil_of_declared_eq_none ended)
  have stays : rest^[count] reader.rest = reader.rest :=
    Function.iterate_fixed (congrArg RegisterAnswer.reader again) count
  rw [stays, again]

theorem next_iterate_rest_of_call {reader : Reader} (ended : reader.next.declared = none)
    (count : Nat) : (Reader.rest^[count] reader.rest).next = ⟨[], none, reader.rest⟩ := by
  have again : reader.rest.next = ⟨[], none, reader.rest⟩ :=
    Reader.next_of_declared_eq_none ended
  have stays : Reader.rest^[count] reader.rest = reader.rest :=
    Function.iterate_fixed (congrArg Answer.reader again) count
  rw [stays, again]

/-! ## The states between two lexemes -/

theorem registers_take_ofCall (lexeme : LocatedLexeme) (call : Option OpenCall) :
    (take lexeme (ofCall call)).registers = ofCall (openAfter call [lexeme]) := by
  rw [take, openAfter, openAfter, openAfter]
  split
  · rfl
  · rw [step_ofCall]
    rfl

theorem Reached.takeAll {lexemes : List LocatedLexeme} {call : Option OpenCall}
    {passed unread : List LocatedLexeme}
    (reached : Reached lexemes ⟨ofCall call, passed ++ unread⟩) :
    Reached lexemes ⟨ofCall (openAfter call passed), unread⟩ := by
  induction passed generalizing call with
  | nil => exact reached
  | cons lexeme others ih =>
      rw [← List.singleton_append, openAfter_append]
      apply ih
      rw [← registers_take_ofCall]
      exact reached.take

theorem reached_iff {lexemes : List LocatedLexeme} {reader : RegisterReader} :
    Reached lexemes reader ↔ ∃ passed, lexemes = passed ++ reader.unread ∧
      reader.registers = ofCall (openAfter none passed) := by
  constructor
  · intro reached
    induction reached with
    | start => exact ⟨[], rfl, rfl⟩
    | @take registers lexeme later _ ih =>
        obtain ⟨passed, whole, registersEq⟩ := ih
        refine ⟨passed ++ [lexeme], by rw [whole, List.append_assoc]; rfl, ?_⟩
        rw [openAfter_append, ← registers_take_ofCall, ← registersEq]
  · obtain ⟨registers, unread⟩ := reader
    rintro ⟨passed, rfl, rfl⟩
    have atStart : Reached (passed ++ unread) ⟨ofCall none, passed ++ unread⟩ := .start
    exact atStart.takeAll

theorem Reached.filledByStage {lexemes : List LocatedLexeme} {reader : RegisterReader}
    (reached : Reached lexemes reader) : reader.registers.FilledByStage := by
  obtain ⟨passed, -, registersEq⟩ := reached_iff.mp reached
  exact filledByStage_iff.mpr ⟨_, registersEq⟩

theorem Reached.rest {lexemes : List LocatedLexeme} {reader : RegisterReader}
    (reached : Reached lexemes reader) : Reached lexemes reader.rest := by
  obtain ⟨registers, unread⟩ := reader
  simp only [RegisterReader.rest, next]
  fun_induction nextFrom registers unread with
  | case1 registers => exact reached
  | case2 registers lexeme later taken declaration declared => exact reached.take
  | case3 registers lexeme later taken undeclared answer ih => exact ih reached.take

theorem reached_iterate_rest (lexemes : List LocatedLexeme) (count : Nat) :
    Reached lexemes (rest^[count] (ofLexemes lexemes)) := by
  induction count with
  | zero => exact .start
  | succ count ih =>
      rw [Function.iterate_succ_apply']
      exact ih.rest

/-- For every list of lexemes. Between any two of them the registers are filled by the stage, as for
the call that is then open: a call that a closing parenthesis completes has its key and its value, a
lexeme that gives up a call is looked at once more, with nothing kept, and then no call is given up.
However many requests there were, the next one is answered as by the reader with open calls, and
after one that yielded nothing no request yields or logs anything. -/
theorem registers_filled_by_stage (lexemes : List LocatedLexeme) :
    (∀ reader, Reached lexemes reader ↔ ∃ passed, lexemes = passed ++ reader.unread ∧
      reader.registers = ofCall (openAfter none passed)) ∧
    (∀ reader, Reached lexemes reader → reader.registers.FilledByStage ∧
      ∀ lexeme,
        (∀ after declared, look lexeme reader.registers = .completes after declared ↔
          reader.registers.stage = .afterValue ∧ lexeme.kind = .closeParenthesis ∧
            after = cleared ∧ ∃ key value, reader.registers.key = some key ∧
              reader.registers.value = some value ∧ declared = some (declaration key value)) ∧
        (∀ again abandonment, look lexeme reader.registers = .givesUp again abandonment →
          reader.registers.stage ≠ .seeking ∧ again = cleared ∧
            ∀ another later, look lexeme again ≠ .givesUp another later) ∧
        (step lexeme reader.registers).log.length ≤ 1) ∧
    ∀ count,
      let reader := rest^[count] (ofLexemes lexemes)
      let withCall := Reader.rest^[count] (Reader.ofLexemes lexemes)
      Reached lexemes reader ∧ reader.next = .ofAnswer withCall.next ∧
      (reader.next.declared = none → ∀ more,
        (rest^[more] reader.rest).next = ⟨[], none, reader.rest⟩ ∧
        (Reader.rest^[more] withCall.rest).next = ⟨[], none, withCall.rest⟩) := by
  refine ⟨fun _ => reached_iff, ?states, ?requests⟩
  case states =>
    intro reader reached
    refine ⟨reached.filledByStage, fun lexeme => ⟨?completes, ?givesUp,
      length_log_step_le lexeme reader.registers⟩⟩
    case completes =>
      intro after declared
      exact reached.filledByStage.look_eq_completes_iff
    case givesUp =>
      intro again abandonment gaveUp
      obtain ⟨wasOpen, rfl⟩ := of_look_eq_givesUp gaveUp
      refine ⟨wasOpen, rfl, fun another later gaveUpAgain => ?_⟩
      exact (of_look_eq_givesUp gaveUpAgain).1 rfl
  case requests =>
    intro count reader withCall
    have sameReader : reader = ofReader withCall := iterate_rest_ofReader count (.ofLexemes lexemes)
    have sameAnswer : reader.next = .ofAnswer withCall.next := by
      rw [sameReader, next_ofReader]
    refine ⟨reached_iterate_rest lexemes count, sameAnswer, fun ended more => ?_⟩
    have endedWithCall : withCall.next.declared = none := by rwa [sameAnswer] at ended
    exact ⟨next_iterate_rest_of_declared_eq_none ended more,
      next_iterate_rest_of_call endedWithCall more⟩

/-- A call that breaks off is given up at the word of the next one, which is then complete. -/
theorem registers_at_word_of_next_call :
    let lexemes := locatedLexemes 1 "define('A' define('B',1)".toList
    let key : LocatedLexeme := ⟨⟨.quoted .single, "'A'".toList⟩, ⟨1, 8⟩⟩
    let word : LocatedLexeme := ⟨⟨.word, "define".toList⟩, ⟨1, 12⟩⟩
    let reader : RegisterReader := ⟨⟨.afterKey, some key, none⟩, word :: lexemes.drop 5⟩
    Reached lexemes reader ∧ reader.registers.FilledByStage ∧
    look word reader.registers = .givesUp cleared ⟨.afterKey, word⟩ ∧
    (∀ another later, look word cleared ≠ .givesUp another later) ∧
    (ofLexemes lexemes).next.declared = some ⟨"B".toList, "1".toList, ⟨1, 19⟩⟩ ∧
    (ofLexemes lexemes).rest.next.declared = none ∧
    ∀ more, (rest^[more] (ofLexemes lexemes).rest.rest).next.log = [] := by
  intro lexemes key word reader
  have reached : Reached lexemes reader :=
    reached_iff.mpr ⟨lexemes.take 4, by decide +kernel, by decide +kernel⟩
  obtain ⟨-, states, requests⟩ := registers_filled_by_stage lexemes
  obtain ⟨filled, looks⟩ := states reader reached
  have gaveUp : look word reader.registers = .givesUp cleared ⟨.afterKey, word⟩ := by decide
  have settles := ((looks word).2.1 _ _ gaveUp).2.2
  obtain ⟨-, sameFirst, -⟩ := requests 0
  obtain ⟨-, sameSecond, stays⟩ := requests 1
  have first : (ofLexemes lexemes).next.declared = some ⟨"B".toList, "1".toList, ⟨1, 19⟩⟩ := by
    refine (congrArg RegisterAnswer.declared sameFirst).trans ?_
    decide +kernel
  have second : (ofLexemes lexemes).rest.next.declared = none := by
    refine (congrArg RegisterAnswer.declared sameSecond).trans ?_
    decide +kernel
  refine ⟨reached, filled, gaveUp, settles, first, second, fun more => ?_⟩
  exact congrArg RegisterAnswer.log (stays second more).1

end RegisterReader

end DefineCall

end ConfigConstants
