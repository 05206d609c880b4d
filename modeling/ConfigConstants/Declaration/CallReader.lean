import ConfigConstants.Declaration.DefineCall

/-!
Reading define calls one declaration at a time. A reader holds the lexemes that it has not read and
the call that is open; asking it for the next declaration reads only as far as that. The main
statement says that successive answers are the outcomes of the whole list, in order.
-/

set_option autoImplicit false

namespace ConfigConstants

namespace DefineCall

structure Reader where
  call : Option OpenCall
  unread : List LocatedLexeme
  deriving DecidableEq, Repr

/-- What one request yields: the calls abandoned on the way, the declaration unless the lexemes ran
out, and the reader for the next request. -/
structure Answer where
  abandoned : List Outcome
  declared : Option Declaration
  reader : Reader
  deriving DecidableEq, Repr

namespace Reader

def ofLexemes (lexemes : List LocatedLexeme) : Reader :=
  ⟨none, lexemes⟩

def nextFrom : Option OpenCall → List LocatedLexeme → Answer
  | call, [] => ⟨[], none, ⟨call, []⟩⟩
  | call, lexeme :: later =>
      if lexeme.kind.separates then nextFrom call later
      else
        match read lexeme call with
        | (call, some (.declared declaration)) => ⟨[], some declaration, ⟨call, later⟩⟩
        | (call, some (.abandoned broken breaking)) =>
            let answer := nextFrom call later
            ⟨.abandoned broken breaking :: answer.abandoned, answer.declared, answer.reader⟩
        | (call, none) => nextFrom call later

def next (reader : Reader) : Answer :=
  nextFrom reader.call reader.unread

def outcomes (reader : Reader) : List Outcome :=
  outcomesFrom reader.call reader.unread

theorem outcomes_eq_next (reader : Reader) :
    reader.outcomes =
      reader.next.abandoned ++ (reader.next.declared.map Outcome.declared).toList ++
        reader.next.reader.outcomes := by
  obtain ⟨call, unread⟩ := reader
  simp only [outcomes, next]
  fun_induction nextFrom call unread with
  | case1 call => rfl
  | case2 call lexeme later trivia ih => rw [outcomesFrom, if_pos trivia, ih]
  | case3 call lexeme later significant nextCall declaration result =>
      simp [outcomesFrom, significant, result]
  | case4 call lexeme later significant nextCall broken breaking result answer ih =>
      simp [outcomesFrom, significant, result, ih, answer]
  | case5 call lexeme later significant nextCall result ih =>
      simp [outcomesFrom, significant, result, ih]

theorem next_of_declared_eq_none {reader : Reader} (ended : reader.next.declared = none) :
    reader.next.reader.next = ⟨[], none, reader.next.reader⟩ := by
  obtain ⟨call, unread⟩ := reader
  simp only [next] at *
  fun_induction nextFrom call unread with
  | case1 call => rfl
  | case2 call lexeme later trivia ih => exact ih ended
  | case3 call lexeme later significant nextCall declaration result => contradiction
  | case4 call lexeme later significant nextCall broken breaking result answer ih => exact ih ended
  | case5 call lexeme later significant nextCall result ih => exact ih ended

end Reader

end DefineCall

end ConfigConstants
