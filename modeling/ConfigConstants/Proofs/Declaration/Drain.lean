import ConfigConstants.Proofs.Declaration.Run

/-!
Asking a reader until it has no more declarations. Every answer uses up lexemes, so the asking
ends, and what it yields are the declarations among the outcomes of the whole list. With the calls
that are abandoned on the way it is the list of all outcomes, in their order, and the call that is
open when nothing more comes is the one that is open behind all lexemes.
-/

set_option autoImplicit false

namespace ConfigConstants

namespace DefineCall

namespace Reader

theorem length_unread_next_lt {reader : Reader} {declaration : Declaration}
    (declared : reader.next.declared = some declaration) :
    reader.next.reader.unread.length < reader.unread.length := by
  cases reader with
  | mk call unread =>
      simp only [next] at *
      fun_induction nextFrom call unread with
      | case1 call => contradiction
      | case2 call lexeme later separates ih => exact Nat.lt_succ_of_lt (ih declared)
      | case3 call lexeme later takesPart next declaration result => exact Nat.lt_succ_self _
      | case4 call lexeme later takesPart next broken breaking result answer ih =>
          exact Nat.lt_succ_of_lt (ih declared)
      | case5 call lexeme later takesPart next result ih => exact Nat.lt_succ_of_lt (ih declared)

/-- All declarations that are still to come, asked for one at a time. -/
def drain (reader : Reader) : List Declaration :=
  match _declared : reader.next.declared with
  | none => []
  | some declaration => declaration :: drain reader.next.reader
termination_by reader.unread.length
decreasing_by exact length_unread_next_lt _declared

theorem drain_of_declared {reader : Reader} {declaration : Declaration}
    (declared : reader.next.declared = some declaration) :
    reader.drain = declaration :: reader.next.reader.drain := by
  rw [drain]
  split
  · next ended =>
      rw [declared] at ended
      contradiction
  · next other isOther =>
      rw [declared] at isOther
      cases isOther
      rfl

theorem filterMap_abandoned_nextFrom (call : Option OpenCall) (unread : List LocatedLexeme) :
    (nextFrom call unread).abandoned.filterMap Outcome.declaration? = [] := by
  fun_induction nextFrom call unread with
  | case1 call => rfl
  | case2 call lexeme later separates ih => exact ih
  | case3 call lexeme later takesPart next declaration result => rfl
  | case4 call lexeme later takesPart next broken breaking result answer ih => exact ih
  | case5 call lexeme later takesPart next result ih => exact ih

theorem unread_eq_nil_of_declared_eq_none {reader : Reader} (ended : reader.next.declared = none) :
    reader.next.reader.unread = [] := by
  cases reader with
  | mk call unread =>
      simp only [next] at *
      fun_induction nextFrom call unread with
      | case1 call => rfl
      | case2 call lexeme later separates ih => exact ih ended
      | case3 call lexeme later takesPart next declaration result => contradiction
      | case4 call lexeme later takesPart next broken breaking result answer ih => exact ih ended
      | case5 call lexeme later takesPart next result ih => exact ih ended

theorem outcomes_reader_next {reader : Reader} (ended : reader.next.declared = none) :
    reader.next.reader.outcomes = [] := by
  rw [outcomes, unread_eq_nil_of_declared_eq_none ended, outcomesFrom]

theorem drain_eq_filterMap_outcomes (reader : Reader) :
    reader.drain = reader.outcomes.filterMap Outcome.declaration? := by
  fun_induction drain reader with
  | case1 reader ended =>
      rw [outcomes_eq_next, ended, outcomes_reader_next ended, List.filterMap_append,
        List.filterMap_append]
      simp [next, filterMap_abandoned_nextFrom]
  | case2 reader declaration declared ih =>
      rw [outcomes_eq_next, declared, List.filterMap_append, List.filterMap_append, ih]
      simp [next, filterMap_abandoned_nextFrom, Outcome.declaration?]

/-- The outcomes of one request after the other, in the order in which they are met. -/
def report (reader : Reader) : List Outcome :=
  match _declared : reader.next.declared with
  | none => reader.next.abandoned
  | some declaration =>
      reader.next.abandoned ++ .declared declaration :: report reader.next.reader
termination_by reader.unread.length
decreasing_by exact length_unread_next_lt _declared

/-- The reader that is left when a request yields nothing. -/
def exhausted (reader : Reader) : Reader :=
  match _declared : reader.next.declared with
  | none => reader.next.reader
  | some _ => exhausted reader.next.reader
termination_by reader.unread.length
decreasing_by exact length_unread_next_lt _declared

theorem report_eq_outcomes (reader : Reader) : reader.report = reader.outcomes := by
  fun_induction report reader with
  | case1 reader ended =>
      rw [outcomes_eq_next, ended, outcomes_reader_next ended]
      simp
  | case2 reader declaration declared ih =>
      rw [outcomes_eq_next, declared, ih]
      simp

theorem openAfter_nextFrom (call : Option OpenCall) (unread : List LocatedLexeme) :
    openAfter (nextFrom call unread).reader.call (nextFrom call unread).reader.unread =
      openAfter call unread := by
  fun_induction nextFrom call unread with
  | case1 call => rfl
  | case2 call lexeme later separates ih => rw [ih, openAfter, if_pos separates]
  | case3 call lexeme later takesPart next declaration result =>
      rw [openAfter, if_neg takesPart, result]
  | case4 call lexeme later takesPart next broken breaking result answer ih =>
      rw [openAfter, if_neg takesPart, result]
      exact ih
  | case5 call lexeme later takesPart next result ih =>
      rw [openAfter, if_neg takesPart, result, ih]

theorem call_exhausted (reader : Reader) :
    reader.exhausted.call = openAfter reader.call reader.unread := by
  fun_induction exhausted reader with
  | case1 reader ended =>
      rw [← openAfter_nextFrom]
      change _ = openAfter reader.next.reader.call reader.next.reader.unread
      rw [unread_eq_nil_of_declared_eq_none ended, openAfter]
  | case2 reader declaration declared ih =>
      rw [ih]
      exact openAfter_nextFrom reader.call reader.unread

end Reader

/-- The declarations of the calls that are read from an open call on. -/
def declarationsFrom (call : Option OpenCall) (lexemes : List LocatedLexeme) : List Declaration :=
  (outcomesFrom call lexemes).filterMap Outcome.declaration?

theorem drain_ofLexemes (lexemes : List LocatedLexeme) :
    (Reader.ofLexemes lexemes).drain = declarationsFrom none lexemes :=
  Reader.drain_eq_filterMap_outcomes _

theorem declarationsFrom_append (call : Option OpenCall) (front back : List LocatedLexeme) :
    declarationsFrom call (front ++ back) =
      declarationsFrom call front ++ declarationsFrom (openAfter call front) back := by
  rw [declarationsFrom, outcomesFrom_append, List.filterMap_append]
  rfl

theorem declarationsFrom_cons_of_kind_ne {lexeme : LocatedLexeme}
    (notClosing : lexeme.kind ≠ .closeParenthesis) (call : Option OpenCall)
    (later : List LocatedLexeme) :
    declarationsFrom call (lexeme :: later) =
      declarationsFrom (openAfter call [lexeme]) later := by
  have nothingDeclared := declaration?_read_of_kind_ne notClosing call
  rw [declarationsFrom, outcomesFrom, openAfter, openAfter, openAfter]
  split
  · rfl
  · rw [List.filterMap_append]
    cases ended : (read lexeme call).2 with
    | none => rfl
    | some outcome =>
        rw [ended, Option.bind_some] at nothingDeclared
        simp [declarationsFrom, nothingDeclared]

theorem openAfter_significant (call : Option OpenCall) (lexemes : List LocatedLexeme) :
    openAfter call (significant lexemes) = openAfter call lexemes := by
  induction lexemes generalizing call with
  | nil => rfl
  | cons lexeme later ih =>
      unfold significant at *
      cases separates : lexeme.kind.separates with
      | true => simp [openAfter, separates, ih]
      | false => simp [openAfter, separates, ih]

end DefineCall

end ConfigConstants
