import Mathlib.Data.List.Pairwise
import ConfigConstants.Proofs.Declaration.Started

/-!
What becomes of every define word. The significant lexemes of a run fall into the calls that it
starts, each with the lexemes that fit it, and strays between them, none of which is a define word.
The main statement says that a reader reports what was declared and what was abandoned, in order and
nothing else, that every define word either starts one call or is taken by one for its key or its
value, and that the numbers add up.
-/

set_option autoImplicit false

namespace ConfigConstants

namespace DefineCall

/-- The lexemes from an index on, as a run without an open call divides them. The lexeme that breaks
a call off is divided among what follows. -/
inductive Divides : Nat → List LocatedLexeme → List StartedCall → Prop
  | nothing (index : Nat) : Divides index [] []
  | stray {index : Nat} {lexeme : LocatedLexeme} {later : List LocatedLexeme}
      {calls : List StartedCall} : isDefineWord lexeme.toLexeme = false →
      Divides (index + 1) later calls → Divides index (lexeme :: later) calls
  | declared {index : Nat} {later : List LocatedLexeme} {calls : List StartedCall}
      (complete : Call) : Divides (index + 6) later calls →
      Divides index (complete.lexemes ++ later)
        (⟨index, complete.lexemes, some (.declared complete.declaration)⟩ :: calls)
  | abandoned {index : Nat} {seen : List LocatedLexeme} {call : OpenCall}
      {breaking : LocatedLexeme} {later : List LocatedLexeme} {calls : List StartedCall} :
      HasRead (some call) seen → advance? breaking call = none →
      Divides (index + seen.length) (breaking :: later) calls →
      Divides index (seen ++ breaking :: later)
        (⟨index, seen, some (.abandoned call breaking)⟩ :: calls)
  | unfinished {index : Nat} {seen : List LocatedLexeme} {call : OpenCall} :
      HasRead (some call) seen → Divides index seen [⟨index, seen, none⟩]

/-- What a run from an open call on comes to, by the calls that it starts. -/
structure Accounts (index : Nat) (call : Option OpenCall) (seen later : List LocatedLexeme)
    (calls : List StartedCall) : Prop where
  divides : Divides index (seen ++ later) calls
  outcomes_eq : outcomesFrom call later = calls.filterMap StartedCall.outcome?
  stillOpen : calls.countP (·.outcome?.isNone) = (openAfter call later).isSome.toNat

theorem accounts_begin {index : Nat} {lexeme : LocatedLexeme} {later : List LocatedLexeme}
    (further : ∀ (place : Nat) (call : Option OpenCall) (seen : List LocatedLexeme),
      HasRead call seen → ∃ calls, Accounts place call seen later calls) :
    ∃ calls, Divides index (lexeme :: later) calls ∧
      outcomesFrom (begin? lexeme) later = calls.filterMap StartedCall.outcome? ∧
      calls.countP (·.outcome?.isNone) = (openAfter (begin? lexeme) later).isSome.toNat := by
  unfold begin?
  split
  · next isWord =>
      obtain ⟨calls, accounts⟩ := further index (some .afterWord) [lexeme] ⟨lexeme, isWord, rfl⟩
      exact ⟨calls, accounts.divides, accounts.outcomes_eq, accounts.stillOpen⟩
  · next noWord =>
      obtain ⟨calls, accounts⟩ := further (index + 1) none [] hasRead_none
      exact ⟨calls, .stray (eq_false_of_ne_true noWord) accounts.divides, accounts.outcomes_eq,
        accounts.stillOpen⟩

/-- Every run can be accounted for, whatever call it begins with. -/
theorem exists_accounts {later : List LocatedLexeme}
    (takePart : ∀ lexeme ∈ later, lexeme.kind.separates = false) (index : Nat)
    (call : Option OpenCall) (seen : List LocatedLexeme) (hasRead : HasRead call seen) :
    ∃ calls, Accounts index call seen later calls := by
  -- the lexemes of an open call are divided only when it ends, so they are carried along till then
  induction later generalizing index call seen with
  | nil =>
      cases call with
      | none =>
          have nothingSeen : seen = [] := hasRead
          subst nothingSeen
          exact ⟨[], .nothing index, rfl, rfl⟩
      | some openCall =>
          refine ⟨[⟨index, seen, none⟩], ?_, rfl, rfl⟩
          rw [List.append_nil]
          exact .unfinished hasRead
  | cons lexeme later ih =>
      have further := ih fun other member => takePart other (List.mem_cons_of_mem lexeme member)
      have lexemeTakesPart := takePart lexeme List.mem_cons_self
      cases call with
      | none =>
          have nothingSeen : seen = [] := hasRead
          subst nothingSeen
          obtain ⟨calls, divides, outcomesEq, stillOpen⟩ := accounts_begin further
          refine ⟨calls, divides, ?_, ?_⟩
          · rw [outcomesFrom_cons lexemeTakesPart]
            exact outcomesEq
          · rw [openAfter_cons lexemeTakesPart]
            exact stillOpen
      | some openCall =>
          cases advanced : advance? lexeme openCall with
          | none =>
              -- the lexeme ends one call and is looked at again as the first of the next
              obtain ⟨calls, divides, outcomesEq, stillOpen⟩ := accounts_begin further
              refine ⟨⟨index, seen, some (.abandoned openCall lexeme)⟩ :: calls,
                .abandoned hasRead advanced divides, ?_, ?_⟩
              · rw [outcomesFrom_cons lexemeTakesPart]
                simp only [read, advanced, outcomesEq]
                rfl
              · rw [openAfter_cons lexemeTakesPart]
                simp only [read, advanced, ← stillOpen]
                rfl
          | some progress =>
              cases progress with
              | goesOn longer =>
                  obtain ⟨calls, divides, outcomesEq, stillOpen⟩ :=
                    further index (some longer) _ (hasRead_of_goesOn hasRead advanced)
                  refine ⟨calls, ?_, ?_, ?_⟩
                  · rw [List.append_assoc] at divides
                    exact divides
                  · rw [outcomesFrom_cons lexemeTakesPart]
                    simp only [read, advanced, outcomesEq]
                    rfl
                  · rw [openAfter_cons lexemeTakesPart]
                    simp only [read, advanced, stillOpen]
              | completes declared =>
                  obtain ⟨complete, lexemesEq, rfl⟩ := exists_call_of_completes hasRead advanced
                  obtain ⟨calls, divides, outcomesEq, stillOpen⟩ :=
                    further (index + 6) none [] hasRead_none
                  refine ⟨⟨index, complete.lexemes, some (.declared complete.declaration)⟩ :: calls,
                    ?_, ?_, ?_⟩
                  · have whole : seen ++ lexeme :: later = complete.lexemes ++ later := by
                      rw [lexemesEq, List.append_assoc]
                      rfl
                    rw [whole]
                    exact .declared complete divides
                  · rw [outcomesFrom_cons lexemeTakesPart]
                    simp only [read, advanced, outcomesEq]
                    rfl
                  · rw [openAfter_cons lexemeTakesPart]
                    simp only [read, advanced, ← stillOpen]
                    rfl

/-! ## What a division says of its calls -/

theorem Divides.le_start {index : Nat} {lexemes : List LocatedLexeme} {calls : List StartedCall}
    (divides : Divides index lexemes calls) : ∀ call ∈ calls, index ≤ call.start := by
  induction divides with
  | nothing index => exact List.forall_mem_nil _
  | stray noWord later ih => exact fun call member => Nat.le_of_succ_le (ih call member)
  | declared complete later ih =>
      rw [List.forall_mem_cons]
      exact ⟨Nat.le_refl _, fun call member => Nat.le_trans (Nat.le_add_right _ 6) (ih call member)⟩
  | abandoned hasRead unfit later ih =>
      rw [List.forall_mem_cons]
      exact ⟨Nat.le_refl _, fun call member => Nat.le_trans (Nat.le_add_right _ _) (ih call member)⟩
  | unfinished hasRead => exact List.forall_mem_singleton.mpr (Nat.le_refl _)

theorem Divides.pairwise {index : Nat} {lexemes : List LocatedLexeme} {calls : List StartedCall}
    (divides : Divides index lexemes calls) :
    calls.Pairwise fun earlier later => earlier.finish ≤ later.start := by
  induction divides with
  | nothing index => exact List.Pairwise.nil
  | stray noWord later ih => exact ih
  | declared complete later ih => exact List.Pairwise.cons later.le_start ih
  | abandoned hasRead unfit later ih => exact List.Pairwise.cons later.le_start ih
  | unfinished hasRead => exact List.pairwise_singleton _ _

theorem Divides.standsIn {index : Nat} {lexemes : List LocatedLexeme} {calls : List StartedCall}
    (divides : Divides index lexemes calls) (earlier : List LocatedLexeme)
    (isIndex : earlier.length = index) : ∀ call ∈ calls, call.StandsIn (earlier ++ lexemes) := by
  induction divides generalizing earlier with
  | nothing index => exact List.forall_mem_nil _
  | @stray index lexeme later calls noWord _ ih =>
      have further := ih (earlier ++ [lexeme]) (by rw [List.length_append, isIndex]; rfl)
      rw [List.append_assoc] at further
      exact further
  | @declared index later calls complete _ ih =>
      have further := ih (earlier ++ complete.lexemes) (by rw [List.length_append, isIndex]; rfl)
      rw [List.forall_mem_cons]
      constructor
      · have stands := complete.standsAt_length_append earlier later
        rw [isIndex, List.append_assoc] at stands
        exact .declared complete stands
      · rw [← List.append_assoc]
        exact further
  | @abandoned index seen call breaking later calls hasRead unfit _ ih =>
      have further := ih (earlier ++ seen) (by rw [List.length_append, isIndex])
      obtain ⟨nonempty, isBeginning, _, named⟩ := isBeginning_of_hasRead hasRead
      rw [List.forall_mem_cons]
      constructor
      · apply StartedCall.StandsIn.abandoned nonempty isBeginning _
          (not_isBeginning_of_advance? hasRead unfit) named
        rw [← isIndex, List.drop_left]
        exact ⟨later, List.append_assoc _ _ _⟩
      · rw [← List.append_assoc]
        exact further
  | @unfinished index seen call hasRead =>
      obtain ⟨nonempty, isBeginning, short, _⟩ := isBeginning_of_hasRead hasRead
      rw [List.forall_mem_singleton]
      apply StartedCall.StandsIn.unfinished nonempty isBeginning short
      rw [← isIndex, List.drop_left]

theorem Divides.start_mem {index : Nat} {lexeme : LocatedLexeme} {later : List LocatedLexeme}
    {calls : List StartedCall} (divides : Divides index (lexeme :: later) calls)
    (isWord : isDefineWord lexeme.toLexeme = true) : index ∈ calls.map StartedCall.start := by
  generalize whole : lexeme :: later = lexemes at divides
  cases divides with
  | nothing index => contradiction
  | stray noWord _ =>
      cases whole
      rw [isWord] at noWord
      contradiction
  | declared complete _ => exact List.mem_cons_self
  | abandoned hasRead unfit _ => exact List.mem_cons_self
  | unfinished hasRead => exact List.mem_cons_self

theorem Divides.finish_mem {index : Nat} {lexemes : List LocatedLexeme} {calls : List StartedCall}
    (divides : Divides index lexemes calls) : ∀ call ∈ calls, ∀ openCall breaking,
      call.outcome? = some (.abandoned openCall breaking) →
      isDefineWord breaking.toLexeme = true → call.finish ∈ calls.map StartedCall.start := by
  induction divides with
  | nothing index => exact List.forall_mem_nil _
  | stray noWord _ ih => exact ih
  | declared complete _ ih =>
      rw [List.forall_mem_cons]
      constructor
      · intro openCall breaking isAbandoned
        cases isAbandoned
      · intro call member openCall breaking isAbandoned isWord
        exact List.mem_cons_of_mem _ (ih call member openCall breaking isAbandoned isWord)
  | abandoned hasRead unfit later ih =>
      rw [List.forall_mem_cons]
      constructor
      · intro openCall breaking isAbandoned isWord
        cases isAbandoned
        exact List.mem_cons_of_mem _ (later.start_mem isWord)
      · intro call member openCall breaking isAbandoned isWord
        exact List.mem_cons_of_mem _ (ih call member openCall breaking isAbandoned isWord)
  | unfinished hasRead =>
      rw [List.forall_mem_singleton]
      intro openCall breaking isAbandoned
      cases isAbandoned

/-! ## The role of a word -/

theorem WordRole.At.cons {calls : List StartedCall} {index : Nat} {role : WordRole}
    (isRole : role.At calls index) (call : StartedCall) : role.At (call :: calls) index := by
  cases role with
  | starts other => exact ⟨List.mem_cons_of_mem call isRole.1, isRole.2⟩
  | takenBy other => exact ⟨List.mem_cons_of_mem call isRole.1, isRole.2⟩

theorem exists_role_of_fitting {calls : List StartedCall} {call : StartedCall}
    (member : call ∈ calls) (isBeginning : IsBeginning call.fitting) {index : Nat}
    {word : LocatedLexeme} (atIndex : call.fitting[index]? = some word)
    (isWord : isDefineWord word.toLexeme = true) :
    ∃ role : WordRole, role.At calls (call.start + index) := by
  have within : call.start + index < call.finish :=
    Nat.add_lt_add_left (List.getElem?_eq_some_iff.mp atIndex).1 call.start
  cases index_of_isDefineWord isBeginning atIndex isWord with
  | inl first => exact ⟨.starts call, member, by rw [first, Nat.add_zero]⟩
  | inr argument => exact ⟨.takenBy call, member, within, by omega⟩

theorem Divides.exists_role {first : Nat} {lexemes : List LocatedLexeme}
    {calls : List StartedCall} (divides : Divides first lexemes calls) {index : Nat}
    {word : LocatedLexeme} (atIndex : lexemes[index]? = some word)
    (isWord : isDefineWord word.toLexeme = true) :
    ∃ role : WordRole, role.At calls (first + index) := by
  induction divides generalizing index with
  | nothing first => contradiction
  | @stray first lexeme later calls noWord _ ih =>
      cases index with
      | zero =>
          rw [List.getElem?_cons_zero, Option.some.injEq] at atIndex
          rw [atIndex, isWord] at noWord
          contradiction
      | succ index =>
          obtain ⟨role, isRole⟩ := ih atIndex
          rw [Nat.add_right_comm] at isRole
          exact ⟨role, isRole⟩
  | @declared first later calls complete _ ih =>
      rw [List.getElem?_append] at atIndex
      split at atIndex
      · exact exists_role_of_fitting List.mem_cons_self ⟨complete, List.prefix_refl _⟩ atIndex
          isWord
      · next behind =>
          obtain ⟨role, isRole⟩ := ih atIndex
          rw [complete.length_lexemes] at *
          rw [Nat.add_assoc, Nat.add_sub_of_le (Nat.le_of_not_lt behind)] at isRole
          exact ⟨role, isRole.cons _⟩
  | @abandoned first seen call breaking later calls hasRead unfit _ ih =>
      rw [List.getElem?_append] at atIndex
      split at atIndex
      · exact exists_role_of_fitting List.mem_cons_self (isBeginning_of_hasRead hasRead).2.1
          atIndex isWord
      · next behind =>
          obtain ⟨role, isRole⟩ := ih atIndex
          rw [Nat.add_assoc, Nat.add_sub_of_le (Nat.le_of_not_lt behind)] at isRole
          exact ⟨role, isRole.cons _⟩
  | unfinished hasRead =>
      exact exists_role_of_fitting List.mem_cons_self (isBeginning_of_hasRead hasRead).2.1 atIndex
        isWord

theorem eq_of_spans {calls : List StartedCall}
    (apart : calls.Pairwise fun earlier later => earlier.finish ≤ later.start) {index : Nat}
    {left right : StartedCall} (leftMember : left ∈ calls) (rightMember : right ∈ calls)
    (inLeft : left.Spans index) (inRight : right.Spans index) : left = right := by
  let Agree (left right : StartedCall) : Prop := left.Spans index → right.Spans index → left = right
  have symmetric : Std.Symm Agree :=
    ⟨fun _ _ agree inRight inLeft => (agree inLeft inRight).symm⟩
  have agree : calls.Pairwise Agree := by
    apply apart.imp
    intro earlier later before inEarlier inLater
    exact absurd (Nat.lt_of_lt_of_le inEarlier.2 (Nat.le_trans before inLater.1)) (Nat.lt_irrefl _)
  exact List.Pairwise.forall_of_forall (fun call _ _ _ => rfl) agree leftMember rightMember inLeft
    inRight

theorem WordRole.At.spans {lexemes : List LocatedLexeme} {calls : List StartedCall}
    (stand : ∀ call ∈ calls, call.StandsIn lexemes) {index : Nat} {role : WordRole}
    (isRole : role.At calls index) : role.call ∈ calls ∧ role.call.Spans index := by
  cases role with
  | starts call =>
      obtain ⟨member, rfl⟩ := isRole
      exact ⟨member, Nat.le_refl _, (stand call member).start_lt_finish⟩
  | takenBy call =>
      obtain ⟨member, inCall, place⟩ := isRole
      exact ⟨member, by rw [WordRole.call]; omega, inCall⟩

theorem WordRole.At.unique {lexemes : List LocatedLexeme} {calls : List StartedCall}
    (stand : ∀ call ∈ calls, call.StandsIn lexemes)
    (apart : calls.Pairwise fun earlier later => earlier.finish ≤ later.start) {index : Nat}
    {role other : WordRole} (isRole : role.At calls index) (isOther : other.At calls index) :
    other = role := by
  obtain ⟨member, within⟩ := isRole.spans stand
  obtain ⟨otherMember, otherWithin⟩ := isOther.spans stand
  have same : other.call = role.call := eq_of_spans apart otherMember member otherWithin within
  cases role with
  | starts call =>
      cases other with
      | starts otherCall => exact congrArg WordRole.starts same
      | takenBy otherCall =>
          have sameStart := congrArg StartedCall.start same
          have isStart := isRole.2
          have isArgument := isOther.2.2
          simp only [WordRole.call] at sameStart
          omega
  | takenBy call =>
      cases other with
      | starts otherCall =>
          have sameStart := congrArg StartedCall.start same
          have isStart := isOther.2
          have isArgument := isRole.2.2
          simp only [WordRole.call] at sameStart
          omega
      | takenBy otherCall => exact congrArg WordRole.takenBy same

/-! ## The numbers -/

theorem countP_fitting (call : StartedCall) (nonempty : call.fitting ≠ [])
    (isBeginning : IsBeginning call.fitting) :
    call.fitting.countP (isDefineWord ·.toLexeme) =
      call.arguments.countP (isDefineWord ·.toLexeme) + 1 := by
  obtain ⟨complete, isPrefix⟩ := isBeginning
  have noOpening : isDefineWord complete.opening.toLexeme = false :=
    isDefineWord_of_kind_ne (by simp [complete.isOpening])
  have noComma : isDefineWord complete.comma.toLexeme = false :=
    isDefineWord_of_kind_ne (by simp [complete.isComma])
  have noClosing : isDefineWord complete.closing.toLexeme = false :=
    isDefineWord_of_kind_ne (by simp [complete.isClosing])
  have isTaken := List.prefix_iff_eq_take.mp isPrefix
  have notEmpty : call.fitting.length ≠ 0 := mt List.length_eq_zero_iff.mp nonempty
  unfold StartedCall.arguments
  generalize call.fitting.length = length at isTaken notEmpty
  rw [isTaken]
  match length with
  | 0 => contradiction
  | 1 | 2 | 3 | 4 | 5 | _ + 6 =>
      simp [Call.lexemes, List.countP_cons, complete.isWord, noOpening, noComma, noClosing]

theorem countP_append_calls (call : StartedCall) (nonempty : call.fitting ≠ [])
    (isBeginning : IsBeginning call.fitting) {later : List LocatedLexeme}
    {calls : List StartedCall}
    (counted : later.countP (isDefineWord ·.toLexeme) =
      (calls.flatMap StartedCall.arguments).countP (isDefineWord ·.toLexeme) + calls.length) :
    (call.fitting ++ later).countP (isDefineWord ·.toLexeme) =
      ((call :: calls).flatMap StartedCall.arguments).countP (isDefineWord ·.toLexeme) +
        (call :: calls).length := by
  rw [List.countP_append, counted, countP_fitting call nonempty isBeginning, List.flatMap_cons,
    List.countP_append, List.length_cons]
  omega

theorem Divides.countP {index : Nat} {lexemes : List LocatedLexeme} {calls : List StartedCall}
    (divides : Divides index lexemes calls) :
    lexemes.countP (isDefineWord ·.toLexeme) =
      (calls.flatMap StartedCall.arguments).countP (isDefineWord ·.toLexeme) + calls.length := by
  induction divides with
  | nothing index => rfl
  | stray noWord _ ih => rw [List.countP_cons, noWord, ih, if_neg Bool.false_ne_true, Nat.add_zero]
  | declared complete _ ih =>
      exact countP_append_calls ⟨_, complete.lexemes, _⟩ (List.cons_ne_nil _ _)
        ⟨complete, List.prefix_refl _⟩ ih
  | @abandoned _ seen _ _ _ _ hasRead unfit _ ih =>
      obtain ⟨nonempty, isBeginning, _, _⟩ := isBeginning_of_hasRead hasRead
      exact countP_append_calls ⟨_, seen, _⟩ nonempty isBeginning ih
  | @unfinished index seen _ hasRead =>
      obtain ⟨nonempty, isBeginning, _, _⟩ := isBeginning_of_hasRead hasRead
      rw [List.flatMap_cons, List.flatMap_nil, List.append_nil]
      exact countP_fitting ⟨index, seen, none⟩ nonempty isBeginning

theorem length_eq_length_filterMap_add {α β : Type} (part? : α → Option β) (whole : List α) :
    whole.length =
      (whole.filterMap part?).length + whole.countP fun entry => (part? entry).isNone := by
  rw [List.length_filterMap_eq_countP,
    List.length_eq_countP_add_countP fun entry => (part? entry).isSome]
  congr 2
  funext entry
  cases part? entry <;> rfl

theorem Outcome.isAbandoned_eq :
    isAbandoned = fun outcome : Outcome => outcome.declaration?.isNone := by
  funext outcome
  cases outcome <;> rfl

/-- Every define word that takes part is taken by a call for its key or its value, or it starts a
call, of which one declaration, one abandoned call or nothing but an open end is reported. What is
reported is that and no more, in order. -/
theorem every_define_word_accounted_for (lexemes : List LocatedLexeme) :
    ∃ calls : List StartedCall,
      (Reader.ofLexemes lexemes).report = calls.filterMap StartedCall.outcome? ∧
      (∀ call ∈ calls, call.StandsIn (significant lexemes)) ∧
      (calls.Pairwise fun earlier later => earlier.finish ≤ later.start) ∧
      (∀ (index : Nat) (word : LocatedLexeme), (significant lexemes)[index]? = some word →
        isDefineWord word.toLexeme = true →
        ∃ role : WordRole, role.At calls index ∧
          ∀ other : WordRole, other.At calls index → other = role) ∧
      (∀ call ∈ calls, ∀ openCall breaking,
        call.outcome? = some (.abandoned openCall breaking) →
        isDefineWord breaking.toLexeme = true → ∃ next ∈ calls, next.start = call.finish) ∧
      calls.countP (·.outcome?.isNone) =
        (Reader.ofLexemes lexemes).exhausted.call.isSome.toNat ∧
      (significant lexemes).countP (isDefineWord ·.toLexeme) =
        (calls.flatMap StartedCall.arguments).countP (isDefineWord ·.toLexeme) +
          (Reader.ofLexemes lexemes).drain.length +
          (Reader.ofLexemes lexemes).report.countP Outcome.isAbandoned +
          (Reader.ofLexemes lexemes).exhausted.call.isSome.toNat := by
  have takePart : ∀ lexeme ∈ significant lexemes, lexeme.kind.separates = false :=
    fun _ => separates_of_mem_significant
  obtain ⟨calls, divides, outcomesEq, stillOpen⟩ :=
    exists_accounts takePart 0 none [] hasRead_none
  have stand : ∀ call ∈ calls, call.StandsIn (significant lexemes) := divides.standsIn [] rfl
  have reported : (Reader.ofLexemes lexemes).report = calls.filterMap StartedCall.outcome? := by
    rw [Reader.report_eq_outcomes, ← outcomesEq, outcomesFrom_significant]
    rfl
  have leftOpen : calls.countP (·.outcome?.isNone) =
      (Reader.ofLexemes lexemes).exhausted.call.isSome.toNat := by
    rw [stillOpen, openAfter_significant, Reader.call_exhausted]
    rfl
  refine ⟨calls, reported, stand, divides.pairwise, ?roles, ?restart, leftOpen, ?numbers⟩
  case roles =>
    intro index word atIndex isWord
    obtain ⟨role, isRole⟩ := divides.exists_role atIndex isWord
    rw [Nat.zero_add] at isRole
    exact ⟨role, isRole, fun other isOther => isRole.unique stand divides.pairwise isOther⟩
  case restart =>
    intro call member openCall breaking isAbandoned isWord
    exact List.mem_map.mp (divides.finish_mem call member openCall breaking isAbandoned isWord)
  case numbers =>
    have drained : (Reader.ofLexemes lexemes).drain =
        (Reader.ofLexemes lexemes).report.filterMap Outcome.declaration? := by
      rw [Reader.drain_eq_filterMap_outcomes, Reader.report_eq_outcomes]
    calc (significant lexemes).countP (isDefineWord ·.toLexeme)
      _ = (calls.flatMap StartedCall.arguments).countP (isDefineWord ·.toLexeme) + calls.length :=
          divides.countP
      _ = _ := by
          rw [length_eq_length_filterMap_add StartedCall.outcome? calls, leftOpen, ← reported,
            length_eq_length_filterMap_add Outcome.declaration?, drained, Outcome.isAbandoned_eq]
          simp only [Nat.add_assoc]

end DefineCall

end ConfigConstants
