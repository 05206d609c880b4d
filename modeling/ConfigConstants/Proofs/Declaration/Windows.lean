import ConfigConstants.Proofs.Declaration.Drain

/-!
Which calls a run declares. A call stands at an index of a list when its six lexemes are next to
each other from there on. Declarations come from disjoint calls that stand in the list of
significant lexemes. A call that stands there is passed over only when its word is taken for the key
or the value of a call before it, and that call is then abandoned at the opening parenthesis.
-/

set_option autoImplicit false

namespace ConfigConstants

namespace DefineCall

namespace Call

def StandsAt (call : Call) (lexemes : List LocatedLexeme) (start : Nat) : Prop :=
  call.lexemes <+: lexemes.drop start

theorem length_lexemes (call : Call) : call.lexemes.length = 6 :=
  rfl

theorem standsAt_length_append (call : Call) (front back : List LocatedLexeme) :
    call.StandsAt (front ++ call.lexemes ++ back) front.length := by
  unfold StandsAt
  rw [List.append_assoc, List.drop_left]
  exact List.prefix_append call.lexemes back

theorem eq_append_of_standsAt {call : Call} {lexemes : List LocatedLexeme} {start : Nat}
    (stands : call.StandsAt lexemes start) :
    ∃ back, lexemes = lexemes.take start ++ call.lexemes ++ back ∧
      (lexemes.take start).length = start := by
  cases stands with
  | intro back behind =>
      have length := congrArg List.length behind
      rw [List.length_append, length_lexemes, List.length_drop] at length
      apply Exists.intro back
      constructor
      · rw [List.append_assoc, behind, List.take_append_drop]
      · rw [List.length_take]
        omega

theorem eq_of_standsAt {left right : Call} {lexemes : List LocatedLexeme} {start : Nat}
    (leftStands : left.StandsAt lexemes start) (rightStands : right.StandsAt lexemes start) :
    left = right := by
  have within : left.lexemes <+: right.lexemes :=
    List.prefix_of_prefix_length_le leftStands rightStands (Nat.le_of_eq rfl)
  exact eq_of_lexemes_eq (List.IsPrefix.eq_of_length within rfl)

end Call

/-- The declarations of a run, each with the index of the lexeme that closed its call. -/
def closedFrom : Nat → Option OpenCall → List LocatedLexeme → List (Nat × Declaration)
  | _, _, [] => []
  | index, call, lexeme :: later =>
      (((read lexeme call).2.bind Outcome.declaration?).map (Prod.mk index)).toList ++
        closedFrom (index + 1) (read lexeme call).1 later

theorem map_snd_closedFrom (index : Nat) (call : Option OpenCall) {lexemes : List LocatedLexeme}
    (takePart : ∀ lexeme ∈ lexemes, lexeme.kind.separates = false) :
    (closedFrom index call lexemes).map Prod.snd =
      (outcomesFrom call lexemes).filterMap Outcome.declaration? := by
  induction lexemes generalizing index call with
  | nil => rfl
  | cons lexeme later ih =>
      have laterTakePart := fun other member => takePart other (List.mem_cons_of_mem lexeme member)
      rw [outcomesFrom_cons (takePart lexeme List.mem_cons_self), closedFrom, List.map_append,
        List.filterMap_append, ih _ _ laterTakePart]
      cases read lexeme call with
      | mk next outcome =>
          cases outcome with
          | none => rfl
          | some ended => cases ended with
            | declared declaration => rfl
            | abandoned broken breaking => rfl

theorem closedFrom_append (index : Nat) (call : Option OpenCall) {front : List LocatedLexeme}
    (takePart : ∀ lexeme ∈ front, lexeme.kind.separates = false) (back : List LocatedLexeme) :
    closedFrom index call (front ++ back) =
      closedFrom index call front ++
        closedFrom (index + front.length) (openAfter call front) back := by
  induction front generalizing index call with
  | nil => rfl
  | cons lexeme later ih =>
      have laterTakePart := fun other member => takePart other (List.mem_cons_of_mem lexeme member)
      rw [List.cons_append, closedFrom, closedFrom, ih _ _ laterTakePart,
        openAfter_cons (takePart lexeme List.mem_cons_self), List.append_assoc, List.length_cons,
        Nat.add_right_comm, Nat.add_assoc]

/-- The lexeme counted by an entry closes a call that stands in the list and makes the entry's
declaration. Calls begin behind all lexemes that no open call has read. -/
theorem exists_standsAt_of_mem_closedFrom (earlier : List LocatedLexeme)
    {call : Option OpenCall} {seen later : List LocatedLexeme} (hasRead : HasRead call seen)
    {entry : Nat × Declaration}
    (member : entry ∈ closedFrom (earlier.length + seen.length) call later) :
    ∃ (start : Nat) (complete : Call), earlier.length ≤ start ∧
      complete.StandsAt (earlier ++ seen ++ later) start ∧
        entry = (start + 5, complete.declaration) := by
  induction later generalizing call earlier seen with
  | nil => contradiction
  | cons lexeme later ih =>
      obtain ⟨dropped, fresh, split, freshRead, ending⟩ := read_spec hasRead lexeme
      have whole : earlier ++ seen ++ lexeme :: later = earlier ++ dropped ++ fresh ++ later := by
        rw [List.append_assoc earlier dropped, ← split]
        simp
      have sameLength := congrArg List.length split
      simp only [List.length_append, List.length_cons, List.length_nil] at sameLength
      rw [closedFrom, List.mem_append] at member
      cases member with
      | inl here =>
          cases ending with
          | inl silent =>
              rw [silent] at here
              contradiction
          | inr completed =>
              obtain ⟨complete, rfl, rfl, declared⟩ := completed
              have length : seen.length = 5 := by
                rw [complete.length_lexemes, List.length_nil] at sameLength
                omega
              have entryEq : entry = (earlier.length + 5, complete.declaration) := by
                rw [declared, length] at here
                exact List.mem_singleton.mp here
              apply Exists.intro earlier.length
              apply Exists.intro complete
              rw [whole, List.append_nil]
              exact ⟨Nat.le_refl _, complete.standsAt_length_append earlier later, entryEq⟩
      | inr further =>
          -- what the step drops joins the earlier lexemes, so the index stays where it was
          have shifted : earlier.length + seen.length + 1 =
              (earlier ++ dropped).length + fresh.length := by
            rw [List.length_append]
            omega
          rw [shifted] at further
          obtain ⟨start, complete, behind, stands, entryEq⟩ :=
            ih (earlier ++ dropped) freshRead further
          apply Exists.intro start
          apply Exists.intro complete
          rw [whole]
          rw [List.length_append] at behind
          exact ⟨by omega, stands, entryEq⟩

theorem pairwise_closedFrom (earlier : List LocatedLexeme) {call : Option OpenCall}
    {seen : List LocatedLexeme} (hasRead : HasRead call seen) (later : List LocatedLexeme) :
    (closedFrom (earlier.length + seen.length) call later).Pairwise
      fun left right => left.1 + 6 ≤ right.1 := by
  induction later generalizing call earlier seen with
  | nil => exact List.Pairwise.nil
  | cons lexeme later ih =>
      obtain ⟨dropped, fresh, split, freshRead, ending⟩ := read_spec hasRead lexeme
      have sameLength := congrArg List.length split
      simp only [List.length_append, List.length_cons, List.length_nil] at sameLength
      have shifted : earlier.length + seen.length + 1 =
          (earlier ++ dropped).length + fresh.length := by
        rw [List.length_append]
        omega
      have furtherPairwise := ih (earlier ++ dropped) freshRead
      rw [closedFrom, shifted]
      cases ending with
      | inl silent =>
          rw [silent]
          exact furtherPairwise
      | inr completed =>
          obtain ⟨complete, rfl, rfl, declared⟩ := completed
          rw [declared]
          apply List.Pairwise.cons _ furtherPairwise
          intro entry further
          obtain ⟨start, other, behind, _, rfl⟩ :=
            exists_standsAt_of_mem_closedFrom _ freshRead further
          rw [List.length_append, complete.length_lexemes] at behind
          rw [complete.length_lexemes, List.length_nil] at sameLength
          change earlier.length + seen.length + 6 ≤ start + 5
          omega

/-- The open call takes a word for its key or its value. -/
def TakesWord : Option OpenCall → Prop
  | some .afterParenthesis => True
  | some (.afterComma _) => True
  | _ => False

theorem exists_getLast?_of_hasRead {call : Option OpenCall} {front seen : List LocatedLexeme}
    (takesWord : TakesWord call) (hasRead : HasRead call seen) :
    ∃ before, (front ++ seen).getLast? = some before ∧
      (before.kind = .openParenthesis ∨ before.kind = .comma) := by
  cases call with
  | none => contradiction
  | some openCall =>
      cases openCall with
      | afterWord => contradiction
      | afterParenthesis =>
          obtain ⟨word, opening, _, isOpening, rfl⟩ := hasRead
          exact ⟨opening, by simp, Or.inl isOpening⟩
      | afterKey key => contradiction
      | afterComma key =>
          obtain ⟨word, opening, comma, _, _, _, isComma, rfl⟩ := hasRead
          exact ⟨comma, by simp, Or.inr isComma⟩
      | afterValue key value => contradiction

theorem exists_getLast?_of_takesWord {front : List LocatedLexeme}
    (takePart : ∀ lexeme ∈ front, lexeme.kind.separates = false)
    (takesWord : TakesWord (openAfter none front)) :
    ∃ before, front.getLast? = some before ∧
      (before.kind = .openParenthesis ∨ before.kind = .comma) := by
  obtain ⟨dropped, fresh, split, freshRead⟩ := exists_hasRead_openAfter hasRead_none front
  have frontTakesPart : significant front = front := by
    apply List.filter_eq_self.mpr
    intro lexeme member
    rw [takePart lexeme member]
    rfl
  rw [List.nil_append, frontTakesPart] at split
  rw [split]
  exact exists_getLast?_of_hasRead takesWord freshRead

theorem kind_of_isDefineWord {lexeme : Lexeme} (isWord : isDefineWord lexeme = true) :
    lexeme.kind = .word := by
  unfold isDefineWord at isWord
  rw [Bool.and_eq_true] at isWord
  exact eq_of_beq isWord.1

theorem read_word {word : LocatedLexeme} (isWord : isDefineWord word.toLexeme = true)
    {call : Option OpenCall} (free : ¬TakesWord call) :
    (read word call).1 = some .afterWord ∧
      (read word call).2.bind Outcome.declaration? = none := by
  have isWordKind := kind_of_isDefineWord isWord
  cases call with
  | none => simp [read, begin?, isWord]
  | some openCall =>
      cases openCall with
      | afterWord => simp [read, advance?, isWordKind, begin?, isWord, Outcome.declaration?]
      | afterParenthesis => exact absurd trivial free
      | afterKey key => simp [read, advance?, isWordKind, begin?, isWord, Outcome.declaration?]
      | afterComma key => exact absurd trivial free
      | afterValue key value =>
          simp [read, advance?, isWordKind, begin?, isWord, Outcome.declaration?]

theorem closedFrom_call (complete : Call) {call : Option OpenCall} (free : ¬TakesWord call)
    (index : Nat) (later : List LocatedLexeme) :
    closedFrom index call (complete.lexemes ++ later) =
      (index + 5, complete.declaration) :: closedFrom (index + 6) none later := by
  have opened := read_word complete.isWord free
  unfold Call.lexemes
  rw [List.cons_append, closedFrom, opened.1, opened.2]
  simp [closedFrom, read, advance?, complete.isOpening, complete.isKey, complete.isComma,
    complete.isValue, complete.isClosing, Outcome.declaration?, Call.declaration, declaration]

/-- A word that is taken costs the call that took it: the parenthesis behind the word breaks it. -/
theorem abandoned_mem_of_takesWord (complete : Call) {call : Option OpenCall}
    (takesWord : TakesWord call) (later : List LocatedLexeme) :
    ∃ broken, Outcome.abandoned broken complete.opening ∈
        outcomesFrom call (complete.lexemes ++ later) ∧
      (broken = .afterKey complete.word ∨ ∃ key, broken = .afterValue key complete.word) := by
  have wordKind := kind_of_isDefineWord complete.isWord
  have wordTakesPart : complete.word.kind.separates = false := by rw [wordKind]; rfl
  have openingTakesPart : complete.opening.kind.separates = false := by
    rw [complete.isOpening]
    rfl
  have isArgument : complete.word.kind.isArgument = true := by rw [wordKind]; rfl
  unfold Call.lexemes
  rw [List.cons_append, List.cons_append, outcomesFrom_cons wordTakesPart,
    outcomesFrom_cons openingTakesPart]
  cases call with
  | none => contradiction
  | some openCall =>
      cases openCall with
      | afterWord => contradiction
      | afterParenthesis =>
          apply Exists.intro (OpenCall.afterKey complete.word)
          simp [read, advance?, isArgument, complete.isOpening]
      | afterKey key => contradiction
      | afterComma key =>
          apply Exists.intro (OpenCall.afterValue key complete.word)
          simp [read, advance?, isArgument, complete.isOpening]
      | afterValue key value => contradiction

/-- The entry of a call that stands at an index: it is counted at the lexeme that closes it. -/
def closedEntry (placed : Nat × Call) : Nat × Declaration :=
  (placed.1 + 5, placed.2.declaration)

theorem exists_placed {lexemes : List LocatedLexeme} {entries : List (Nat × Declaration)}
    (stand : ∀ entry ∈ entries, ∃ placed : Nat × Call,
      placed.2.StandsAt lexemes placed.1 ∧ entry = closedEntry placed) :
    ∃ placed : List (Nat × Call), entries = placed.map closedEntry ∧
      ∀ call ∈ placed, call.2.StandsAt lexemes call.1 := by
  induction entries with
  | nil => exact ⟨[], rfl, by intro call member; contradiction⟩
  | cons entry others ih =>
      obtain ⟨first, firstStands, rfl⟩ := stand entry List.mem_cons_self
      obtain ⟨placed, rfl, placedStand⟩ :=
        ih fun other member => stand other (List.mem_cons_of_mem _ member)
      exact ⟨first :: placed, rfl, List.forall_mem_cons.mpr ⟨firstStands, placedStand⟩⟩

/-- A standing call is among the entries of a run unless an open call takes its word. -/
theorem mem_closedFrom_or_takesWord {lexemes : List LocatedLexeme}
    (takePart : ∀ lexeme ∈ lexemes, lexeme.kind.separates = false) {start : Nat}
    {complete : Call} (stands : complete.StandsAt lexemes start) :
    (start + 5, complete.declaration) ∈ closedFrom 0 none lexemes ∨
      TakesWord (openAfter none (lexemes.take start)) := by
  obtain ⟨back, whole, length⟩ := Call.eq_append_of_standsAt stands
  have frontTakesPart : ∀ lexeme ∈ lexemes.take start, lexeme.kind.separates = false :=
    fun lexeme member => takePart lexeme (List.mem_of_mem_take member)
  by_cases takesWord : TakesWord (openAfter none (lexemes.take start))
  · exact Or.inr takesWord
  · left
    rw [whole, List.append_assoc, closedFrom_append 0 none frontTakesPart,
      closedFrom_call complete takesWord, length, Nat.zero_add]
    exact List.mem_append_right _ List.mem_cons_self

theorem mem_placed {lexemes : List LocatedLexeme} {placed : List (Nat × Call)}
    (stand : ∀ call ∈ placed, call.2.StandsAt lexemes call.1) {start : Nat} {complete : Call}
    (stands : complete.StandsAt lexemes start)
    (isEntry : (start + 5, complete.declaration) ∈ placed.map closedEntry) :
    (start, complete) ∈ placed := by
  obtain ⟨other, otherMember, same⟩ := List.mem_map.mp isEntry
  have sameStart : other.1 = start := Nat.add_right_cancel (congrArg Prod.fst same)
  have otherStands := stand other otherMember
  rw [sameStart] at otherStands
  have sameCall : other.2 = complete := Call.eq_of_standsAt otherStands stands
  rw [← sameStart, ← sameCall]
  exact otherMember

theorem exists_placed_closedFrom (lexemes : List LocatedLexeme) :
    ∃ placed : List (Nat × Call), closedFrom 0 none lexemes = placed.map closedEntry ∧
      ∀ call ∈ placed, call.2.StandsAt lexemes call.1 := by
  apply exists_placed
  intro entry member
  obtain ⟨start, complete, _, stands, entryEq⟩ :=
    exists_standsAt_of_mem_closedFrom [] hasRead_none member
  exact ⟨(start, complete), stands, entryEq⟩

theorem exists_calls_drain (lexemes : List LocatedLexeme) :
    ∃ calls : List Call, (Reader.ofLexemes lexemes).drain = calls.map Call.declaration ∧
      ∀ call ∈ calls, ∀ lexeme ∈ call.lexemes, lexeme ∈ lexemes := by
  have takePart : ∀ lexeme ∈ significant lexemes, lexeme.kind.separates = false :=
    fun lexeme member => separates_of_mem_significant member
  obtain ⟨placed, entriesEq, stand⟩ := exists_placed_closedFrom (significant lexemes)
  refine ⟨placed.map Prod.snd, ?_, ?_⟩
  · rw [drain_ofLexemes, declarationsFrom, ← outcomesFrom_significant,
      ← map_snd_closedFrom 0 none takePart, entriesEq, List.map_map, List.map_map]
    rfl
  · intro call isCall lexeme inCall
    obtain ⟨entry, isEntry, rfl⟩ := List.mem_map.mp isCall
    have isSignificant : lexeme ∈ significant lexemes :=
      List.mem_of_mem_drop ((stand entry isEntry).subset inCall)
    exact (List.mem_filter.mp isSignificant).1

/-- Asking for declarations until there are none yields exactly the calls that stand among the
significant lexemes, each once and in order, save for those whose word another call has taken. -/
theorem exists_placed_drain (lexemes : List LocatedLexeme) :
    ∃ placed : List (Nat × Call),
      (Reader.ofLexemes lexemes).drain = placed.map (fun entry => entry.2.declaration) ∧
      (∀ entry ∈ placed, entry.2.StandsAt (significant lexemes) entry.1) ∧
      (placed.Pairwise fun left right => left.1 + 6 ≤ right.1) ∧
      (∀ (start : Nat) (complete : Call), complete.StandsAt (significant lexemes) start →
        (∀ before ∈ ((significant lexemes).take start).getLast?,
          before.kind ≠ .openParenthesis ∧ before.kind ≠ .comma) →
        (start, complete) ∈ placed) ∧
      ∀ (start : Nat) (complete : Call), complete.StandsAt (significant lexemes) start →
        (start, complete) ∉ placed →
        ∃ broken, Outcome.abandoned broken complete.opening ∈ outcomes lexemes ∧
          (broken = .afterKey complete.word ∨ ∃ key, broken = .afterValue key complete.word) := by
  have takePart : ∀ lexeme ∈ significant lexemes, lexeme.kind.separates = false :=
    fun lexeme member => separates_of_mem_significant member
  obtain ⟨placed, entriesEq, stand⟩ := exists_placed_closedFrom (significant lexemes)
  apply Exists.intro placed
  refine ⟨?declarations, stand, ?disjoint, ?complete, ?taken⟩
  case declarations =>
    rw [Reader.drain_eq_filterMap_outcomes]
    change (outcomesFrom none lexemes).filterMap Outcome.declaration? = _
    rw [← outcomesFrom_significant, ← map_snd_closedFrom 0 none takePart, entriesEq, List.map_map]
    rfl
  case disjoint =>
    have apart : (closedFrom 0 none (significant lexemes)).Pairwise
        fun left right => left.1 + 6 ≤ right.1 :=
      pairwise_closedFrom [] hasRead_none (significant lexemes)
    rw [entriesEq, List.pairwise_map] at apart
    -- entries count from the lexeme that closes a call, five behind the one that begins it
    apply apart.imp
    intro left right before
    change left.1 + 5 + 6 ≤ right.1 + 5 at before
    omega
  case complete =>
    intro start complete stands unclaimed
    cases mem_closedFrom_or_takesWord takePart stands with
    | inl member => exact mem_placed stand stands (entriesEq ▸ member)
    | inr takesWord =>
        obtain ⟨before, last, kind⟩ := exists_getLast?_of_takesWord
          (fun lexeme member => takePart lexeme (List.mem_of_mem_take member)) takesWord
        have neither := unclaimed before last
        cases kind with
        | inl isOpening => exact absurd isOpening neither.1
        | inr isComma => exact absurd isComma neither.2
  case taken =>
    intro start complete stands missing
    cases mem_closedFrom_or_takesWord takePart stands with
    | inl member => exact absurd (mem_placed stand stands (entriesEq ▸ member)) missing
    | inr takesWord =>
        obtain ⟨back, whole, _⟩ := Call.eq_append_of_standsAt stands
        obtain ⟨broken, member, taken⟩ := abandoned_mem_of_takesWord complete takesWord back
        apply Exists.intro broken
        constructor
        · unfold outcomes
          rw [← outcomesFrom_significant, whole, List.append_assoc, outcomesFrom_append]
          exact List.mem_append_right _ member
        · exact taken

end DefineCall

end ConfigConstants
