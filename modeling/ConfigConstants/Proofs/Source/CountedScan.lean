import ConfigConstants.Proofs.Declaration.Windows
import ConfigConstants.Proofs.Lexeme.ByteAgreement
import ConfigConstants.Proofs.Lexeme.Members
import ConfigConstants.Proofs.Literal.Attempts
import ConfigConstants.Proofs.Source.Scan
import ConfigConstants.Proofs.Source.Stripping

/-!
Scanning a source with the counts that stop or wrap around. Lexemes come from the byte reader and
values from the attempts at a literal; where either has no result, the scan has none. The main
statement says that such a scan has nothing to add: it ends as the plain one does, or there is a
line whose digits and points cannot be counted.
-/

set_option autoImplicit false

namespace ConfigConstants

open Numeral (Countable)

namespace Numeral

theorem Countable.of_isInfix {overflow : Overflow} {part text : Text} (isPart : part <:+: text)
    (countable : Countable overflow text) : Countable overflow part := by
  obtain ⟨front, back, rfl⟩ := isPart
  rw [Countable, Text.utf8Length_append, Text.utf8Length_append] at countable
  exact countable.imp_right fun short => by omega

end Numeral

/-- A result that is the plain one, or is missing because something cannot be counted. -/
def Follows {α : Type} (result : Option α) (plain : α) (countable : Prop) : Prop :=
  result = some plain ∨ result = none ∧ ¬ countable

namespace Follows

variable {α : Type} {result : Option α} {plain : α} {countable : Prop}

theorem eq_of_eq_some (follows : Follows result plain countable) {found : α}
    (isFound : result = some found) : found = plain := by
  rcases follows with isPlain | ⟨missing, _⟩
  · exact Option.some.inj (isFound.symm.trans isPlain)
  · rw [missing] at isFound
    contradiction

theorem isSome (follows : Follows result plain countable) (possible : countable) :
    result.isSome = true := by
  rcases follows with isPlain | ⟨_, impossible⟩
  · rw [isPlain]
    rfl
  · exact absurd possible impossible

theorem of_imp {whole : Prop} (follows : Follows result plain countable)
    (part : whole → countable) : Follows result plain whole :=
  follows.imp_right fun missing => ⟨missing.1, fun possible => missing.2 (part possible)⟩

theorem bind {β : Type} (follows : Follows result plain countable) {next : α → Option β}
    {plainNext : β} (nextFollows : Follows (next plain) plainNext countable) :
    Follows (result.bind next) plainNext countable := by
  rcases follows with isPlain | ⟨missing, impossible⟩
  · rw [isPlain]
    exact nextFollows
  · rw [missing]
    exact Or.inr ⟨rfl, impossible⟩

end Follows

theorem follows_read? (overflow : Overflow) (literal : Text) :
    Follows (Scalar.read? overflow literal) (Scalar.ofLiteral literal)
      (Countable overflow literal) := by
  cases read : Scalar.read? overflow literal with
  | some value => exact Or.inl (congrArg some (Scalar.ofLiteral_of_read? read).symm)
  | none =>
      refine Or.inr ⟨rfl, fun countable => ?_⟩
      rw [Scalar.read?_of_countable countable] at read
      contradiction

theorem follows_lexemes? (overflow : Overflow) (line : Nat) (text : Text) :
    Follows (ByteReader.lexemes? overflow line text) (locatedLexemes line text)
      (Countable overflow text) := by
  cases read : ByteReader.lexemes? overflow line text with
  | some found => exact Or.inl (congrArg some (ByteReader.lexemes?_eq_some_iff.mp read).1)
  | none =>
      refine Or.inr ⟨rfl, fun countable => ?_⟩
      rw [ByteReader.lexemes?_of_countable countable] at read
      contradiction

/-! ## Parts of a line -/

theorem SourceLine.strip_isInfix (line : Text) : strip line <:+: line := by
  have behindTag : dropOpenTag (Text.trim line) <:+: line :=
    (dropOpenTag_isSuffix _).isInfix.trans (Text.trim_isInfix line)
  have beforeTag : dropCloseTag (dropOpenTag (Text.trim line)) <:+: line :=
    (dropCloseTag_isPrefix _).isInfix.trans behindTag
  exact (Text.trim_isInfix _).trans beforeTag

theorem SourceLine.ofText_cases (line : Text) :
    ofText line = .constant (strip line) ∨ ofText line = .calls (strip line) ∨
      ofText line = .nothing := by
  rw [ofText, ofStripped]
  split
  · exact Or.inl rfl
  split
  · exact Or.inr (Or.inl rfl)
  · exact Or.inr (Or.inr rfl)

theorem ConstLine.literal_isInfix {line : Nat} {text : Text} {declaration : Declaration}
    (isRead : read line text = .ok declaration) : declaration.literal <:+: text := by
  unfold read at isRead
  cases found : splitAtEquals? text with
  | none => simp [found] at isRead
  | some parts =>
      obtain ⟨before, behind⟩ := parts
      obtain ⟨rfl, _⟩ := Text.splitAtFirst?_eq_some_iff.mp (Option.filter_eq_some_iff.mp found).1
      cases atSemicolon : Text.splitAtLast? ';' behind with
      | none => simp [found, atSemicolon] at isRead
      | some parts =>
          obtain ⟨literal, rest⟩ := parts
          obtain ⟨rfl, _⟩ := Text.splitAtLast?_eq_some_iff.mp atSemicolon
          cases isName : name? before with
          | none => simp [found, atSemicolon, isName] at isRead
          | some name =>
              simp only [found, atSemicolon, isName, Except.ok.injEq] at isRead
              subst isRead
              apply (Text.trim_isInfix literal).trans
              exact ⟨before ++ ['='], ';' :: rest, by simp⟩

theorem DefineCall.literal_isInfix {line : Nat} {text : Text} {declaration : Declaration}
    (isDeclared : declaration ∈ (Reader.ofLexemes (locatedLexemes line text)).drain) :
    declaration.literal <:+: text := by
  obtain ⟨calls, drained, within⟩ := exists_calls_drain (locatedLexemes line text)
  rw [drained] at isDeclared
  obtain ⟨call, isCall, rfl⟩ := List.mem_map.mp isDeclared
  have valueWithin := within call isCall call.value (by simp [Call.lexemes])
  exact text_isInfix_of_mem_lexemes (Lexeme.toLexeme_mem_of_mem_locate valueWithin)

theorem SourceComment.visible?_isInfix {hidden : Bool} {line visible : Text}
    (isVisible : visible? hidden line = some visible) : visible <:+: line := by
  unfold visible? at isVisible
  split at isVisible
  · obtain ⟨parts, found, rfl⟩ := Option.map_eq_some_iff.mp isVisible
    exact ⟨parts.1, [], by rw [List.append_nil]; exact Lexeme.throughCommentEnd?_append found⟩
  · cases isVisible
    exact List.infix_refl line

/-! ## Scans that count -/

namespace Scan

def insert? (overflow : Overflow) (scan : Scan) (declaration : Declaration) : Option Scan := do
  let value ← Scalar.read? overflow declaration.literal
  return { scan with
    constants := scan.constants.insert declaration.name value
    log := scan.log ++ [.extracted declaration] }

def readCalls? (overflow : Overflow) (scan : Scan) (reader : DefineCall.Reader) : Option Scan :=
  match _declared : reader.next.declared with
  | none => some ((reader.next.abandoned.map Event.ofOutcome).foldl report scan)
  | some declaration => do
      let inserted ← insert? overflow
        ((reader.next.abandoned.map Event.ofOutcome).foldl report scan) declaration
      readCalls? overflow inserted reader.next.reader
termination_by reader.unread.length
decreasing_by exact DefineCall.Reader.length_unread_next_lt _declared

def readVisible? (overflow : Overflow) (scan : Scan) (visible : Text) : Option Scan :=
  match SourceLine.ofText visible with
  | .constant text =>
      match ConstLine.read (scan.linesRead + 1) text with
      | .ok declaration => scan.insert? overflow declaration
      | .error malformed => some (scan.report (.skippedConst malformed))
  | .calls text => do
      let found ← ByteReader.lexemes? overflow (scan.linesRead + 1) text
      scan.readCalls? overflow (.ofLexemes found)
  | .nothing => some scan

/-- Whether a visible text ends inside a block comment; it is cut into lexemes only if it holds a
comment's start. -/
def endsInComment? (overflow : Overflow) (line : Nat) (visible : Text) : Option Bool :=
  if Text.occursIn SourceComment.commentStart visible then do
    let found ← ByteReader.lexemes? overflow line visible
    return found.getLast?.any fun lexeme => lexeme.kind == .blockComment false
  else some false

def readLine? (overflow : Overflow) (scan : Scan) (line : Text) : Option Scan :=
  match SourceComment.visible? scan.hidden line with
  | none => some { scan with linesRead := scan.linesRead + 1 }
  | some visible => do
      let next ← scan.readVisible? overflow visible
      let hidden ← endsInComment? overflow (scan.linesRead + 1) visible
      return { next with hidden, linesRead := scan.linesRead + 1 }

def ofSource? (overflow : Overflow) (source : Text) : Option Scan :=
  (Text.lines (Source.dropByteOrderMark source)).foldlM (readLine? overflow) start

variable (overflow : Overflow) (scan : Scan)

theorem follows_insert? (declaration : Declaration) :
    Follows (scan.insert? overflow declaration) (scan.insert declaration)
      (Countable overflow declaration.literal) :=
  (follows_read? overflow declaration.literal).bind (Or.inl rfl)

theorem readCalls?_of_ended {reader : DefineCall.Reader} (ended : reader.next.declared = none) :
    scan.readCalls? overflow reader =
      some ((reader.next.abandoned.map Event.ofOutcome).foldl report scan) := by
  rw [readCalls?]
  split
  · rfl
  · next declared =>
      rw [ended] at declared
      contradiction

theorem readCalls?_of_declared {reader : DefineCall.Reader} {declaration : Declaration}
    (declared : reader.next.declared = some declaration) :
    scan.readCalls? overflow reader =
      (insert? overflow ((reader.next.abandoned.map Event.ofOutcome).foldl report scan)
        declaration).bind fun inserted => inserted.readCalls? overflow reader.next.reader := by
  rw [readCalls?]
  split
  · next ended =>
      rw [declared] at ended
      contradiction
  · next other isOther =>
      rw [declared] at isOther
      cases isOther
      rfl

theorem follows_readCalls? (reader : DefineCall.Reader) :
    Follows (scan.readCalls? overflow reader) (scan.readCalls reader)
      (∀ declaration ∈ reader.drain, Countable overflow declaration.literal) := by
  fun_induction readCalls scan reader with
  | case1 scan reader ended =>
      rw [readCalls?_of_ended overflow scan ended]
      exact Or.inl rfl
  | case2 scan reader declaration declared ih =>
      rw [readCalls?_of_declared overflow scan declared,
        DefineCall.Reader.drain_of_declared declared]
      apply Follows.bind
      · apply (follows_insert? overflow _ declaration).of_imp
        exact fun all => all declaration List.mem_cons_self
      · exact ih.of_imp fun all other member => all other (List.mem_cons_of_mem _ member)

theorem follows_readVisible? (visible : Text) :
    Follows (scan.readVisible? overflow visible) (scan.readVisible visible)
      (Countable overflow visible) := by
  have ofPart {part : Text} (isPart : part <:+: SourceLine.strip visible)
      (countable : Countable overflow visible) : Countable overflow part :=
    countable.of_isInfix (isPart.trans (SourceLine.strip_isInfix visible))
  rw [readVisible?, readVisible]
  rcases SourceLine.ofText_cases visible with isConstant | areCalls | isNothing
  · rw [isConstant]
    cases isRead : ConstLine.read (scan.linesRead + 1) (SourceLine.strip visible) with
    | ok declaration =>
        simp only [isRead]
        apply (follows_insert? overflow scan declaration).of_imp
        exact ofPart (ConstLine.literal_isInfix isRead)
    | error malformed =>
        simp only [isRead]
        exact Or.inl rfl
  · rw [areCalls]
    apply Follows.bind
    · exact (follows_lexemes? overflow _ _).of_imp (ofPart (List.infix_refl _))
    · apply (follows_readCalls? overflow scan _).of_imp
      exact fun countable declaration isDeclared =>
        ofPart (DefineCall.literal_isInfix isDeclared) countable
  · rw [isNothing]
    exact Or.inl rfl

theorem follows_endsInComment? (line : Nat) (visible : Text) :
    Follows (endsInComment? overflow line visible) (SourceComment.endsInComment visible)
      (Countable overflow visible) := by
  have lastKind : (locatedLexemes line visible).getLast?.any
        (fun lexeme => lexeme.kind == .blockComment false) =
      (lexemes visible).getLast?.any fun lexeme => lexeme.kind == .blockComment false := by
    rw [← Lexeme.map_toLexeme_locate line 1 (lexemes visible), List.getLast?_map,
      Option.any_map]
    rfl
  rw [endsInComment?, SourceComment.endsInComment]
  cases Text.occursIn SourceComment.commentStart visible with
  | false => exact Or.inl rfl
  | true =>
      apply (follows_lexemes? overflow line visible).bind
      exact Or.inl (congrArg some lastKind)

theorem follows_readLine? (line : Text) :
    Follows (scan.readLine? overflow line) (scan.readLine line) (Countable overflow line) := by
  unfold readLine? readLine
  cases isVisible : SourceComment.visible? scan.hidden line with
  | none => exact Or.inl rfl
  | some visible =>
      have visibleCountable (countable : Countable overflow line) : Countable overflow visible :=
        countable.of_isInfix (SourceComment.visible?_isInfix isVisible)
      apply ((follows_readVisible? overflow scan visible).of_imp visibleCountable).bind
      apply ((follows_endsInComment? overflow _ visible).of_imp visibleCountable).bind
      exact Or.inl rfl

theorem follows_foldlM_readLine? (lines : List Text) :
    Follows (lines.foldlM (readLine? overflow) scan) (lines.foldl readLine scan)
      (∀ line ∈ lines, Countable overflow line) := by
  induction lines generalizing scan with
  | nil => exact Or.inl rfl
  | cons line later ih =>
      rw [List.foldlM_cons, List.foldl_cons]
      apply Follows.bind
      · exact (follows_readLine? overflow scan line).of_imp fun all => all line List.mem_cons_self
      · exact (ih _).of_imp fun all other member => all other (List.mem_cons_of_mem _ member)

/-- A scan that counts ends as the plain one does, unless there is a line that cannot be counted. -/
theorem follows_ofSource? (source : Text) :
    Follows (ofSource? overflow source) (ofSource source)
      (∀ line ∈ Text.lines (Source.dropByteOrderMark source), Countable overflow line) :=
  follows_foldlM_readLine? overflow start _

end Scan

end ConfigConstants
