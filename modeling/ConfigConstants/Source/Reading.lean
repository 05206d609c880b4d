import ConfigConstants.NameMap
import ConfigConstants.Scalar
import ConfigConstants.Source.Line
import ConfigConstants.Text.Lines

/-!
Reading the constants of a source text. The text is read line by line into events, and the constants
are what the events take over, in their order: a map from names to values, where a declaration
replaces an earlier one of the same name. Between lines nothing is remembered but whether a block
comment is open.
-/

set_option autoImplicit false

namespace ConfigConstants

abbrev Constants := NameMap Scalar

namespace Constants

def declare (constants : Constants) (declaration : Declaration) : Constants :=
  constants.insert declaration.name (Scalar.ofLiteral declaration.literal)

/-- The constants after further declarations, the last of each name winning. -/
def declareAll (constants : Constants) (declarations : List Declaration) : Constants :=
  declarations.foldl declare constants

def ofDeclarations (declarations : List Declaration) : Constants :=
  declareAll NameMap.empty declarations

def equal (left right : Constants) : Bool :=
  left.equalBy Scalar.equal right

theorem get?_declare (constants : Constants) (declaration : Declaration) (name : Text) :
    (constants.declare declaration).get? name =
      if declaration.name = name then some (Scalar.ofLiteral declaration.literal)
      else constants.get? name :=
  NameMap.get?_insert _ _ _ _

end Constants

inductive Event where
  | abandonedCall (call : DefineCall.OpenCall) (breaking : LocatedLexeme)
  | extracted (declaration : Declaration)
  | skippedConst (error : MalformedConst)
  | loaded (path : Text) (count : Nat)
  deriving DecidableEq, Repr

inductive EventLevel where
  | debug
  | trace
  deriving DecidableEq, Repr

namespace Event

def level : Event → EventLevel
  | .abandonedCall _ _ | .extracted _ => .trace
  | .skippedConst _ | .loaded _ _ => .debug

def message : Event → Text
  | .abandonedCall _ _ => "abandoned define call".toList
  | .extracted _ => "extracted option".toList
  | .skippedConst _ => "skipping const line".toList
  | .loaded _ _ => "loaded config file".toList

def declaration? : Event → Option Declaration
  | .extracted declaration => some declaration
  | _ => none

def ofOutcome : DefineCall.Outcome → Event
  | .declared declaration => .extracted declaration
  | .abandoned call breaking => .abandonedCall call breaking

def ofConstLine : Except MalformedConst Declaration → Event
  | .ok declaration => .extracted declaration
  | .error malformed => .skippedConst malformed

end Event

namespace Source

/-- A byte order mark may stand in front of the first line. -/
def byteOrderMark : Char := '\uFEFF'

def dropByteOrderMark : Text → Text
  | [] => []
  | head :: tail => if head = byteOrderMark then tail else head :: tail

def visibleEvents (line : Nat) (visible : Text) : List Event :=
  match SourceLine.ofText visible with
  | .constant text => [Event.ofConstLine (ConstLine.read line text)]
  | .calls text => (DefineCall.lineOutcomes line text).map Event.ofOutcome
  | .nothing => []

/-- The events of one line, none if a comment hides all of it. -/
def lineEvents (line : Nat) (hidden : Bool) (text : Text) : List Event :=
  match SourceComment.visible? hidden text with
  | none => []
  | some visible => visibleEvents line visible

def eventsFrom (line : Nat) (hidden : Bool) : List Text → List Event
  | [] => []
  | text :: later =>
      lineEvents line hidden text ++
        eventsFrom (line + 1) (SourceComment.hidesNext hidden text) later

/-- Earlier lines reach later ones only through their number and the open comment. -/
theorem eventsFrom_append (line : Nat) (hidden : Bool) (earlier later : List Text) :
    eventsFrom line hidden (earlier ++ later) =
      eventsFrom line hidden earlier ++
        eventsFrom (line + earlier.length) (SourceComment.hiddenAfter hidden earlier) later := by
  induction earlier generalizing line hidden with
  | nil => rfl
  | cons text others ih =>
      rw [List.cons_append, eventsFrom, eventsFrom, ih, List.append_assoc, List.length_cons,
        SourceComment.hiddenAfter_cons, Nat.add_assoc, Nat.add_comm 1]

/-- The events of a source text; its lines count from one. -/
def events (source : Text) : List Event :=
  eventsFrom 1 false (Text.lines (dropByteOrderMark source))

def declarations (source : Text) : List Declaration :=
  (events source).filterMap Event.declaration?

def constants (source : Text) : Constants :=
  Constants.ofDeclarations (declarations source)

end Source

end ConfigConstants
