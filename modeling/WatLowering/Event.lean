import WatLowering.Shape

/-!
# What the lowering reports about its progress

While it works, the lowering sends messages to whoever listens: when it starts on the module and on
a function, when it meets a loop, and when it skips a declaration that comes too late.  `Event` says
what happened; level and wording are functions of it.
-/

namespace WatLowering

/-- How important a message is. -/
inductive Level where
  | debug
  | trace
  | warn
  deriving DecidableEq

/-- The name of a level, as it stands in front of a message. -/
def Level.name : Level → String
  | .debug => "DEBUG"
  | .trace => "TRACE"
  | .warn => "WARN"

/-- One thing worth reporting.  Loops are reported with the number that their labels carry. -/
inductive Event where
  | moduleStarted (items : Nat)
  | functionStarted (name : String)
  | whileLoop (pos : Position) (depth : Nat)
  | doLoop (pos : Position) (depth : Nat) (shape : Shape)
  | forLoop (pos : Position) (depth : Nat) (shape : Shape)
  /-- A declaration after the first statement declares nothing. -/
  | lateDeclaration (pos : Position) (name : String)
  deriving DecidableEq

namespace Event

/-- How important an event is. -/
def level : Event → Level
  | .moduleStarted _ | .functionStarted _ => .debug
  | .whileLoop _ _ | .doLoop _ _ _ | .forLoop _ _ _ => .trace
  | .lateDeclaration _ _ => .warn

/-- The wording of an event. -/
def text : Event → String
  | .moduleStarted items => "generating module with " ++ toString items ++ " items"
  | .functionStarted name => "generating function `" ++ name ++ "`"
  | .whileLoop pos depth => pos.text ++ ": while loop labelled " ++ toString depth
  | .doLoop pos depth shape =>
      pos.text ++ ": do loop labelled " ++ toString depth ++ " (" ++ shape.name ++ ")"
  | .forLoop pos depth shape =>
      pos.text ++ ": for loop labelled " ++ toString depth ++ " (" ++ shape.name ++ ")"
  | .lateDeclaration pos name =>
      pos.text ++ ": declaration of `" ++ name ++ "` after the first statement is ignored"

/-- A message with its level in front. -/
def line (e : Event) : String := e.level.name ++ " " ++ e.text

end Event

end WatLowering
