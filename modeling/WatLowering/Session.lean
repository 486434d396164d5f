import WatLowering.Code.Layout
import WatLowering.Traced

/-!
# A generator at work

A generator that is kept for several programs writes while it checks: a line goes into its buffer as
soon as the line is known, and a fault that is found later leaves the lines before it where they
are.  This file has the generator's memory and the steps that change it; what is written, and in
which order, is said by `Lowering/Emission`.

* `Emitter` — a buffer that text is only ever appended to.
* `Session` — the options, the buffer, and the log of everything reported so far.
* `Emission` — a step of the generator.  A failed step keeps what it did to the session before it
  failed, so a half-written buffer is a state like any other.
-/

namespace WatLowering

/-! ## The buffer -/

/-- A text in the making. -/
structure Emitter where
  /-- What has been written so far. -/
  output : String
  /-- Spaces for each nesting level. -/
  indentWidth : Nat

namespace Emitter

/-- The buffer in which nothing has been written. -/
def empty (indentWidth : Nat) : Emitter := ⟨"", indentWidth⟩

/-- Appends a text as it stands. -/
def append (e : Emitter) (text : String) : Emitter := { e with output := e.output ++ text }

/-- Appends a line: indentation, text, line end. -/
def emit (e : Emitter) (depth : Nat) (fragment : String) : Emitter :=
  e.append (String.ofList (List.replicate (depth * e.indentWidth) ' ') ++ fragment ++ "\n")

end Emitter

/-! ## Sessions and their steps -/

/-- A generator in use. -/
structure Session where
  options : Options
  emitter : Emitter
  /-- Everything reported so far. -/
  log : List Event

/-- A session in which nothing has happened yet. -/
def Session.start (o : Options) : Session := ⟨o, .empty o.indentWidth, []⟩

/-- A step of a generator, which changes the session even if it fails. -/
abbrev Emission := ExceptT Fault (StateM Session)

namespace Emission

variable {α : Type}

/-- What the step comes to in the session `s`, and the session after it. -/
def runIn (x : Emission α) (s : Session) : Except Fault α × Session := (ExceptT.run x).run s

/-- Goes on with the outcome of a check. -/
def check (x : Except Fault α) : Emission α := ExceptT.mk (pure x)

/-- Sends a message. -/
def report (e : Event) : Emission Unit := modify fun s => { s with log := s.log ++ [e] }

/-- Writes a text as it stands. -/
def raw (text : String) : Emission Unit :=
  modify fun s => { s with emitter := s.emitter.append text }

/-- Writes a line, with the return label that the options give. -/
def write (l : Line) : Emission Unit :=
  modify fun s =>
    let fragment := String.join (l.pieces.map (Piece.render s.options))
    { s with emitter := s.emitter.emit l.depth fragment }

/-- Writes constructs that stand at `depth`. -/
def writeCode (depth : Nat) (code : List Code) : Emission Unit := (linesAll depth code).forM write

/-- Starts over with an empty buffer. -/
def clear : Emission Unit :=
  modify fun s => { s with emitter := .empty s.options.indentWidth }

/-- Takes the text out of the buffer, which is empty again afterwards. -/
def takeOutput : Emission String := do
  let s ← get
  clear
  return s.emitter.output

end Emission

end WatLowering
