import WatLowering.Code.Layout
import WatLowering.Lowering.Emission
import WatLowering.Lowering.Module

/-!
# Generating text

There are two ways from a source tree to WebAssembly text.

* `generate` — lower the whole program, then write it.  The options enter only when writing, so they
  cannot influence whether a tree is accepted, what is reported about it, or what its code is.
* `Session.generate` — write while checking, into the buffer of a generator that is kept for
  several programs.  A program that fails leaves in the buffer what had been written until then, and
  the next program starts over.

That the second way comes to the same as the first, whatever the generator was used for before, is
shown in `Proofs/OnePass`.
-/

namespace WatLowering

/-- The text of a program, or what is wrong with it. -/
def generate (o : Options) (program : Node) : Traced String :=
  Module.render o <$> program.lowerModule

/-! ## Sessions -/

/-- What a session can be asked for. -/
inductive Request where
  | generate (program : Node)
  | options

/-- What a session answers. -/
inductive Reply where
  | generated (outcome : Except Fault String)
  | options (current : Options)

namespace Session

/-- The text of a program, or what is wrong with it, and the session afterwards. -/
def generate (s : Session) (program : Node) : Except Fault String × Session :=
  program.emitModule.runIn s

/-- Answers one request. -/
def answer (s : Session) : Request → Reply × Session
  | .generate program =>
      let (outcome, next) := s.generate program
      (.generated outcome, next)
  | .options => (.options s.options, s)

/-- Answers several requests, one after the other. -/
def answerAll (s : Session) : List Request → List Reply × Session
  | [] => ([], s)
  | r :: rest =>
      let (reply, next) := s.answer r
      let (replies, last) := next.answerAll rest
      (reply :: replies, last)

end Session

end WatLowering
