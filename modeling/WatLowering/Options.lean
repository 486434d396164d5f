/-!
# Options

Two things about the written form can be chosen: how far a nesting level is indented, and the label
of the block around each function body.  Labels belong to their function, so one label serves all
functions of a module.
-/

namespace WatLowering

/-- The choices for the written form. -/
structure Options where
  /-- Spaces for each nesting level. -/
  indentWidth : Nat
  /-- The label of the block around a function body. -/
  returnLabel : String
  deriving DecidableEq

/-- One change to the options. -/
inductive OptionChange where
  | indentWidth (width : Nat)
  | returnLabel (label : String)

namespace Options

/-- What applies unless something else is asked for. -/
def standard : Options := ⟨4, "_return"⟩

/-- The options after a change. -/
def change (o : Options) : OptionChange → Options
  | .indentWidth width => { o with indentWidth := width }
  | .returnLabel label => { o with returnLabel := label }

/-- The options at the start of a series of changes and after each of them. -/
def history (o : Options) : List OptionChange → List Options
  | [] => [o]
  | c :: rest => o :: (o.change c).history rest

end Options

end WatLowering
