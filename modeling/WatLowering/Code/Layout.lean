import WatLowering.Code.Basic
import WatLowering.Options

/-!
# Layout: from code to text

Code is written one construct to a line, indented by depth.  The work is done in two steps, so that
what depends on the options is separate from what does not.

* A `Line` is a depth and a few pieces of text, where the label of the return block is still open
  (`Piece.returnLabel`).  `Code.lines`, `Func.lines` and `Item.lines` say which lines a construct
  takes; the options are not among their arguments.
* `Line.render` indents a line and fills in the label; `Module.render` writes a module.

**Loops share a depth.**  The block and the loop of a `Code.loop` stand at one depth, the body is one
deeper, and one line closes both.  A conditional likewise: its test is on a line of its own in front
of it, and the branches are one deeper.
-/

namespace WatLowering

/-! ## Lines -/

/-- A part of a line: text that is settled, or the label of the return block. -/
inductive Piece where
  | text (s : String)
  | returnLabel
  deriving DecidableEq

/-- The name that a label gets, as far as it is settled. -/
def Label.piece : Label → Piece
  | .ret => .returnLabel
  | .exit depth => .text ("break_" ++ toString depth)
  | .next depth => .text ("continue_" ++ toString depth)
  | .head depth => .text ("loop_" ++ toString depth)

/-- One line of the written form, without its indentation. -/
structure Line where
  depth : Nat
  pieces : List Piece
  deriving DecidableEq

/-- A line that does not mention the return label. -/
def Line.ofText (depth : Nat) (s : String) : Line := ⟨depth, [.text s]⟩

/-! ## The lines of code -/

mutual

/-- The lines of one construct that stands at `depth`. -/
def Code.lines (depth : Nat) : Code → List Line
  | .set storage name operands =>
      [.ofText depth ("(" ++ storage.name ++ ".set $" ++ name ++ " " ++ Instr.seq operands ++ ")")]
  | .br target none => [⟨depth, [.text "(br $", target.piece, .text ")"]⟩]
  | .br target (some operands) =>
      [⟨depth, [.text "(br $", target.piece, .text (" " ++ Instr.seq operands ++ ")")]⟩]
  | .brIf target test =>
      [⟨depth, [.text "(br_if $", target.piece, .text (" " ++ test.text ++ ")")]⟩]
  | .block label body =>
      ⟨depth, [.text "(block $", label.piece]⟩
        :: linesAll (depth + 1) body
        ++ [.ofText depth ")"]
  | .loop exit head body =>
      ⟨depth, [.text "(block $", exit.piece]⟩
        :: ⟨depth, [.text "(loop  $", head.piece]⟩
        :: linesAll (depth + 1) body
        ++ [.ofText depth "))"]
  | .ifThen test thenBranch elseBranch =>
      .ofText depth test.text
        :: .ofText depth "(if (then"
        :: linesAll (depth + 1) thenBranch
        ++ elseLines depth elseBranch
        ++ [.ofText depth "))"]

/-- The lines of several constructs, one after the other. -/
def linesAll (depth : Nat) : List Code → List Line
  | [] => []
  | c :: rest => c.lines depth ++ linesAll depth rest

/-- The lines of an `else` branch, if there is one, for a conditional at `depth`. -/
def elseLines (depth : Nat) : Option (List Code) → List Line
  | none => []
  | some branch => .ofText depth ")(else" :: linesAll (depth + 1) branch

end

theorem linesAll_eq_flatMap (depth : Nat) (code : List Code) :
    linesAll depth code = code.flatMap (Code.lines depth) := by
  induction code with
  | nil => rfl
  | cons c rest ih => rw [linesAll, ih, List.flatMap_cons]

/-! ## The lines of a module -/

/-- A variable with its type, as the keyword `keyword` declares it. -/
def Variable.text (keyword : String) (v : Variable) : String :=
  "(" ++ keyword ++ " $" ++ v.1 ++ " " ++ v.2.name ++ ")"

/-- The result clause of a function and of the block around its body; there is none without a
result. -/
def resultClause : Option ValueType → String
  | some t => " (result " ++ t.name ++ ")"
  | none => ""

namespace Func

/-- The first line of a function: its name, its parameters and its result. -/
def header (f : Func) : String :=
  "(func $" ++ f.name ++ String.join (f.params.map fun p => " " ++ p.text "param")
    ++ resultClause f.result

/-- A function at `depth`: the header, a line for each local variable, and the body in the return
block. -/
def lines (depth : Nat) (f : Func) : List Line :=
  .ofText depth f.header
    :: f.locals.map (fun v => .ofText (depth + 1) (v.text "local"))
    ++ ⟨depth + 1, [.text "(block $", Label.ret.piece, .text (resultClause f.result)]⟩
    :: linesAll (depth + 2) f.body
    ++ [.ofText (depth + 1) ")", .ofText depth ")"]

end Func

/-- The lines of an item at `depth`. -/
def Item.lines (depth : Nat) : Item → List Line
  | .global mutable name type literal =>
      let declared := if mutable then "(mut " ++ type.name ++ ")" else type.name
      [.ofText depth
        ("(global $" ++ name ++ " " ++ declared ++ " " ++ (Instr.const type literal).text ++ ")")]
  | .exportFunc name exported =>
      [.ofText depth ("(export \"" ++ exported ++ "\" (func $" ++ name ++ "))")]
  | .func f => f.lines depth

/-- All lines between the first and the last line of a module. -/
def Module.lines (m : Module) : List Line := m.items.flatMap (Item.lines 1)

/-! ## Rendering -/

/-- The text of a piece. -/
def Piece.render (o : Options) : Piece → String
  | .text s => s
  | .returnLabel => o.returnLabel

/-- A whole line: indentation, text, line end. -/
def Line.render (o : Options) (l : Line) : String :=
  String.ofList (List.replicate (l.depth * o.indentWidth) ' ')
    ++ String.join (l.pieces.map (Piece.render o)) ++ "\n"

/-- The written form of a module.  A module without items stays on one line. -/
def Module.render (o : Options) (m : Module) : String :=
  if m.items.isEmpty then "(module)"
  else "(module\n" ++ String.join (m.lines.map (Line.render o)) ++ ")"

end WatLowering
