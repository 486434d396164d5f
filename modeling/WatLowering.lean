import WatLowering.Position
import WatLowering.Kind
import WatLowering.BinaryOp
import WatLowering.Options
import WatLowering.Instr.Basic
import WatLowering.Instr.Selection
import WatLowering.Node.Basic
import WatLowering.Node.Walk
import WatLowering.Node.Equality
import WatLowering.Diagnostic
import WatLowering.Fault
import WatLowering.Shape
import WatLowering.Event
import WatLowering.Traced
import WatLowering.Code.Label
import WatLowering.Code.Test
import WatLowering.Code.Basic
import WatLowering.Code.Layout
import WatLowering.Lowering.Operands
import WatLowering.Lowering.Scope
import WatLowering.Lowering.Body
import WatLowering.Lowering.Module
import WatLowering.Session
import WatLowering.Lowering.Emission
import WatLowering.Generator
import WatLowering.Proofs.Rules
import WatLowering.Proofs.Grammar
import WatLowering.Proofs.LabelNames
import WatLowering.Proofs.BranchTargets
import WatLowering.Proofs.StackTyping
import WatLowering.Proofs.Typing
import WatLowering.Proofs.Validation
import WatLowering.Proofs.ValidOutput
import WatLowering.Proofs.Machine
import WatLowering.Proofs.Meaning
import WatLowering.Proofs.Simulation
import WatLowering.Proofs.TypeSoundness
import WatLowering.Proofs.Preservation
import WatLowering.Proofs.ReturnPaths
import WatLowering.Proofs.ReturnTargets
import WatLowering.Proofs.Balance
import WatLowering.Proofs.FirstViolation
import WatLowering.Proofs.OnePass
import WatLowering.Proofs.Independence
import WatLowering.Proofs.IntendedTree
import WatLowering.Proofs.Templates
import WatLowering.Proofs.ReadBack
import WatLowering.Proofs.StatementOrder
import WatLowering.Proofs.Reports
import WatLowering.Proofs.LoopShapes
import WatLowering.Proofs.ExpressionTyping
import WatLowering.Proofs.Unseen
import WatLowering.Proofs.Annotations
import WatLowering.Proofs.ConditionTests
import WatLowering.Proofs.Constants
import WatLowering.Proofs.LocalVariables
import WatLowering.Proofs.LateDeclarations
import WatLowering.Proofs.Flattening
import WatLowering.Proofs.ReturnFaults
import WatLowering.Proofs.Alarms
