import QuantumIR.Text.Utf8
import QuantumIR.Text.Escape
import QuantumIR.Text.Name
import QuantumIR.Text.Count
import QuantumIR.Double
import QuantumIR.Ty
import QuantumIR.Layout
import QuantumIR.Ref
import QuantumIR.Constant
import QuantumIR.Constant.Element
import QuantumIR.Constant.Cast
import QuantumIR.Value
import QuantumIR.Attribute
import QuantumIR.Intrinsic
import QuantumIR.Intrinsic.Table
import QuantumIR.Module
import QuantumIR.Session
import QuantumIR.Operation
import QuantumIR.Fault
import QuantumIR.Builder
import QuantumIR.EntryPoint
import QuantumIR.Flags
import QuantumIR.ByteString
import QuantumIR.Survey
import QuantumIR.Printer.View
import QuantumIR.Printer.Value
import QuantumIR.Printer.Module
import QuantumIR.Dominance
import QuantumIR.Verifier.Attribute
import QuantumIR.Verifier.Flag
import QuantumIR.Verifier.Intrinsic
import QuantumIR.Verifier
import QuantumIR.Step
import QuantumIR.Answer
import QuantumIR.Eval
import QuantumIR.Command
import QuantumIR.Run
import QuantumIR.Proofs.Growth
import QuantumIR.Proofs.Effect
import QuantumIR.Proofs.Machine
import QuantumIR.Proofs.Invariant
import QuantumIR.Proofs.Closing
import QuantumIR.Proofs.Completion
import QuantumIR.Proofs.Control
import QuantumIR.Proofs.Failure
import QuantumIR.Proofs.Validity
import QuantumIR.Proofs.Retention
import QuantumIR.Proofs.FlagHistory
import QuantumIR.Proofs.Callee
import QuantumIR.Proofs.Bodiless
import QuantumIR.Proofs.Home
import QuantumIR.Proofs.Agreement
import QuantumIR.Proofs.Lockstep
import QuantumIR.Proofs.Isolation
import QuantumIR.Proofs.FlagSetting
import QuantumIR.Proofs.StructTable
import QuantumIR.Proofs.EntryPoint
import QuantumIR.Proofs.Registers
import QuantumIR.Proofs.Variant
import QuantumIR.Proofs.Recognition
import QuantumIR.Proofs.StaticId
import QuantumIR.Proofs.StringGlobal
import QuantumIR.Proofs.AttributeTable
import QuantumIR.Proofs.Numeral
import QuantumIR.Proofs.Tagging
import QuantumIR.Proofs.AttributeOrder
import QuantumIR.Proofs.Measurement
import QuantumIR.Proofs.Unplaced
import QuantumIR.Proofs.WellFormed
import QuantumIR.Proofs.AttributeText
import QuantumIR.Proofs.StringType
import QuantumIR.Proofs.BlockName
import QuantumIR.Proofs.Predecessor
import QuantumIR.Proofs.BlockLayout
