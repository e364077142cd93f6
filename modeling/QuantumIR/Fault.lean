import QuantumIR.Text.Utf8

/-! # What stops a step

A panic is an error of the program that is being run; it has a fixed message. A defect is a request
that means nothing, such as a register that was never set.
-/

namespace QuantumIR

inductive Panic
  | noPosition
  | negativeVersion
  | stringTooLong
  | startPastEnd (start length : Nat)
  | notText (error : Utf8.Error)
  deriving DecidableEq

def optionText : Option Nat → String
  | none => "None"
  | some n => "Some(" ++ toString n ++ ")"

def Panic.message : Panic → String
  | .noPosition => "The builder's position has not been set."
  | .negativeVersion | .stringTooLong =>
    "called `Result::unwrap()` on an `Err` value: TryFromIntError(())"
  | .startPastEnd start length =>
    "range start index " ++ toString start ++ " out of range for slice of length " ++
      toString length
  | .notText e =>
    "Attribute kind is not valid UTF-8.: Utf8Error \x7b valid_up_to: " ++ toString e.validUpTo ++
      ", error_len: " ++ optionText e.errorLen ++ " \x7d"

/-- Requests that mean nothing. -/
inductive Defect
  | unknownModule (index : Nat)
  | unknownFunction (name : String)
  | unknownParameter (name : String) (index : Nat)
  | unknownBlock (name : String) (index : Nat)
  | unknownRegister (name : String)
  | unknownStruct (name : String)
  | noZero
  | notPointer
  | notConstant
  | notComputed
  | notArray
  | noBlock
  | wrongArgumentCount (expected found : Nat)
  deriving DecidableEq

def Defect.message : Defect → String
  | .unknownModule i => "no module " ++ toString i
  | .unknownFunction name => "no function " ++ name
  | .unknownParameter name i => "no parameter " ++ toString i ++ " of function " ++ name
  | .unknownBlock name i => "no block " ++ toString i ++ " of function " ++ name
  | .unknownRegister name => "no register " ++ name
  | .unknownStruct name => "no struct " ++ name
  | .noZero => "the type has no zero"
  | .notPointer => "not a pointer type"
  | .notConstant => "not a constant"
  | .notComputed => "not a constant expression"
  | .notArray => "not the address of an array"
  | .noBlock => "the builder stands in no block"
  | .wrongArgumentCount expected found =>
    toString found ++ " arguments where " ++ toString expected ++ " are expected"

inductive Fault
  | panic (cause : Panic)
  | defect (cause : Defect)
  deriving DecidableEq

end QuantumIR
