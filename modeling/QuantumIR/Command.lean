import QuantumIR.Answer
import QuantumIR.Eval
import QuantumIR.Verifier
import QuantumIR.Printer.Module

/-! # Commands

A command evaluates its expressions, changes the session and gives an answer.
-/

namespace QuantumIR

open Attempt

def Module.flagReport (m : Module) : FlagReport :=
  ⟨m.version? .major, m.version? .minor, m.management? .dynamicQubits,
    m.management? .dynamicResults⟩

def Fn.report (f : Fn) : FnReport :=
  ⟨f.isEntryPoint, f.isIrreversible, f.isInteropFriendly, f.requiredQubits?, f.requiredResults?⟩

/-- The report on a value; only functions have one to give. -/
def Session.report (s : Session) : Value → FnReport
  | .const (.fn r _) => ((s.fn? r).map Fn.report).getD {}
  | _ => {}

def lastInstruction : Attempt Answer := do
  let s ← get
  let text ← require .noBlock s.lastInstrText?
  return .instruction text

def nameOf (r : FnRef) : Attempt Answer := do
  let s ← get
  return .text (((s.fn? r).map Fn.name).getD "")

def updateCurrent (g : Module → Module) : Attempt Unit :=
  modify fun s => s.updateModule s.current g

/-- An instruction can only be appended to a block. -/
def requireBlock : Attempt Unit := do
  if (← get).position = .unset then reject .noBlock

def Session.shownBlock (s : Session) : Option String := s.blockName?.map Utf8.display

def Command.act : Command → Attempt Answer
  | .newModule name => do
    modify (·.addModule name)
    return .number (← get).current
  | .useModule index => do
    let _ ← require (.unknownModule index) ((← get).module? index)
    modify fun s => { s with current := index }
    return .number index
  | .print => do
    let m ← currentModule
    let s ← get
    return .text (s.moduleText s.current m)
  | .verify => do
    let m ← currentModule
    let s ← get
    return .verdict (s.verify s.current m)
  | .setVersion flag value => do
    let m ← currentModule
    let m ← guarded (m.setVersion flag value)
    updateCurrent fun _ => m
    return .done
  | .setManagement flag value => do
    updateCurrent (·.setManagement flag value)
    return .done
  | .flags => do
    let m ← currentModule
    return .flags m.flagReport
  | .addFlag behavior id value => do
    let value ← value.eval
    updateCurrent (·.addFlag ⟨behavior, id, value⟩)
    return .done
  | .getFlag id => do
    let s ← get
    let m ← currentModule
    match m.flag? id with
    | none => return .flag false none
    | some value =>
      return .flag true (value.constant?.map fun c => s.showValue (.const c))
  | .extractConstant value => do
    let v ← value.eval
    let s ← get
    return .optionalText (v.metadataConstant?.map fun c => s.showValue (.const c))
  | .newStruct name body => do
    let i ← update (·.addStruct name)
    match body with
    | none => pure ()
    | some ts => do
      let ts ← TypeExpr.evalList ts
      modify (·.setBody i ts)
    return .text ((((← get).structs[i]?).map StructDef.text).getD "")
  | .describeType t => do
    let t ← t.eval
    return .typeInfo ((← get).showType t) t.isQubit t.isResult
  | .entryPoint entry => do
    let s ← get
    let r ← update (·.addEntryPoint s.current entry)
    nameOf r
  | .declare name output params linkage => do
    let output ← output.eval
    let params ← TypeExpr.evalList params
    let s ← get
    let r ← update (·.addFunction s.current name ⟨output, params⟩ linkage)
    nameOf r
  | .newGlobal name ty => do
    let ty ← ty.eval
    let s ← get
    let r ← update (·.addGlobal s.current name ty)
    return .text ((((← get).global? r).map Global.name).getD "")
  | .addAttr fn index key value => do
    let (r, _) ← findFunction fn
    modify (·.addAttr r index (.string key value))
    return .done
  | .listAttrs fn index => do
    let (_, f) ← findFunction fn
    match (f.attrs.get index).read with
    | .ok attrs => return .attributes attrs
    | .error e => throw (.panic (.notText e))
  | .inspect value => do
    let v ← value.eval
    return .function ((← get).report v)
  | .entryPoints => do
    let m ← currentModule
    return .names m.entryPoints
  | .bind register value => do
    let v ← value.eval
    modify (·.setRegister register v)
    return .text ((← get).showValue v)
  | .ids value => do
    let v ← value.eval
    return .ids v.qubitId? v.resultId?
  | .extractString value => do
    let v ← value.eval
    let data ← guarded ((← get).extractString v)
    return .bytes data
  | .newBlock fn name => do
    let (r, _) ← findFunction fn
    let b ← update (·.addBlock r (Bytes.ofString name))
    modify (·.moveTo b)
    return .optionalText (← get).shownBlock
  | .position fn index => do
    let (r, f) ← findFunction fn
    let _ ← require (.unknownBlock fn index) f.blocks[index]?
    modify (·.moveTo ⟨r, index⟩)
    return .optionalText (← get).shownBlock
  | .unposition => do
    modify fun s => { s with position := .unset }
    return .done
  | .looseBlock name => do
    modify fun s => { s with position := .loose (Bytes.ofString name) }
    return .text name
  | .ret value => do
    let value ← match value with
      | none => pure none
      | some v => some <$> v.eval
    requireBlock
    modify (·.append (.ret value))
    lastInstruction
  | .call fn args register => do
    let (r, _) ← findFunction fn
    let args ← ValueExpr.evalList args
    requireBlock
    let v ← update (·.call r args)
    match register with
    | none => pure ()
    | some name => modify (·.setRegister name v)
    lastInstruction
  | .apply op args => do
    if args.length ≠ op.params.length then
      reject (.wrongArgumentCount op.params.length args.length)
    let args ← ValueExpr.evalList args
    let _ ← updateGuarded (·.emit op args)
    lastInstruction

end QuantumIR
