import QuantumIR.Session
import QuantumIR.Constant.Element
import QuantumIR.Fault

/-! # Byte strings in globals

A byte string is a constant global without a name that holds the bytes and a zero byte behind them;
its value is the address of the first byte. Data of zeros only is not kept as a sequence of bytes,
so it is not found again.
-/

namespace QuantumIR

def terminated (bs : Bytes) : Bytes := bs ++ [0]

/-- Data that is kept as a sequence of bytes. -/
def Global.sequence? (g : Global) : Option Bytes :=
  g.data.filter fun bs => bs.any (· ≠ 0)

def dataTy (data : Bytes) : Ty := .array .byte data.length

/-- The global that holds data; the length of its type is counted in thirty-two bits. -/
def Global.ofString (data : Bytes) : Global where
  name := ""
  ty := .array .byte (data.length % lengthBound)
  data := some data

/-- Append a byte string to a module and give the address of its first byte. -/
def Session.addString (s : Session) (module : Nat) (bs : Bytes) :
    Except Panic (Constant × Session) :=
  if lengthBound ≤ bs.length then .error .stringTooLong
  else
    let global := Global.ofString (terminated bs)
    let (g, s) := s.addGlobal module global.name global.ty global.data
    .ok (.elementAt s.structs (.global g global.ty) false [.first, .first], s)

/-- The bytes that an address leads to. The address must be that of an array element in a global
whose data is a sequence of bytes; the index of the array, read without a sign, is the number of
bytes left out. -/
def Session.extractString (s : Session) (v : Value) : Except Panic (Option Bytes) :=
  match v with
  | .const (.element _ (.global g _) (outer :: _) t) =>
    if t.isBytePtr then
      match (s.global? g).bind Global.sequence? with
      | none => .ok none
      | some data =>
        if outer.toNat ≤ data.length then .ok (some (data.drop outer.toNat))
        else .error (.startPastEnd outer.toNat data.length)
    else .ok none
  | _ => .ok none

end QuantumIR
