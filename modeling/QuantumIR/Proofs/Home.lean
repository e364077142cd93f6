import QuantumIR.Module
import QuantumIR.Proofs.Bodiless

/-! # What is referred to

What belongs to a module may refer to functions and globals of the same module, and to structs. The
constants that are computed from others refer to nothing else than those do.
-/

namespace QuantumIR

/-- A module and the structs that may be referred to in it. -/
structure Home where
  module : Nat
  structs : List String

/-- The same module with more structs. -/
structure Home.Within (h k : Home) : Prop where
  module : k.module = h.module
  structs : h.structs ⊆ k.structs

mutual

def Ty.names : Ty → List String
  | .ptr pointee _ => pointee.names
  | .array elem _ => elem.names
  | .struct name => [name]
  | .function ret params => ret.names ++ Ty.namesAll params
  | _ => []

def Ty.namesAll : List Ty → List String
  | [] => []
  | t :: ts => t.names ++ Ty.namesAll ts

end

theorem Ty.namesAll_eq (ts : List Ty) : Ty.namesAll ts = ts.flatMap Ty.names := by
  induction ts with
  | nil => rfl
  | cons t ts ih => simp [Ty.namesAll, ih]

def Ty.In (h : Home) (t : Ty) : Prop := t.names ⊆ h.structs

namespace Ty

variable {h k : Home} {t u : Ty}

theorem In.mono (ht : t.In h) (hk : h.Within k) : t.In k :=
  List.Subset.trans ht hk.structs

@[simp] theorem in_ptr {n : Nat} : (ptr t n).In h ↔ t.In h := Iff.rfl

@[simp] theorem in_array {n : Nat} : (array t n).In h ↔ t.In h := Iff.rfl

@[simp] theorem in_struct {name : String} : (struct name).In h ↔ name ∈ h.structs := by
  simp [In, names]

@[simp] theorem in_function {params : List Ty} :
    (function t params).In h ↔ t.In h ∧ ∀ p ∈ params, p.In h := by
  simp only [In, names, namesAll_eq, List.append_subset]
  refine and_congr_right fun _ => ?_
  constructor
  · intro hs p hp x hx
    exact hs (List.mem_flatMap.mpr ⟨p, hp, hx⟩)
  · intro hs x hx
    obtain ⟨p, hp, hx⟩ := List.mem_flatMap.mp hx
    exact hs p hp hx

@[simp] theorem in_int {n : Nat} : (int n).In h := List.nil_subset _

@[simp] theorem in_double : double.In h := List.nil_subset _

@[simp] theorem in_void : void.In h := List.nil_subset _

theorem In.inside? {i : Int} (ht : t.In h) (hu : t.inside? [] i = some u) : u.In h := by
  cases t with
  | array elem len =>
    cases hu
    exact ht
  | struct name => simp [Ty.inside?, Bodiless.nil.body?] at hu
  | _ => cases hu

theorem In.reach? {is : List Index} (ht : t.In h) (hu : t.reach? [] is = some u) : u.In h := by
  induction is generalizing t with
  | nil =>
    cases hu
    exact ht
  | cons i is ih =>
    obtain ⟨v, hv, hu⟩ := Option.bind_eq_some_iff.mp hu
    exact ih (ht.inside? hv) hu

theorem In.inSpaceOf (ht : t.In h) (u : Ty) : (t.inSpaceOf u).In h := by
  unfold Ty.inSpaceOf
  split
  · exact ht
  · exact ht

end Ty

def Constant.In (h : Home) : Constant → Prop
  | .int _ _ | .double _ => True
  | .null t | .zero t | .address _ t => t.In h
  | .fn r sig => r.module = h.module ∧ sig.ty.In h
  | .global r t => r.module = h.module ∧ t.In h
  | .cast _ base t => base.In h ∧ t.In h
  | .element _ base _ t => base.In h ∧ t.In h

namespace Constant

variable {h k : Home} {c d : Constant} {t : Ty} {is : List Index} {inBounds : Bool}

theorem In.mono (hc : c.In h) (hk : h.Within k) : c.In k := by
  induction c with
  | int | double => trivial
  | null | zero | address => exact Ty.In.mono hc hk
  | fn | global => exact ⟨hc.1.trans hk.module.symm, hc.2.mono hk⟩
  | cast _ _ _ ih | element _ _ _ _ ih => exact ⟨ih hc.1, hc.2.mono hk⟩

theorem In.ty (hc : c.In h) : c.ty.In h := by
  cases c with
  | int => exact Ty.in_int
  | double => exact Ty.in_double
  | null | zero | address => exact hc
  | fn | global | cast | element => exact hc.2

theorem In.base? (hc : c.In h) (hd : c.base? = some d) : d.In h := by
  cases c with
  | cast | element =>
    cases hd
    exact hc.1
  | address =>
    cases hd
    trivial
  | _ => cases hd

theorem in_of_zeroOf? (ht : t.In h) (hc : zeroOf? t = some c) : c.In h := by
  cases t with
  | int | double =>
    cases hc
    trivial
  | ptr | array | struct =>
    cases hc
    exact ht
  | void | metadata | function => cases hc

theorem in_intToPtr (ht : t.In h) (n : UInt64) : (intToPtr n t).In h := by
  unfold intToPtr
  split
  · exact ht
  · exact ht

theorem In.elementTy (hc : c.In h) (is : List Index) : (c.elementTy [] is).In h := by
  have ht := hc.ty
  unfold Constant.elementTy
  split
  next pointee space he =>
    rw [he, Ty.in_ptr] at ht
    rw [Ty.in_ptr]
    cases hr : pointee.reach? [] (is.drop 1) with
    | none => exact ht
    | some u => exact ht.reach? hr
  · exact ht

theorem In.elementHere (hc : c.In h) (inBounds : Bool) (is : List Index) :
    (c.elementHere [] inBounds is).In h :=
  ⟨hc, hc.elementTy is⟩

theorem In.elementBy {look : List Index → Option Constant} (hc : c.In h)
    (hlook : ∀ is d, look is = some d → d.In h) (n : Nat) (is : List Index) :
    (elementBy [] inBounds c look n is).In h := by
  induction n generalizing is with
  | zero => exact hc.elementHere inBounds is
  | succ n ih =>
    unfold Constant.elementBy
    split
    next d hd => exact hlook is d hd
    · simp only
      split
      · exact hc.elementHere inBounds is
      · exact ih _

theorem In.elementAt (hc : c.In h) (inBounds : Bool) (is : List Index) :
    (c.elementAt [] inBounds is).In h := by
  induction c generalizing inBounds is with
  | null t =>
    refine hc.elementBy (fun is d hd => ?_) _ _
    split at hd
    · cases hd
      exact In.elementTy (c := .null t) hc is
    · cases hd
  | cast kind base t ih =>
    refine hc.elementBy (fun is d hd => ?_) _ _
    split at hd
    · cases hd
      exact ih hc.1 inBounds is
    · cases hd
  | element held base outer t ih =>
    refine hc.elementBy (fun is d hd => ?_) _ _
    obtain ⟨js, -, rfl⟩ := Option.map_eq_some_iff.mp hd
    exact ih hc.1 _ js
  | _ => exact hc.elementBy (fun _ _ hd => by cases hd) _ _

theorem In.bitcastHere (hc : c.In h) (ht : t.In h) : (c.bitcastHere [] t).In h := by
  unfold Constant.bitcastHere
  split
  · exact hc
  · trivial
  · trivial
  · split
    · split
      · split
        · exact hc
        · exact hc.elementAt _ _
        · exact ⟨hc, ht⟩
      · exact ⟨hc, ht⟩
    · exact ⟨hc, ht⟩
  · exact ⟨hc, ht⟩

theorem In.castHere (hc : c.In h) (ht : t.In h) (kind : Cast) : (c.castHere [] kind t).In h := by
  unfold Constant.castHere
  split
  · exact hc.bitcastHere ht
  · exact ⟨hc, ht⟩

theorem In.castWithin (hc : c.In h) (ht : t.In h) (n : Nat) (kind : Cast) :
    (c.castWithin [] n kind t).In h := by
  induction n generalizing c t kind with
  | zero => exact ⟨hc, ht⟩
  | succ n ih =>
    unfold Constant.castWithin
    split
    · exact hc
    simp only
    have hd : (if kind = .space ∧ c.ty.pointee? ≠ t.pointee? then
        c.castWithin [] n .bits (t.inSpaceOf c.ty) else c).In h := by
      split
      · exact ih hc (ht.inSpaceOf _) _
      · exact hc
    generalize (if kind = .space ∧ c.ty.pointee? ≠ t.pointee? then
        c.castWithin [] n .bits (t.inSpaceOf c.ty) else c) = d at hd
    split
    · cases hz : zeroOf? t with
      | none => exact hd
      | some z => exact in_of_zeroOf? ht hz
    · split
      · split
        · exact ht
        · trivial
        · exact ⟨hd, ht⟩
      · split
        · exact ih hd.1 ht _
        · exact hd.castHere ht _
      · split
        · exact ih hd.1 ht _
        · exact hd.castHere ht _
      · exact hd.castHere ht _

theorem In.bitcast (hc : c.In h) (ht : t.In h) : (c.bitcast [] t).In h := hc.castWithin ht _ _

end Constant

/-- A parameter stands for itself, and the result of a call for the place of the call. -/
def Local.In (h : Home) : Local → Prop
  | .result (.placed r) _ => r.block.fn.module = h.module
  | _ => True

theorem Local.In.mono {h k : Home} {l : Local} (hl : l.In h) (hk : h.Within k) : l.In k := by
  match l, hl with
  | .result (.placed _) _, hl => exact hl.trans hk.module.symm
  | .result (.stray _) _, _ | .param _ _ _, _ => trivial

mutual

def Metadata.In (h : Home) : Metadata → Prop
  | .str _ => True
  | .const c => c.In h
  | .bound l => l.In h
  | .node ms => Metadata.InAll h ms

def Metadata.InAll (h : Home) : List Metadata → Prop
  | [] => True
  | m :: ms => m.In h ∧ Metadata.InAll h ms

end

namespace Metadata

variable {h k : Home}

theorem inAll_iff {ms : List Metadata} : InAll h ms ↔ ∀ m ∈ ms, m.In h := by
  induction ms with
  | nil => simp [InAll]
  | cons m ms ih => simp [InAll, ih]

mutual

theorem In.mono : ∀ {m : Metadata}, m.In h → h.Within k → m.In k
  | .str _, _, _ => trivial
  | .const _, hm, hk => Constant.In.mono hm hk
  | .bound _, hm, hk => Local.In.mono hm hk
  | .node _, hm, hk => InAll.mono hm hk

theorem InAll.mono : ∀ {ms : List Metadata}, InAll h ms → h.Within k → InAll k ms
  | [], _, _ => trivial
  | _ :: _, hm, hk => ⟨In.mono hm.1 hk, InAll.mono hm.2 hk⟩

end

theorem In.asValue {m : Metadata} (hm : m.In h) : m.asValue.In h := by
  unfold Metadata.asValue
  split
  · exact hm.1
  · exact hm

end Metadata

def Value.In (h : Home) : Value → Prop
  | .const c => c.In h
  | .bound l => l.In h
  | .metadata m => m.In h

theorem Value.In.mono {h k : Home} {v : Value} (hv : v.In h) (hk : h.Within k) : v.In k := by
  cases v with
  | const c => exact Constant.In.mono hv hk
  | bound l => exact Local.In.mono hv hk
  | metadata m => exact Metadata.In.mono hv hk

theorem Value.In.toMetadata {h : Home} {v : Value} (hv : v.In h) : v.toMetadata.In h := by
  cases v <;> exact hv

def Instr.callee? : Instr → Option FnRef
  | .call callee _ _ => some callee
  | _ => none

structure Instr.In (h : Home) (i : Instr) : Prop where
  ty : i.ty.In h
  callee : ∀ r, i.callee? = some r → r.module = h.module
  operands : ∀ v ∈ i.operands, v.In h
  targets : ∀ b ∈ i.targets, b.fn.module = h.module

/-- The branch stands in the module, or in no function. -/
def Source.In (h : Home) : Source → Prop
  | .block r => r.fn.module = h.module
  | _ => True

structure Block.In (h : Home) (b : Block) : Prop where
  body : ∀ i ∈ b.body, i.In h
  sources : ∀ x ∈ b.sources, x.In h

structure Fn.In (h : Home) (f : Fn) : Prop where
  sig : f.sig.ty.In h
  blocks : ∀ b ∈ f.blocks, b.In h

/-- The module, at the place where it stands, refers to itself only. -/
structure Module.In (h : Home) (m : Module) : Prop where
  globals : ∀ g ∈ m.globals, g.ty.In h
  functions : ∀ f ∈ m.functions, f.In h
  flags : ∀ x ∈ m.flags, x.value.In h

section Mono

variable {h k : Home} (hk : h.Within k)

include hk

theorem Instr.In.mono {i : Instr} (hi : i.In h) : i.In k :=
  ⟨hi.ty.mono hk, fun r hr => (hi.callee r hr).trans hk.module.symm,
    fun v hv => (hi.operands v hv).mono hk, fun b hb => (hi.targets b hb).trans hk.module.symm⟩

theorem Source.In.mono {x : Source} (hx : x.In h) : x.In k := by
  cases x with
  | block r => exact Eq.trans hx hk.module.symm
  | loose | nowhere => trivial

theorem Block.In.mono {b : Block} (hb : b.In h) : b.In k :=
  ⟨fun i hi => (hb.body i hi).mono hk, fun x hx => (hb.sources x hx).mono hk⟩

theorem Fn.In.mono {f : Fn} (hf : f.In h) : f.In k :=
  ⟨hf.sig.mono hk, fun b hb => (hf.blocks b hb).mono hk⟩

theorem Module.In.mono {m : Module} (hm : m.In h) : m.In k :=
  ⟨fun g hg => (hm.globals g hg).mono hk, fun f hf => (hm.functions f hf).mono hk,
    fun x hx => (hm.flags x hx).mono hk⟩

end Mono

theorem forall_mem_modify {α : Type} {P : α → Prop} {g : α → α} {xs : List α}
    (hx : ∀ x ∈ xs, P x) (hg : ∀ x, P x → P (g x)) (n : Nat) : ∀ x ∈ xs.modify n g, P x := by
  intro x hm
  obtain ⟨j, hj⟩ := List.mem_iff_getElem?.mp hm
  rw [List.getElem?_modify] at hj
  obtain ⟨y, hy, rfl⟩ := Option.map_eq_some_iff.mp hj
  have hPy := hx y (List.mem_of_getElem? hy)
  split
  · exact hg y hPy
  · exact hPy

section Edits

variable {h : Home}

theorem Block.In.push {b : Block} {i : Instr} (hb : b.In h) (hi : i.In h) : (b.push i).In h := by
  refine ⟨fun j hj => ?_, hb.sources⟩
  rcases List.mem_append.mp hj with hj | hj
  · exact hb.body j hj
  · rw [List.mem_singleton.mp hj]
    exact hi

theorem Block.In.addSource {b : Block} {x : Source} (hb : b.In h) (hx : x.In h) :
    (b.addSource x).In h := by
  refine ⟨hb.body, fun y hy => ?_⟩
  rcases List.mem_cons.mp hy with rfl | hy
  · exact hx
  · exact hb.sources y hy

theorem Fn.In.addBlock {f : Fn} (hf : f.In h) (name : Bytes) : (f.addBlock name).In h := by
  refine ⟨hf.sig, fun b hb => ?_⟩
  rcases List.mem_append.mp hb with hb | hb
  · exact hf.blocks b hb
  · rw [List.mem_singleton.mp hb]
    exact ⟨nofun, nofun⟩

theorem Fn.In.addAttr {f : Fn} (hf : f.In h) (i : AttrIndex) (a : Attr) : (f.addAttr i a).In h :=
  ⟨hf.sig, hf.blocks⟩

namespace Module.In

variable {m : Module}

theorem empty (name : String) : ({ name } : Module).In h := ⟨by simp, by simp, by simp⟩

theorem addFunction (hm : m.In h) (name : String) {sig : Signature} (hs : sig.ty.In h)
    (l : Linkage) : (m.addFunction name sig l).In h := by
  refine ⟨hm.globals, fun f hf => ?_, hm.flags⟩
  rcases List.mem_append.mp hf with hf | hf
  · exact hm.functions f hf
  · rw [List.mem_singleton.mp hf]
    exact ⟨hs, nofun⟩

theorem addGlobal (hm : m.In h) (name : String) {ty : Ty} (ht : ty.In h) (data : Option Bytes) :
    (m.addGlobal name ty data).In h := by
  refine ⟨fun g hg => ?_, hm.functions, hm.flags⟩
  rcases List.mem_append.mp hg with hg | hg
  · exact hm.globals g hg
  · rw [List.mem_singleton.mp hg]
    exact ht

theorem addFlag (hm : m.In h) {x : Flag} (hx : x.value.In h) : (m.addFlag x).In h := by
  refine ⟨hm.globals, hm.functions, fun y hy => ?_⟩
  rcases List.mem_append.mp hy with hy | hy
  · exact hm.flags y hy
  · rw [List.mem_singleton.mp hy]
    exact hx

theorem updateFunction {g : Fn → Fn} (hm : m.In h) (hg : ∀ f, f.In h → (g f).In h) (n : Nat) :
    (m.updateFunction n g).In h :=
  ⟨hm.globals, forall_mem_modify hm.functions hg n, hm.flags⟩

end Module.In

end Edits

end QuantumIR
