import QuantumIR.Proofs.Coupling
import QuantumIR.Proofs.Home
import QuantumIR.Proofs.Invariant

/-! # Sessions that agree on a module

Two sessions agree on a module when they hold the same module at its place, the same values in the
registers that were set for it, and the builder at the same place as long as it stands in the
module. The tables of structs may differ, as long as no struct has a body. Evaluating an expression
in both gives the same value, and they still agree.
-/

namespace QuantumIR

def TypeExpr.anonymous : TypeExpr → Bool
  | .ptr pointee _ => pointee.anonymous
  | .array elem _ => elem.anonymous
  | .struct _ => false
  | _ => true

mutual

def ValueExpr.anonymous : ValueExpr → Bool
  | .null t => t.anonymous
  | .intToPtr _ t => t.anonymous
  | .bitcast v t => v.anonymous && t.anonymous
  | .base v => v.anonymous
  | .element v _ _ => v.anonymous
  | .metadata m => m.anonymous
  | _ => true

def MetadataExpr.anonymous : MetadataExpr → Bool
  | .str _ => true
  | .node ms => MetadataExpr.anonymousAll ms
  | .value v => v.anonymous

def MetadataExpr.anonymousAll : List MetadataExpr → Bool
  | [] => true
  | m :: ms => m.anonymous && MetadataExpr.anonymousAll ms

end

mutual

def ValueExpr.registers : ValueExpr → List String
  | .bitcast v _ => v.registers
  | .base v => v.registers
  | .element v _ _ => v.registers
  | .register name => [name]
  | .metadata m => m.registers
  | _ => []

def MetadataExpr.registers : MetadataExpr → List String
  | .str _ => []
  | .node ms => MetadataExpr.registersAll ms
  | .value v => v.registers

def MetadataExpr.registersAll : List MetadataExpr → List String
  | [] => []
  | m :: ms => m.registers ++ MetadataExpr.registersAll ms

end

/-- The module that was in use when a register was set; the latest stands first. -/
abbrev Owners := List (String × Nat)

/-- The registers that have been set were last set for the module. -/
def Owners.Allow (o : Owners) (i : Nat) (names : List String) : Prop :=
  ∀ r ∈ names, o.lookup r = none ∨ o.lookup r = some i

instance (o : Owners) (i : Nat) (names : List String) : Decidable (o.Allow i names) :=
  inferInstanceAs (Decidable (∀ r ∈ names, o.lookup r = none ∨ o.lookup r = some i))

namespace Session

def home (s : Session) (i : Nat) : Home := ⟨i, s.structNames⟩

def StandsIn (s : Session) (i : Nat) : Prop := ∃ b, s.position = .endOf b ∧ b.fn.module = i

instance (s : Session) (i : Nat) : Decidable (s.StandsIn i) :=
  match h : s.position with
  | .endOf b => decidable_of_iff (b.fn.module = i)
    ⟨fun hb => ⟨b, h, hb⟩, fun ⟨_, hc, hi⟩ => Position.endOf.inj (h.symm.trans hc) ▸ hi⟩
  | .unset => isFalse fun ⟨_, hb, _⟩ => nomatch h.symm.trans hb
  | .loose _ => isFalse fun ⟨_, hb, _⟩ => nomatch h.symm.trans hb

/-- The sessions agree on a module. If `full`, the builder is at the same place wherever it is. -/
structure Agrees (i : Nat) (o : Owners) (full : Prop) (s t : Session) : Prop where
  current : t.current = s.current
  length : t.modules.length = s.modules.length
  module : t.module? i = s.module? i
  left : Bodiless s.structs
  right : Bodiless t.structs
  names : t.structNames ⊆ s.structNames
  position : full ∨ s.StandsIn i → t.position = s.position
  unbound : ∀ r, o.lookup r = none → s.register? r = none ∧ t.register? r = none
  bound : ∀ r, o.lookup r = some i → t.register? r = s.register? r
  values : ∀ r v, t.register? r = some v → v.In (t.home i)
  closed : ∀ m, t.module? i = some m → m.In (t.home i)

/-- The sessions agree on the module that is in use. If `full`, the builder stands in no other. -/
structure Twins (i : Nat) (o : Owners) (full : Prop) (s t : Session) : Prop
    extends Agrees i o full s t where
  here : s.current = i
  inside : full → ∀ b, s.position = .endOf b → b.fn.module = i

variable {s t s' t' : Session} {i : Nat} {o : Owners} {full : Prop}

def shared (s : Session) : List StructDef × List Module × Nat × Position × List (String × Value) :=
  (s.structs, s.modules, s.current, s.position, s.registers)

theorem Agrees.of_shared (h : Agrees i o full s t) (hs : s'.shared = s.shared)
    (ht : t'.shared = t.shared) : Agrees i o full s' t' := by
  cases s; cases s'; cases t; cases t'
  simp only [shared, Prod.mk.injEq] at hs ht
  obtain ⟨rfl, rfl, rfl, rfl, rfl⟩ := hs
  obtain ⟨rfl, rfl, rfl, rfl, rfl⟩ := ht
  exact ⟨h.current, h.length, h.module, h.left, h.right, h.names, h.position, h.unbound, h.bound,
    h.values, h.closed⟩

@[simp] theorem registers_ensureStruct (s : Session) (name : String) :
    (s.ensureStruct name).registers = s.registers := by
  unfold ensureStruct
  split <;> rfl

theorem structs_ensureStruct (s : Session) (name : String) :
    (s.ensureStruct name).structs =
      if name ∈ s.structNames then s.structs else s.structs ++ [⟨name, none⟩] := by
  unfold ensureStruct
  split
  · rfl
  next hn => simp [addStruct, freshStruct, Name.fresh, hn]

theorem mem_structNames_ensureStruct {name x : String} (hn : name ≠ "") :
    x ∈ (s.ensureStruct name).structNames ↔ x ∈ s.structNames ∨ x = name := by
  have hnames : (s.ensureStruct name).structNames =
      ((s.ensureStruct name).structs.map StructDef.name).filter (· ≠ "") := rfl
  rw [hnames, structs_ensureStruct]
  split
  next hs =>
    refine ⟨.inl, ?_⟩
    rintro (hx | rfl)
    · exact hx
    · exact hs
  · simp only [List.map_append, List.filter_append, List.mem_append, structNames]
    simp [hn]

theorem subset_structNames_ensureStruct (s : Session) (name : String) :
    s.structNames ⊆ (s.ensureStruct name).structNames := by
  have hnames : (s.ensureStruct name).structNames =
      ((s.ensureStruct name).structs.map StructDef.name).filter (· ≠ "") := rfl
  rw [hnames, structs_ensureStruct]
  split
  · exact List.Subset.refl _
  · rw [List.map_append, List.filter_append]
    exact List.subset_append_left _ _

@[simp] theorem structNames_noteCast (s : Session) (c d : Constant) :
    (s.noteCast c d).structNames = s.structNames := by
  rw [structNames, structNames, structs_noteCast]

theorem bodiless_ensureStruct (h : Bodiless s.structs) (name : String) :
    Bodiless (s.ensureStruct name).structs := by
  rw [structs_ensureStruct]
  split
  · exact h
  · intro d hd
    rcases List.mem_append.mp hd with hd | hd
    · exact h d hd
    · rw [List.mem_singleton.mp hd]

namespace Twins

theorem of_shared (h : Twins i o full s t) (hs : s'.shared = s.shared)
    (ht : t'.shared = t.shared) : Twins i o full s' t' := by
  have hcurrent : s'.current = s.current := congrArg (·.2.2.1) hs
  have hposition : s'.position = s.position := congrArg (·.2.2.2.1) hs
  exact ⟨h.toAgrees.of_shared hs ht, hcurrent.trans h.here, hposition ▸ h.inside⟩

theorem there (h : Twins i o full s t) : t.current = i := h.current.trans h.here

theorem fn? (h : Twins i o full s t) {r : FnRef} (hr : r.module = i) : t.fn? r = s.fn? r := by
  have hm := h.module
  unfold module? at hm
  rw [Session.fn?, Session.fn?, hr, hm]

theorem block? (h : Twins i o full s t) {b : BlockRef} (hb : b.fn.module = i) :
    t.block? b = s.block? b := by
  rw [Session.block?, Session.block?, h.fn? hb]

theorem noteCast (h : Twins i o full s t) (c d : Constant) :
    Twins i o full (s.noteCast c d) (t.noteCast c d) := by
  have hshared : ∀ s : Session, (s.noteCast c d).shared = s.shared := by
    intro s
    simp [shared]
  exact h.of_shared (hshared s) (hshared t)

theorem updateModule {g : Module → Module} (h : Twins i o full s t)
    (hg : ∀ m, m.In (t.home i) → (g m).In (t.home i)) :
    Twins i o full (s.updateModule i g) (t.updateModule i g) := by
  refine { h with length := ?_, module := ?_, closed := ?_ }
  · simpa [Session.updateModule] using h.length
  · rw [module?_updateModule, module?_updateModule, if_pos rfl, if_pos rfl, h.module]
  · intro m hm
    rw [module?_updateModule, if_pos rfl] at hm
    obtain ⟨m₀, hm₀, rfl⟩ := Option.map_eq_some_iff.mp hm
    exact hg m₀ (h.closed m₀ hm₀)

theorem updateFn {g : Fn → Fn} {r : FnRef} (h : Twins i o full s t) (hr : r.module = i)
    (hg : ∀ f, f.In (t.home i) → (g f).In (t.home i)) :
    Twins i o full (s.updateFn r g) (t.updateFn r g) := by
  subst hr
  exact h.updateModule fun m hm => hm.updateFunction hg r.index

theorem updateBlock {g : Block → Block} {b : BlockRef} (h : Twins i o full s t)
    (hb : b.fn.module = i) (hg : ∀ b, b.In (t.home i) → (g b).In (t.home i)) :
    Twins i o full (s.updateBlock b g) (t.updateBlock b g) :=
  h.updateFn (g := fun f => { f with blocks := f.blocks.modify b.index g }) hb
    fun _ hf => ⟨hf.sig, forall_mem_modify hf.blocks hg b.index⟩

theorem addGlobal {ty : Ty} (h : Twins i o full s t) (name : String) (ht : ty.In (t.home i))
    (data : Option Bytes) :
    (t.addGlobal i name ty data).1 = (s.addGlobal i name ty data).1 ∧
      Twins i o full (s.addGlobal i name ty data).2 (t.addGlobal i name ty data).2 := by
  have hm : t.modules[i]? = s.modules[i]? := h.module
  refine ⟨?_, h.updateModule fun m hm => hm.addGlobal name ht data⟩
  rw [Session.addGlobal, Session.addGlobal, hm]

theorem addFunction {sig : Signature} (h : Twins i o full s t) (name : String)
    (hs : sig.ty.In (t.home i)) (l : Linkage) :
    (t.addFunction i name sig l).1 = (s.addFunction i name sig l).1 ∧
      Twins i o full (s.addFunction i name sig l).2 (t.addFunction i name sig l).2 := by
  have hm : t.modules[i]? = s.modules[i]? := h.module
  refine ⟨?_, h.updateModule fun m hm => hm.addFunction name hs l⟩
  rw [Session.addFunction, Session.addFunction, hm]

theorem ensureStruct {name : String} (h : Twins i o full s t) (hn : name ≠ "") :
    Twins i o full (s.ensureStruct name) (t.ensureStruct name) := by
  have hreg : ∀ (s : Session) r, (s.ensureStruct name).register? r = s.register? r := by
    simp [Session.register?]
  have hw : (t.home i).Within ((t.ensureStruct name).home i) :=
    ⟨rfl, subset_structNames_ensureStruct t name⟩
  refine ⟨⟨?_, ?_, ?_, bodiless_ensureStruct h.left name, bodiless_ensureStruct h.right name, ?_,
    ?_, ?_, ?_, ?_, ?_⟩, ?_, ?_⟩
  · simpa using h.current
  · simpa using h.length
  · simpa [module?] using h.module
  · intro x hx
    rw [mem_structNames_ensureStruct hn] at hx ⊢
    exact hx.imp_left (h.names ·)
  · simpa [StandsIn] using h.position
  · simpa [hreg] using h.unbound
  · simpa [hreg] using h.bound
  · intro r v hv
    rw [hreg] at hv
    exact (h.values r v hv).mono hw
  · intro m hm
    rw [module?_congr (modules_ensureStruct t name)] at hm
    exact (h.closed m hm).mono hw
  · simpa using h.here
  · simpa using h.inside

theorem foldl_ensureStruct {names : List String} (h : Twins i o full s t)
    (hn : ∀ name ∈ names, name ≠ "") :
    Twins i o full (names.foldl Session.ensureStruct s) (names.foldl Session.ensureStruct t) := by
  induction names generalizing s t with
  | nil => exact h
  | cons name names ih =>
    exact ih (h.ensureStruct (hn name (by simp))) fun x hx => hn x (List.mem_cons_of_mem _ hx)

end Twins

end Session

open Session

/-- Two sessions have gone on: the second knows as many structs or more, the builder of the first
has not moved, and no register of the first has been set. -/
structure Session.Advance (s t s' t' : Session) : Prop where
  grown : t.structNames ⊆ t'.structNames
  still : s'.position = s.position
  kept : s'.registers = s.registers

namespace Session.Advance

variable {s t s' t' s'' t'' : Session}

theorem refl (s t : Session) : Advance s t s t := ⟨List.Subset.refl _, rfl, rfl⟩

theorem trans (h : Advance s t s' t') (h' : Advance s' t' s'' t'') : Advance s t s'' t'' :=
  ⟨List.Subset.trans h.grown h'.grown, h'.still.trans h.still, h'.kept.trans h.kept⟩

theorem within (h : Advance s t s' t') (i : Nat) : (t.home i).Within (t'.home i) :=
  ⟨rfl, h.grown⟩

end Session.Advance

abbrev Session.Twins.comparison (i : Nat) (o : Owners) (full : Prop) : Comparison where
  Holds s t s' t' := Twins i o full s' t' ∧ Advance s t s' t'
  stay h := ⟨h.1, .refl _ _⟩
  trans h h' := ⟨h'.1, h.2.trans h'.2⟩

/-- Computations couple on sessions that agree on a module, with a result of which `P` is true in
the home of the module. -/
abbrev Attempt.CouplesIn {α : Type} (i : Nat) (o : Owners) (full : Prop) (P : Home → α → Prop)
    (x y : Attempt α) (s t : Session) : Prop :=
  Couples (Twins.comparison i o full) (fun u => P (u.home i)) x y s t

open Attempt

variable {i : Nat} {o : Owners} {full : Prop} {s u : Session}

theorem Session.Twins.holds (h : Twins i o full s u) :
    (Twins.comparison i o full).Holds s u s u :=
  ⟨h, .refl s u⟩

theorem TypeExpr.eval_couples {t : TypeExpr} (ht : t.anonymous) (h : Twins i o full s u) :
    CouplesIn i o full Ty.In t.eval t.eval s u := by
  have hensure : ∀ {name : String}, name ≠ "" →
      CouplesIn i o full Ty.In
        (do modify (·.ensureStruct name); return .ptr (.struct name) 0)
        (do modify (·.ensureStruct name); return .ptr (.struct name) 0) s u := by
    intro name hname
    have hstruct := h.ensureStruct hname
    have hadvance : Advance s u (s.ensureStruct name) (u.ensureStruct name) :=
      ⟨subset_structNames_ensureStruct u name, by simp, by simp⟩
    refine .modify_bind ⟨hstruct, hadvance⟩ (.pure hstruct.holds ?_)
    exact Ty.in_ptr.mpr (Ty.in_struct.mpr ((mem_structNames_ensureStruct hname).mpr (.inr rfl)))
  induction t with
  | void => exact .pure h.holds Ty.in_void
  | double => exact .pure h.holds Ty.in_double
  | int bits => exact .pure h.holds Ty.in_int
  | qubit => exact hensure (by decide)
  | result => exact hensure (by decide)
  | ptr t n ih => exact .bind (ih ht) fun _ _ _ ⟨h, _⟩ hty => .pure h.holds (Ty.in_ptr.mpr hty)
  | array t n ih => exact .bind (ih ht) fun _ _ _ ⟨h, _⟩ hty => .pure h.holds (Ty.in_array.mpr hty)
  | struct name => cases ht

theorem TypeExpr.evalPtr_couples {t : TypeExpr} (ht : t.anonymous) (h : Twins i o full s u) :
    CouplesIn i o full Ty.In t.evalPtr t.evalPtr s u := by
  refine .bind (TypeExpr.eval_couples ht h) fun t s' u' ⟨h, _⟩ hty => ?_
  split
  · exact .pure h.holds hty
  · exact .reject h.holds _ _

theorem TypeExpr.evalList_couples {ts : List TypeExpr} (ht : ∀ t ∈ ts, t.anonymous)
    (h : Twins i o full s u) :
    CouplesIn i o full (fun k ts => ∀ t ∈ ts, t.In k) (evalList ts) (evalList ts) s u := by
  induction ts generalizing s u with
  | nil => exact .pure h.holds nofun
  | cons t ts ih =>
    refine .cons (TypeExpr.eval_couples (ht t (by simp)) h)
      (fun s' u' h => ih (fun t hm => ht t (by simp [hm])) h.1) ?_
    rintro a as s' u' s'' u'' ha h has x (_ | ⟨_, hx⟩)
    · exact ha.mono (h.2.within i)
    · exact has x hx

theorem Session.Twins.currentModule (h : Twins i o full s u) :
    CouplesIn i o full Module.In Attempt.currentModule Attempt.currentModule s u := by
  refine .get_bind ?_
  rw [h.there, h.here, h.module]
  exact .require h.holds (fun m hm => h.closed m (h.module.trans hm)) _ _

theorem Session.Twins.findFunction (h : Twins i o full s u) (name : String) :
    CouplesIn i o full (fun k rf => rf.1.module = k.module ∧ rf.2.In k) (Attempt.findFunction name)
      (Attempt.findFunction name) s u := by
  refine .get_bind (.bind h.currentModule fun m s' u' ⟨h', _⟩ hm => ?_)
  refine .bind (.require (P := fun _ _ => True) h'.holds (fun _ _ => trivial) _ _)
    fun j s'' u'' ⟨h'', hn⟩ _ => ?_
  refine .bind (.require (P := fun w f => f.In (w.home i)) h''.holds (fun f hf => ?_) _ _)
    fun f s₃ u₃ ⟨h₃, _⟩ hf => ?_
  · exact (hm.functions f (List.mem_of_getElem? hf)).mono (hn.within i)
  · rw [h.there, h.here]
    exact .pure h₃.holds ⟨rfl, hf⟩

theorem Session.Twins.constant (h : Twins i o full s u) {v : Value} (hv : v.In (u.home i)) :
    CouplesIn i o full Constant.In (Attempt.constant v) (Attempt.constant v) s u := by
  cases v with
  | const c => exact .pure h.holds hv
  | bound | metadata => exact .reject h.holds _ _

theorem Session.Twins.addString (h : Twins i o full s u) (data : Bytes) :
    CouplesIn i o full Constant.In (updateGuarded (·.addString i data))
      (updateGuarded (·.addString i data)) s u := by
  by_cases hl : lengthBound ≤ data.length
  · exact .updateGuarded_error h.holds (if_pos hl) (if_pos hl)
  · set ty : Ty := (Global.ofString (terminated data)).ty
    have hty : ty.In (u.home i) := Ty.in_array.mpr Ty.in_int
    have hok : ∀ w : Session, Bodiless w.structs →
        w.addString i data = .ok (.elementAt []
          (.global (w.addGlobal i "" ty (some (terminated data))).1 ty) false [.first, .first],
          (w.addGlobal i "" ty (some (terminated data))).2) := by
      intro w hw
      rw [← hw.elementAt]
      exact if_neg hl
    obtain ⟨hg, htwins⟩ := h.addGlobal "" hty (some (terminated data))
    refine .updateGuarded_ok (hok s h.left) (hg ▸ hok u h.right) ⟨htwins, ?_⟩ ?_
    · exact ⟨List.Subset.refl _, rfl, rfl⟩
    · exact Constant.In.elementAt (c := .global _ ty) ⟨rfl, hty⟩ _ _

mutual

theorem ValueExpr.eval_couples : ∀ {v : ValueExpr} {s u : Session}, v.anonymous →
    o.Allow i v.registers → Twins i o full s u → CouplesIn i o full Value.In v.eval v.eval s u
  | .qubit n, _, _, _, _, h =>
    .bind (TypeExpr.eval_couples (t := .qubit) rfl h) fun _ _ _ ⟨h, _⟩ hty =>
      .pure h.holds (Constant.in_intToPtr hty n)
  | .result n, _, _, _, _, h =>
    .bind (TypeExpr.eval_couples (t := .result) rfl h) fun _ _ _ ⟨h, _⟩ hty =>
      .pure h.holds (Constant.in_intToPtr hty n)
  | .int _ _, _, _, _, _, h => .pure h.holds trivial
  | .double _, _, _, _, _, h => .pure h.holds trivial
  | .null t, _, _, ha, _, h => by
    refine .bind (TypeExpr.eval_couples ha h) fun t _ _ ⟨h, _⟩ hty => ?_
    refine .bind (.require (P := fun w c => Constant.In (w.home i) c) h.holds
      (fun c hc => Constant.in_of_zeroOf? hty hc) _ _) fun c _ _ ⟨h, _⟩ hc => ?_
    exact .pure h.holds hc
  | .intToPtr n t, _, _, ha, _, h =>
    .bind (TypeExpr.evalPtr_couples ha h) fun _ _ _ ⟨h, _⟩ hty =>
      .pure h.holds (Constant.in_intToPtr hty n)
  | .bitcast v t, _, _, ha, ho, h => by
    simp only [ValueExpr.anonymous, Bool.and_eq_true] at ha
    refine .bind (ValueExpr.eval_couples ha.1 ho h) fun v _ _ ⟨h, _⟩ hv => ?_
    refine .bind (h.constant hv) fun c _ _ ⟨h, _⟩ hc => ?_
    refine .bind (TypeExpr.eval_couples ha.2 h) fun t _ _ ⟨h, hn⟩ hty => .get_bind ?_
    rw [h.left.bitcast, h.right.bitcast]
    refine .modify_bind ⟨h.noteCast c _, ?_, by simp, by simp⟩ (.pure (h.noteCast c _).holds ?_)
    · rw [structNames_noteCast]
      exact List.Subset.refl _
    · rw [home, structNames_noteCast]
      exact Constant.In.bitcast (hc.mono (hn.within i)) hty
  | .string data, s, u, _, _, h => by
    refine .get_bind ?_
    rw [h.here, h.there]
    exact .bind (h.addString data) fun c _ _ ⟨h, _⟩ hc => .pure h.holds hc
  | .base v, _, _, ha, ho, h => by
    refine .bind (ValueExpr.eval_couples ha ho h) fun v _ _ ⟨h, _⟩ hv => ?_
    refine .bind (h.constant hv) fun c _ _ ⟨h, _⟩ hc => ?_
    exact .bind (.require h.holds (fun d hd => hc.base? hd) _ _)
      fun d _ _ ⟨h, _⟩ hd => .pure h.holds hd
  | .element v _ _, _, _, ha, ho, h => by
    refine .bind (ValueExpr.eval_couples ha ho h) fun v _ _ ⟨h, _⟩ hv => ?_
    refine .bind (h.constant hv) fun c _ _ ⟨h, _⟩ hc => .get_bind ?_
    simp only [h.left.inside?, h.right.inside?, h.left.elementAt, h.right.elementAt]
    refine .bind (.require (P := fun _ _ => True) h.holds (fun _ _ => trivial) _ _)
      fun _ _ _ ⟨h, hn⟩ _ => ?_
    exact .pure h.holds ((hc.mono (hn.within i)).elementAt _ _)
  | .fn name, _, _, _, _, h =>
    .bind (h.findFunction name) fun _ _ _ ⟨h, _⟩ hf => .pure h.holds ⟨hf.1, hf.2.sig⟩
  | .param name _, _, _, _, _, h => by
    refine .bind (h.findFunction name) fun rf _ _ ⟨h, _⟩ hf => ?_
    refine .bind (.require (P := fun _ _ => True) h.holds (fun _ _ => trivial) _ _)
      fun _ _ _ ⟨h, _⟩ _ => ?_
    exact .pure h.holds trivial
  | .register name, s, u, _, ho, h => by
    refine .get_bind ?_
    have hsame : u.register? name = s.register? name := by
      rcases ho name (by simp [ValueExpr.registers]) with hn | hb
      · rw [(h.unbound name hn).1, (h.unbound name hn).2]
      · exact h.bound name hb
    rw [← hsame]
    exact .require h.holds (fun v hv => h.values name v hv) _ _
  | .metadata m, _, _, ha, ho, h =>
    .bind (MetadataExpr.eval_couples ha ho h) fun _ _ _ ⟨h, _⟩ hm => .pure h.holds hm.asValue

theorem MetadataExpr.eval_couples : ∀ {m : MetadataExpr} {s u : Session}, m.anonymous →
    o.Allow i m.registers → Twins i o full s u → CouplesIn i o full Metadata.In m.eval m.eval s u
  | .str _, _, _, _, _, h => .pure h.holds trivial
  | .node _, _, _, ha, ho, h =>
    .bind (MetadataExpr.evalList_couples ha ho h) fun _ _ _ ⟨h, _⟩ hms => .pure h.holds hms
  | .value _, _, _, ha, ho, h =>
    .bind (ValueExpr.eval_couples ha ho h) fun _ _ _ ⟨h, _⟩ hv => .pure h.holds hv.toMetadata

theorem MetadataExpr.evalList_couples : ∀ {ms : List MetadataExpr} {s u : Session},
    MetadataExpr.anonymousAll ms → o.Allow i (MetadataExpr.registersAll ms) →
      Twins i o full s u → CouplesIn i o full Metadata.InAll (MetadataExpr.evalList ms)
        (MetadataExpr.evalList ms) s u
  | [], _, _, _, _, h => .pure h.holds trivial
  | m :: ms, _, _, ha, ho, h => by
    simp only [MetadataExpr.anonymousAll, Bool.and_eq_true] at ha
    obtain ⟨hm, hms⟩ := List.forall_mem_append.mp ho
    refine .cons (MetadataExpr.eval_couples ha.1 hm h)
      (fun s' u' h => MetadataExpr.evalList_couples ha.2 hms h.1) ?_
    intro a as s' u' s'' u'' ha h has
    exact ⟨ha.mono (h.2.within i), has⟩

end

theorem ValueExpr.evalList_couples {vs : List ValueExpr} (ha : ∀ v ∈ vs, v.anonymous)
    (ho : o.Allow i (vs.flatMap ValueExpr.registers)) (h : Twins i o full s u) :
    CouplesIn i o full (fun k vs => ∀ v ∈ vs, v.In k) (evalList vs) (evalList vs) s u := by
  induction vs generalizing s u with
  | nil => exact .pure h.holds nofun
  | cons v vs ih =>
    obtain ⟨hv, hvs⟩ := List.forall_mem_append.mp ho
    refine .cons (ValueExpr.eval_couples (ha v (by simp)) hv h)
      (fun s' u' h => ih (fun v hm => ha v (by simp [hm])) hvs h.1) ?_
    rintro a as s' u' s'' u'' ha h has x (_ | ⟨_, hx⟩)
    · exact ha.mono (h.2.within i)
    · exact has x hx

end QuantumIR
