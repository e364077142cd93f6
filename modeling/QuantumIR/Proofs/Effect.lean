import Mathlib.Logic.Relation
import QuantumIR.Proofs.Growth
import QuantumIR.Run

/-! # What evaluation and commands may do

The value of an expression is found with three side effects at most: a struct that was missing, a
note of a cast, and a string in the module in use. The changes of a command are listed once, and
what holds after each of them holds after every command.
-/

namespace QuantumIR

open Relation

namespace Attempt

variable {α β : Type} {E : Session → Session → Prop} {s : Session} {x : Attempt α}
  {k : α → Attempt β}

/-- The session that a computation leaves, whether or not it has been stopped. -/
def leaves (x : Attempt α) (s : Session) : Session :=
  match x s with
  | .ok _ t => t
  | .error _ t => t

theorem leaves_ok {a : α} {t : Session} (h : x s = .ok a t) : x.leaves s = t := by simp [leaves, h]

theorem leaves_error {e : Fault} {t : Session} (h : x s = .error e t) : x.leaves s = t := by
  simp [leaves, h]

theorem answer_snd (x : Attempt Answer) (s : Session) : (x.answer s).2 = x.leaves s := by
  unfold Attempt.answer leaves
  cases x s <;> rfl

@[simp] theorem leaves_require (d : Defect) (o : Option α) (s : Session) :
    (require d o).leaves s = s := by
  cases o <;> rfl

@[simp] theorem leaves_guarded (o : Except Panic α) (s : Session) : (guarded o).leaves s = s := by
  cases o <;> rfl

theorem leaves_bind (x : Attempt α) (k : α → Attempt β) (s : Session) :
    (x >>= k).leaves s =
      match x s with
      | .ok a t => (k a).leaves t
      | .error _ t => t := by
  change Attempt.leaves (EStateM.bind x k) s = _
  unfold leaves EStateM.bind
  cases x s <;> rfl

@[simp] theorem leaves_get_bind (k : Session → Attempt β) (s : Session) :
    (get >>= k).leaves s = (k s).leaves s := leaves_bind _ k s

@[simp] theorem leaves_modify_bind (g : Session → Session) (k : Unit → Attempt β) (s : Session) :
    (modify g >>= k).leaves s = (k ()).leaves (g s) := leaves_bind _ k s

@[simp] theorem leaves_update_bind (g : Session → α × Session) (k : α → Attempt β) (s : Session) :
    (update g >>= k).leaves s = (k (g s).1).leaves (g s).2 := leaves_bind _ k s

theorem reaches_bind (hx : ReflTransGen E s (x.leaves s))
    (hk : ∀ a t, x s = .ok a t → ReflTransGen E t ((k a).leaves t)) :
    ReflTransGen E s ((x >>= k).leaves s) := by
  rw [leaves_bind]
  cases h : x s with
  | ok a t =>
    rw [leaves_ok h] at hx
    exact hx.trans (hk a t h)
  | error e t => rwa [leaves_error h] at hx

theorem reaches_pass (hx : x.leaves s = s)
    (hk : ∀ a, x s = .ok a s → ReflTransGen E s ((k a).leaves s)) :
    ReflTransGen E s ((x >>= k).leaves s) := by
  refine reaches_bind (by rw [hx]) fun a t h => ?_
  obtain rfl : t = s := (leaves_ok h).symm.trans hx
  exact hk a h

theorem leaves_pass (hx : x.leaves s = s) (hk : ∀ a, (k a).leaves s = s) :
    (x >>= k).leaves s = s := by
  rw [leaves_bind]
  cases h : x s with
  | ok a t =>
    obtain rfl : t = s := (leaves_ok h).symm.trans hx
    exact hk a
  | error e t => exact (leaves_error h).symm.trans hx

@[simp] theorem leaves_constant (v : Value) (s : Session) : (constant v).leaves s = s := by
  cases v <;> rfl

@[simp] theorem leaves_currentModule (s : Session) : currentModule.leaves s = s := by
  simp [currentModule]

@[simp] theorem leaves_findFunction (name : String) (s : Session) :
    (findFunction name).leaves s = s := by
  unfold findFunction
  refine leaves_pass rfl fun s' => leaves_pass (leaves_currentModule s) fun m => ?_
  exact leaves_pass (leaves_require _ _ s) fun i => leaves_pass (leaves_require _ _ s) fun f => rfl

theorem bind_of_ok {a : α} {t : Session} (h : x s = .ok a t) : (x >>= k) s = k a t := by
  change EStateM.bind x k s = _
  simp only [EStateM.bind, h]

theorem bind_of_error {e : Fault} {t : Session} (h : x s = .error e t) :
    (x >>= k) s = .error e t := by
  change EStateM.bind x k s = _
  simp only [EStateM.bind, h]

theorem ok_bind {b : β} {t : Session} (h : (x >>= k) s = .ok b t) :
    ∃ a u, x s = .ok a u ∧ k a u = .ok b t := by
  change EStateM.bind x k s = _ at h
  unfold EStateM.bind at h
  cases hx : x s with
  | ok a u => rw [hx] at h; exact ⟨a, u, rfl, h⟩
  | error e u => rw [hx] at h; cases h

theorem error_bind {e : Fault} {t : Session} (h : (x >>= k) s = .error e t) :
    x s = .error e t ∨ ∃ a u, x s = .ok a u ∧ k a u = .error e t := by
  change EStateM.bind x k s = _ at h
  unfold EStateM.bind at h
  cases hx : x s with
  | ok a u => rw [hx] at h; exact .inr ⟨a, u, rfl, h⟩
  | error e' u => rw [hx] at h; cases h; exact .inl rfl

theorem ok_require {d : Defect} {o : Option α} {a : α} {t : Session}
    (h : require d o s = .ok a t) : o = some a ∧ t = s := by
  cases o with
  | none => cases h
  | some b => cases h; exact ⟨rfl, rfl⟩

theorem ok_updateGuarded {g : Session → Except Panic (α × Session)} {a : α} {t : Session} :
    updateGuarded g s = .ok a t ↔ g s = .ok (a, t) := by
  unfold updateGuarded
  cases h : g s with
  | ok p => obtain ⟨b, u⟩ := p; simp
  | error p => simp

theorem error_updateGuarded {g : Session → Except Panic (α × Session)} {e : Fault} {t : Session}
    (h : updateGuarded g s = .error e t) : t = s := by
  unfold updateGuarded at h
  split at h <;> cases h
  rfl

theorem leaves_updateGuarded_ok {g : Session → Except Panic (α × Session)} {a : α} {t : Session}
    (h : g s = .ok (a, t)) : (updateGuarded g).leaves s = t :=
  leaves_ok (ok_updateGuarded.mpr h)

theorem leaves_updateGuarded_error {g : Session → Except Panic (α × Session)} {p : Panic}
    (h : g s = .error p) : (updateGuarded g).leaves s = s := by
  simp [updateGuarded, leaves, h]

theorem ok_currentModule {m : Module} {t : Session} (h : currentModule s = .ok m t) :
    s.module? s.current = some m ∧ t = s := by
  unfold currentModule at h
  obtain ⟨s', u, hg, h⟩ := ok_bind h
  cases hg
  exact ok_require h

theorem ok_findFunction {name : String} {r : FnRef} {f : Fn} {t : Session}
    (h : findFunction name s = .ok (r, f) t) :
    s.fn? r = some f ∧ r.module = s.current ∧
      (s.module? s.current).bind (·.findFunction? name) = some r.index ∧ t = s := by
  unfold findFunction at h
  obtain ⟨s', u, hg, h⟩ := ok_bind h
  cases hg
  obtain ⟨m, u, hm, h⟩ := ok_bind h
  obtain ⟨hm, rfl⟩ := ok_currentModule hm
  obtain ⟨i, v, hi, h⟩ := ok_bind h
  obtain ⟨hplace, rfl⟩ := ok_require hi
  obtain ⟨g, w, hg, h⟩ := ok_bind h
  obtain ⟨hf, rfl⟩ := ok_require hg
  cases h
  exact ⟨Session.fn?_eq_some_iff.mpr ⟨m, hm, hf⟩, rfl, by rw [hm]; exact hplace, rfl⟩

theorem findFunction_of_place {name : String} {m : Module} {k : Nat} {f : Fn}
    (hm : s.module? s.current = some m) (hk : m.findFunction? name = some k)
    (hf : m.functions[k]? = some f) : findFunction name s = .ok (⟨s.current, k⟩, f) s := by
  have hmodule : currentModule s = .ok m s := by
    change require _ (s.module? s.current) s = _
    rw [hm]
    rfl
  change (currentModule >>= _) s = _
  rw [bind_of_ok hmodule, hk]
  change (require _ m.functions[k]? >>= _) s = _
  rw [hf]
  rfl

end Attempt

open Attempt

namespace Session

/-- The side effects of evaluating an expression. -/
inductive SideEffect : Session → Session → Prop
  | struct (s : Session) (name : String) : SideEffect s (s.ensureStruct name)
  | cast (s : Session) (c d : Constant) : SideEffect s (s.noteCast c d)
  | string {s t : Session} {data : Bytes} {c : Constant} :
      s.addString s.current data = .ok (c, t) → SideEffect s t

abbrev Evaluates : Session → Session → Prop := ReflTransGen SideEffect

end Session

open Session

theorem TypeExpr.eval_evaluates (t : TypeExpr) (s : Session) : Evaluates s (t.eval.leaves s) := by
  induction t generalizing s with
  | void | double | int _ => exact .refl
  | qubit => exact .single (.struct s Ty.qubitName)
  | result => exact .single (.struct s Ty.resultName)
  | ptr t n ih => exact reaches_bind (ih s) fun _ _ _ => .refl
  | array t n ih => exact reaches_bind (ih s) fun _ _ _ => .refl
  | struct name =>
    unfold TypeExpr.eval
    rw [leaves_get_bind]
    split <;> exact .refl

theorem TypeExpr.evalPtr_evaluates (t : TypeExpr) (s : Session) :
    Evaluates s (t.evalPtr.leaves s) := by
  refine reaches_bind (t.eval_evaluates s) fun t u _ => ?_
  split <;> exact .refl

mutual

theorem ValueExpr.eval_evaluates : ∀ (v : ValueExpr) (s : Session), Evaluates s (v.eval.leaves s)
  | .qubit _, s => reaches_bind (TypeExpr.eval_evaluates .qubit s) fun _ _ _ => .refl
  | .result _, s => reaches_bind (TypeExpr.eval_evaluates .result s) fun _ _ _ => .refl
  | .int _ _, _ => .refl
  | .double _, _ => .refl
  | .null t, s => by
    refine reaches_bind (t.eval_evaluates s) fun t u _ => ?_
    exact reaches_pass (leaves_require _ _ u) fun _ _ => .refl
  | .intToPtr _ t, s => reaches_bind (t.evalPtr_evaluates s) fun _ _ _ => .refl
  | .bitcast v t, s => by
    refine reaches_bind (v.eval_evaluates s) fun v u _ => ?_
    refine reaches_pass (leaves_constant v u) fun c _ => ?_
    refine reaches_bind (t.eval_evaluates u) fun t w _ => ?_
    rw [leaves_get_bind, leaves_modify_bind]
    exact .single (.cast w _ _)
  | .string data, s => by
    unfold ValueExpr.eval
    rw [leaves_get_bind]
    refine reaches_bind ?_ fun _ _ _ => .refl
    cases h : s.addString s.current data with
    | ok ct =>
      rw [leaves_updateGuarded_ok h]
      exact .single (.string h)
    | error p => rw [leaves_updateGuarded_error h]
  | .base v, s => by
    refine reaches_bind (v.eval_evaluates s) fun v u _ => ?_
    refine reaches_pass (leaves_constant v u) fun c _ => ?_
    exact reaches_pass (leaves_require _ _ u) fun _ _ => .refl
  | .element v _ _, s => by
    refine reaches_bind (v.eval_evaluates s) fun v u _ => ?_
    refine reaches_pass (leaves_constant v u) fun c _ => ?_
    rw [leaves_get_bind]
    exact reaches_pass (leaves_require _ _ u) fun _ _ => .refl
  | .fn name, s => reaches_pass (leaves_findFunction name s) fun _ _ => .refl
  | .param name _, s => by
    refine reaches_pass (leaves_findFunction name s) fun _ _ => ?_
    exact reaches_pass (leaves_require _ _ s) fun _ _ => .refl
  | .register _, s => by
    unfold ValueExpr.eval
    rw [leaves_get_bind, leaves_require]
  | .metadata m, s => reaches_bind (m.eval_evaluates s) fun _ _ _ => .refl

theorem MetadataExpr.eval_evaluates :
    ∀ (m : MetadataExpr) (s : Session), Evaluates s (m.eval.leaves s)
  | .str _, _ => .refl
  | .node ms, s => reaches_bind (MetadataExpr.evalList_evaluates ms s) fun _ _ _ => .refl
  | .value v, s => reaches_bind (v.eval_evaluates s) fun _ _ _ => .refl

theorem MetadataExpr.evalList_evaluates :
    ∀ (ms : List MetadataExpr) (s : Session), Evaluates s ((MetadataExpr.evalList ms).leaves s)
  | [], _ => .refl
  | m :: ms, s => by
    refine reaches_bind (m.eval_evaluates s) fun _ u _ => ?_
    exact reaches_bind (MetadataExpr.evalList_evaluates ms u) fun _ _ _ => .refl

end

theorem ValueExpr.evalList_evaluates (vs : List ValueExpr) (s : Session) :
    Evaluates s ((ValueExpr.evalList vs).leaves s) := by
  induction vs generalizing s with
  | nil => exact .refl
  | cons v vs ih =>
    refine reaches_bind (v.eval_evaluates s) fun _ u _ => ?_
    exact reaches_bind (ih u) fun _ _ _ => .refl

theorem TypeExpr.evalList_evaluates (ts : List TypeExpr) (s : Session) :
    Evaluates s ((TypeExpr.evalList ts).leaves s) := by
  induction ts generalizing s with
  | nil => exact .refl
  | cons t ts ih =>
    refine reaches_bind (t.eval_evaluates s) fun _ u _ => ?_
    exact reaches_bind (ih u) fun _ _ _ => .refl

namespace Session

/-- The changes that a command is made of. The builder moves to a block only when the block is
new. -/
inductive Change : Session → Session → Prop
  | side {s t : Session} : SideEffect s t → Change s t
  | module (s : Session) (name : String) : Change s (s.addModule name)
  | use (s : Session) (i : Nat) : Change s { s with current := i }
  | flag (s : Session) (f : Flag) : Change s (s.updateModule s.current (·.addFlag f))
  | struct (s : Session) (name : String) : Change s (s.addStruct name).2
  | setBody (s : Session) (i : Nat) (ts : List Ty) : Change s (s.setBody i ts)
  | function (s : Session) (i : Nat) (name : String) (sig : Signature) (l : Linkage) :
      Change s (s.addFunction i name sig l).2
  | global (s : Session) (i : Nat) (name : String) (ty : Ty) : Change s (s.addGlobal i name ty).2
  | attr (s : Session) (r : FnRef) (i : AttrIndex) (key value : Bytes) :
      Change s (s.addAttr r i (.string key value))
  | measurement (s : Session) (r : FnRef) : Change s (s.markMeasurement r)
  | register (s : Session) (name : String) (v : Value) : Change s (s.setRegister name v)
  | block (s : Session) (r : FnRef) (name : Bytes) : (s.fn? r).isSome →
      Change s ((s.addBlock r name).2.moveTo (s.addBlock r name).1)
  | unset (s : Session) : Change s { s with position := .unset }
  | loose (s : Session) (name : Bytes) : Change s { s with position := .loose name }
  | instr (s : Session) (i : Instr) : i.targets = [] → Change s (s.append i)

abbrev Acts : Session → Session → Prop := ReflTransGen Change

theorem Evaluates.acts {s t : Session} (h : Evaluates s t) : Acts s t :=
  h.lift id fun _ _ => .side

theorem foldl_ensureStruct_evaluates (names : List String) (s : Session) :
    Evaluates s (names.foldl ensureStruct s) := by
  induction names generalizing s with
  | nil => exact .refl
  | cons name names ih => exact (ReflTransGen.single (.struct s name)).trans (ih _)

theorem declare_acts (s : Session) (i : Nat) (op : Operation) : Acts s (s.declare i op).2 := by
  unfold declare
  split
  · exact .refl
  · exact .single (.function s i op.symbol op.signature .external)

theorem mark_acts (s : Session) (op : Operation) (r : FnRef) : Acts s (s.mark op r) := by
  unfold mark
  split
  · exact .single (.measurement s r)
  · exact .refl

theorem prepare_acts (s : Session) (i : Nat) (op : Operation) : Acts s (s.prepare i op).2 :=
  ((foldl_ensureStruct_evaluates op.structs s).acts.trans (declare_acts _ i op)).trans
    (mark_acts _ op _)

theorem emit_ok {s t : Session} {op : Operation} {args : List Value} {v : Value}
    (h : s.emit op args = .ok (v, t)) : ∃ b, s.position = .endOf b ∧
      (s.prepare b.fn.module op).2.call (s.prepare b.fn.module op).1 args = (v, t) := by
  unfold emit builderFn? at h
  cases hp : s.position with
  | endOf b =>
    rw [hp] at h
    exact ⟨b, rfl, Except.ok.inj h⟩
  | unset | loose =>
    rw [hp] at h
    cases h

/-- What holds when an operation has been made ready, and is kept by a call, holds when the
operation has been called. -/
theorem emit_induction {P : Session → Prop} {s t : Session} {op : Operation} {args : List Value}
    {v : Value} (h : s.emit op args = .ok (v, t))
    (hprepare : ∀ b, s.position = .endOf b → P (s.prepare b.fn.module op).2)
    (hcall : ∀ u callee sig, P u → P (u.append (.call callee sig args))) : P t := by
  obtain ⟨b, hb, hemit⟩ := emit_ok h
  obtain ⟨-, rfl⟩ := Prod.mk.inj hemit
  exact hcall _ _ _ (hprepare b hb)

theorem emit_acts {s t : Session} {op : Operation} {args : List Value} {v : Value}
    (h : s.emit op args = .ok (v, t)) : Acts s t :=
  emit_induction h (fun b _ => prepare_acts s b.fn.module op)
    fun u _ _ hu => hu.tail (.instr u _ rfl)

/-- What is kept by new structs, by the declaration of a function and by its attributes is kept when
an operation is made ready. -/
theorem prepare_induction {P : Session → Prop} {s : Session} {i : Nat} {op : Operation} (hs : P s)
    (hstruct : ∀ s name, P s → P (ensureStruct s name))
    (hfn : ∀ s, P s → P (s.addFunction i op.symbol op.signature).2)
    (hattr : ∀ s (r : FnRef) x a, r.module = i → P s → P (s.addAttr r x a)) :
    P (s.prepare i op).2 := by
  have hstructs : P (op.structs.foldl ensureStruct s) :=
    List.foldlRecOn _ _ hs fun t ht name _ => hstruct t name ht
  have hdeclare : ∀ t, P t → P (t.declare i op).2 ∧ (t.declare i op).1.module = i := by
    intro t ht
    unfold declare
    split
    · exact ⟨ht, rfl⟩
    · exact ⟨hfn t ht, rfl⟩
  obtain ⟨hd, hr⟩ := hdeclare _ hstructs
  show P (mark _ op _)
  unfold mark
  split
  · rw [markMeasurement_eq]
    exact hattr _ _ _ _ hr (hattr _ _ _ _ hr hd)
  · exact hd

theorem position_prepare (s : Session) (i : Nat) (op : Operation) :
    (s.prepare i op).2.position = s.position :=
  prepare_induction (P := fun t => t.position = s.position) rfl
    (fun t name h => (position_ensureStruct t name).trans h) (fun _ h => h) (fun _ _ _ _ _ h => h)

theorem emit_position {s t : Session} {op : Operation} {args : List Value} {v : Value}
    (h : s.emit op args = .ok (v, t)) : t.position = s.position :=
  emit_induction (P := fun t => t.position = s.position) h
    (fun b _ => position_prepare s b.fn.module op) fun u _ _ hu => (position_append u _).trans hu

theorem addEntryPoint_eq (s : Session) (i : Nat) (e : EntryPoint) :
    (s.addEntryPoint i e).2 = (s.addFunction i e.name ⟨.void, []⟩).2.updateFn
      (s.addFunction i e.name ⟨.void, []⟩).1 e.mark := rfl

theorem updateFn_mark (s : Session) (r : FnRef) (e : EntryPoint) :
    s.updateFn r e.mark = e.attributes.foldl
      (fun s (key, value) => s.addAttr r .function (.string (Bytes.ofString key) value)) s := by
  have hfold : ∀ (kvs : List (String × Bytes)) (t : Session), kvs.foldl
      (fun t (key, value) => t.addAttr r .function (.string (Bytes.ofString key) value)) t =
        t.updateFn r fun f => kvs.foldl
          (fun f (key, value) => f.addAttr .function (.string (Bytes.ofString key) value)) f := by
    intro kvs t
    induction kvs generalizing t with
    | nil =>
      have hid : (fun m : Module => m.updateFunction r.index id) = id := by
        ext1 m
        simp [Module.updateFunction]
      exact (congrArg (fun ms => { t with modules := ms })
        ((congrArg _ hid).trans (List.modify_id _ _))).symm
    | cons kv kvs ih => exact (ih _).trans (updateFn_updateFn t r _ _)
  exact (hfold _ s).symm

theorem addEntryPoint_induction {P : Session → Prop} {s : Session} {i : Nat} {e : EntryPoint}
    (hfn : P (s.addFunction i e.name ⟨.void, []⟩).2)
    (hattr : ∀ s (r : FnRef) key value, r.module = i → P s →
      P (s.addAttr r .function (.string key value))) : P (s.addEntryPoint i e).2 := by
  rw [addEntryPoint_eq, updateFn_mark]
  exact List.foldlRecOn _ _ hfn fun t ht kv _ => hattr t _ (Bytes.ofString kv.1) kv.2 rfl ht

theorem addEntryPoint_acts (s : Session) (i : Nat) (e : EntryPoint) :
    Acts s (s.addEntryPoint i e).2 :=
  addEntryPoint_induction (.single (.function s i e.name ⟨.void, []⟩ .external))
    fun t r key value _ h => h.tail (.attr t r .function key value)

end Session

theorem leaves_lastInstruction (s : Session) : lastInstruction.leaves s = s :=
  leaves_pass rfl fun _ => leaves_pass (leaves_require _ _ s) fun _ => rfl

theorem leaves_requireBlock (s : Session) : requireBlock.leaves s = s := by
  unfold requireBlock
  rw [leaves_get_bind]
  split <;> rfl

namespace Command

def addsFlag : Command → Bool
  | .setVersion _ _ | .setManagement _ _ | .addFlag _ _ _ => true
  | _ => false

def appends : Command → Bool
  | .ret _ | .call _ _ _ | .apply _ _ => true
  | _ => false

def target? : Command → Option String
  | .bind name _ => some name
  | .call _ _ name => name
  | _ => none

/-- What a command may do to a session. Functions, globals, flags and blocks are added to the module
in use; a struct gets its body in the same command as its name. -/
inductive Does : Command → Session → Session → Prop
  | side {c : Command} {s t : Session} : SideEffect s t → Does c s t
  | module (s : Session) (name : String) : Does (.newModule name) s (s.addModule name)
  | use {s : Session} {i : Nat} : (s.module? i).isSome →
      Does (.useModule i) s { s with current := i }
  | flag {c : Command} (s : Session) (f : Flag) : c.addsFlag →
      Does c s (s.updateModule s.current (·.addFlag f))
  | struct {s t : Session} {name : String} {body : Option (List TypeExpr)} :
      Evaluates (s.addStruct name).2 t → Does (.newStruct name body) s t
  | structBody {s t : Session} {name : String} {body : Option (List TypeExpr)} (ts : List Ty) :
      Evaluates (s.addStruct name).2 t →
        Does (.newStruct name body) s (t.setBody s.structs.length ts)
  | entryPoint (s : Session) (e : EntryPoint) :
      Does (.entryPoint e) s (s.addEntryPoint s.current e).2
  | function (s : Session) {name : String} {output : TypeExpr} {params : List TypeExpr}
      {l : Linkage} (sig : Signature) :
      Does (.declare name output params l) s (s.addFunction s.current name sig l).2
  | global (s : Session) {name : String} {t : TypeExpr} (ty : Ty) :
      Does (.newGlobal name t) s (s.addGlobal s.current name ty).2
  | attr {s : Session} {fn : String} {i : AttrIndex} {key value : Bytes} {r : FnRef} :
      r.module = s.current → Does (.addAttr fn i key value) s (s.addAttr r i (.string key value))
  | register {c : Command} (s : Session) (name : String) (v : Value) : c.target? = some name →
      Does c s (s.setRegister name v)
  | block {s : Session} {fn name : String} {r : FnRef} : r.module = s.current →
      (s.fn? r).isSome → Does (.newBlock fn name) s
        ((s.addBlock r (Bytes.ofString name)).2.moveTo (s.addBlock r (Bytes.ofString name)).1)
  | move {s : Session} {fn : String} {i : Nat} {b : BlockRef} : b.fn.module = s.current →
      (s.body? b).isSome → Does (.position fn i) s (s.moveTo b)
  | unset (s : Session) : Does .unposition s { s with position := .unset }
  | loose (s : Session) (name : String) :
      Does (.looseBlock name) s { s with position := .loose (Bytes.ofString name) }
  | instr {c : Command} (s : Session) {i : Instr} : c.appends → i.targets = [] →
      Does c s (s.append i)
  | emit {s t : Session} {op : Operation} {es : List ValueExpr} {args : List Value} {v : Value} :
      s.emit op args = .ok (v, t) → Does (.apply op es) s t

theorem does_of_evaluates {s t : Session} (c : Command) (h : Evaluates s t) :
    ReflTransGen c.Does s t :=
  h.lift id fun _ _ => .side

theorem setVersion_does (flag : VersionFlag) (value : Int) (s : Session) :
    ReflTransGen (Does (.setVersion flag value)) s
      ((Command.setVersion flag value).act.leaves s) := by
  refine reaches_pass (leaves_currentModule s) fun m hm => ?_
  obtain ⟨hm, -⟩ := ok_currentModule hm
  refine reaches_pass (leaves_guarded _ s) fun n hn => ?_
  obtain ⟨f, rfl⟩ : ∃ f, n = m.addFlag f := by
    unfold Module.setVersion at hn
    split at hn <;> cases hn
    exact ⟨_, rfl⟩
  have hflag := Does.flag (c := .setVersion flag value) s f rfl
  rw [← updateModule_const hm (·.addFlag f)] at hflag
  exact .single hflag

/-- A struct is appended first, then its body is evaluated; it gets one unless that is stopped. -/
theorem newStruct_leaves (name : String) (body : Option (List TypeExpr)) (s : Session) :
    ∃ t, Evaluates (s.addStruct name).2 t ∧ ((Command.newStruct name body).act.leaves s = t ∨
      ∃ ts, (Command.newStruct name body).act.leaves s = t.setBody s.structs.length ts) := by
  unfold Command.act
  rw [leaves_update_bind]
  cases body with
  | none => exact ⟨_, .refl, .inl rfl⟩
  | some ts =>
    refine ⟨_, TypeExpr.evalList_evaluates ts (s.addStruct name).2, ?_⟩
    rw [leaves_bind]
    cases h : TypeExpr.evalList ts (s.addStruct name).2 with
    | ok ts' u =>
      rw [leaves_ok h]
      exact .inr ⟨ts', rfl⟩
    | error e u =>
      rw [leaves_error h]
      exact .inl rfl

theorem newStruct_does (name : String) (body : Option (List TypeExpr)) (s : Session) :
    ReflTransGen (Does (.newStruct name body)) s ((Command.newStruct name body).act.leaves s) := by
  obtain ⟨t, ht, h | ⟨ts, h⟩⟩ := newStruct_leaves name body s
  · rw [h]
    exact .single (.struct ht)
  · rw [h]
    exact .single (.structBody ts ht)

theorem position_does (fn : String) (i : Nat) (s : Session) :
    ReflTransGen (Does (.position fn i)) s ((Command.position fn i).act.leaves s) := by
  refine reaches_pass (leaves_findFunction fn s) fun rf h => ?_
  obtain ⟨r, f⟩ := rf
  obtain ⟨hf, hr, -⟩ := ok_findFunction h
  refine reaches_pass (leaves_require _ _ s) fun blk hblk => ?_
  obtain ⟨hblk, -⟩ := ok_require hblk
  have hbody : s.body? ⟨r, i⟩ = some blk.body := body?_eq_some_iff.mpr ⟨f, blk, hf, hblk, rfl⟩
  exact .single (.move hr (by simp [hbody]))

theorem appendRet_does (e : Option ValueExpr) (v : Option Value) (s : Session) :
    ReflTransGen (Does (.ret e)) s ((do
      requireBlock; modify (·.append (.ret v)); lastInstruction : Attempt Answer).leaves s) := by
  refine reaches_pass (leaves_requireBlock s) fun _ _ => ?_
  rw [leaves_modify_bind, leaves_lastInstruction]
  exact .single (.instr s rfl rfl)

theorem call_does (fn : String) (es : List ValueExpr) (name : Option String) (s : Session) :
    ReflTransGen (Does (.call fn es name)) s ((Command.call fn es name).act.leaves s) := by
  refine reaches_pass (leaves_findFunction fn s) fun rf _ => ?_
  refine reaches_bind (does_of_evaluates _ (ValueExpr.evalList_evaluates es s)) fun args t _ => ?_
  refine reaches_pass (leaves_requireBlock t) fun _ _ => ?_
  rw [leaves_update_bind]
  have hcall : Does (.call fn es name) t (t.call rf.1 args).2 := .instr t rfl rfl
  refine (ReflTransGen.single hcall).trans ?_
  cases name with
  | none =>
    change ReflTransGen _ _ (lastInstruction.leaves _)
    rw [leaves_lastInstruction]
  | some name =>
    refine reaches_bind (.single (.register _ name _ rfl)) fun _ u _ => ?_
    rw [leaves_lastInstruction]

theorem apply_leaves (op : Operation) (args : List ValueExpr) (s : Session) :
    ∃ t, Evaluates s t ∧ ((Command.apply op args).act.leaves s = t ∨
      ∃ values v, t.emit op values = .ok (v, (Command.apply op args).act.leaves s)) := by
  rw [Command.act]
  split
  · exact ⟨s, .refl, .inl rfl⟩
  have he := ValueExpr.evalList_evaluates args s
  rw [leaves_bind]
  cases hv : ValueExpr.evalList args s with
  | error e t =>
    rw [leaves_error hv] at he
    exact ⟨t, he, .inl rfl⟩
  | ok values t =>
    rw [leaves_ok hv] at he
    refine ⟨t, he, ?_⟩
    simp only [leaves_bind]
    cases h : t.emit op values with
    | error p => exact .inl (by simp [updateGuarded, h])
    | ok vt =>
      obtain ⟨v, u⟩ := vt
      have hg : updateGuarded (·.emit op values) t = .ok v u := ok_updateGuarded.mpr h
      refine .inr ⟨values, v, ?_⟩
      simp only [hg, leaves_lastInstruction, h]

theorem apply_does (op : Operation) (args : List ValueExpr) (s : Session) :
    ReflTransGen (Does (.apply op args)) s ((Command.apply op args).act.leaves s) := by
  obtain ⟨t, ht, h | ⟨values, v, h⟩⟩ := apply_leaves op args s
  · rw [h]
    exact does_of_evaluates _ ht
  · exact (does_of_evaluates _ ht).trans (.single (.emit h))

/-- Every command is made of what it may do. -/
theorem act_does (c : Command) (s : Session) : ReflTransGen c.Does s (c.act.leaves s) := by
  have hvalue : ∀ (c : Command) (v : ValueExpr), ReflTransGen c.Does s (v.eval.leaves s) :=
    fun c v => does_of_evaluates c (v.eval_evaluates s)
  have htype : ∀ (c : Command) (t : TypeExpr), ReflTransGen c.Does s (t.eval.leaves s) :=
    fun c t => does_of_evaluates c (t.eval_evaluates s)
  cases c with
  | newModule name =>
    unfold Command.act
    rw [leaves_modify_bind]
    exact .single (.module s name)
  | useModule i =>
    unfold Command.act
    rw [leaves_get_bind]
    refine reaches_pass (leaves_require _ _ s) fun m hm => ?_
    obtain ⟨hm, -⟩ := ok_require hm
    rw [leaves_modify_bind]
    exact .single (.use (by simp [hm]))
  | print => exact reaches_pass (leaves_currentModule s) fun _ _ => .refl
  | verify => exact reaches_pass (leaves_currentModule s) fun _ _ => .refl
  | setVersion flag value => exact setVersion_does flag value s
  | setManagement flag value =>
    exact .single (.flag s ⟨.error, flag.id, .const (.int 1 value.toNat)⟩ rfl)
  | flags => exact reaches_pass (leaves_currentModule s) fun _ _ => .refl
  | addFlag behavior id value =>
    refine reaches_bind (does_of_evaluates _ (value.eval_evaluates s)) fun value t _ => ?_
    exact .single (.flag t ⟨behavior, id, value⟩ rfl)
  | getFlag id =>
    refine reaches_pass rfl fun s' _ => reaches_pass (leaves_currentModule s) fun m _ => ?_
    split <;> exact .refl
  | extractConstant value => exact reaches_bind (hvalue _ value) fun _ _ _ => .refl
  | newStruct name body => exact newStruct_does name body s
  | describeType t => exact reaches_bind (htype _ t) fun _ _ _ => .refl
  | entryPoint e => exact .single (.entryPoint s e)
  | declare name output params l =>
    refine reaches_bind (htype _ output) fun output t _ => ?_
    refine reaches_bind (does_of_evaluates _ (TypeExpr.evalList_evaluates params t))
      fun params u _ => ?_
    exact .single (.function u ⟨output, params⟩)
  | newGlobal name ty =>
    refine reaches_bind (htype _ ty) fun ty t _ => ?_
    exact .single (.global t ty)
  | addAttr fn i key value =>
    refine reaches_pass (leaves_findFunction fn s) fun rf h => ?_
    obtain ⟨-, hr, -⟩ := ok_findFunction h
    exact .single (.attr hr)
  | listAttrs fn i =>
    refine reaches_pass (leaves_findFunction fn s) fun rf _ => ?_
    dsimp only
    split <;> exact .refl
  | inspect value => exact reaches_bind (hvalue _ value) fun _ _ _ => .refl
  | entryPoints => exact reaches_pass (leaves_currentModule s) fun _ _ => .refl
  | bind name value =>
    refine reaches_bind (hvalue _ value) fun v t _ => ?_
    exact .single (.register t name v rfl)
  | ids value => exact reaches_bind (hvalue _ value) fun _ _ _ => .refl
  | extractString value =>
    refine reaches_bind (hvalue _ value) fun v t _ => ?_
    rw [leaves_get_bind]
    exact reaches_pass (leaves_guarded _ t) fun _ _ => .refl
  | newBlock fn name =>
    refine reaches_pass (leaves_findFunction fn s) fun rf h => ?_
    obtain ⟨hf, hr, -⟩ := ok_findFunction h
    exact .single (.block hr (by simp [hf]))
  | position fn i => exact position_does fn i s
  | unposition => exact .single (.unset s)
  | looseBlock name => exact .single (.loose s name)
  | ret value =>
    cases value with
    | none => exact appendRet_does none none s
    | some e =>
      refine reaches_bind ?_ fun v t _ => appendRet_does _ v t
      exact reaches_bind (hvalue _ e) fun _ _ _ => .refl
  | call fn args name => exact call_does fn args name s
  | apply op args => exact apply_does op args s

/-- What a command does is made of changes, unless it moves the builder to a block that exists. -/
theorem Does.acts {c : Command} {s t : Session} (h : c.Does s t) :
    Acts s t ∨ ∃ fn i b, c = .position fn i ∧ (s.body? b).isSome ∧ t = s.moveTo b := by
  cases h with
  | side h => exact .inl (.single (.side h))
  | module _ name => exact .inl (.single (.module s name))
  | use _ => exact .inl (.single (.use s _))
  | flag _ f => exact .inl (.single (.flag s f))
  | struct h => exact .inl ((ReflTransGen.single (.struct s _)).trans h.acts)
  | structBody ts h =>
    exact .inl (((ReflTransGen.single (.struct s _)).trans h.acts).tail (.setBody _ _ ts))
  | entryPoint _ e => exact .inl (addEntryPoint_acts s _ e)
  | function _ sig => exact .inl (.single (.function s _ _ sig _))
  | global _ ty => exact .inl (.single (.global s _ _ ty))
  | attr _ => exact .inl (.single (.attr s _ _ _ _))
  | register _ name v => exact .inl (.single (.register s name v))
  | block _ hr => exact .inl (.single (.block s _ _ hr))
  | move _ hb => exact .inr ⟨_, _, _, rfl, hb, rfl⟩
  | unset => exact .inl (.single (.unset s))
  | loose _ name => exact .inl (.single (.loose s _))
  | instr _ _ hi => exact .inl (.single (.instr s _ hi))
  | emit h => exact .inl (emit_acts h)

theorem act_acts (c : Command) (hc : ∀ fn i, c ≠ .position fn i) (s : Session) :
    Acts s (c.act.leaves s) := by
  refine (c.act_does s).lift' id fun _ _ h => ?_
  rcases h.acts with h | ⟨fn, i, _, he, -⟩
  · exact h
  · exact absurd he (hc fn i)

end Command

end QuantumIR
