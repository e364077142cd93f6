import QuantumIR.Proofs.AttributeHistory
import QuantumIR.Proofs.Lockstep

/-! # Registers that are not used

Registers are read by expressions and set by commands, and nothing else in a session depends on
them. Two sessions that differ in some registers only still do so when the same command has been
carried out in both, as long as it does not use one of these registers.
-/

namespace QuantumIR

namespace Session

variable {s t u : Session} {xs ys : List String}

def withRegisters (s : Session) (registers : List (String × Value)) : Session :=
  { s with registers }

/-- The sessions differ in registers only, and at most in those of the given names. -/
structure Alike (xs : List String) (s t : Session) : Prop where
  rest : t = s.withRegisters t.registers
  lookup : ∀ y, y ∉ xs → t.register? y = s.register? y

namespace Alike

theorem refl (xs : List String) (s : Session) : Alike xs s s := ⟨rfl, fun _ _ => rfl⟩

theorem of_kept {s' t' : Session} (h : Alike xs s t) (hs : s'.registers = s.registers)
    (ht : t' = s'.withRegisters t.registers) : Alike xs s' t' := by
  subst ht
  constructor
  · rfl
  · intro y hy
    rw [register?, register?, hs]
    exact h.lookup y hy

theorem map {f : Session → Session}
    (hf : ∀ (s : Session) R, f (s.withRegisters R) = (f s).withRegisters R) (h : Alike xs s t) :
    Alike xs (f s) (f t) := by
  apply h.of_kept
  · exact (congrArg Session.registers (hf s s.registers) :)
  · rw [← hf, ← h.rest]

theorem setRegister (h : Alike xs s t) (name : String) (v : Value) :
    Alike xs (s.setRegister name v) (t.setRegister name v) := by
  constructor
  · nth_rewrite 1 [h.rest]
    rfl
  · intro y hy
    have hlookup : t.registers.lookup y = s.registers.lookup y := h.lookup y hy
    unfold register? Session.setRegister
    rw [lookup_cons_eq_ite, lookup_cons_eq_ite, hlookup]

theorem setRegister_right (h : Alike xs s t) {name : String} (hn : name ∈ xs) (v : Value) :
    Alike xs s (t.setRegister name v) := by
  constructor
  · nth_rewrite 1 [h.rest]
    rfl
  · intro y hy
    have hne : y ≠ name := fun he => hy (he ▸ hn)
    rw [register?, Session.setRegister, lookup_cons_eq_ite, if_neg hne]
    exact h.lookup y hy

theorem modules (h : Alike xs s t) : t.modules = s.modules := by rw [h.rest]; rfl

theorem position (h : Alike xs s t) : t.position = s.position := by rw [h.rest]; rfl

theorem current (h : Alike xs s t) : t.current = s.current := by rw [h.rest]; rfl

end Alike

section

variable (s : Session) (R : List (String × Value))

theorem foldl_withRegisters {β : Type} {f : Session → β → Session}
    (hf : ∀ (s : Session) x, f (s.withRegisters R) x = (f s x).withRegisters R) (l : List β) :
    l.foldl f (s.withRegisters R) = (l.foldl f s).withRegisters R := by
  induction l generalizing s with
  | nil => rfl
  | cons x l ih => rw [List.foldl_cons, List.foldl_cons, hf, ih]

theorem ensureStruct_withRegisters (name : String) :
    (s.withRegisters R).ensureStruct name = (s.ensureStruct name).withRegisters R :=
  (apply_ite (withRegisters · R) (name ∈ s.structNames) s (s.addStruct name).2).symm

theorem noteCast_withRegisters (c d : Constant) :
    (s.withRegisters R).noteCast c d = (s.noteCast c d).withRegisters R := by
  unfold noteCast
  split <;> [split; skip] <;> rfl

theorem addString_withRegisters (i : Nat) (data : Bytes) :
    (s.withRegisters R).addString i data =
      (s.addString i data).map fun x => (x.1, x.2.withRegisters R) := by
  unfold addString
  split <;> rfl

theorem builderFn?_withRegisters : (s.withRegisters R).builderFn? = s.builderFn? := rfl

theorem addEntryPoint_withRegisters (i : Nat) (e : EntryPoint) :
    ((s.withRegisters R).addEntryPoint i e).2 = (s.addEntryPoint i e).2.withRegisters R := rfl

theorem append_withRegisters (i : Instr) :
    (s.withRegisters R).append i = (s.append i).withRegisters R := by
  have hinsert : (s.withRegisters R).insert i = (s.insert i).withRegisters R := by
    obtain ⟨_, _, _, _, position, _, _, _, _⟩ := s
    cases position <;> rfl
  unfold append
  rw [hinsert]
  apply foldl_withRegisters
  exact fun _ _ => rfl

theorem call_withRegisters (callee : FnRef) (args : List Value) :
    (s.withRegisters R).call callee args =
      ((s.call callee args).1, (s.call callee args).2.withRegisters R) := by
  unfold call
  rw [← append_withRegisters]
  rfl

theorem prepare_withRegisters (i : Nat) (op : Operation) :
    (s.withRegisters R).prepare i op =
      ((s.prepare i op).1, (s.prepare i op).2.withRegisters R) := by
  have hstructs := foldl_withRegisters s R (ensureStruct_withRegisters · R) op.structs
  have hdeclare : ∀ u : Session, (u.withRegisters R).declare i op =
      ((u.declare i op).1, (u.declare i op).2.withRegisters R) := by
    intro u
    have hmodule : (u.withRegisters R).module? i = u.module? i := rfl
    unfold declare
    rw [hmodule]
    cases (u.module? i).bind (·.findFunction? op.symbol) <;> rfl
  have hmark (u : Session) (r) :
      (u.withRegisters R).mark op r = (u.mark op r).withRegisters R := by
    unfold mark
    split <;> rfl
  simp only [prepare, hstructs, hdeclare, hmark]

theorem emit_withRegisters (op : Operation) (args : List Value) :
    (s.withRegisters R).emit op args =
      (s.emit op args).map fun x => (x.1, x.2.withRegisters R) := by
  unfold emit
  rw [builderFn?_withRegisters]
  cases s.builderFn? with
  | none => rfl
  | some r =>
    simp only [prepare_withRegisters, call_withRegisters]
    rfl

theorem fork_withRegisters (v : Value) :
    (s.withRegisters R).fork v = (s.fork v).map fun x => (x.1, x.2.withRegisters R) := by
  have hblock : ∀ (u : Session) r name, (u.withRegisters R).addBlock r name =
      ((u.addBlock r name).1, (u.addBlock r name).2.withRegisters R) := fun _ _ _ => rfl
  unfold fork
  rw [builderFn?_withRegisters]
  cases s.builderFn? with
  | none => rfl
  | some r =>
    simp only [hblock, append_withRegisters]
    rfl

end

end Session

open Session

abbrev Session.Alike.comparison (xs : List String) : Comparison where
  Holds _ _ s' t' := Alike xs s' t'
  stay h := h
  trans _ h := h

/-- Computations couple on sessions that differ in registers of the given names. -/
abbrev Attempt.Matches {α : Type} (xs : List String) (x y : Attempt α) (s t : Session) : Prop :=
  Couples (Alike.comparison xs) (fun _ _ => True) x y s t

open Attempt

section

variable {α β : Type} {xs : List String} {s t : Session}

theorem Attempt.Couples.alike_bind {x y : Attempt α} {k l : α → Attempt β}
    (hx : Matches xs x y s t)
    (hk : ∀ a s' t', Alike xs s' t' → Alike xs ((k a).leaves s') ((l a).leaves t')) :
    Alike xs ((x >>= k).leaves s) ((y >>= l).leaves t) :=
  hx.leaves_bind (fun _ _ h => h) fun a s' t' h _ => hk a s' t' h

namespace Session.Alike

theorem require (h : Alike xs s t) (d : Defect) (o : Option α) :
    Matches xs (Attempt.require d o) (Attempt.require d o) s t :=
  .require h (fun _ _ => trivial) d d

theorem guarded (h : Alike xs s t) (o : Except Panic α) :
    Matches xs (Attempt.guarded o) (Attempt.guarded o) s t :=
  .guarded h fun _ _ => trivial

theorem updateGuarded {f : Session → Except Panic (α × Session)}
    (hf : ∀ (s : Session) R, f (s.withRegisters R) = (f s).map fun x => (x.1, x.2.withRegisters R))
    (h : Alike xs s t) : Matches xs (updateGuarded f) (updateGuarded f) s t := by
  have hs := hf s s.registers
  have ht := hf s t.registers
  rw [← h.rest] at ht
  change f s = _ at hs
  cases hfs : f s with
  | error p =>
    rw [hfs] at ht
    exact .updateGuarded_error h hfs ht
  | ok x =>
    rw [hfs] at hs ht
    refine .updateGuarded_ok hfs ht (h.of_kept ?_ rfl) trivial
    exact (congrArg (fun y : α × Session => y.2.registers) (Except.ok.inj hs) :)

theorem update {f : Session → α × Session}
    (hf : ∀ (s : Session) R, f (s.withRegisters R) = ((f s).1, (f s).2.withRegisters R))
    (h : Alike xs s t) : Matches xs (update f) (update f) s t :=
  updateGuarded (f := fun s => .ok (f s)) (fun s R => congrArg Except.ok (hf s R)) h

theorem currentModule (h : Alike xs s t) :
    Matches xs Attempt.currentModule Attempt.currentModule s t := by
  apply Couples.get_bind
  rw [h.current, module?_congr h.modules]
  exact h.require _ _

theorem findFunction (h : Alike xs s t) (name : String) :
    Matches xs (Attempt.findFunction name) (Attempt.findFunction name) s t := by
  apply Couples.get_bind
  rw [h.current]
  apply h.currentModule.bind
  intro m s' t' h _
  apply (h.require _ _).bind
  intro i s' t' h _
  apply (h.require _ _).bind
  intro f s' t' h _
  exact .pure h trivial

theorem constant (h : Alike xs s t) (v : Value) :
    Matches xs (Attempt.constant v) (Attempt.constant v) s t := by
  cases v with
  | const c => exact .pure h trivial
  | bound | metadata => exact .reject h _ _

end Session.Alike

theorem TypeExpr.eval_matches (ty : TypeExpr) (h : Alike xs s t) :
    Matches xs ty.eval ty.eval s t := by
  have hensure : ∀ (name : String) (a : Ty),
      Matches xs (do modify (·.ensureStruct name); return a)
        (do modify (·.ensureStruct name); return a) s t := by
    intro name a
    have hstruct := h.map (f := (·.ensureStruct name)) (ensureStruct_withRegisters · · name)
    exact .modify_bind hstruct (.pure hstruct trivial)
  induction ty with
  | void | double | int => exact .pure h trivial
  | qubit | result => exact hensure _ _
  | ptr pointee space ih | array elem len ih =>
    apply ih.bind
    intro a s' t' h _
    exact .pure h trivial
  | struct name =>
    apply Couples.get_bind
    have hnames : t.structNames = s.structNames := by rw [h.rest]; rfl
    rw [hnames]
    split
    · exact .pure h trivial
    · exact .reject h _ _

theorem TypeExpr.evalPtr_matches (ty : TypeExpr) (h : Alike xs s t) :
    Matches xs ty.evalPtr ty.evalPtr s t := by
  apply (ty.eval_matches h).bind
  intro a s' t' h _
  split
  · exact .pure h trivial
  · exact .reject h _ _

theorem TypeExpr.evalList_matches (tys : List TypeExpr) (h : Alike xs s t) :
    Matches xs (evalList tys) (evalList tys) s t := by
  induction tys generalizing s t with
  | nil => exact .pure h trivial
  | cons ty tys ih =>
    exact .cons (ty.eval_matches h) (fun _ _ h => ih h) (by intros; trivial)

end

mutual

theorem ValueExpr.eval_matches {xs : List String} : ∀ {v : ValueExpr} {s t : Session},
    (∀ y ∈ v.registers, y ∉ xs) → Alike xs s t → Matches xs v.eval v.eval s t
  | .qubit _, _, _, _, h | .result _, _, _, _, h =>
    (TypeExpr.eval_matches _ h).bind fun _ _ _ h _ => .pure h trivial
  | .int _ _, _, _, _, h | .double _, _, _, _, h => .pure h trivial
  | .null ty, _, _, _, h => by
    apply (ty.eval_matches h).bind
    intro a s' t' h _
    exact (h.require _ _).bind fun _ _ _ h _ => .pure h trivial
  | .intToPtr _ ty, _, _, _, h => (ty.evalPtr_matches h).bind fun _ _ _ h _ => .pure h trivial
  | .bitcast v ty, _, _, hv, h => by
    apply (ValueExpr.eval_matches (v := v) hv h).bind
    intro a s' t' h _
    apply (h.constant a).bind
    intro c s' t' h _
    apply (ty.eval_matches h).bind
    intro b s' t' h _
    apply Couples.get_bind
    have hstructs : t'.structs = s'.structs := by rw [h.rest]; rfl
    rw [hstructs]
    have hcast := h.map (f := (·.noteCast c (c.bitcast s'.structs b)))
      (noteCast_withRegisters · · c _)
    exact .modify_bind hcast (.pure hcast trivial)
  | .string data, s, t, _, h => by
    apply Couples.get_bind
    rw [h.current]
    apply (h.updateGuarded (addString_withRegisters · · s.current data)).bind
    intro c s' t' h _
    exact .pure h trivial
  | .base v, _, _, hv, h => by
    apply (ValueExpr.eval_matches (v := v) hv h).bind
    intro a s' t' h _
    apply (h.constant a).bind
    intro c s' t' h _
    exact (h.require _ _).bind fun _ _ _ h _ => .pure h trivial
  | .element v _ _, _, _, hv, h => by
    apply (ValueExpr.eval_matches (v := v) hv h).bind
    intro a s' t' h _
    apply (h.constant a).bind
    intro c s' t' h _
    apply Couples.get_bind
    have hstructs : t'.structs = s'.structs := by rw [h.rest]; rfl
    rw [hstructs]
    exact (h.require _ _).bind fun _ _ _ h _ => .pure h trivial
  | .fn name, _, _, _, h => (h.findFunction name).bind fun _ _ _ h _ => .pure h trivial
  | .param name i, _, _, _, h => by
    apply (h.findFunction name).bind
    intro f s' t' h _
    exact (h.require _ _).bind fun _ _ _ h _ => .pure h trivial
  | .register name, s, t, hv, h => by
    apply Couples.get_bind
    rw [h.lookup name (hv name (by simp [ValueExpr.registers]))]
    exact h.require _ _
  | .metadata m, _, _, hv, h =>
    (MetadataExpr.eval_matches (m := m) hv h).bind fun _ _ _ h _ => .pure h trivial

theorem MetadataExpr.eval_matches {xs : List String} : ∀ {m : MetadataExpr} {s t : Session},
    (∀ y ∈ m.registers, y ∉ xs) → Alike xs s t → Matches xs m.eval m.eval s t
  | .str _, _, _, _, h => .pure h trivial
  | .node ms, _, _, hm, h =>
    have hms : ∀ y ∈ MetadataExpr.registersAll ms, y ∉ xs := hm
    (MetadataExpr.evalList_matches hms h).bind fun _ _ _ h _ => .pure h trivial
  | .value v, _, _, hm, h =>
    (ValueExpr.eval_matches (v := v) hm h).bind fun _ _ _ h _ => .pure h trivial

theorem MetadataExpr.evalList_matches {xs : List String} :
    ∀ {ms : List MetadataExpr} {s t : Session}, (∀ y ∈ MetadataExpr.registersAll ms, y ∉ xs) →
      Alike xs s t → Matches xs (MetadataExpr.evalList ms) (MetadataExpr.evalList ms) s t
  | [], _, _, _, h => .pure h trivial
  | m :: ms, _, _, hm, h => by
    obtain ⟨hm, hms⟩ := List.forall_mem_append.mp hm
    exact .cons (MetadataExpr.eval_matches hm h)
      (fun _ _ h => MetadataExpr.evalList_matches hms h) (by intros; trivial)

end

section

variable {xs : List String} {s t : Session}

theorem ValueExpr.evalList_matches {vs : List ValueExpr}
    (hv : ∀ y ∈ MetadataExpr.registersAll (vs.map .value), y ∉ xs) (h : Alike xs s t) :
    Matches xs (evalList vs) (evalList vs) s t := by
  induction vs generalizing s t with
  | nil => exact .pure h trivial
  | cons v vs ih =>
    obtain ⟨hv, hvs⟩ := List.forall_mem_append.mp hv
    exact .cons (ValueExpr.eval_matches hv h) (fun _ _ h => ih hvs h) (by intros; trivial)

theorem Session.Alike.requireBlock (h : Alike xs s t) :
    Matches xs QuantumIR.requireBlock QuantumIR.requireBlock s t := by
  apply Couples.get_bind
  rw [h.position]
  split
  · exact .reject h _ _
  · exact .pure h trivial

theorem Command.alike_ret {e : Option ValueExpr} (hc : ∀ y ∈ (Command.ret e).registers, y ∉ xs)
    (h : Alike xs s t) :
    Alike xs ((Command.ret e).act.leaves s) ((Command.ret e).act.leaves t) := by
  have hend : ∀ (v : Option Value) {s t : Session}, Alike xs s t →
      let last : Attempt Answer := do requireBlock; modify (·.append (.ret v)); lastInstruction
      Alike xs (last.leaves s) (last.leaves t) := by
    intro v s t h
    apply h.requireBlock.alike_bind
    intro _ s' t' h
    rw [leaves_modify_bind, leaves_modify_bind, leaves_lastInstruction, leaves_lastInstruction]
    exact h.map (f := (·.append (.ret v))) (append_withRegisters · · (.ret v))
  cases e with
  | none => exact hend none h
  | some e =>
    have hvalue : Matches xs (some <$> e.eval) (some <$> e.eval) s t := by
      apply (ValueExpr.eval_matches (List.forall_mem_append.mp hc).1 h).bind
      intro v s' t' h _
      exact .pure h trivial
    exact hvalue.alike_bind fun v s' t' h => hend v h

theorem Command.alike_call {fn : String} {es : List ValueExpr} {name : Option String}
    (hc : ∀ y ∈ (Command.call fn es name).registers, y ∉ xs) (h : Alike xs s t) :
    Alike xs ((Command.call fn es name).act.leaves s) ((Command.call fn es name).act.leaves t) := by
  apply (h.findFunction fn).alike_bind
  intro r s' t' h
  apply (ValueExpr.evalList_matches hc h).alike_bind
  intro args s' t' h
  apply h.requireBlock.alike_bind
  intro _ s' t' h
  apply (h.update (call_withRegisters · · r.1 args)).alike_bind
  intro v s' t' h
  cases name with
  | none =>
    change Alike xs (lastInstruction.leaves _) (lastInstruction.leaves _)
    rw [leaves_lastInstruction, leaves_lastInstruction]
    exact h
  | some name =>
    dsimp only
    rw [leaves_modify_bind, leaves_modify_bind, leaves_lastInstruction, leaves_lastInstruction]
    exact h.setRegister name v

theorem Command.alike_apply {op : Operation} {es : List ValueExpr}
    (hc : ∀ y ∈ (Command.apply op es).registers, y ∉ xs) (h : Alike xs s t) :
    Alike xs ((Command.apply op es).act.leaves s) ((Command.apply op es).act.leaves t) := by
  rw [Command.act]
  split_ifs
  · exact h
  · apply (ValueExpr.evalList_matches hc h).alike_bind
    intro args s' t' h
    apply (h.updateGuarded (emit_withRegisters · · op args)).alike_bind
    intro v s' t' h
    rw [leaves_lastInstruction, leaves_lastInstruction]
    exact h

/-- A command that does not use the registers in which two sessions differ leaves sessions that
differ in no others. -/
theorem Command.alike_act {c : Command} (hc : ∀ y ∈ c.registers, y ∉ xs) (h : Alike xs s t) :
    Alike xs (c.act.leaves s) (c.act.leaves t) := by
  have hvalue : ∀ {v : ValueExpr}, c.operands = [.value v] → Matches xs v.eval v.eval s t := by
    intro v hv
    rw [Command.registers, hv] at hc
    exact ValueExpr.eval_matches (List.forall_mem_append.mp hc).1 h
  cases c with
  | newModule name => exact h.map (f := (·.addModule name)) fun _ _ => rfl
  | useModule i =>
    change Alike xs (Attempt.leaves (Attempt.require _ (s.module? i) >>= _) s)
      (Attempt.leaves (Attempt.require _ (t.module? i) >>= _) t)
    rw [module?_congr h.modules]
    apply (h.require _ _).alike_bind
    intro _ s' t' h
    exact h.map (f := fun s => { s with current := i }) fun _ _ => rfl
  | print | verify | flags | entryPoints =>
    exact h.currentModule.alike_bind fun _ _ _ h => h
  | setVersion flag value =>
    apply h.currentModule.alike_bind
    intro m s' t' h
    apply (h.guarded _).alike_bind
    intro n s' t' h
    exact h.map (f := fun s => s.updateModule s.current fun _ => n) fun _ _ => rfl
  | setManagement flag value =>
    exact h.map (f := fun s => s.updateModule s.current (·.setManagement flag value)) fun _ _ => rfl
  | addFlag behavior id value =>
    apply (MetadataExpr.eval_matches (List.forall_mem_append.mp hc).1 h).alike_bind
    intro m s' t' h
    exact h.map (f := fun s => s.updateModule s.current (·.addFlag ⟨behavior, id, m⟩))
      fun _ _ => rfl
  | getFlag id =>
    rw [leaves_getFlag, leaves_getFlag]
    exact h
  | extractConstant v | inspect v | ids v =>
    exact (hvalue rfl).alike_bind fun _ _ _ h => h
  | extractString v =>
    apply (hvalue rfl).alike_bind
    intro v s' t' h
    have htext : t'.extractString v = s'.extractString v := by rw [h.rest]; rfl
    rw [leaves_get_bind, leaves_get_bind, htext]
    exact (h.guarded _).alike_bind fun _ _ _ h => h
  | newStruct name body =>
    apply (h.update (fun _ _ => rfl)).alike_bind
    intro i s' t' h
    cases body with
    | none => exact h
    | some ts =>
      apply (TypeExpr.evalList_matches ts h).alike_bind
      intro ts s' t' h
      exact h.map (f := (·.setBody i ts)) fun _ _ => rfl
  | describeType ty => exact (ty.eval_matches h).alike_bind fun _ _ _ h => h
  | entryPoint e =>
    change Alike xs (s.addEntryPoint s.current e).2 (t.addEntryPoint t.current e).2
    rw [h.current]
    exact h.map (f := fun u => (u.addEntryPoint s.current e).2)
      (addEntryPoint_withRegisters · · s.current e)
  | declare name output params l =>
    apply (output.eval_matches h).alike_bind
    intro output s' t' h
    apply (TypeExpr.evalList_matches params h).alike_bind
    intro params s' t' h
    change Alike xs (s'.addFunction s'.current name ⟨output, params⟩ l).2
      (t'.addFunction t'.current name ⟨output, params⟩ l).2
    exact h.map (f := fun s => (s.addFunction s.current name ⟨output, params⟩ l).2) fun _ _ => rfl
  | newGlobal name ty =>
    apply (ty.eval_matches h).alike_bind
    intro ty s' t' h
    exact h.map (f := fun s => (s.addGlobal s.current name ty).2) fun _ _ => rfl
  | addAttr fn i key value =>
    apply (h.findFunction fn).alike_bind
    intro r s' t' h
    exact h.map (f := (·.addAttr r.1 i (.string key value))) fun _ _ => rfl
  | listAttrs fn i =>
    apply (h.findFunction fn).alike_bind
    intro r s' t' h
    dsimp only
    split <;> exact h
  | bind name v =>
    apply (hvalue rfl).alike_bind
    intro v s' t' h
    exact h.setRegister name v
  | newBlock fn name =>
    apply (h.findFunction fn).alike_bind
    intro r s' t' h
    exact h.map (f := fun s => (s.addBlock r.1 (Bytes.ofString name)).2.moveTo
      (s.addBlock r.1 (Bytes.ofString name)).1) fun _ _ => rfl
  | position fn n =>
    apply (h.findFunction fn).alike_bind
    intro r s' t' h
    apply (h.require _ _).alike_bind
    intro _ s' t' h
    exact h.map (f := (·.moveTo ⟨r.1, n⟩)) fun _ _ => rfl
  | unposition => exact h.map (f := fun s => { s with position := .unset }) fun _ _ => rfl
  | looseBlock name =>
    exact h.map (f := fun s => { s with position := .loose (Bytes.ofString name) }) fun _ _ => rfl
  | ret e => exact alike_ret hc h
  | call fn es name => exact alike_call hc h
  | apply op es => exact alike_apply hc h

/-- A command sets no other register than its target. -/
theorem Command.register?_act {c : Command} {name : String} (hc : c.target? ≠ some name)
    (s : Session) : (c.act.leaves s).register? name = s.register? name := by
  obtain ⟨set, hset, htarget⟩ := c.exists_registers_act_eq s
  have hnone : set.lookup name = none := by
    refine List.lookup_eq_none_iff.mpr fun x hx => ?_
    rw [bne_iff_ne]
    rintro rfl
    exact hc (htarget x hx)
  rw [register?, register?, hset, List.lookup_append, hnone, Option.none_or]

theorem Test.fork_matches {test : Test} (htest : ∀ y ∈ test.operand.registers, y ∉ xs)
    (h : Alike xs s t) : Matches xs test.fork test.fork s t := by
  have hvalue := ValueExpr.eval_matches htest h
  have heval : Matches xs test.eval test.eval s t := by
    cases test with
    | bit condition => exact hvalue
    | result measured =>
      apply hvalue.bind
      intro v s' t' h _
      exact h.updateGuarded (emit_withRegisters · · .readResult [v])
  apply heval.bind
  intro v s' t' h _
  exact h.updateGuarded (fork_withRegisters · · v)

theorem Session.Alike.moveTo (h : Alike xs s t) (b : BlockRef) :
    Alike xs (s.moveTo b) (t.moveTo b) :=
  h.map (f := (·.moveTo b)) fun _ _ => rfl

theorem Session.Alike.jump (h : Alike xs s t) (b : BlockRef) : Alike xs (s.jump b) (t.jump b) :=
  h.map (f := (·.jump b)) (append_withRegisters · · (.br b))

end

end QuantumIR
