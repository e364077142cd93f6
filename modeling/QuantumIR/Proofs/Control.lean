import QuantumIR.Proofs.Structured

/-! # What built code does

The code of a function is run along its branches, and the calls on the way are recorded. A reading
has the outcome that is chosen for it from the calls so far. Code that was built from statements
makes the calls that the statements make when they are taken one after the other, and ends where
the builder stands.
-/

namespace QuantumIR

open Relation Session

structure Event where
  callee : String
  args : List Value
  deriving DecidableEq

/-- What a run depends on: the truth of each parameter, that of the constants which are not written
as numbers, and the outcome of a reading given the calls up to it. -/
structure Env where
  param : Nat → Bool
  constant : Constant → Bool
  outcome : List Event → Bool

def Env.truth (env : Env) : Value → Bool
  | .const (.int _ n) => n ≠ 0
  | .const c => env.constant c
  | .bound (.param _ i _) => env.param i
  | _ => false

def Event.reading (r : Value) : Event := ⟨Operation.readResult.symbol, [r]⟩

def Guard.test (env : Env) : Guard → List Event → List Event × Bool
  | .bit v, history => (history, env.truth v)
  | .result r, history =>
    (history ++ [.reading r], env.outcome (history ++ [.reading r]))

namespace Stmt

mutual

/-- The calls made when a statement has been carried out; a return ends everything. -/
def exec (env : Env) : Stmt → List Event → Except (List Event) (List Event)
  | .call op args, history => .ok (history ++ [⟨op.symbol, args⟩])
  | .ret, history => .error history
  | .branch guard one zero, history =>
    match guard.test env history with
    | (history, true) => execAll env one history
    | (history, false) => execAll env zero history
  | .skip, history => .ok history

def execAll (env : Env) : List Stmt → List Event → Except (List Event) (List Event)
  | [], history => .ok history
  | st :: p, history =>
    match st.exec env history with
    | .ok history => execAll env p history
    | .error history => .error history

end

end Stmt

/-- The state of a run of a function: the instruction that is next, the outcomes of readings, and
the calls made. -/
structure Control where
  block : Nat
  next : Nat
  results : InstrRef → Bool
  history : List Event

namespace Control

def truth (env : Env) (k : Control) : Value → Bool
  | .bound (.result (.placed site) _) => k.results site
  | v => env.truth v

def enter (r : FnRef) (k : Control) (target : BlockRef) : Option Control :=
  if target.fn = r then some { k with block := target.index, next := 0 } else none

def record (env : Env) (r : FnRef) (k : Control) (e : Event) : Control :=
  let history := k.history ++ [e]
  let results :=
    if e.callee = Operation.readResult.symbol then
      Function.update k.results ⟨⟨r, k.block⟩, k.next⟩ (env.outcome history)
    else k.results
  { k with next := k.next + 1, results, history }

/-- Carry out the next instruction of the function at `r`. A run has come to its end where there is
none and where the function returns. -/
def step (env : Env) (s : Session) (r : FnRef) (k : Control) : Option Control :=
  ((s.body? ⟨r, k.block⟩).bind fun body => body[k.next]?).bind fun
    | .call callee _ args => (s.fn? callee).map fun f => k.record env r ⟨f.name, args⟩
    | .ret _ => none
    | .br target => k.enter r target
    | .condBr v one zero => k.enter r (if k.truth env v then one else zero)

def Reaches (env : Env) (s : Session) (r : FnRef) : Control → Control → Prop :=
  ReflTransGen fun k l => k.step env s r = some l

/-- Control stands at the end of a block, as far as the block has been built in a session. -/
def AtEnd (s : Session) (b : BlockRef) (k : Control) : Prop :=
  k.block = b.index ∧ ∃ body, s.body? b = some body ∧ k.next = body.length

variable (env : Env) {s t S : Session} {b c : BlockRef} {k : Control}

theorem AtEnd.of_body? (h : k.AtEnd s b) (hb : t.body? b = s.body? b) : k.AtEnd t b := by
  obtain ⟨hk, body, hbody, hn⟩ := h
  exact ⟨hk, body, hb.trans hbody, hn⟩

theorem AtEnd.step_eq_none (h : k.AtEnd s b) : k.step env s b.fn = none := by
  obtain ⟨hk, body, hbody, hn⟩ := h
  have hb : (⟨b.fn, k.block⟩ : BlockRef) = b := by rw [hk]
  simp [step, hb, hbody, hn]

/-- What has been appended to a block is found there however the session goes on. -/
theorem fetch {body : List Instr} {i : Instr} (hS : t.Grows S)
    (ht : t.body? b = some (body ++ [i])) (hk : k.block = b.index) (hn : k.next = body.length) :
    ((S.body? ⟨b.fn, k.block⟩).bind fun body => body[k.next]?) = some i := by
  obtain ⟨all, hall, tail, rfl⟩ := hS.body? ht
  have hb : (⟨b.fn, k.block⟩ : BlockRef) = b := by rw [hk]
  simp [hb, hall, hn]

theorem step_br {body : List Instr} {target : BlockRef} (hS : t.Grows S)
    (ht : t.body? b = some (body ++ [.br target])) (hf : target.fn = b.fn)
    (hk : k.block = b.index) (hn : k.next = body.length) :
    k.step env S b.fn = some { k with block := target.index, next := 0 } := by
  simp [step, fetch hS ht hk hn, enter, hf]

theorem step_condBr {body : List Instr} {v : Value} {one zero : BlockRef} (hS : t.Grows S)
    (ht : t.body? b = some (body ++ [.condBr v one zero])) (hone : one.fn = b.fn)
    (hzero : zero.fn = b.fn) (hk : k.block = b.index) (hn : k.next = body.length) :
    k.step env S b.fn =
      some { k with block := (if k.truth env v then one else zero).index, next := 0 } := by
  have hf : (if k.truth env v then one else zero).fn = b.fn := by split <;> assumption
  simp [step, fetch hS ht hk hn, enter, hf]

/-- A call that has been emitted is made, and a reading has the outcome chosen for it. -/
theorem step_emit {op : Operation} {args : List Value} {v : Value} (hs : s.Stands b)
    (hc : s.ClearAt b.fn.module) (he : s.emit op args = .ok (v, t)) (hS : t.Grows S)
    (hk : k.AtEnd s b) :
    ∃ k', k.step env S b.fn = some k' ∧ k'.AtEnd t b ∧
      k'.history = k.history ++ [⟨op.symbol, args⟩] ∧
      (op = .readResult → k'.truth env v = env.outcome k'.history) := by
  obtain ⟨hk, body, hb, hn⟩ := hk
  obtain ⟨i, f, hfind, -, ht, rfl⟩ := emit_call hc hs.position hb he
  obtain ⟨g, hg, hname⟩ := (hfind.grows hS).fn?
  refine ⟨k.record env b.fn ⟨op.symbol, args⟩, ?_, ⟨hk, _, ht, by simp [record, hn]⟩, rfl, ?_⟩
  · simp [step, fetch hS ht hk hn, hg, hname]
  · rintro rfl
    have hb : (⟨b.fn, k.block⟩ : BlockRef) = b := by rw [hk]
    simp [truth, record, hb, hn]

theorem reaches_tests {g : Guard} {v : Value} (hg : g.Tests s v t) (hs : s.Stands b)
    (hc : s.ClearAt b.fn.module) (hS : t.Grows S) (hk : k.AtEnd s b)
    (hv : ∀ v ∈ g.conditions, v.IsCondition b.fn) :
    ∃ k', Reaches env S b.fn k k' ∧ k'.AtEnd t b ∧
      g.test env k.history = (k'.history, k'.truth env v) := by
  cases hg with
  | bit v he =>
    refine ⟨k, .refl, hk.of_body? (he.body? b), ?_⟩
    rcases hv v (by simp [Guard.conditions]) with ⟨c, rfl, -⟩ | ⟨i, rfl⟩ <;> rfl
  | result he hu =>
    obtain ⟨k', hstep, hk', hh, ht⟩ := step_emit env (hs.of_evaluates he) (hc.of_evaluates he) hu hS
      (hk.of_body? (he.body? b))
    refine ⟨k', .single hstep, hk', ?_⟩
    rw [ht rfl, hh]
    rfl

/-- Control goes on in the branch that the test chooses. -/
theorem reaches_fork {g : Guard} {v : Value} {blocks : Fork} {u : Session} (hg : g.Tests s v t)
    (hf : Forked t b v blocks u) (hs : s.Stands b) (hc : s.ClearAt b.fn.module) (hS : u.Grows S)
    (hk : k.AtEnd s b) (hv : ∀ v ∈ g.conditions, v.IsCondition b.fn) :
    ∃ k', Reaches env S b.fn k k' ∧ k'.next = 0 ∧
      (g.test env k.history = (k'.history, true) ∧ k'.block = blocks.one.index ∨
        g.test env k.history = (k'.history, false) ∧ k'.block = blocks.zero.index) := by
  obtain ⟨k', hrun, ⟨hb, body, hbody, hn⟩, htest⟩ :=
    reaches_tests env hg hs hc (hf.grows.trans hS) hk hv
  have hu : u.body? b = some (body ++ [.condBr v blocks.one blocks.zero]) := by
    rw [hf.body, hbody]
    rfl
  have hstep := step_condBr env hS hu (by rw [hf.one]) (by rw [hf.zero]) hb hn
  refine ⟨_, hrun.tail hstep, rfl, ?_⟩
  rw [htest]
  cases k'.truth env v with
  | true => exact .inl ⟨rfl, rfl⟩
  | false => exact .inr ⟨rfl, rfl⟩

theorem reaches_jump {join : BlockRef} (hs : s.Stands b)
    (hS : (s.jump join).Grows S) (hj : join.fn = b.fn) (hk : k.AtEnd s b) :
    Reaches env S b.fn k { k with block := join.index, next := 0 } := by
  obtain ⟨hk, body, hb, hn⟩ := hk
  refine .single (step_br env hS ?_ hj hk hn)
  rw [jump, body?_append, if_pos hs.position, hb]
  rfl

end Control

namespace Builds

open Control

variable (env : Env) {s t S : Session} {b c : BlockRef} {p : List Stmt} {xs : List Branching}

theorem reaches_join (h : Builds s b p xs t c) {join : BlockRef} {r : FnRef} (hb : b.fn = r)
    (hj : join.fn = r) (hS : (t.jump join).Grows S) {k : Control} (hk : k.AtEnd t c) :
    Reaches env S r k { k with block := join.index, next := 0 } := by
  obtain ⟨ht, hfn, -⟩ := h.stands
  have hc : c.fn = r := hfn.trans hb
  exact hc ▸ reaches_jump env ht hS (hj.trans hc.symm) hk

/-- The run of built code makes the calls that the statements make. -/
theorem reaches_execAll (h : Builds s b p xs t c) (hS : t.Grows S) (hc : s.ClearAt b.fn.module)
    (hr : Stmt.returnsAll p = 0) (hv : ∀ v ∈ Stmt.conditionsAll p, v.IsCondition b.fn)
    (k : Control) (hk : k.AtEnd s b) :
    ∃ k', Stmt.execAll env p k.history = .ok k'.history ∧ Reaches env S b.fn k k' ∧
      k'.AtEnd t c := by
  induction h generalizing k with
  | nil => exact ⟨k, rfl, .refl, hk⟩
  | @advance s t u b c st p xs hs hst hb ih =>
    rw [Stmt.returnsAll, Nat.add_eq_zero_iff] at hr
    have hv : ∀ v ∈ Stmt.conditionsAll p, v.IsCondition b.fn := fun v hv' =>
      hv v (List.mem_append_right _ hv')
    have hct := hst.clearAt hs hc
    cases hst with
    | skip he => exact ih hS hct hr.2 hv k (hk.of_body? (he.body? _))
    | call he hu =>
      obtain ⟨k₁, hstep, hk₁, hh, -⟩ := step_emit env (hs.of_evaluates he) (hc.of_evaluates he) hu
        (hb.stands.2.2.trans hS) (hk.of_body? (he.body? _))
      obtain ⟨k₂, hex, hrun, hk₂⟩ := ih hS hct hr.2 hv k₁ hk₁
      rw [hh] at hex
      exact ⟨k₂, hex, .head hstep hrun, hk₂⟩
    | ret => simp [Stmt.returns] at hr
  | @branch s t u x y z b c d e p one zero xs ys zs g v blocks hs hg hf h₁ h₂ h₃ ih₁ ih₂ ih₃ =>
    have harms := arms hf h₁ h₂
    rw [harms.one] at ih₁
    rw [harms.zero] at ih₂
    rw [harms.join] at ih₃
    simp only [Stmt.returnsAll, Stmt.returns, Nat.add_eq_zero_iff] at hr
    simp only [Stmt.conditionsAll, Stmt.conditions, List.mem_append] at hv
    obtain ⟨test, -, hadv⟩ := hg.advances
    obtain ⟨hcu, hcx, hcy⟩ := clearAt_arms hf h₁ h₂ (hadv.clearAt hs hc)
    -- the sessions between which the parts are built all grow into the last
    have hyS : (y.jump blocks.join).Grows S := h₃.stands.2.2.trans hS
    have hxS : (x.jump blocks.join).Grows S := harms.grows.2.2.trans ((Grows.append y _).trans hyS)
    have huS : u.Grows S := harms.grows.2.1.trans ((Grows.append x _).trans hxS)
    obtain ⟨k₁, hrun₁, hn₁, htaken⟩ := reaches_fork env hg hf hs hc huS hk
      (fun v hv' => hv v (.inl (.inl hv')))
    -- whichever branch is taken, control goes on where they meet
    have hjoined : ∀ k₂ : Control, (Stmt.branch g one zero).exec env k.history = .ok k₂.history →
        Reaches env S b.fn k₁ { k₂ with block := blocks.join.index, next := 0 } →
        ∃ k₃, Stmt.execAll env (.branch g one zero :: p) k.history = .ok k₃.history ∧
          Reaches env S b.fn k k₃ ∧ k₃.AtEnd z e := by
      intro k₂ hex hrun₂
      obtain ⟨k₃, hex₃, hrun₃, hk₃⟩ := ih₃ hS hcy hr.2
        (fun v hv' => hv v (.inr hv')) { k₂ with block := blocks.join.index, next := 0 }
        ⟨rfl, [], body?_join hf h₁ h₂, rfl⟩
      refine ⟨k₃, ?_, hrun₁.trans (hrun₂.trans hrun₃), hk₃⟩
      rw [Stmt.execAll, hex]
      exact hex₃
    rcases htaken with ⟨htest, hblock⟩ | ⟨htest, hblock⟩
    · obtain ⟨k₂, hex, hrun₂, hk₂⟩ := ih₁ ((Grows.append x _).trans hxS) hcu hr.1.1
        (fun v hv' => hv v (.inl (.inr (.inl hv')))) k₁ ⟨hblock, [], hf.fresh _ (.inl rfl), hn₁⟩
      refine hjoined k₂ ?_ (hrun₂.trans (h₁.reaches_join env harms.one harms.join hxS hk₂))
      rw [Stmt.exec, htest]
      exact hex
    · obtain ⟨k₂, hex, hrun₂, hk₂⟩ := ih₂ ((Grows.append y _).trans hyS) hcx hr.1.2
        (fun v hv' => hv v (.inl (.inr (.inr hv')))) k₁ ⟨hblock, [], body?_zero hf h₁, hn₁⟩
      refine hjoined k₂ ?_ (hrun₂.trans (h₂.reaches_join env harms.zero harms.join hyS hk₂))
      rw [Stmt.exec, htest]
      exact hex

end Builds

namespace Step

/-- Building a structured program without returns keeps its meaning: whatever the parameters and
the outcomes of readings are, the run of the function from where the builder stood makes the calls
of the program and ends where the builder stands now. -/
theorem control_runAll {s : Session} {b : BlockRef} {p : List Step} (hs : s.Reachable)
    (hb : s.position = .endOf b) (hc : ∀ m, s.module? b.fn.module = some m → m.Clear)
    (hp : structuredAll p) (hr : returnsAll p = 0)
    (hv : ∀ v ∈ Stmt.conditionsAll (resolveAll p s), v.IsCondition b.fn) :
    ∃ c, (runAll p s).session.position = .endOf c ∧ c.fn = b.fn ∧
      ∀ (env : Env) (k : Control), k.AtEnd s b →
        ∃ k', Control.Reaches env (runAll p s).session b.fn k k' ∧
          k'.AtEnd (runAll p s).session c ∧ k'.step env (runAll p s).session b.fn = none ∧
          Stmt.execAll env (resolveAll p s) k.history = .ok k'.history := by
  have hst := hs.stands hb
  obtain ⟨c, hbuild, -⟩ := builds_resolveAll p s b hp hst
  obtain ⟨hend, hfn, -⟩ := hbuild.stands
  refine ⟨c, hend.position, hfn, fun env k hk => ?_⟩
  have hr' : Stmt.returnsAll (resolveAll p s) = 0 :=
    Nat.le_zero.mp (hr ▸ returnsAll_resolveAll p s)
  obtain ⟨k', hex, hrun, hk'⟩ :=
    hbuild.reaches_execAll env (.refl _) (hst.clearAt hc) hr' hv k hk
  exact ⟨k', hrun, hk', hfn ▸ hk'.step_eq_none env, hex⟩

def callsOfBranches (parameter outcome : Bool) : List Event :=
  let taken : List Event :=
    if parameter then
      [⟨"__quantum__qis__mz__body", [qubit 0, result 0]⟩,
        ⟨"__quantum__qis__read_result__body", [result 0]⟩] ++
        if outcome then [⟨"__quantum__qis__x__body", [qubit 1]⟩] else []
    else [⟨"__quantum__qis__z__body", [qubit 0]⟩]
  ⟨"__quantum__qis__h__body", [qubit 0]⟩ :: taken ++ [⟨"__quantum__qis__reset__body", [qubit 0]⟩]

theorem control_runAll_nestedBranches :
    ∃ t, t = (runAll nestedBranches oneParameter.run.session).session ∧
      ∀ parameter outcome : Bool, ∃ (env : Env) (k : Control),
        env.param 0 = parameter ∧ (∀ history, env.outcome history = outcome) ∧
        Control.Reaches env t ⟨0, 0⟩ ⟨0, 0, fun _ => false, []⟩ k ∧ k.block = 3 ∧
        k.step env t ⟨0, 0⟩ = none ∧ k.history = callsOfBranches parameter outcome := by
  have hv : Stmt.conditionsAll (resolveAll nestedBranches oneParameter.run.session) =
      [.bound (.param ⟨0, 0⟩ 0 .bit)] := by decide +kernel
  obtain ⟨c, hposition, -, hrun⟩ := control_runAll (b := ⟨⟨0, 0⟩, 0⟩) (p := nestedBranches)
    oneParameter.reachable_run (by decide +kernel) clear_oneParameter (by decide +kernel)
    (by decide +kernel) (fun v h => by rw [hv, List.mem_singleton] at h; exact .inr ⟨0, h⟩)
  have hend : (runAll nestedBranches oneParameter.run.session).session.position =
      .endOf ⟨⟨0, 0⟩, 3⟩ := by decide +kernel
  obtain rfl := Position.endOf.inj (hposition.symm.trans hend)
  refine ⟨_, rfl, fun parameter outcome => ?_⟩
  let env : Env := ⟨fun _ => parameter, fun _ => false, fun _ => outcome⟩
  obtain ⟨k, hreach, hk, hstep, hexec⟩ := hrun env ⟨0, 0, fun _ => false, []⟩
    ⟨rfl, [], by decide +kernel, rfl⟩
  refine ⟨env, k, rfl, fun _ => rfl, hreach, hk.1, hstep, ?_⟩
  have hcalls : Stmt.execAll env (resolveAll nestedBranches oneParameter.run.session) [] =
      .ok (callsOfBranches parameter outcome) := by
    cases parameter <;> cases outcome <;> decide +kernel
  exact Except.ok.inj (hexec.symm.trans hcalls)

end Step

end QuantumIR
