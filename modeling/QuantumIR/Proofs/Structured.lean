import QuantumIR.Proofs.Emission

/-! # Structured programs

Steps that call operations, return without a value, and branch on truth values and results. Their
arguments are evaluated where the run comes to them, which leaves statements about values. The
session after a run is built from the statements alone, one block after the other.
-/

namespace QuantumIR

/-- What a branch depends on: a truth value, or a result that is read first. -/
inductive Guard
  | bit (condition : Value)
  | result (measured : Value)
  deriving DecidableEq

/-- Statements: steps whose arguments are values. A step that was stopped is skipped. -/
inductive Stmt
  | call (op : Operation) (args : List Value)
  | ret
  | branch (guard : Guard) (one zero : List Stmt)
  | skip

def Guard.conditions : Guard → List Value
  | .bit v => [v]
  | .result _ => []

namespace Stmt

mutual

def conditions : Stmt → List Value
  | .branch guard one zero => guard.conditions ++ (conditionsAll one ++ conditionsAll zero)
  | _ => []

def conditionsAll : List Stmt → List Value
  | [] => []
  | st :: p => st.conditions ++ conditionsAll p

end

mutual

def returns : Stmt → Nat
  | .ret => 1
  | .branch _ one zero => returnsAll one + returnsAll zero
  | _ => 0

def returnsAll : List Stmt → Nat
  | [] => 0
  | st :: p => st.returns + returnsAll p

end

mutual

def conditionals : Stmt → Nat
  | .branch _ one zero => conditionalsAll one + conditionalsAll zero + 1
  | _ => 0

def conditionalsAll : List Stmt → Nat
  | [] => 0
  | st :: p => st.conditionals + conditionalsAll p

end

mutual

def complete : Stmt → Bool
  | .branch _ one zero => completeAll one && completeAll zero
  | .skip => false
  | _ => true

def completeAll : List Stmt → Bool
  | [] => true
  | st :: p => st.complete && completeAll p

end

theorem getLast?_cons {st : Stmt} (h : st ≠ .ret) (p : List Stmt) :
    (st :: p).getLast? = some .ret ↔ p.getLast? = some .ret := by
  cases p with
  | nil => simp [h]
  | cons => rw [List.getLast?_cons_cons]

end Stmt

/-- A condition of the function at `r`: a constant of one bit, or a parameter of one bit. -/
def Value.IsCondition (r : FnRef) (v : Value) : Prop :=
  (∃ c : Constant, v = .const c ∧ c.ty = .bit) ∨ ∃ i, v = .bound (.param r i .bit)

instance (r : FnRef) (v : Value) : Decidable (v.IsCondition r) :=
  match v with
  | .const c => decidable_of_iff (c.ty = .bit) (by simp [Value.IsCondition])
  | .bound (.param owner i ty) =>
    decidable_of_iff (owner = r ∧ ty = .bit) (by simp [Value.IsCondition])
  | .bound (.result _ _) => isFalse (by simp [Value.IsCondition])
  | .metadata _ => isFalse (by simp [Value.IsCondition])

namespace Step

mutual

/-- A step that calls an operation, returns without a value, or branches between structured
programs. -/
def structured : Step → Bool
  | .perform (.apply _ _) => true
  | .perform (.ret none) => true
  | .conditional _ _ one zero => structuredAll one && structuredAll zero
  | _ => false

def structuredAll : List Step → Bool
  | [] => true
  | step :: steps => step.structured && structuredAll steps

end

mutual

def returns : Step → Nat
  | .perform (.ret _) => 1
  | .conditional _ _ one zero => returnsAll one + returnsAll zero
  | _ => 0

def returnsAll : List Step → Nat
  | [] => 0
  | step :: steps => step.returns + returnsAll steps

end

mutual

def conditionals : Step → Nat
  | .conditional _ _ one zero => conditionalsAll one + conditionalsAll zero + 1
  | _ => 0

def conditionalsAll : List Step → Nat
  | [] => 0
  | step :: steps => step.conditionals + conditionalsAll steps

end

end Step

def Test.guard : Test → Value → Guard
  | .bit _ => .bit
  | .result _ => .result

def Test.guard? (test : Test) (s : Session) : Option Guard :=
  match test.operand.eval s with
  | .ok v _ => some (test.guard v)
  | .error _ _ => none

def Test.arms (test : Test) (one : List Step) (s : Session) : Session × Session :=
  match test.fork s with
  | .ok blocks t =>
    let first := t.moveTo blocks.one
    (first, ((Step.runAll one first).session.jump blocks.join).moveTo blocks.zero)
  | .error _ t => (t, t)

/-- A conditional that has been built: its blocks, and where the builder stood after each branch. -/
structure Branching where
  blocks : Session.Fork
  oneEnd : Position
  zeroEnd : Position
  deriving DecidableEq

namespace Step

mutual

/-- The statement that a step is in a session. Whether a conditional is a branch depends on its
test alone, not on what is built for it. -/
def resolve : Step → Session → Stmt
  | .perform (.apply op args), s =>
    if args.length ≠ op.params.length then .skip
    else
      match ValueExpr.evalList args s with
      | .ok values _ => .call op values
      | .error _ _ => .skip
  | .perform (.ret _), _ => .ret
  | .conditional test _ one zero, s =>
    match test.guard? s with
    | some guard =>
      .branch guard (resolveAll one (test.arms one s).1) (resolveAll zero (test.arms one s).2)
    | none => .skip
  | _, _ => .skip

/-- The statements that steps are, each in the session in which the run comes to it. -/
def resolveAll : List Step → Session → List Stmt
  | [], _ => []
  | step :: steps, s => step.resolve s :: resolveAll steps (step.run s).2

end

mutual

/-- The conditionals that a step builds, in the order in which the run comes to them. -/
def branchings : Step → Session → List Branching
  | .conditional test _ one zero, s =>
    match test.fork s with
    | .ok blocks _ =>
      let (first, second) := test.arms one s
      ⟨blocks, (runAll one first).session.position, (runAll zero second).session.position⟩ ::
        (branchingsAll one first ++ branchingsAll zero second)
    | .error _ _ => []
  | _, _ => []

def branchingsAll : List Step → Session → List Branching
  | [], _ => []
  | step :: steps, s => step.branchings s ++ branchingsAll steps (step.run s).2

end

mutual

theorem returns_resolve : ∀ (step : Step) (s : Session), (step.resolve s).returns ≤ step.returns
  | .perform command, s => by
    cases command with
    | apply op args =>
      unfold resolve
      split
      · exact Nat.le_refl _
      · split <;> exact Nat.le_refl _
    | ret v => exact Nat.le_refl _
    | _ => exact Nat.le_refl _
  | .conditional test mode one zero, s => by
    unfold resolve
    split
    · exact Nat.add_le_add (returnsAll_resolveAll one _) (returnsAll_resolveAll zero _)
    · exact Nat.zero_le _
  | .fail _, _ => Nat.le_refl _

theorem returnsAll_resolveAll : ∀ (steps : List Step) (s : Session),
    Stmt.returnsAll (resolveAll steps s) ≤ returnsAll steps
  | [], _ => Nat.le_refl _
  | step :: steps, s =>
    Nat.add_le_add (returns_resolve step s) (returnsAll_resolveAll steps (step.run s).2)

end

mutual

/-- Where nothing is stopped, a statement has the returns and the conditionals of the step. -/
theorem counts_resolve : ∀ (step : Step) (s : Session), (step.resolve s).complete = true →
    (step.resolve s).returns = step.returns ∧ (step.resolve s).conditionals = step.conditionals
  | .perform command, s, h => by
    cases command with
    | apply op args =>
      unfold resolve
      split
      · exact ⟨rfl, rfl⟩
      · split <;> exact ⟨rfl, rfl⟩
    | ret v => exact ⟨rfl, rfl⟩
    | _ => cases h
  | .conditional test mode one zero, s, h => by
    unfold resolve at h ⊢
    split at h
    · rw [Stmt.complete, Bool.and_eq_true] at h
      obtain ⟨hone, hone'⟩ := countsAll_resolveAll one _ h.1
      obtain ⟨hzero, hzero'⟩ := countsAll_resolveAll zero _ h.2
      simp only [Stmt.returns, Stmt.conditionals, returns, conditionals, hone, hone', hzero, hzero',
        and_self]
    · cases h
  | .fail _, _, h => nomatch h

theorem countsAll_resolveAll : ∀ (steps : List Step) (s : Session),
    Stmt.completeAll (resolveAll steps s) = true →
      Stmt.returnsAll (resolveAll steps s) = returnsAll steps ∧
        Stmt.conditionalsAll (resolveAll steps s) = conditionalsAll steps
  | [], _, _ => ⟨rfl, rfl⟩
  | step :: steps, s, h => by
    rw [resolveAll, Stmt.completeAll, Bool.and_eq_true] at h
    obtain ⟨hstep, hstep'⟩ := counts_resolve step s h.1
    obtain ⟨hsteps, hsteps'⟩ := countsAll_resolveAll steps _ h.2
    exact ⟨congrArg₂ (· + ·) hstep hsteps, congrArg₂ (· + ·) hstep' hsteps'⟩

end

end Step

namespace Session

variable {s t u : Session} {b c : BlockRef}

structure Stands (s : Session) (b : BlockRef) : Prop where
  position : s.position = .endOf b
  exist : (s.body? b).isSome

theorem Stands.of_evaluates (h : s.Stands b) (he : Evaluates s t) : t.Stands b :=
  ⟨he.position.trans h.position, by rw [he.body?]; exact h.exist⟩

theorem Stands.append (h : s.Stands b) (i : Instr) : (s.append i).Stands b :=
  ⟨(position_append s i).trans h.position, (Grows.append s i).isSome_body? h.exist⟩

theorem Stands.moveTo (h : (s.body? b).isSome) : (s.moveTo b).Stands b := ⟨rfl, h⟩

end Session

open Session

theorem Session.Reachable.stands {s : Session} {b : BlockRef} (h : s.Reachable)
    (hb : s.position = .endOf b) : s.Stands b :=
  ⟨hb, h.tidy.position b hb⟩

theorem Session.Stands.clearAt {s : Session} {b : BlockRef} (h : s.Stands b)
    (hc : ∀ m, s.module? b.fn.module = some m → m.Clear) : s.ClearAt b.fn.module := by
  obtain ⟨f, hf⟩ := Option.isSome_iff_exists.mp (isSome_fn?_of_body? h.exist)
  obtain ⟨m, hm, -⟩ := fn?_eq_some_iff.mp hf
  exact ⟨m, hm, hc m hm⟩

/-- A statement other than a branch is built. -/
inductive Stmt.Advances : Stmt → Session → Session → Prop
  | skip {s t : Session} : Evaluates s t → Advances .skip s t
  | call {s t u : Session} {op : Operation} {args : List Value} {v : Value} :
      Evaluates s t → t.emit op args = .ok (v, u) → Advances (.call op args) s u
  | ret (s : Session) : Advances .ret s (s.append (.ret none))

/-- A guard is tested: its value, and the session in which it is at hand. -/
inductive Guard.Tests : Session → Guard → Value → Session → Prop
  | bit {s t : Session} (v : Value) : Evaluates s t → Tests s (.bit v) v t
  | result {s t u : Session} {r v : Value} :
      Evaluates s t → t.emit .readResult [r] = .ok (v, u) → Tests s (.result r) v u

/-- Statements are built from the end of one block to the end of another, and conditionals with
them. -/
inductive Builds : Session → BlockRef → List Stmt → List Branching → Session → BlockRef → Prop
  | nil {s : Session} {b : BlockRef} : s.Stands b → Builds s b [] [] s b
  | advance {s t u : Session} {b c : BlockRef} {st : Stmt} {p : List Stmt} {xs : List Branching} :
      s.Stands b → st.Advances s t → Builds t b p xs u c → Builds s b (st :: p) xs u c
  | branch {s t u x y z : Session} {b c d e : BlockRef} {p one zero : List Stmt}
      {xs ys zs : List Branching} {g : Guard} {v : Value} {blocks : Fork} :
      s.Stands b → g.Tests s v t → Forked t b v blocks u →
        Builds (u.moveTo blocks.one) blocks.one one xs x c →
        Builds ((x.jump blocks.join).moveTo blocks.zero) blocks.zero zero ys y d →
        Builds ((y.jump blocks.join).moveTo blocks.join) blocks.join p zs z e →
        Builds s b (.branch g one zero :: p)
          (⟨blocks, .endOf c, .endOf d⟩ :: (xs ++ ys ++ zs)) z e

namespace Session

variable {s t u : Session} {b c : BlockRef}

theorem Stands.of_emit {op : Operation} {args : List Value} {v : Value} (h : s.Stands b)
    (he : s.emit op args = .ok (v, t)) : t.Stands b :=
  ⟨(emit_position he).trans h.position, (emit_acts he).grows.isSome_body? h.exist⟩

theorem ClearAt.of_emit {op : Operation} {args : List Value} {v : Value}
    (hc : s.ClearAt b.fn.module) (hs : s.Stands b) (h : s.emit op args = .ok (v, t)) :
    t.ClearAt b.fn.module :=
  (hc.of_prepare op).of_recodes (emit_recodes hs.position h)

theorem Stands.body?_append (h : s.Stands b) (i : Instr) (hc : c ≠ b) :
    (s.append i).body? c = s.body? c := by
  rw [Session.body?_append, h.position, if_neg (by simpa using Ne.symm hc)]

theorem Stands.body?_emit {op : Operation} {args : List Value} {v : Value} (h : s.Stands b)
    (he : s.emit op args = .ok (v, t)) (hc : c ≠ b) : t.body? c = s.body? c := by
  obtain ⟨body, hb⟩ := Option.isSome_iff_exists.mp h.exist
  obtain ⟨callee, sig, -, hother⟩ := emit_body h.position hb he
  exact hother c hc

/-- Of the blocks that were there, only `b` may have changed, and `c` is `b` or new. -/
structure Keeps (s : Session) (b : BlockRef) (t : Session) (c : BlockRef) : Prop where
  old : ∀ d, d ≠ b → (s.body? d).isSome → t.body? d = s.body? d
  place : c = b ∨ s.body? c = none

theorem Keeps.of_body? (h : t.Keeps b u c) (hs : ∀ d, d ≠ b → t.body? d = s.body? d) :
    s.Keeps b u c := by
  refine ⟨fun d hd hsome => ?_, ?_⟩
  · exact (h.old d hd (hs d hd ▸ hsome)).trans (hs d hd)
  · by_cases hc : c = b
    · exact .inl hc
    · exact h.place.imp_right fun hn => hs c hc ▸ hn

theorem Keeps.body?_jump (h : s.Keeps b t c) (ht : t.Stands c) (target : BlockRef) {d : BlockRef}
    (hd : d ≠ b) (hsome : (s.body? d).isSome) : (t.jump target).body? d = s.body? d := by
  have hdc : d ≠ c := by
    rintro rfl
    rcases h.place with rfl | hn
    · exact hd rfl
    · rw [hn] at hsome
      cases hsome
  exact (ht.body?_append _ hdc).trans (h.old d hd hsome)

theorem Stands.emit_isOk (h : s.Stands b) (op : Operation) (args : List Value) :
    ∃ v t, s.emit op args = .ok (v, t) := by
  simp only [emit, builderFn?, h.position]
  exact ⟨_, _, rfl⟩

theorem Stands.fork_isOk (h : s.Stands b) (v : Value) :
    ∃ blocks t, s.fork v = .ok (blocks, t) ∧ Forked s b v blocks t := by
  obtain ⟨blocks, t, hf⟩ : ∃ blocks t, s.fork v = .ok (blocks, t) := by
    simp [fork, builderFn?, h.position]
  exact ⟨blocks, t, hf, fork_forked h.position h.exist hf⟩

theorem Forked.stands {v : Value} {blocks : Fork} (h : Forked s b v blocks t) {c : BlockRef}
    (hc : c = blocks.one ∨ c = blocks.zero ∨ c = blocks.join) : (t.moveTo c).Stands c :=
  .moveTo (by rw [h.fresh c hc]; rfl)

end Session

namespace Stmt.Advances

variable {st : Stmt} {s t : Session} {b c : BlockRef}

theorem stands (h : st.Advances s t) (hs : s.Stands b) : t.Stands b := by
  cases h with
  | skip he => exact hs.of_evaluates he
  | call he hu => exact (hs.of_evaluates he).of_emit hu
  | ret => exact hs.append _

theorem grows (h : st.Advances s t) : s.Grows t := by
  cases h with
  | skip he => exact he.grows
  | call he hu => exact he.grows.trans (emit_acts hu).grows
  | ret => exact .append _ _

theorem body?_eq (h : st.Advances s t) (hs : s.Stands b) (hc : c ≠ b) :
    t.body? c = s.body? c := by
  cases h with
  | skip he => exact he.body? c
  | call he hu => exact ((hs.of_evaluates he).body?_emit hu hc).trans (he.body? c)
  | ret => exact hs.body?_append _ hc

theorem clearAt (h : st.Advances s t) (hs : s.Stands b) (hc : s.ClearAt b.fn.module) :
    t.ClearAt b.fn.module := by
  cases h with
  | skip he => exact hc.of_evaluates he
  | call he hu => exact (hc.of_evaluates he).of_emit (hs.of_evaluates he) hu
  | ret => exact hc.of_recodes (.append hs.position rfl (by simp [Instr.targets]))

end Stmt.Advances

theorem Guard.Tests.advances {g : Guard} {v : Value} {s t : Session} (h : g.Tests s v t) :
    ∃ st : Stmt, st.returns = 0 ∧ st.Advances s t := by
  cases h with
  | bit _ he => exact ⟨.skip, rfl, .skip he⟩
  | result he hu => exact ⟨.call .readResult [_], rfl, .call he hu⟩

namespace Builds

variable {s t : Session} {b c : BlockRef} {p : List Stmt} {xs : List Branching}

theorem start (h : Builds s b p xs t c) : s.Stands b := by
  cases h <;> assumption

theorem grows_arms {u x y : Session} {v : Value} {blocks : Fork}
    (hf : Forked t b v blocks u) (h₁ : (u.moveTo blocks.one).Grows x)
    (h₂ : ((x.jump blocks.join).moveTo blocks.zero).Grows y) :
    t.Grows ((y.jump blocks.join).moveTo blocks.join) := by
  have hx : t.Grows x := hf.grows.trans h₁
  have hy : t.Grows y := hx.trans ((Grows.append x _).trans h₂)
  exact hy.trans (.append y _)

theorem stands (h : Builds s b p xs t c) : t.Stands c ∧ c.fn = b.fn ∧ s.Grows t := by
  induction h with
  | nil hs => exact ⟨hs, rfl, .refl _⟩
  | advance _ hst _ ih => exact ⟨ih.1, ih.2.1, hst.grows.trans ih.2.2⟩
  | branch _ hg hf _ _ _ ih₁ ih₂ ih₃ =>
    obtain ⟨st, -, hst⟩ := hg.advances
    exact ⟨ih₃.1, ih₃.2.1.trans (by rw [hf.join]),
      (hst.grows.trans (grows_arms hf ih₁.2.2 ih₂.2.2)).trans ih₃.2.2⟩

/-- Of the blocks that were there, only the one in which building begins may change; building ends
in it or in a new one. -/
theorem keeps (h : Builds s b p xs t c) : s.Keeps b t c := by
  induction h with
  | nil => exact ⟨fun _ _ _ => rfl, .inl rfl⟩
  | advance hs hst _ ih => exact ih.of_body? fun d hd => hst.body?_eq hs hd
  | @branch s t u x y z b c d e p one zero xs ys zs g v blocks hs hg hf h₁ h₂ h₃ ih₁ ih₂ ih₃ =>
    obtain ⟨st, -, hst⟩ := hg.advances
    have hnew : ∀ d, d = blocks.one ∨ d = blocks.zero ∨ d = blocks.join → s.body? d = none :=
      fun d hd => hst.grows.body?_eq_none (hf.body?_eq_none hd)
    refine ⟨fun d hd hsome => ?_, .inr ?_⟩
    · have hne : ∀ c, c = blocks.one ∨ c = blocks.zero ∨ c = blocks.join → d ≠ c := by
        rintro c hc rfl
        rw [hnew d hc] at hsome
        cases hsome
      have hu : u.body? d = s.body? d :=
        (hf.body?_eq hd (hst.grows.isSome_body? hsome)).trans (hst.body?_eq hs hd)
      have hx := ih₁.body?_jump h₁.stands.1 blocks.join (hne _ (.inl rfl)) (hu ▸ hsome)
      have hx' : (x.jump blocks.join).body? d = s.body? d := hx.trans hu
      have hy := ih₂.body?_jump h₂.stands.1 blocks.join (hne _ (.inr (.inl rfl))) (hx' ▸ hsome)
      have hy' : (y.jump blocks.join).body? d = s.body? d := hy.trans hx'
      exact (ih₃.old d (hne _ (.inr (.inr rfl))) (hy' ▸ hsome)).trans hy'
    · rcases ih₃.place with rfl | hn
      · exact hnew _ (.inr (.inr rfl))
      · have hgrows := hst.grows.trans (grows_arms hf h₁.stands.2.2 h₂.stands.2.2)
        exact hgrows.body?_eq_none hn

section Arms

variable {u x y : Session} {d : BlockRef} {v : Value} {blocks : Fork} {one zero : List Stmt}
  {ys : List Branching}

theorem body?_zero (hf : Forked t b v blocks u)
    (h₁ : Builds (u.moveTo blocks.one) blocks.one one xs x c) :
    ((x.jump blocks.join).moveTo blocks.zero).body? blocks.zero = some [] := by
  have hu := hf.fresh blocks.zero (.inr (.inl rfl))
  exact (h₁.keeps.body?_jump h₁.stands.1 _ hf.ne.1 (by simp [hu])).trans hu

theorem body?_join (hf : Forked t b v blocks u)
    (h₁ : Builds (u.moveTo blocks.one) blocks.one one xs x c)
    (h₂ : Builds ((x.jump blocks.join).moveTo blocks.zero) blocks.zero zero ys y d) :
    ((y.jump blocks.join).moveTo blocks.join).body? blocks.join = some [] := by
  have hu := hf.fresh blocks.join (.inr (.inr rfl))
  have hx : ((x.jump blocks.join).moveTo blocks.zero).body? blocks.join = some [] :=
    (h₁.keeps.body?_jump h₁.stands.1 _ hf.ne.2.1 (by simp [hu])).trans hu
  exact (h₂.keeps.body?_jump h₂.stands.1 _ hf.ne.2.2 (by simp [hx])).trans hx

/-- What is known of the parts of a conditional: where they are built and where they end, that its
last block is there all the time, and that between the parts only the builder's function is
recoded. -/
structure Arms (b : BlockRef) (blocks : Fork) (t u x y : Session) (c d : BlockRef) : Prop where
  one : blocks.one.fn = b.fn
  zero : blocks.zero.fn = b.fn
  join : blocks.join.fn = b.fn
  first : x.Stands c
  second : y.Stands d
  joins : (u.body? blocks.join).isSome ∧ (x.body? blocks.join).isSome ∧
    (y.body? blocks.join).isSome
  grows : t.Grows u ∧ u.Grows x ∧ (x.jump blocks.join).Grows y
  enter : Recodes b.fn t (u.moveTo blocks.one)
  cross : Recodes b.fn x ((x.jump blocks.join).moveTo blocks.zero)
  leave : Recodes b.fn y ((y.jump blocks.join).moveTo blocks.join)

theorem arms (hf : Forked t b v blocks u)
    (h₁ : Builds (u.moveTo blocks.one) blocks.one one xs x c)
    (h₂ : Builds ((x.jump blocks.join).moveTo blocks.zero) blocks.zero zero ys y d) :
    Arms b blocks t u x y c d := by
  have hone : blocks.one.fn = b.fn := by rw [hf.one]
  have hzero : blocks.zero.fn = b.fn := by rw [hf.zero]
  have hjoin : blocks.join.fn = b.fn := by rw [hf.join]
  have hi : ∀ c ∈ (Instr.br blocks.join).targets, c.fn = b.fn := by
    simpa [Instr.targets] using hjoin
  obtain ⟨hx, hxfn, hux⟩ := h₁.stands
  obtain ⟨hy, hyfn, hxy⟩ := h₂.stands
  have hux : u.Grows x := hux
  have hxy : (x.jump blocks.join).Grows y := hxy
  have hju : (u.body? blocks.join).isSome := (hf.stands (.inr (.inr rfl))).exist
  have hjx := hux.isSome_body? hju
  have hjy := hxy.isSome_body? ((Grows.append x _).isSome_body? hjx)
  refine ⟨hone, hzero, hjoin, hx, hy, ⟨hju, hjx, hjy⟩, ⟨hf.grows, hux, hxy⟩, ?_, ?_, ?_⟩
  · exact hf.recodes.trans (.moveTo _ _ _)
  · exact (Recodes.append hx.position (hxfn.trans hone) hi).trans (.moveTo _ _ _)
  · exact (Recodes.append hy.position (hyfn.trans hzero) hi).trans (.moveTo _ _ _)

end Arms

theorem clearAt (h : Builds s b p xs t c) (hc : s.ClearAt b.fn.module) :
    t.ClearAt b.fn.module := by
  induction h with
  | nil => exact hc
  | advance hs hst _ ih => exact ih (hst.clearAt hs hc)
  | branch hs hg hf h₁ h₂ _ ih₁ ih₂ ih₃ =>
    have harms := arms hf h₁ h₂
    rw [harms.one] at ih₁
    rw [harms.zero] at ih₂
    rw [harms.join] at ih₃
    obtain ⟨st, -, hst⟩ := hg.advances
    have hcu := (hst.clearAt hs hc).of_recodes harms.enter
    exact ih₃ ((ih₂ ((ih₁ hcu).of_recodes harms.cross)).of_recodes harms.leave)

theorem clearAt_arms {u x y : Session} {d : BlockRef} {v : Value} {blocks : Fork}
    {one zero : List Stmt} {ys : List Branching} (hf : Forked t b v blocks u)
    (h₁ : Builds (u.moveTo blocks.one) blocks.one one xs x c)
    (h₂ : Builds ((x.jump blocks.join).moveTo blocks.zero) blocks.zero zero ys y d)
    (hc : t.ClearAt b.fn.module) :
    (u.moveTo blocks.one).ClearAt b.fn.module ∧
      ((x.jump blocks.join).moveTo blocks.zero).ClearAt b.fn.module ∧
      ((y.jump blocks.join).moveTo blocks.join).ClearAt b.fn.module := by
  have harms := arms hf h₁ h₂
  have hcu := hc.of_recodes harms.enter
  have hcx := (harms.one ▸ h₁.clearAt (harms.one.symm ▸ hcu)).of_recodes harms.cross
  exact ⟨hcu, hcx, (harms.zero ▸ h₂.clearAt (harms.zero.symm ▸ hcx)).of_recodes harms.leave⟩

theorem length_eq (h : Builds s b p xs t c) : xs.length = Stmt.conditionalsAll p := by
  induction h with
  | nil => rfl
  | advance _ hst _ ih => cases hst <;> simp [Stmt.conditionalsAll, Stmt.conditionals, ih]
  | branch _ _ _ _ _ _ ih₁ ih₂ ih₃ =>
    simp only [List.length_cons, List.length_append, Stmt.conditionalsAll, Stmt.conditionals, ih₁,
      ih₂, ih₃]
    omega

end Builds

open Attempt

@[simp] theorem Mode.observe_none (mode : Mode) : mode.observe none = none := by cases mode <;> rfl

theorem Test.arms_eq {test : Test} {s t : Session} {blocks : Fork}
    (h : test.fork s = .ok blocks t) (one : List Step) :
    test.arms one s = (t.moveTo blocks.one,
      ((Step.runAll one (t.moveTo blocks.one)).session.jump blocks.join).moveTo blocks.zero) := by
  rw [arms, h]

/-- A conditional whose test can be evaluated forks; any other is skipped. -/
theorem Test.fork_cases {s : Session} {b : BlockRef} (test : Test) (hs : s.Stands b) :
    (∃ g v t blocks u, test.guard? s = some g ∧ g.Tests s v t ∧ Forked t b v blocks u ∧
      test.fork s = .ok blocks u) ∨
    ∃ e t, test.guard? s = none ∧ test.fork s = .error e t ∧ Evaluates s t := by
  have he := test.operand.eval_evaluates s
  cases hv : test.operand.eval s with
  | ok v t =>
    rw [leaves_ok hv] at he
    have hg : test.guard? s = some (test.guard v) := by rw [guard?, hv]
    have ht := hs.of_evaluates he
    cases test with
    | bit c =>
      obtain ⟨blocks, u, hf, hu⟩ := ht.fork_isOk v
      refine .inl ⟨.bit v, v, t, blocks, u, hg, .bit v he, hu, ?_⟩
      exact (bind_of_ok hv).trans (ok_updateGuarded.mpr hf)
    | result c =>
      obtain ⟨x, u, hread⟩ := ht.emit_isOk .readResult [v]
      obtain ⟨blocks, w, hf, hw⟩ := (ht.of_emit hread).fork_isOk x
      refine .inl ⟨.result v, x, u, blocks, w, hg, .result he hread, hw, ?_⟩
      exact (bind_of_ok ((bind_of_ok hv).trans (ok_updateGuarded.mpr hread))).trans
        (ok_updateGuarded.mpr hf)
  | error e t =>
    rw [leaves_error hv] at he
    refine .inr ⟨e, t, by rw [guard?, hv], ?_, he⟩
    cases test with
    | bit c => exact bind_of_error hv
    | result c => exact bind_of_error (bind_of_error hv)

namespace Step

variable {s : Session} {b : BlockRef}

theorem run_apply {op : Operation} {args : List ValueExpr} {values : List Value} {t : Session}
    (hl : args.length = op.params.length) (hv : ValueExpr.evalList args s = .ok values t)
    (ht : t.Stands b) : ∃ v, t.emit op values = .ok (v, ((perform (.apply op args)).run s).2) := by
  obtain ⟨v, u, hu⟩ := ht.emit_isOk op values
  have hg : updateGuarded (·.emit op values) t = .ok v u := ok_updateGuarded.mpr hu
  refine ⟨v, ?_⟩
  rw [run, answer_snd, Command.act, if_neg (not_not.mpr hl), leaves_bind, hv]
  simp only [leaves_bind, hg, leaves_lastInstruction, hu]

theorem resolve_apply (op : Operation) (args : List ValueExpr) (hs : s.Stands b) :
    (∃ values t v, Evaluates s t ∧
      t.emit op values = .ok (v, ((perform (.apply op args)).run s).2) ∧
      (perform (.apply op args)).resolve s = .call op values) ∨
    (Evaluates s ((perform (.apply op args)).run s).2 ∧
      (perform (.apply op args)).resolve s = .skip) := by
  by_cases hl : args.length ≠ op.params.length
  · rw [run, answer_snd, resolve, Command.act, if_pos hl, if_pos hl]
    exact .inr ⟨.refl, rfl⟩
  have he := ValueExpr.evalList_evaluates args s
  cases hv : ValueExpr.evalList args s with
  | ok values t =>
    rw [leaves_ok hv] at he
    obtain ⟨v, hu⟩ := run_apply (not_not.mp hl) hv (hs.of_evaluates he)
    refine .inl ⟨values, t, v, he, hu, ?_⟩
    rw [resolve, if_neg hl, hv]
  | error e t =>
    rw [leaves_error hv] at he
    rw [run, answer_snd, resolve, Command.act, if_neg hl, if_neg hl, leaves_bind, hv]
    exact .inr ⟨he, rfl⟩

theorem run_ret (hs : s.Stands b) :
    ((perform (.ret none)).run s).2 = s.append (.ret none) := by
  have hr : requireBlock s = .ok () s := by
    unfold requireBlock
    have hg : (get : Attempt Session) s = .ok s s := rfl
    rw [bind_of_ok hg, if_neg (by simp [hs.position])]
    rfl
  rw [run, answer_snd, Command.act]
  simp only [pure_bind, leaves_bind, hr]
  exact leaves_lastInstruction _

mutual

/-- The session after a structured step is built from its statement, and its conditionals with
it. -/
theorem builds_resolve : ∀ (step : Step) (s : Session) (b : BlockRef), step.structured →
    s.Stands b → ∃ c, (step.run s).2.Stands c ∧ ∀ p xs t d, Builds (step.run s).2 c p xs t d →
      Builds s b (step.resolve s :: p) (step.branchings s ++ xs) t d
  | .perform (.apply op args), s, b, _, hs => by
    refine ⟨b, ?_⟩
    rcases resolve_apply op args hs with ⟨values, t, v, he, hu, hr⟩ | ⟨he, hr⟩
    · exact ⟨(hs.of_evaluates he).of_emit hu, fun p xs u d hb => hr ▸ .advance hs (.call he hu) hb⟩
    · exact ⟨hs.of_evaluates he, fun p xs u d hb => hr ▸ .advance hs (.skip he) hb⟩
  | .perform (.ret none), s, b, _, hs => by
    refine ⟨b, run_ret hs ▸ hs.append _, fun p xs t d hb => ?_⟩
    rw [run_ret hs] at hb
    exact .advance hs (.ret s) hb
  | .conditional test mode one zero, s, b, h, hs => by
    rw [structured, Bool.and_eq_true] at h
    rcases test.fork_cases hs with ⟨g, v, t, blocks, u, hg, ht, hf, hu⟩ | ⟨e, t, hg, hu, he⟩
    · obtain ⟨c, hone, hok⟩ := builds_resolveAll one _ _ h.1 (hf.stands (.inl rfl))
      have hz : (((runAll one (u.moveTo blocks.one)).session.jump blocks.join).moveTo
          blocks.zero).Stands blocks.zero := by
        refine .moveTo ((Grows.append _ _).isSome_body? (hone.stands.2.2.isSome_body? ?_))
        exact (hf.stands (.inr (.inl rfl))).exist
      obtain ⟨d, hzero, hok'⟩ := builds_resolveAll zero _ _ h.2 hz
      have harms := Builds.arms hf hone hzero
      rw [run, resolve, branchings, hu, hg, Test.arms_eq hu]
      simp only [hok, hok', Mode.observe_none, harms.first.position, harms.second.position]
      exact ⟨blocks.join, .moveTo ((Grows.append _ _).isSome_body? harms.joins.2.2),
        fun p xs x f hb => .branch hs ht hf hone hzero hb⟩
    · rw [run, resolve, branchings, hu, hg]
      exact ⟨b, hs.of_evaluates he, fun p xs x f hb => .advance hs (.skip he) hb⟩

theorem builds_resolveAll : ∀ (steps : List Step) (s : Session) (b : BlockRef),
    structuredAll steps → s.Stands b →
      ∃ c, Builds s b (resolveAll steps s) (branchingsAll steps s) (runAll steps s).session c ∧
        (runAll steps s).failure = none
  | [], s, b, _, hs => ⟨b, .nil hs, rfl⟩
  | .perform command :: steps, s, b, h, hs => by
    rw [structuredAll, Bool.and_eq_true] at h
    obtain ⟨c, hc, hb⟩ := builds_resolve (.perform command) s b h.1 hs
    obtain ⟨d, hd, hok⟩ := builds_resolveAll steps _ c h.2 hc
    exact ⟨d, hb _ _ _ _ hd, hok⟩
  | .conditional test mode one zero :: steps, s, b, h, hs => by
    rw [structuredAll, Bool.and_eq_true] at h
    obtain ⟨c, hc, hb⟩ := builds_resolve (.conditional test mode one zero) s b h.1 hs
    obtain ⟨d, hd, hok⟩ := builds_resolveAll steps _ c h.2 hc
    exact ⟨d, hb _ _ _ _ hd, hok⟩

end

def oneParameter : Program :=
  ⟨"m", [.perform (.declare "f" .void [.int 1] .external), .perform (.newBlock "f" "entry")]⟩

/-- A branch on the parameter, with a branch on a result inside. -/
def nestedBranches : List Step :=
  [.perform (.apply .h [.qubit 0]),
    .conditional (.bit (.param "f" 0)) .plain
      [.perform (.apply .mz [.qubit 0, .result 0]),
        .conditional (.result (.result 0)) .plain [.perform (.apply .x [.qubit 1])] []]
      [.perform (.apply .z [.qubit 0])],
    .perform (.apply .reset [.qubit 0])]

def qubit (n : UInt64) : Value := .const (.intToPtr n .qubit)

def result (n : UInt64) : Value := .const (.intToPtr n .result)

theorem clear_oneParameter (m : Module) (h : oneParameter.run.session.module? 0 = some m) :
    m.Clear := by
  have hm : (oneParameter.run.session.module? 0).map Module.globals = some [] := by decide +kernel
  rw [h] at hm
  simp [Module.Clear, Option.some.inj hm]

end Step

end QuantumIR
