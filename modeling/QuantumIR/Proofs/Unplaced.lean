import QuantumIR.Proofs.Structured

/-! # Building without a place

Calls of operations and conditionals need a builder that stands in a function. Without one they are
refused when their arguments have been evaluated, and before anything else: no function is declared,
no block is appended and no branch is entered.
-/

namespace QuantumIR

open Attempt

namespace Session

variable {s t : Session}

/-- The builder has no position, or stands in a block of no function. -/
def Unplaced (s : Session) : Prop := s.position = .unset ∨ ∃ name, s.position = .loose name

theorem unplaced_iff : s.Unplaced ↔ s.builderFn? = none := by
  unfold Unplaced builderFn?
  cases s.position <;> simp

instance (s : Session) : Decidable s.Unplaced := decidable_of_iff _ unplaced_iff.symm

theorem not_unplaced_iff : ¬ s.Unplaced ↔ ∃ b, s.position = .endOf b := by
  unfold Unplaced
  cases s.position <;> simp

theorem Unplaced.of_evaluates (hs : s.Unplaced) (h : Evaluates s t) : t.Unplaced := by
  rw [Unplaced, h.position]
  exact hs

theorem Unplaced.emit (hs : s.Unplaced) (op : Operation) (args : List Value) :
    updateGuarded (·.emit op args) s = .error (.panic .noPosition) s := by
  rw [updateGuarded, Session.emit, unplaced_iff.mp hs]

theorem Unplaced.fork (hs : s.Unplaced) (v : Value) :
    updateGuarded (·.fork v) s = .error (.panic .noPosition) s := by
  rw [updateGuarded, Session.fork, unplaced_iff.mp hs]

theorem Stands.lastInstruction_emit {b : BlockRef} {op : Operation} {args : List Value} {v : Value}
    (hs : s.Stands b) (h : s.emit op args = .ok (v, t)) :
    ∃ text, lastInstruction t = .ok (.instruction text) t := by
  obtain ⟨body, hbody⟩ := Option.isSome_iff_exists.mp hs.exist
  obtain ⟨callee, sig, hlast, -⟩ := emit_body hs.position hbody h
  obtain ⟨blk, hblk, hb⟩ := Option.map_eq_some_iff.mp hlast
  obtain ⟨text, htext⟩ : ∃ text, t.lastInstrText? = some text := by
    rw [lastInstrText?, lastInstr?, (hs.of_emit h).position]
    simp [hblk, hb]
  refine ⟨text, ?_⟩
  change (require .noBlock t.lastInstrText? >>= _) t = _
  rw [htext]
  rfl

end Session

open Session

theorem Test.fork_of_error {test : Test} {s t : Session} {fault : Fault}
    (h : test.operand.eval s = .error fault t) : test.fork s = .error fault t := by
  cases test with
  | bit c => exact bind_of_error h
  | result c => exact bind_of_error (bind_of_error h)

theorem Test.fork_unplaced {test : Test} {s t : Session} {v : Value}
    (h : test.operand.eval s = .ok v t) (ht : t.Unplaced) :
    test.fork s = .error (.panic .noPosition) t := by
  cases test with
  | bit c => exact (bind_of_ok h).trans (ht.fork v)
  | result c => exact bind_of_error ((bind_of_ok h).trans (ht.emit .readResult [v]))

theorem Test.fork_placed {test : Test} {s t : Session} {b : BlockRef} {v : Value} (hs : s.Stands b)
    (h : test.operand.eval s = .ok v t) : ∃ blocks u, test.fork s = .ok blocks u := by
  rcases test.fork_cases hs with ⟨_, _, _, blocks, u, -, -, -, hf⟩ | ⟨_, _, hg, -, -⟩
  · exact ⟨blocks, u, hf⟩
  · simp [guard?, h] at hg

namespace Step

/-- A call of an operation, or a conditional. -/
def constructs : Step → Bool
  | .perform (.apply _ _) => true
  | .conditional _ _ _ _ => true
  | _ => false

def arguments : Step → Attempt (List Value)
  | .perform (.apply op args) => do
    if args.length ≠ op.params.length then
      reject (.wrongArgumentCount op.params.length args.length)
    ValueExpr.evalList args
  | .conditional test _ _ _ => do
    let v ← test.operand.eval
    return [v]
  | _ => pure []

variable {s t : Session} {step : Step} {fault : Fault} {values : List Value}

theorem constructs_cases (h : step.constructs) : (∃ op args, step = .perform (.apply op args)) ∨
    ∃ test mode one zero, step = .conditional test mode one zero := by
  cases step with
  | perform command =>
    cases command with
    | apply op args => exact .inl ⟨op, args, rfl⟩
    | _ => cases h
  | conditional test mode one zero => exact .inr ⟨test, mode, one, zero, rfl⟩
  | fail => cases h

theorem arguments_evaluates (h : step.constructs) (s : Session) :
    Evaluates s (step.arguments.leaves s) := by
  rcases constructs_cases h with ⟨op, args, rfl⟩ | ⟨test, mode, one, zero, rfl⟩
  · rw [arguments]
    split
    · exact .refl
    · exact ValueExpr.evalList_evaluates args s
  · exact reaches_bind (test.operand.eval_evaluates s) fun _ _ _ => .refl

theorem act_apply (op : Operation) (args : List ValueExpr) :
    (Command.apply op args).act = (perform (.apply op args)).arguments >>= fun values =>
      updateGuarded (·.emit op values) >>= fun _ => lastInstruction := by
  rw [Command.act, arguments]
  split <;> rfl

theorem eval_of_arguments {test : Test} {mode : Mode} {one zero : List Step}
    (h : (conditional test mode one zero).arguments s = .ok values t) :
    ∃ v, test.operand.eval s = .ok v t := by
  obtain ⟨v, u, hv, h⟩ := ok_bind h
  cases h
  exact ⟨v, hv⟩

/-- The step is answered with what has stopped it, and the run goes on behind it: no branch has been
entered. -/
structure StopsWith (step : Step) (s : Session) (fault : Fault) (t : Session) : Prop where
  run : step.run s = (.stopped fault, t)
  next : ∀ rest stack, (⟨step :: rest, stack, s⟩ : Config).next = some ⟨rest, stack, t⟩

theorem stopsWith_perform {command : Command} (h : command.act s = .error fault t) :
    (perform command).StopsWith s fault t := by
  have hanswer : command.act.answer s = (.stopped fault, t) := by rw [answer, h]
  constructor
  · rw [run, hanswer]
  · intro rest stack
    rw [Config.next, hanswer]

theorem stopsWith_conditional {test : Test} {mode : Mode} {one zero : List Step}
    (h : test.fork s = .error fault t) :
    (conditional test mode one zero).StopsWith s fault t := by
  constructor
  · rw [run, h]
  · intro rest stack
    rw [Config.next, h]

theorem stopsWith_of_error (hstep : step.constructs) (h : step.arguments s = .error fault t) :
    step.StopsWith s fault t := by
  rcases constructs_cases hstep with ⟨op, args, rfl⟩ | ⟨test, mode, one, zero, rfl⟩
  · apply stopsWith_perform
    rw [act_apply, bind_of_error h]
  · apply stopsWith_conditional
    rcases error_bind h with h | ⟨v, u, -, h⟩
    · exact Test.fork_of_error h
    · cases h

theorem stopsWith_of_unplaced (hstep : step.constructs) (h : step.arguments s = .ok values t)
    (ht : t.Unplaced) : step.StopsWith s (.panic .noPosition) t := by
  rcases constructs_cases hstep with ⟨op, args, rfl⟩ | ⟨test, mode, one, zero, rfl⟩
  · apply stopsWith_perform
    rw [act_apply, bind_of_ok h, bind_of_error (ht.emit op values)]
  · obtain ⟨v, hv⟩ := eval_of_arguments h
    exact stopsWith_conditional (Test.fork_unplaced hv ht)

theorem run_ne_stopped {b : BlockRef} (hstep : step.constructs)
    (h : step.arguments s = .ok values t) (hs : s.Stands b) (fault : Fault) :
    (step.run s).1 ≠ .stopped fault := by
  rcases constructs_cases hstep with ⟨op, args, rfl⟩ | ⟨test, mode, one, zero, rfl⟩
  · have ht : t.Stands b := hs.of_evaluates (leaves_ok h ▸ arguments_evaluates hstep s)
    obtain ⟨v, u, hu⟩ := ht.emit_isOk op values
    obtain ⟨text, htext⟩ := ht.lastInstruction_emit hu
    rw [run, answer, act_apply, bind_of_ok h, bind_of_ok (ok_updateGuarded.mpr hu), htext]
    simp
  · obtain ⟨v, hv⟩ := eval_of_arguments h
    obtain ⟨blocks, u, hf⟩ := Test.fork_placed hs hv
    rw [run, hf]
    dsimp only
    split
    · simp
    · split <;> simp

/-- A call of an operation or a conditional panics if and only if the builder has no position or
stands in a block of no function, unless its arguments have stopped it. Then nothing has changed
since the arguments were evaluated, and no branch is entered. Otherwise the step is not stopped, and
a conditional enters its first branch. -/
theorem panics_iff_unplaced (hs : s.Reachable) (hstep : step.constructs) :
    (∀ fault t, step.arguments s = .error fault t → step.StopsWith s fault t) ∧
    ∀ values t, step.arguments s = .ok values t →
      ((∃ p, (step.run s).1 = .stopped (.panic p)) ↔ s.Unplaced) ∧
      (s.Unplaced → step.StopsWith s (.panic .noPosition) t) ∧
      (¬ s.Unplaced → (∀ fault, (step.run s).1 ≠ .stopped fault) ∧
        ∀ test mode one zero, step = .conditional test mode one zero →
          ∀ rest stack, ∃ blocks u, (⟨step :: rest, stack, s⟩ : Config).next =
            some ⟨one, .inOne blocks mode zero rest :: stack, u⟩) := by
  refine ⟨fun fault t h => stopsWith_of_error hstep h, fun values t h => ?_⟩
  have hstops : s.Unplaced → step.StopsWith s (.panic .noPosition) t := by
    intro hu
    have he : Evaluates s t := leaves_ok h ▸ arguments_evaluates hstep s
    exact stopsWith_of_unplaced hstep h (hu.of_evaluates he)
  have hgoes : ¬ s.Unplaced → ∀ fault, (step.run s).1 ≠ .stopped fault := by
    intro hu
    obtain ⟨b, hb⟩ := not_unplaced_iff.mp hu
    exact run_ne_stopped hstep h (hs.stands hb)
  refine ⟨⟨?_, ?_⟩, hstops, fun hu => ⟨hgoes hu, ?_⟩⟩
  · rintro ⟨p, hp⟩
    by_contra hu
    exact hgoes hu _ hp
  · intro hu
    exact ⟨_, by rw [(hstops hu).run]⟩
  · rintro test mode one zero rfl rest stack
    obtain ⟨b, hb⟩ := not_unplaced_iff.mp hu
    obtain ⟨v, hv⟩ := eval_of_arguments h
    obtain ⟨blocks, u, hf⟩ := Test.fork_placed (hs.stands hb) hv
    exact ⟨blocks, u.moveTo blocks.one, by rw [Config.next, hf]⟩

def readTwice : Step :=
  .conditional (.result (.result 0)) .checked [.perform (.apply .readResult [.result 0])]
    [.perform (.apply .readResult [.result 0])]

def lostBranch : Program where
  name := "m"
  steps := [
    .perform (.declare "f" .void [] .external),
    .perform (.newBlock "f" "entry"),
    .conditional (.bit (.int 1 1)) .plain
      [.perform (.looseBlock "nowhere"), readTwice] []]

theorem panics_iff_unplaced_lostBranch : ∃ s values t, s.Reachable ∧ s.Unplaced ∧
    readTwice.arguments s = .ok values t ∧ s.structs = [] ∧ t.structs ≠ [] ∧
    readTwice.StopsWith s (.panic .noPosition) t := by
  have hreach : ∃ c : Config, c.Reachable ∧ c.session.Unplaced ∧ c.session.structs = [] := by
    refine ⟨_, ⟨lostBranch.name, lostBranch.steps,
      .of_next rfl (.of_next rfl (.of_next rfl (.of_next rfl .refl)))⟩, ?_⟩
    decide +kernel
  obtain ⟨c, hc, hplace, hstructs⟩ := hreach
  have hs : c.session.Reachable := ⟨c, hc, rfl⟩
  refine ⟨c.session, _, _, hs, hplace, rfl, hstructs, ?_,
    ((panics_iff_unplaced hs rfl).2 _ _ rfl).2.1 hplace⟩
  simp [ensureStruct, structNames, addStruct, hstructs]

end Step

end QuantumIR
