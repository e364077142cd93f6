import Mathlib.Logic.Relation
import QuantumIR.Run

/-! # Runs step by step

A run of nested steps as a machine with a stack: a frame remembers a conditional whose branch is
being run. The machine passes through every state in which a step begins or ends, at any depth, so
it says what the reachable states are and what comes later in a run.
-/

namespace QuantumIR

open Relation

/-- A conditional in one of its branches: its blocks, its mode, and the steps that follow. -/
inductive Frame
  | inOne (blocks : Session.Fork) (mode : Mode) (zero rest : List Step)
  | inZero (blocks : Session.Fork) (mode : Mode) (rest : List Step)

/-- The steps that are left in the innermost list, the conditionals around it, and the session. -/
structure Config where
  steps : List Step
  stack : List Frame
  session : Session

def Frame.leave (failure : Option String) (stack : List Frame) (s : Session) : Frame → Config
  | .inOne blocks mode zero rest =>
    match mode.observe failure with
    | some _ => ⟨rest, stack, s⟩
    | none =>
      ⟨zero, .inZero blocks mode rest :: stack, (s.jump blocks.join).moveTo blocks.zero⟩
  | .inZero blocks mode rest =>
    match mode.observe failure with
    | some _ => ⟨rest, stack, s⟩
    | none => ⟨rest, stack, (s.jump blocks.join).moveTo blocks.join⟩

namespace Config

def next : Config → Option Config
  | ⟨.perform command :: rest, stack, s⟩ => some ⟨rest, stack, (command.act.answer s).2⟩
  | ⟨.conditional test mode one zero :: rest, stack, s⟩ =>
    match test.fork s with
    | .error _ t => some ⟨rest, stack, t⟩
    | .ok blocks t => some ⟨one, .inOne blocks mode zero rest :: stack, t.moveTo blocks.one⟩
  | ⟨.fail message :: _, frame :: stack, s⟩ => some (frame.leave (some message) stack s)
  | ⟨[], frame :: stack, s⟩ => some (frame.leave none stack s)
  | ⟨_, [], _⟩ => none

def Reaches : Config → Config → Prop := ReflTransGen fun c d => c.next = some d

theorem Reaches.trans {c d e : Config} (h : Reaches c d) (h' : Reaches d e) : Reaches c e :=
  ReflTransGen.trans h h'

theorem Reaches.of_next {c d e : Config} (h : c.next = some d) (h' : Reaches d e) : Reaches c e :=
  ReflTransGen.head h h'

/-- What holds at the start of a run and is kept by every step holds throughout. -/
theorem Reaches.invariant {c d : Config} {P : Config → Prop} (h : Reaches c d)
    (hP : ∀ c d, c.next = some d → P c → P d) (hc : P c) : P d := by
  induction h with
  | refl => exact hc
  | tail _ hn ih => exact hP _ _ hn ih

/-- What is noted on the way from one state of a run to another, in order. -/
inductive Trace {α : Type} (note : Config → List α) (c : Config) : List α → Config → Prop
  | start : Trace note c [] c
  | step {d e : Config} {xs : List α} : Trace note c xs d → d.next = some e →
      Trace note c (xs ++ note d) e

section Trace

variable {α : Type} {note : Config → List α} {xs : List α} {c d : Config}

theorem Trace.reaches (h : Trace note c xs d) : c.Reaches d := by
  induction h with
  | start => exact .refl
  | step _ hn ih => exact ReflTransGen.tail ih hn

theorem Reaches.exists_trace (h : c.Reaches d) (note : Config → List α) :
    ∃ xs, Trace note c xs d := by
  induction h with
  | refl => exact ⟨[], .start⟩
  | tail _ hn ih =>
    obtain ⟨xs, hxs⟩ := ih
    exact ⟨_, hxs.step hn⟩

end Trace

def Reachable (c : Config) : Prop := ∃ name steps, Reaches ⟨steps, [], .start name⟩ c

end Config

def Session.Reachable (s : Session) : Prop := ∃ c : Config, c.Reachable ∧ c.session = s

/-- What is left of a list of steps when it has been run: nothing, or the failure that ended it. -/
def Step.Rest (failure : Option String) (left : List Step) : Prop :=
  match failure with
  | none => left = []
  | some message => ∃ tail, left = .fail message :: tail

theorem Step.Rest.next {failure : Option String} {left : List Step} (h : Step.Rest failure left)
    (frame : Frame) (stack : List Frame) (s : Session) :
    (⟨left, frame :: stack, s⟩ : Config).next = some (frame.leave failure stack s) := by
  cases failure with
  | none => rw [show left = [] from h]; rfl
  | some message => obtain ⟨tail, rfl⟩ := h; rfl

namespace Step

open Config

mutual

/-- The machine carries out a step as `Step.run` does. -/
theorem reaches_run : ∀ (step : Step) (rest : List Step) (stack : List Frame) (s : Session),
    (∀ message, step ≠ .fail message) →
      Reaches ⟨step :: rest, stack, s⟩ ⟨rest, stack, (step.run s).2⟩
  | .perform command, rest, stack, s, _ => .of_next rfl .refl
  | .fail message, _, _, _, h => absurd rfl (h message)
  | .conditional test mode one zero, rest, stack, s, _ => by
    cases hf : test.fork s with
    | error e t =>
      refine .of_next (d := ⟨rest, stack, t⟩) (by simp [next, hf]) ?_
      rw [run, hf]
      exact .refl
    | ok blocks t =>
      refine .of_next (d := ⟨one, .inOne blocks mode zero rest :: stack, t.moveTo blocks.one⟩)
        (by simp [next, hf]) ?_
      obtain ⟨left, hone, hl⟩ :=
        reaches_runAll one (.inOne blocks mode zero rest :: stack) (t.moveTo blocks.one)
      rw [run, hf]
      simp only
      generalize runAll one (t.moveTo blocks.one) = first at hone hl ⊢
      refine hone.trans (.of_next (hl.next _ _ _) ?_)
      simp only [Frame.leave]
      cases mode.observe first.failure with
      | some message => exact .refl
      | none =>
        obtain ⟨left', hzero, hl'⟩ := reaches_runAll zero (.inZero blocks mode rest :: stack)
          ((first.session.jump blocks.join).moveTo blocks.zero)
        generalize runAll zero _ = second at hzero hl' ⊢
        refine hzero.trans (.of_next (hl'.next _ _ _) ?_)
        simp only [Frame.leave]
        cases mode.observe second.failure <;> exact .refl

theorem reaches_runAll : ∀ (steps : List Step) (stack : List Frame) (s : Session),
    ∃ left, Reaches ⟨steps, stack, s⟩ ⟨left, stack, (runAll steps s).session⟩ ∧
      Rest (runAll steps s).failure left
  | [], _, _ => ⟨[], .refl, rfl⟩
  | .fail message :: tail, _, _ => ⟨.fail message :: tail, .refl, tail, rfl⟩
  | .perform command :: steps, stack, s => by
    obtain ⟨left, h, hl⟩ := reaches_runAll steps stack ((perform command).run s).2
    refine ⟨left, (reaches_run (.perform command) steps stack s nofun).trans h, hl⟩
  | .conditional test mode one zero :: steps, stack, s => by
    obtain ⟨left, h, hl⟩ := reaches_runAll steps stack ((conditional test mode one zero).run s).2
    refine ⟨left, (reaches_run (.conditional test mode one zero) steps stack s nofun).trans h, hl⟩

end

theorem session_runAll_cons {step : Step} (hstep : ∀ message, step ≠ .fail message)
    (steps : List Step) (s : Session) :
    (runAll (step :: steps) s).session = (runAll steps (step.run s).2).session := by
  cases step with
  | fail message => exact absurd rfl (hstep message)
  | perform | conditional => rfl

theorem answers_runAll_cons {step : Step} (hstep : ∀ message, step ≠ .fail message)
    (steps : List Step) (s : Session) :
    (runAll (step :: steps) s).answers =
      (step.run s).1 :: (runAll steps (step.run s).2).answers := by
  cases step with
  | fail message => exact absurd rfl (hstep message)
  | perform | conditional => rfl

theorem session_runAll_singleton (step : Step) (s : Session) :
    (runAll [step] s).session = (step.run s).2 := by
  cases step <;> rfl

end Step

theorem Program.reachable_run (p : Program) : p.run.session.Reachable := by
  obtain ⟨left, h, -⟩ := Step.reaches_runAll p.steps [] (.start p.name)
  exact ⟨_, ⟨p.name, p.steps, h⟩, rfl⟩

end QuantumIR
