import QuantumIR.Command

/-! # Running steps

Each step changes the session and has an answer. A step that is stopped is answered by what stopped
it, and the next step follows. A failure ends the list of steps that it stands in; a checked
conditional passes it on in its answer.
-/

namespace QuantumIR

open Attempt

/-- What is left after a list of steps: the answers, the failure that ended the list if one did, and
the session. -/
structure Outcome where
  answers : List Answer
  failure : Option String
  session : Session

/-- Evaluate the test of a conditional; a result is read where the builder stands. -/
def Test.eval : Test → Attempt Value
  | .bit condition => condition.eval
  | .result measured => do
    let r ← measured.eval
    updateGuarded (·.emit .readResult [r])

def Test.fork (t : Test) : Attempt Session.Fork := do
  let v ← t.eval
  updateGuarded (·.fork v)

/-- The failure of a branch as the conditional sees it. -/
def Mode.observe : Mode → Option String → Option String
  | .plain, _ => none
  | .checked, failure => failure

def Attempt.answer (a : Attempt Answer) (s : Session) : Answer × Session :=
  match a s with
  | .ok answer s => (answer, s)
  | .error fault s => (.stopped fault, s)

mutual

/-- Run a step. The branches of a conditional run one after the other, each from its own block; a
failure that the conditional sees leaves the builder where it is. -/
def Step.run : Step → Session → Answer × Session
  | .conditional test mode one zero, s =>
    match test.fork s with
    | .error fault s => (.stopped fault, s)
    | .ok blocks s =>
      let first := runAll one (s.moveTo blocks.one)
      match mode.observe first.failure with
      | some message =>
        (.conditional first.answers [] (some message) first.session.shownBlock, first.session)
      | none =>
        let second := runAll zero ((first.session.jump blocks.join).moveTo blocks.zero)
        match mode.observe second.failure with
        | some message =>
          (.conditional first.answers second.answers (some message) second.session.shownBlock,
            second.session)
        | none =>
          let s := (second.session.jump blocks.join).moveTo blocks.join
          (.conditional first.answers second.answers none s.shownBlock, s)
  | .perform command, s => command.act.answer s
  | .fail message, s => (.failed message, s)

def Step.runAll : List Step → Session → Outcome
  | [], s => ⟨[], none, s⟩
  | .fail message :: _, s => ⟨[.failed message], some message, s⟩
  | step :: steps, s =>
    let (answer, s) := step.run s
    let rest := runAll steps s
    ⟨answer :: rest.answers, rest.failure, rest.session⟩

end

structure Program where
  name : String
  steps : List Step

def Program.run (p : Program) : Outcome := Step.runAll p.steps (Session.start p.name)

/-- The answers of a program, or the first request in it that meant nothing. -/
def Program.answers (p : Program) : Except Defect (List Answer) :=
  match Answer.firstDefect? p.run.answers with
  | none => .ok p.run.answers
  | some d => .error d

end QuantumIR
