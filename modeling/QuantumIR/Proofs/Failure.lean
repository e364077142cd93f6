import QuantumIR.Proofs.Verification

/-! # Failed conditionals

A checked conditional whose branch fails is given up where the branch has left it. The block in
which it would have gone on is empty then, no branch leads the builder there, and unless the builder
is moved by a command the block stays empty to the end of the run. So the module is never valid
again.
-/

namespace QuantumIR

open Session Relation

namespace Step

mutual

/-- No command in a step, at any depth, moves the builder to a block that exists. -/
def quiet : Step → Bool
  | .perform (.position _ _) => false
  | .conditional _ _ one zero => quietAll one && quietAll zero
  | _ => true

def quietAll : List Step → Bool
  | [] => true
  | step :: steps => step.quiet && quietAll steps

end

theorem quiet_perform {command : Command} (h : (perform command).quiet = true) (fn : String)
    (i : Nat) : command ≠ .position fn i := by
  rintro rfl
  cases h

end Step

def Frame.quiet : Frame → Bool
  | .inOne _ _ zero rest => Step.quietAll zero && Step.quietAll rest
  | .inZero _ _ rest => Step.quietAll rest

namespace Session

variable {s t : Session} {j : BlockRef}

structure Spares (s : Session) (j : BlockRef) : Prop where
  body : s.body? j = some []
  position : s.position ≠ .endOf j

namespace Spares

theorem change (h : s.Spares j) (hst : Change s t) : t.Spares j := by
  refine ⟨?_, fun hp => ?_⟩
  · rcases hst.code j with he | ⟨hn, -⟩ | ⟨hp, -⟩
    · exact he.trans h.body
    · exact nomatch hn.symm.trans h.body
    · exact absurd hp h.position
  · rcases hst.place hp with hp | ⟨hn, -⟩
    · exact h.position hp
    · exact nomatch hn.symm.trans h.body

theorem acts (h : s.Spares j) (hst : Acts s t) : t.Spares j := by
  induction hst with
  | refl => exact h
  | tail _ hc ih => exact ih.change hc

theorem fork {b : BlockRef} {v : Value} {blocks : Fork} (h : s.Spares j)
    (hp : s.position = .endOf b) (hf : Forked s b v blocks t) :
    (t.moveTo blocks.one).Spares j ∧ j ≠ blocks.zero ∧ j ≠ blocks.join := by
  have hne : ∀ c, c = blocks.one ∨ c = blocks.zero ∨ c = blocks.join → j ≠ c := by
    rintro c hc rfl
    exact nomatch (hf.body?_eq_none hc).symm.trans h.body
  have hjb : j ≠ b := by
    rintro rfl
    exact h.position hp
  refine ⟨⟨?_, fun hj => ?_⟩, hne _ (.inr (.inl rfl)), hne _ (.inr (.inr rfl))⟩
  · exact (hf.body?_eq hjb (by rw [h.body]; rfl)).trans h.body
  · exact hne _ (.inl rfl) (Position.endOf.inj hj).symm

theorem jump (h : s.Spares j) (target : BlockRef) {c : BlockRef} (hc : j ≠ c) :
    ((s.jump target).moveTo c).Spares j := by
  refine ⟨?_, fun hj => hc (Position.endOf.inj hj).symm⟩
  change (s.append (.br target)).body? j = some []
  rw [body?_append, if_neg h.position, h.body]

end Spares

end Session

namespace Config

/-- The run does not move the builder by a command, and no conditional around will come to block
`j`, which is empty and has not the builder in it. -/
structure Spares (c : Config) (j : BlockRef) : Prop where
  steps : Step.quietAll c.steps = true
  stack : ∀ frame ∈ c.stack, frame.quiet = true ∧ j ∉ frame.pending
  session : c.session.Spares j

variable {c d : Config} {j : BlockRef}

theorem Spares.leave {frame : Frame} {stack : List Frame} {s : Session} (failure : Option String)
    (hs : s.Spares j) (hst : ∀ f ∈ frame :: stack, f.quiet = true ∧ j ∉ f.pending) :
    (frame.leave failure stack s).Spares j := by
  obtain ⟨⟨hq, hj⟩, hstack⟩ := List.forall_mem_cons.mp hst
  cases frame with
  | inOne blocks mode zero rest =>
    simp only [Frame.quiet, Bool.and_eq_true] at hq
    simp only [Frame.pending, List.mem_cons, List.not_mem_nil, or_false, not_or] at hj
    simp only [Frame.leave]
    cases mode.observe failure with
    | some _ => exact ⟨hq.2, hstack, hs⟩
    | none =>
      refine ⟨hq.1, List.forall_mem_cons.mpr ⟨⟨hq.2, ?_⟩, hstack⟩, hs.jump _ hj.1⟩
      simpa [Frame.pending] using hj.2
  | inZero blocks mode rest =>
    simp only [Frame.pending, List.mem_cons, List.not_mem_nil, or_false] at hj
    simp only [Frame.leave]
    cases mode.observe failure with
    | some _ => exact ⟨hq, hstack, hs⟩
    | none => exact ⟨hq, hstack, hs.jump _ hj⟩

theorem Spares.next (hc : c.Spares j) (ht : c.Tidy) (h : c.next = some d) : d.Spares j := by
  rcases next_cases h with ⟨command, rest, hsteps, rfl⟩ |
    ⟨test, mode, one, zero, rest, e, t, hsteps, hf, rfl⟩ |
    ⟨test, mode, one, zero, rest, blocks, t, hsteps, hf, rfl⟩ |
    ⟨frame, stack, failure, -, hst, rfl⟩
  · have hq := hc.steps
    rw [hsteps, Step.quietAll, Bool.and_eq_true] at hq
    exact ⟨hq.2, hc.stack, hc.session.acts (command.act_acts (Step.quiet_perform hq.1) _)⟩
  · have hq := hc.steps
    rw [hsteps, Step.quietAll, Bool.and_eq_true] at hq
    exact ⟨hq.2, hc.stack, hc.session.acts (Test.fork_error hf)⟩
  · have hq := hc.steps
    rw [hsteps, Step.quietAll, Step.quiet, Bool.and_eq_true, Bool.and_eq_true] at hq
    obtain ⟨u, v, ha, hp, hf⟩ := Test.fork_ok hf
    obtain ⟨b, hb, -⟩ := fork_ok hf
    have hk := fork_forked hb ((ha.tidy ht.session).position b hb) hf
    obtain ⟨hsession, hzero, hjoin⟩ := (hc.session.acts ha).fork hb hk
    refine ⟨hq.1.1, List.forall_mem_cons.mpr ⟨⟨?_, ?_⟩, hc.stack⟩, hsession⟩
    · rw [Frame.quiet, hq.1.2, hq.2]
      rfl
    · simpa [Frame.pending] using ⟨hzero, hjoin⟩
  · exact .leave failure hc.session (hst ▸ hc.stack)

theorem Spares.reaches (hc : c.Spares j) (ht : c.Tidy) (h : Reaches c d) : d.Spares j := by
  refine (h.invariant (P := fun c => c.Tidy ∧ c.Spares j) ?_ ⟨ht, hc⟩).2
  exact fun _ _ hn ⟨ht, hc⟩ => ⟨ht.next hn, hc.next ht hn⟩

end Config

/-- Steps that do not move the builder leave an empty block alone. -/
theorem Session.Spares.runAll {s : Session} {j : BlockRef} {steps : List Step} (hs : s.Spares j)
    (ht : s.Tidy) (hq : Step.quietAll steps = true) :
    (Step.runAll steps s).session.Spares j ∧ (Step.runAll steps s).session.Tidy := by
  obtain ⟨left, h, -⟩ := Step.reaches_runAll steps [] s
  have hc : (⟨steps, [], s⟩ : Config).Tidy := ⟨ht, nofun⟩
  have hsp : (⟨steps, [], s⟩ : Config).Spares j := ⟨hq, nofun, hs⟩
  exact ⟨(hsp.reaches hc h).session, (hc.reaches h).session⟩

namespace Session.Fork

def runOne (blocks : Fork) (one : List Step) (s : Session) : Outcome :=
  Step.runAll one (s.moveTo blocks.one)

def runZero (blocks : Fork) (zero : List Step) (s : Session) : Outcome :=
  Step.runAll zero ((s.jump blocks.join).moveTo blocks.zero)

end Session.Fork

theorem Test.fork_spares {test : Test} {s t : Session} {b : BlockRef} {blocks : Fork}
    (hs : s.Tidy) (hb : s.position = .endOf b) (hf : test.fork s = .ok blocks t) :
    blocks.join.fn = b.fn ∧ s.body? blocks.join = none ∧ blocks.join ≠ blocks.zero ∧
      (t.moveTo blocks.one).Spares blocks.join := by
  obtain ⟨u, v, ha, hp, hf⟩ := Test.fork_ok hf
  have hub := hp.trans hb
  have hk := fork_forked hub ((ha.tidy hs).position b hub) hf
  refine ⟨by rw [hk.join], ?_, hk.ne.2.2, ?_, fun hj => ?_⟩
  · exact ha.grows.body?_eq_none (hk.body?_eq_none (.inr (.inr rfl)))
  · exact hk.fresh _ (.inr (.inr rfl))
  · exact hk.ne.2.1 (Position.endOf.inj hj).symm

namespace Step

variable {test : Test} {one zero rest : List Step} {stack : List Frame} {s t : Session}
  {b : BlockRef} {blocks : Fork} {message : String}

/-- Which branches of a checked conditional are run, and what it leaves when one of them fails. -/
theorem run_checked (hf : test.fork s = .ok blocks t)
    (hfail : (blocks.runOne one t).failure = some message ∨
      (blocks.runOne one t).failure = none ∧
        (blocks.runZero zero (blocks.runOne one t).session).failure = some message) :
    ∃ answers u, (conditional test .checked one zero).run s =
        (.conditional (blocks.runOne one t).answers answers (some message) u.shownBlock, u) ∧
      ((blocks.runOne one t).failure = some message →
        answers = [] ∧ u = (blocks.runOne one t).session) ∧
      ((blocks.runOne one t).failure = none →
        answers = (blocks.runZero zero (blocks.runOne one t).session).answers ∧
          u = (blocks.runZero zero (blocks.runOne one t).session).session) := by
  unfold Fork.runZero Fork.runOne at *
  rw [run, hf]
  simp only [Mode.observe]
  rcases hfail with h | ⟨h, h'⟩
  · rw [h]
    exact ⟨_, _, rfl, fun _ => ⟨rfl, rfl⟩, by simp⟩
  · rw [h]
    simp only [h']
    exact ⟨_, _, rfl, by simp, fun _ => ⟨rfl, rfl⟩⟩

/-- Neither branch comes to the block in which the conditional is to go on. -/
theorem spares_branches (hc : Config.Tidy ⟨conditional test .checked one zero :: rest, stack, s⟩)
    (hb : s.position = .endOf b) (hf : test.fork s = .ok blocks t) (hone : quietAll one = true)
    (hzero : quietAll zero = true) :
    (blocks.runOne one t).session.Spares blocks.join ∧
      (blocks.runZero zero (blocks.runOne one t).session).session.Spares blocks.join := by
  obtain ⟨-, -, hne, hspares⟩ := Test.fork_spares hc.session hb hf
  have henter : Config.Tidy ⟨one, .inOne blocks .checked zero rest :: stack, t.moveTo blocks.one⟩ :=
    hc.next (by simp [Config.next, hf])
  obtain ⟨hone, -⟩ := hspares.runAll henter.session hone
  refine ⟨hone, ((hone.jump blocks.join hne).runAll ?_ hzero).1⟩
  obtain ⟨left, hreaches, -⟩ :=
    reaches_runAll one (.inOne blocks .checked zero rest :: stack) (t.moveTo blocks.one)
  have hend := henter.reaches hreaches
  exact (Config.Tidy.leave none hend.session hend.pending).session

/-- A checked conditional, at any depth of a run, one of whose branches fails. It answers with the
failure, the second branch is run if and only if the first has not failed, and the session is left
as the branch that failed has left it. The block that was appended to go on in is new; if no command
moves the builder from then on, it is empty in every later state of the run, and the module is
not valid. -/
theorem checked_failure
    (hc : Config.Reachable ⟨conditional test .checked one zero :: rest, stack, s⟩)
    (hb : s.position = .endOf b) (hf : test.fork s = .ok blocks t)
    (hfail : (blocks.runOne one t).failure = some message ∨
      (blocks.runOne one t).failure = none ∧
        (blocks.runZero zero (blocks.runOne one t).session).failure = some message) :
    ∃ answers u, (conditional test .checked one zero).run s =
        (.conditional (blocks.runOne one t).answers answers (some message) u.shownBlock, u) ∧
      ((blocks.runOne one t).failure = some message →
        answers = [] ∧ u = (blocks.runOne one t).session) ∧
      ((blocks.runOne one t).failure = none →
        answers = (blocks.runZero zero (blocks.runOne one t).session).answers ∧
          u = (blocks.runZero zero (blocks.runOne one t).session).session) ∧
      blocks.join.fn = b.fn ∧ s.body? blocks.join = none ∧
      Config.Reaches ⟨conditional test .checked one zero :: rest, stack, s⟩ ⟨rest, stack, u⟩ ∧
      (quietAll one → quietAll zero → quietAll rest → (∀ frame ∈ stack, frame.quiet) →
        ∀ d, Config.Reaches ⟨rest, stack, u⟩ d →
          d.session.body? blocks.join = some [] ∧ ¬ d.session.Verifies b.fn.module) := by
  have htidy := hc.tidy
  obtain ⟨answers, u, hrun, hone, hzero⟩ := run_checked hf hfail
  obtain ⟨hfn, hnew, -, -⟩ := Test.fork_spares htidy.session hb hf
  have hreaches := reaches_run (conditional test .checked one zero) rest stack s nofun
  rw [hrun] at hreaches
  refine ⟨answers, u, hrun, hone, hzero, hfn, hnew, hreaches, fun h₁ h₀ hrest hstack d hd => ?_⟩
  obtain ⟨hs₁, hs₀⟩ := spares_branches htidy hb hf h₁ h₀
  have hu : u.Spares blocks.join := by
    rcases hfail with h | ⟨h, -⟩
    · rw [(hone h).2]
      exact hs₁
    · rw [(hzero h).2]
      exact hs₀
  -- the conditionals around have blocks that were there before
  have hpending : ∀ frame ∈ stack, blocks.join ∉ frame.pending := by
    intro frame hframe hmem
    have hsome := htidy.pending frame hframe _ hmem
    rw [hnew] at hsome
    cases hsome
  have hconfig : Config.Spares ⟨rest, stack, u⟩ blocks.join :=
    ⟨hrest, fun frame hframe => ⟨hstack frame hframe, hpending frame hframe⟩, hu⟩
  have hempty := (hconfig.reaches (htidy.reaches hreaches) hd).session.body
  refine ⟨hempty, fun hv => ?_⟩
  have hnil : Straight [] := nofun
  exact hnil.not_closed (hv.closed (by rw [hfn]) hempty)

def stopped : Step :=
  .conditional (.result (.result 0)) .checked
    [.perform (.apply .x [.qubit 0]), .fail "stop"] [.perform (.apply .z [.qubit 0])]

/-- The failure inside a branch of another conditional, with more steps behind both. -/
def nestedFailure : List Step :=
  [.conditional (.bit (.param "f" 0)) .plain [stopped, .perform (.apply .h [.qubit 0])] [],
    .perform (.ret none), .perform .verify]

theorem checked_failure_nestedFailure :
    ∃ (stack : List Frame) (s u : Session) (join : BlockRef) (answers : List Answer),
      Config.Reachable ⟨[stopped, .perform (.apply .h [.qubit 0])], stack, s⟩ ∧
      stopped.run s = (.conditional answers [] (some "stop") u.shownBlock, u) ∧
      join.fn = ⟨0, 0⟩ ∧ s.body? join = none ∧
      ∀ d, Config.Reaches ⟨[.perform (.apply .h [.qubit 0])], stack, u⟩ d →
        d.session.body? join = some [] ∧ ¬ d.session.Verifies 0 := by
  have henter : ∀ (test : Test) {s : Session} {b : BlockRef}, s.Stands b →
      test.guard? s ≠ none → ∃ blocks w, test.fork s = .ok blocks w ∧ blocks.one.fn = b.fn ∧
        (w.moveTo blocks.one).Stands blocks.one := by
    intro test s b hs hg
    rcases test.fork_cases hs with ⟨_, _, _, blocks, w, -, -, hf, hw⟩ | ⟨_, _, hn, -⟩
    · exact ⟨blocks, w, hw, by rw [hf.one], hf.stands (.inl rfl)⟩
    · exact absurd hn hg
  obtain ⟨outer, w, hw, hfn, hstands⟩ := henter (.bit (.param "f" 0))
    (oneParameter.reachable_run.stands (b := ⟨⟨0, 0⟩, 0⟩) (by decide +kernel)) (by decide +kernel)
  obtain ⟨blocks, t, ht, -, -⟩ := henter (.result (.result 0)) hstands nofun
  have hreach : Config.Reachable ⟨[stopped, .perform (.apply .h [.qubit 0])],
      [.inOne outer .plain [] [.perform (.ret none), .perform .verify]], w.moveTo outer.one⟩ := by
    have hbegin : Config.Reaches ⟨oneParameter.steps ++ nestedFailure, [], .start "m"⟩
        ⟨nestedFailure, [], oneParameter.run.session⟩ := .of_next rfl (.of_next rfl .refl)
    exact ⟨"m", _, hbegin.trans (.of_next (by simp [Config.next, nestedFailure, hw]) .refl)⟩
  obtain ⟨answers, u, hrun, hone, -, hjoin, hnew, -, hlater⟩ :=
    checked_failure hreach hstands.position ht (.inl rfl)
  obtain ⟨rfl, -⟩ := hone rfl
  refine ⟨_, _, u, blocks.join, _, hreach, hrun, hjoin.trans hfn, hnew, fun d hd => ?_⟩
  have hd := hlater rfl rfl rfl (by simp [Frame.quiet, quietAll, quiet]) d hd
  rwa [hfn] at hd

end Step

end QuantumIR
