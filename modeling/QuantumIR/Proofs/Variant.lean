import QuantumIR.Proofs.Failure
import QuantumIR.Proofs.Reading

/-! # Variants of conditionals

A conditional is plain or checked, and a result is read by the conditional itself or by a call in
front of it. Where no branch fails, the mode of a conditional makes no difference. Where the
function that reads results is there, neither does the way in which a result is read: what is built
is the same, to any depth.
-/

namespace QuantumIR

open Attempt Session

def Session.Fork.runBoth (blocks : Fork) (one zero : List Step) (s : Session) : Session :=
  ((blocks.runZero zero (blocks.runOne one s).session).session.jump blocks.join).moveTo blocks.join

namespace Step

def Unfailing (steps : List Step) : Prop := ∀ message, .fail message ∉ steps

theorem unfailing_cons {step : Step} {steps : List Step} :
    Unfailing (step :: steps) ↔ (∀ message, step ≠ .fail message) ∧ Unfailing steps := by
  simp only [Unfailing, List.mem_cons, not_or, forall_and, ne_comm, ne_eq]

theorem Unfailing.failure_runAll {steps : List Step} (h : Unfailing steps) (s : Session) :
    (runAll steps s).failure = none := by
  induction steps generalizing s with
  | nil => rfl
  | cons step steps ih =>
    obtain ⟨hstep, hrest⟩ := unfailing_cons.mp h
    cases step with
    | fail message => exact absurd rfl (hstep message)
    | perform | conditional => exact ih hrest _

variable {test : Test} {one zero : List Step} {s t : Session} {blocks : Fork}

theorem run_conditional (hone : Unfailing one) (hzero : Unfailing zero)
    (hf : test.fork s = .ok blocks t) (mode : Mode) :
    (conditional test mode one zero).run s =
      (.conditional (blocks.runOne one t).answers
        (blocks.runZero zero (blocks.runOne one t).session).answers none
        (blocks.runBoth one zero t).shownBlock, blocks.runBoth one zero t) := by
  rw [run, hf]
  simp only [hone.failure_runAll, hzero.failure_runAll, Mode.observe_none]
  rfl

/-- The steps differ in the modes of conditionals at most, and none of them fails. -/
inductive Remodes : List Step → List Step → Prop
  | nil : Remodes [] []
  | perform (command : Command) {p q : List Step} : Remodes p q →
      Remodes (.perform command :: p) (.perform command :: q)
  | conditional (test : Test) (mode mode' : Mode) {one one' zero zero' p q : List Step} :
      Remodes one one' → Remodes zero zero' → Remodes p q →
        Remodes (.conditional test mode one zero :: p) (.conditional test mode' one' zero' :: q)

namespace Remodes

variable {p q : List Step}

theorem unfailing (h : Remodes p q) : Unfailing p ∧ Unfailing q := by
  induction h with
  | nil => exact ⟨nofun, nofun⟩
  | perform _ _ ih | conditional _ _ _ _ _ _ _ _ ih =>
    exact ⟨unfailing_cons.mpr ⟨by simp, ih.1⟩, unfailing_cons.mpr ⟨by simp, ih.2⟩⟩

theorem runAll_eq (h : Remodes p q) (s : Session) : runAll q s = runAll p s := by
  induction h generalizing s with
  | nil => rfl
  | perform command _ ih =>
    simp only [runAll, ih]
  | @conditional test mode mode' one one' zero zero' p q hone hzero _ ihone ihzero ih =>
    have hrun : (Step.conditional test mode' one' zero').run s =
        (Step.conditional test mode one zero).run s := by
      cases hf : test.fork s with
      | error e t => rw [run, run, hf]
      | ok blocks t =>
        have hfirst : blocks.runOne one' t = blocks.runOne one t := ihone _
        have hsecond : ∀ u, blocks.runZero zero' u = blocks.runZero zero u := fun u => ihzero _
        rw [run_conditional hone.unfailing.1 hzero.unfailing.1 hf,
          run_conditional hone.unfailing.2 hzero.unfailing.2 hf, Fork.runBoth, Fork.runBoth,
          hfirst, hsecond]
    simp only [runAll, hrun, ih]

end Remodes

end Step

mutual

def Answer.panics : Answer → Bool
  | .stopped (.panic _) => true
  | .conditional one zero _ _ => Answer.panicsIn one || Answer.panicsIn zero
  | _ => false

def Answer.panicsIn : List Answer → Bool
  | [] => false
  | a :: as => a.panics || Answer.panicsIn as

end

theorem Answer.panicsIn_append (as bs : List Answer) :
    panicsIn (as ++ bs) = (panicsIn as || panicsIn bs) := by
  induction as with
  | nil => rfl
  | cons a as ih => rw [List.cons_append, panicsIn, panicsIn, ih, Bool.or_assoc]

namespace Step

mutual

def mentioned : Step → List String
  | .perform c => c.registers ++ c.target?.toList
  | .conditional test _ one zero => test.operand.registers ++ mentionedAll one ++ mentionedAll zero
  | .fail _ => []

def mentionedAll : List Step → List String
  | [] => []
  | step :: steps => step.mentioned ++ mentionedAll steps

end

mutual

/-- Every command in a step, as far as it is carried out, leaves the module in use that it found. -/
def stays : Step → Session → Bool
  | .perform c, s => (c.act.leaves s).current = s.current
  | .conditional test mode one zero, s =>
    match test.fork s with
    | .error _ _ => true
    | .ok blocks t =>
      staysAll one (t.moveTo blocks.one) &&
        match mode.observe (blocks.runOne one t).failure with
        | some _ => true
        | none =>
          staysAll zero (((blocks.runOne one t).session.jump blocks.join).moveTo blocks.zero)
  | .fail _, _ => true

def staysAll : List Step → Session → Bool
  | [], _ => true
  | .fail _ :: _, _ => true
  | step :: steps, s => step.stays s && staysAll steps (step.run s).2

end

variable {U xs ys zs : List String} {p q p' q' one one' zero zero' : List Step} {s t : Session}

theorem staysAll_cons {step : Step} (hstep : ∀ message, step ≠ .fail message) (steps : List Step)
    (s : Session) :
    staysAll (step :: steps) s = (step.stays s && staysAll steps (step.run s).2) := by
  cases step with
  | fail message => exact absurd rfl (hstep message)
  | perform | conditional => rfl

theorem Unfailing.staysAll_append (h : Unfailing p) (q : List Step) (s : Session) :
    staysAll (p ++ q) s = (staysAll p s && staysAll q (runAll p s).session) := by
  induction p generalizing s with
  | nil => rfl
  | cons step p ih =>
    obtain ⟨hstep, hrest⟩ := unfailing_cons.mp h
    rw [List.cons_append, staysAll_cons hstep, staysAll_cons hstep, session_runAll_cons hstep,
      ih hrest, Bool.and_assoc]

theorem Unfailing.runAll_append (h : Unfailing p) (q : List Step) (s : Session) :
    (runAll (p ++ q) s).answers =
        (runAll p s).answers ++ (runAll q (runAll p s).session).answers ∧
      (runAll (p ++ q) s).session = (runAll q (runAll p s).session).session := by
  induction p generalizing s with
  | nil => exact ⟨rfl, rfl⟩
  | cons step p ih =>
    obtain ⟨hstep, hrest⟩ := unfailing_cons.mp h
    obtain ⟨hanswers, hsession⟩ := ih hrest (step.run s).2
    rw [List.cons_append, answers_runAll_cons hstep, answers_runAll_cons hstep,
      session_runAll_cons hstep, session_runAll_cons hstep, hanswers, hsession]
    exact ⟨rfl, rfl⟩

/-- A run of the first steps and a run of the second ones, from sessions that are a pair, go on as a
pair, if the first run stays in the module in use and there is no panic in it. -/
def KeepsUp (U xs : List String) (p q : List Step) : Prop :=
  ∀ s t, Paired U s t → (∀ x ∈ xs, t.register? x = none) → staysAll p s →
    Answer.panicsIn (runAll p s).answers = false →
      Strides U xs s t (runAll p s).session (runAll q t).session

namespace KeepsUp

theorem append (h : KeepsUp U xs p q) (h' : KeepsUp U ys p' q') (hp : Unfailing p)
    (hq : Unfailing q) (hnodup : (xs ++ ys).Nodup) (hys : ys ⊆ U) :
    KeepsUp U (xs ++ ys) (p ++ p') (q ++ q') := by
  intro s t hst hunset hstays hpanic
  rw [hp.staysAll_append, Bool.and_eq_true] at hstays
  obtain ⟨hanswers, hsession⟩ := hp.runAll_append p' s
  obtain ⟨-, hsession'⟩ := hq.runAll_append q' t
  rw [hanswers, Answer.panicsIn_append, Bool.or_eq_false_iff] at hpanic
  rw [hsession, hsession']
  have hfirst := h s t hst (fun x hx => hunset x (List.mem_append_left _ hx)) hstays.1 hpanic.1
  apply hfirst.trans
  apply h' _ _ hfirst.paired ?_ hstays.2 hpanic.2
  intro y hy
  rw [hfirst.kept y (hys hy) fun hx => (List.nodup_append.mp hnodup).2.2 y hx y hy rfl]
  exact hunset y (List.mem_append_right _ hy)

theorem perform {c : Command} (hU : ∀ y ∈ (Step.perform c).mentioned, y ∉ U) :
    KeepsUp U [] [.perform c] [.perform c] := by
  intro s t hst _ hstays _
  rw [staysAll_cons (by simp), stays, Bool.and_eq_true, decide_eq_true_eq] at hstays
  rw [session_runAll_singleton, session_runAll_singleton, run, run, answer_snd, answer_snd]
  obtain ⟨huse, htarget⟩ := List.forall_mem_append.mp hU
  obtain ⟨hproceeds, hequipped⟩ := c.proceeds_act hstays.1 hst.equipped
  refine ⟨⟨c.alike_act huse hst.alike, hequipped⟩, hproceeds.current, fun y hy _ => ?_⟩
  apply c.register?_act
  intro ht
  exact htarget y (Option.mem_toList.mpr ht) hy

theorem runBoth {blocks : Fork} (hone : KeepsUp U xs one one') (hzero : KeepsUp U ys zero zero')
    (hnodup : (xs ++ ys).Nodup) (hys : ys ⊆ U) (hst : Paired U s t)
    (hblocks : blocks.one.fn.module = s.current ∧ blocks.zero.fn.module = s.current ∧
      blocks.join.fn.module = s.current) (hunset : ∀ x ∈ xs ++ ys, t.register? x = none)
    (hstays : staysAll one (s.moveTo blocks.one))
    (hstays' : staysAll zero (((blocks.runOne one s).session.jump blocks.join).moveTo blocks.zero))
    (hpanic : Answer.panicsIn (blocks.runOne one s).answers = false)
    (hpanic' :
      Answer.panicsIn (blocks.runZero zero (blocks.runOne one s).session).answers = false) :
    Strides U (xs ++ ys) s t (blocks.runBoth one zero s) (blocks.runBoth one' zero' t) := by
  obtain ⟨hbone, hbzero, hbjoin⟩ := hblocks
  have henter := Strides.moveTo hst hbone
  have hfirst := henter.trans (hone _ _ henter.paired
    (fun x hx => hunset x (List.mem_append_left _ hx)) hstays hpanic)
  have hjump := hfirst.trans (Strides.jump hfirst.paired blocks.join)
  have hturn := hjump.trans (Strides.moveTo hjump.paired (hjump.current ▸ hbzero))
  have hsecond := hturn.trans (hzero _ _ hturn.paired ?_ hstays' hpanic')
  · have hleave := hsecond.trans (Strides.jump hsecond.paired blocks.join)
    have hend := hleave.trans (Strides.moveTo hleave.paired (hleave.current ▸ hbjoin))
    simp only [List.append_nil, List.nil_append] at hend
    exact hend
  · intro y hy
    rw [hturn.kept y (hys hy) ?_]
    · exact hunset y (List.mem_append_right _ hy)
    · simpa using fun hx => (List.nodup_append.mp hnodup).2.2 y hx y hy rfl

/-- Two conditionals that have forked in the same way, after registers have been set in one of the
sessions. -/
theorem run_forked {test test' : Test} {blocks : Fork} {u s' t' : Session} (mode : Mode)
    (hone : KeepsUp U xs one one') (hzero : KeepsUp U ys zero zero')
    (hfail : Unfailing one ∧ Unfailing one') (hfail' : Unfailing zero ∧ Unfailing zero')
    (hnodup : (zs ++ (xs ++ ys)).Nodup) (hU : xs ++ ys ⊆ U) (hs : s.Equipped)
    (hf : test.fork s = .ok blocks s') (hf' : test'.fork u = .ok blocks t')
    (hst : Strides U zs s t s' t') (hunset : ∀ x ∈ xs ++ ys, t.register? x = none)
    (hstays : (Step.conditional test mode one zero).stays s)
    (hpanic : ((Step.conditional test mode one zero).run s).1.panics = false) :
    Strides U (zs ++ (xs ++ ys)) s t ((Step.conditional test mode one zero).run s).2
      ((Step.conditional test' mode one' zero').run u).2 := by
  rw [run_conditional hfail.1 hfail'.1 hf, Answer.panics, Bool.or_eq_false_iff] at hpanic
  rw [run_conditional hfail.1 hfail'.1 hf, run_conditional hfail.2 hfail'.2 hf']
  simp only [stays, hf, Fork.runOne, hfail.1.failure_runAll, Mode.observe_none, Bool.and_eq_true]
    at hstays
  have hblocks := hs.fork_module hf
  rw [← hst.current] at hblocks
  obtain ⟨-, hxy, hdisjoint⟩ := List.nodup_append.mp hnodup
  apply hst.trans
  apply runBoth hone hzero hxy (List.append_subset.mp hU).2 hst.paired hblocks ?_ hstays.1 hstays.2
    hpanic.1 hpanic.2
  intro x hx
  rw [hst.kept x (hU hx) fun hz => hdisjoint x hz x hx rfl]
  exact hunset x hx

theorem conditional {test : Test} (mode : Mode) (hone : KeepsUp U xs one one')
    (hzero : KeepsUp U ys zero zero') (hfail : Unfailing one ∧ Unfailing one')
    (hfail' : Unfailing zero ∧ Unfailing zero') (hnodup : (xs ++ ys).Nodup) (hU : xs ++ ys ⊆ U)
    (htest : ∀ y ∈ test.operand.registers, y ∉ U) :
    KeepsUp U (xs ++ ys) [.conditional test mode one zero] [.conditional test mode one' zero'] := by
  intro s t hst hunset hstays hpanic
  rw [answers_runAll_cons (by simp), Answer.panicsIn, Bool.or_eq_false_iff] at hpanic
  rw [staysAll_cons (by simp), Bool.and_eq_true] at hstays
  rw [session_runAll_singleton, session_runAll_singleton]
  have hmatches := test.fork_matches htest hst.alike
  have hfork : Strides U [] s t (test.fork.leaves s) (test.fork.leaves t) := by
    apply Strides.of_fork hst hmatches.leaves
    intro y _ _
    rw [register?, test.fork_registers]
    rfl
  apply hmatches.cases
  · intro blocks s' t' hs ht _ _
    rw [leaves_ok hs, leaves_ok ht] at hfork
    exact run_forked mode hone hzero hfail hfail' hnodup hU hst.equipped hs ht hfork hunset
      hstays.1 hpanic.1
  · intro e e' s' t' hs ht _
    rw [leaves_error hs, leaves_error ht] at hfork
    rw [run, run, hs, ht]
    exact hfork.mono (List.nil_subset _)

/-- A result is read in a block of a function, or there is a panic. -/
theorem position_of_not_panics {r : ValueExpr} {mode : Mode} {v : Value} {s' : Session}
    (hs : r.eval s = .ok v s')
    (h : ((Step.conditional (.result r) mode one zero).run s).1.panics = false) :
    ∃ b, s'.position = .endOf b := by
  have hpanic : s'.builderFn? = none →
      ((Step.conditional (.result r) mode one zero).run s).1.panics = true := by
    intro hnone
    have hemit : updateGuarded (·.emit .readResult [v]) s' = .error (.panic .noPosition) s' := by
      simp [updateGuarded, emit, hnone]
    have hfork : (Test.result r).fork s = .error (.panic .noPosition) s' :=
      bind_of_error ((bind_of_ok hs).trans hemit)
    rw [run, hfork]
    rfl
  unfold builderFn? at hpanic
  cases hb : s'.position with
  | endOf b => exact ⟨b, rfl⟩
  | unset | loose =>
    rw [hb] at hpanic
    rw [hpanic rfl] at h
    cases h

theorem read {r : ValueExpr} {x : String} (mode : Mode) (hone : KeepsUp U xs one one')
    (hzero : KeepsUp U ys zero zero') (hfail : Unfailing one ∧ Unfailing one')
    (hfail' : Unfailing zero ∧ Unfailing zero') (hnodup : (x :: (xs ++ ys)).Nodup)
    (hU : x :: (xs ++ ys) ⊆ U) (hr : ∀ y ∈ r.registers, y ∉ U) :
    KeepsUp U (x :: (xs ++ ys)) [.conditional (.result r) mode one zero]
      [.perform (.call Operation.readResult.symbol [r] (some x)),
        .conditional (.bit (.register x)) mode one' zero'] := by
  intro s t hst hunset hstays hpanic
  rw [answers_runAll_cons (by simp), Answer.panicsIn, Bool.or_eq_false_iff] at hpanic
  rw [staysAll_cons (by simp), Bool.and_eq_true] at hstays
  obtain ⟨hx, hxy⟩ := List.cons_subset.mp hU
  obtain ⟨hunset, hunset'⟩ := List.forall_mem_cons.mp hunset
  have hcall : ∀ c : Command, ((Step.perform c).run t).2 = c.act.leaves t :=
    fun c => answer_snd c.act t
  rw [session_runAll_singleton, session_runAll_cons (by simp), session_runAll_singleton, hcall]
  cases hs : r.eval s with
  | error e s' =>
    obtain ⟨t', d, hleaves, hf, hf', hstrides⟩ := hst.fork_stopped hr hunset hs
    rw [hleaves, run, run, hf, hf']
    exact hstrides.mono (List.nil_subset _)
  | ok v s' =>
    obtain ⟨b, hb⟩ := position_of_not_panics hs hpanic.1
    obtain ⟨blocks, u, w, hf, hf', hstrides⟩ := hst.fork_read hr hx hs hb
    exact run_forked mode hone hzero hfail hfail' hnodup hxy hst.equipped hf hf' hstrides hunset'
      hstays.1 hpanic.1

end KeepsUp

/-- The steps differ in conditionals on a result only, some of which have become a call that reads
the result and a conditional on its value. The names are those of the registers that the calls set.
None of the steps fails. -/
inductive Reads : List String → List Step → List Step → Prop
  | nil : Reads [] [] []
  | perform (command : Command) {xs : List String} {p q : List Step} : Reads xs p q →
      Reads xs (.perform command :: p) (.perform command :: q)
  | conditional (test : Test) (mode : Mode) {xs ys zs : List String}
      {one one' zero zero' p q : List Step} : Reads xs one one' → Reads ys zero zero' →
        Reads zs p q → Reads (xs ++ ys ++ zs) (.conditional test mode one zero :: p)
          (.conditional test mode one' zero' :: q)
  | read (x : String) (r : ValueExpr) (mode : Mode) {xs ys zs : List String}
      {one one' zero zero' p q : List Step} : Reads xs one one' → Reads ys zero zero' →
        Reads zs p q → Reads (x :: (xs ++ ys) ++ zs) (.conditional (.result r) mode one zero :: p)
          (.perform (.call Operation.readResult.symbol [r] (some x)) ::
            .conditional (.bit (.register x)) mode one' zero' :: q)

namespace Reads

theorem unfailing (h : Reads xs p q) : Unfailing p ∧ Unfailing q := by
  induction h with
  | nil => exact ⟨nofun, nofun⟩
  | perform _ _ ih | conditional _ _ _ _ _ _ _ ih =>
    exact ⟨unfailing_cons.mpr ⟨by simp, ih.1⟩, unfailing_cons.mpr ⟨by simp, ih.2⟩⟩
  | read _ _ _ _ _ _ _ _ ih =>
    exact ⟨unfailing_cons.mpr ⟨by simp, ih.1⟩,
      unfailing_cons.mpr ⟨by simp, unfailing_cons.mpr ⟨by simp, ih.2⟩⟩⟩

theorem keepsUp (h : Reads xs p q) (hU : ∀ y ∈ mentionedAll p, y ∉ U)
    (hnodup : xs.Nodup) (hxs : xs ⊆ U) : KeepsUp U xs p q := by
  -- the first step keeps up with the names that it takes, and the rest with those that are left
  induction h with
  | nil => exact fun _ _ hst _ _ _ => .refl hst
  | perform command h ih =>
    obtain ⟨hcommand, hrest⟩ := List.forall_mem_append.mp hU
    exact (KeepsUp.perform hcommand).append (ih hrest hnodup hxs) (by simp [Unfailing])
      (by simp [Unfailing]) hnodup hxs
  | conditional test mode hone hzero h ihone ihzero ih =>
    simp only [mentionedAll, mentioned, List.forall_mem_append] at hU
    obtain ⟨⟨⟨htest, hUone⟩, hUzero⟩, hU⟩ := hU
    obtain ⟨hxy, hz, -⟩ := List.nodup_append.mp hnodup
    obtain ⟨hx, hy, -⟩ := List.nodup_append.mp hxy
    obtain ⟨hxys, hzs⟩ := List.append_subset.mp hxs
    obtain ⟨hxs, hys⟩ := List.append_subset.mp hxys
    have hhead := KeepsUp.conditional mode (ihone hUone hx hxs) (ihzero hUzero hy hys)
      hone.unfailing hzero.unfailing hxy hxys htest
    exact hhead.append (ih hU hz hzs) (by simp [Unfailing]) (by simp [Unfailing]) hnodup hzs
  | read x r mode hone hzero h ihone ihzero ih =>
    simp only [mentionedAll, mentioned, List.forall_mem_append] at hU
    obtain ⟨⟨⟨htest, hUone⟩, hUzero⟩, hU⟩ := hU
    obtain ⟨hxy, hz, -⟩ := List.nodup_append.mp hnodup
    obtain ⟨hx, hy, -⟩ := List.nodup_append.mp (List.nodup_cons.mp hxy).2
    obtain ⟨hxys, hzs⟩ := List.append_subset.mp hxs
    obtain ⟨hxs, hys⟩ := List.append_subset.mp (List.cons_subset.mp hxys).2
    have hhead := KeepsUp.read mode (ihone hUone hx hxs) (ihzero hUzero hy hys)
      hone.unfailing hzero.unfailing hxy hxys htest
    exact hhead.append (ih hU hz hzs) (by simp [Unfailing]) (by simp [Unfailing]) hnodup hzs

end Reads

/-- Steps without failures, at any depth of conditionals. If the modes of some conditionals are
changed, the answers and the session that is left are the same. If results are read by calls in
front of some conditionals, from a reachable session whose builder stands in the module in use and
which has the function that reads results there, the modules and the place of the builder are the
same in the end, as long as the same module stays in use, there is no panic, and the registers that
the calls set are new. -/
theorem variants_agree (p : List Step) :
    (∀ q s, Remodes p q → runAll q s = runAll p s) ∧
    ∀ s m f xs q, s.Reachable → s.StandsIn s.current → s.module? s.current = some m →
      f ∈ m.functions → f.name = Operation.readResult.symbol →
      f.sig = Operation.readResult.signature → staysAll p s →
      Answer.panicsIn (runAll p s).answers = false → Reads xs p q → xs.Nodup →
      (∀ x ∈ xs, x ∉ mentionedAll p ∧ s.register? x = none) →
        (runAll q s).session.modules = (runAll p s).session.modules ∧
          (runAll q s).session.position = (runAll p s).session.position := by
  constructor
  · intro q s h
    exact h.runAll_eq s
  · intro s m f xs q hs hin hm hf hname hsig hp hpanic hreads hnodup hnew
    have hst : Paired xs s s := ⟨.refl xs s, hs.equipped hin hm hf hname hsig⟩
    have hU : ∀ y ∈ mentionedAll p, y ∉ xs := fun y hy hx => (hnew y hx).1 hy
    have hend := hreads.keepsUp hU hnodup (List.Subset.refl xs) s s hst
      (fun x hx => (hnew x hx).2) hp hpanic
    exact ⟨hend.paired.alike.modules, hend.paired.alike.position⟩

def reader : Program where
  name := "m"
  steps := [
    .perform (.declare Operation.readResult.symbol (.int 1) [.result] .external),
    .perform (.declare "f" .void [] .external),
    .perform (.newBlock "f" "b")]

def nestedReads (outer inner : Mode) : List Step :=
  [.conditional (.result (.result 0)) outer
    [.perform (.useModule 0), .conditional (.result (.result 1)) inner [] []]
    [.perform (.apply .z [.qubit 0])], .perform (.ret none)]

def nestedCalls (outer inner : Mode) : List Step :=
  [.perform (.call Operation.readResult.symbol [.result 0] (some "a")),
    .conditional (.bit (.register "a")) outer
    [.perform (.useModule 0),
      .perform (.call Operation.readResult.symbol [.result 1] (some "b")),
      .conditional (.bit (.register "b")) inner [] []]
    [.perform (.apply .z [.qubit 0])], .perform (.ret none)]

theorem variants_agree_nestedReads :
    Answer.panicsIn (runAll (nestedReads .plain .checked) reader.run.session).answers = false ∧
    runAll (nestedReads .checked .plain) reader.run.session =
      runAll (nestedReads .plain .checked) reader.run.session ∧
    (runAll (nestedCalls .plain .checked) reader.run.session).session.modules =
      (runAll (nestedReads .plain .checked) reader.run.session).session.modules ∧
    (runAll (nestedCalls .plain .checked) reader.run.session).session.position =
      (runAll (nestedReads .plain .checked) reader.run.session).session.position := by
  obtain ⟨hmodes, hreads⟩ := variants_agree (nestedReads .plain .checked)
  have hpanic : Answer.panicsIn
      (runAll (nestedReads .plain .checked) reader.run.session).answers = false := by
    decide +kernel
  refine ⟨hpanic, ?_, ?_⟩
  · apply hmodes
    exact .conditional _ _ _ (.perform _ (.conditional _ _ _ .nil .nil .nil)) (.perform _ .nil)
      (.perform _ .nil)
  · have hin : reader.run.session.StandsIn reader.run.session.current := ⟨_, rfl, rfl⟩
    obtain ⟨m, f, hm, hf, hname, hsig⟩ : ∃ m f, reader.run.session.module?
        reader.run.session.current = some m ∧ f ∈ m.functions ∧
        f.name = Operation.readResult.symbol ∧ f.sig = Operation.readResult.signature :=
      ⟨_, _, rfl, .head _, rfl, rfl⟩
    have hvariant : Reads ["a", "b"] (nestedReads .plain .checked) (nestedCalls .plain .checked) :=
      .read "a" _ _ (.perform _ (.read "b" _ _ .nil .nil .nil)) (.perform _ .nil) (.perform _ .nil)
    have hstays : staysAll (nestedReads .plain .checked) reader.run.session := by decide +kernel
    exact hreads _ m f _ _ reader.reachable_run hin hm hf hname hsig hstays hpanic hvariant
      (by decide) (by decide)

end Step

end QuantumIR
