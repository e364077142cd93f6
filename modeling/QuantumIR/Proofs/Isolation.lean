import QuantumIR.Proofs.Lockstep
import QuantumIR.Proofs.Printed

/-! # Modules that share a session

What is done while one module is in use leaves the other modules alone, as long as structs have no
bodies, things are built in the module in use, and registers are used for the module that they were
set for. So the steps that are carried out for other modules may be left out of a program: the
module is built as before, and its text is the same.
-/

namespace QuantumIR

open Attempt

namespace Session

/-- A module is left alone: it stays as it is, and the builder does not come to stand in it. -/
structure Avoids (i : Nat) (s s' : Session) : Prop where
  current : s'.current = s.current
  length : s'.modules.length = s.modules.length
  module : s'.module? i = s.module? i
  bodiless : Bodiless s.structs → Bodiless s'.structs
  names : s.structNames ⊆ s'.structNames
  place : s'.StandsIn i → s'.position = s.position
  registers : s.registers <:+ s'.registers

theorem StandsIn.unique {s : Session} {i j : Nat} (hi : s.StandsIn i) (hj : s.StandsIn j) :
    i = j := by
  obtain ⟨b, hb, rfl⟩ := hi
  obtain ⟨c, hc, rfl⟩ := hj
  rw [Position.endOf.inj (hb.symm.trans hc)]

namespace Avoids

variable {i : Nat} {s s' s'' : Session}

theorem refl (s : Session) : Avoids i s s :=
  ⟨rfl, rfl, rfl, id, List.Subset.refl _, fun _ => rfl, List.suffix_refl _⟩

theorem trans (h : Avoids i s s') (h' : Avoids i s' s'') : Avoids i s s'' := by
  refine ⟨h'.current.trans h.current, h'.length.trans h.length, h'.module.trans h.module,
    h'.bodiless ∘ h.bodiless, List.Subset.trans h.names h'.names, fun hin => ?_,
    h.registers.trans h'.registers⟩
  have hp := h'.place hin
  obtain ⟨b, hb, hi⟩ := hin
  exact hp.trans (h.place ⟨b, hp ▸ hb, hi⟩)

theorem away (h : Avoids i s s') (hs : ¬ s.StandsIn i) : ¬ s'.StandsIn i := by
  intro hin
  have hp := h.place hin
  obtain ⟨b, hb, hi⟩ := hin
  exact hs ⟨b, hp ▸ hb, hi⟩

theorem updateModule {j : Nat} (hj : j ≠ i) (g : Module → Module) :
    Avoids i s (s.updateModule j g) := by
  refine ⟨rfl, ?_, ?_, id, List.Subset.refl _, fun _ => rfl, List.suffix_refl _⟩
  · simp [Session.updateModule]
  · rw [module?_updateModule, if_neg hj]

theorem updateFn {r : FnRef} (hr : r.module ≠ i) (g : Fn → Fn) : Avoids i s (s.updateFn r g) :=
  updateModule hr _

theorem updateBlock {b : BlockRef} (hb : b.fn.module ≠ i) (g : Block → Block) :
    Avoids i s (s.updateBlock b g) :=
  updateFn hb _

theorem addBlock {r : FnRef} (hr : r.module ≠ i) (name : Bytes) :
    Avoids i s (s.addBlock r name).2 :=
  updateFn hr _

theorem ensureStruct (s : Session) (name : String) : Avoids i s (s.ensureStruct name) := by
  refine ⟨by simp, by simp, module?_congr (by simp) i, fun h => bodiless_ensureStruct h name,
    subset_structNames_ensureStruct s name, fun _ => by simp, by simp⟩

theorem noteCast (s : Session) (c d : Constant) : Avoids i s (s.noteCast c d) := by
  refine ⟨by simp, by simp, module?_congr (by simp) i, by simp, by simp, fun _ => by simp, by simp⟩

theorem setPosition {p : Position} (hp : ∀ b, p = .endOf b → b.fn.module ≠ i) :
    Avoids i s { s with position := p } := by
  refine ⟨rfl, rfl, rfl, id, List.Subset.refl _, ?_, List.suffix_refl _⟩
  rintro ⟨b, hb, hi⟩
  exact absurd hi (hp b hb)

theorem moveTo {b : BlockRef} (hb : b.fn.module ≠ i) : Avoids i s (s.moveTo b) :=
  setPosition fun _ hc => Position.endOf.inj hc ▸ hb

theorem of_shared (h : s'.shared = s.shared) : Avoids i s s' := by
  cases s
  cases s'
  simp only [shared, Prod.mk.injEq] at h
  obtain ⟨rfl, rfl, rfl, rfl, rfl⟩ := h
  exact ⟨rfl, rfl, rfl, id, List.Subset.refl _, fun _ => rfl, List.suffix_refl _⟩

theorem insert (hs : ¬ s.StandsIn i) (x : Instr) : Avoids i s (s.insert x) := by
  unfold Session.insert
  split
  next b hb =>
    have hbi : b.fn.module ≠ i := fun hi => hs ⟨b, hb, hi⟩
    exact (updateBlock hbi _).trans (of_shared rfl)
  · exact of_shared rfl

theorem addSources {targets : List BlockRef} (ht : ∀ b ∈ targets, b.fn.module ≠ i) (x : Source) :
    Avoids i s (targets.foldl (fun s b => s.updateBlock b (·.addSource x)) s) := by
  induction targets generalizing s with
  | nil => exact refl s
  | cons b targets ih =>
    exact (updateBlock (ht b (by simp)) _).trans (ih fun c hc => ht c (List.mem_cons_of_mem _ hc))

theorem append {x : Instr} (hs : ¬ s.StandsIn i) (hx : ∀ b ∈ x.targets, b.fn.module ≠ i) :
    Avoids i s (s.append x) :=
  (insert hs x).trans (addSources hx _)

theorem jump {b : BlockRef} (hs : ¬ s.StandsIn i) (hb : b.fn.module ≠ i) :
    Avoids i s (s.jump b) :=
  append hs fun _ hc => List.mem_singleton.mp hc ▸ hb

theorem prepare {j : Nat} (hj : j ≠ i) (op : Operation) : Avoids i s (s.prepare j op).2 :=
  prepare_induction (refl s) (fun t name h => h.trans (ensureStruct t name))
    (fun _ h => h.trans (updateModule hj _))
    (fun _ _ _ _ hr h => h.trans (updateFn (hr.symm ▸ hj) _))

theorem emit {op : Operation} {args : List Value} {v : Value} (hs : ¬ s.StandsIn i)
    (h : s.emit op args = .ok (v, s')) : Avoids i s s' := by
  apply emit_induction h
  · exact fun b hp => prepare (fun hi => hs ⟨b, hp, hi⟩) op
  · exact fun u _ _ hu => hu.trans (append (hu.away hs) nofun)

theorem fork {v : Value} {blocks : Fork} (hs : ¬ s.StandsIn i)
    (h : s.fork v = .ok (blocks, s')) : Avoids i s s' := by
  have hplace : ∀ b, s.position = .endOf b → b.fn.module ≠ i := fun b hp hi => hs ⟨b, hp, hi⟩
  apply fork_induction h (refl s)
  · exact fun b hp u name hu => hu.trans (addBlock (hplace b hp) name)
  · intro b hp u one zero hone hzero hu
    refine hu.trans (append (hu.away hs) ?_)
    simp [Instr.targets, hone, hzero, hplace b hp]

theorem addEntryPoint {j : Nat} (hj : j ≠ i) (e : EntryPoint) :
    Avoids i s (s.addEntryPoint j e).2 :=
  addEntryPoint_induction (updateModule hj _)
    fun _ _ _ _ hr h => h.trans (updateFn (hr.symm ▸ hj) _)

theorem setRegister (s : Session) (name : String) (v : Value) :
    Avoids i s (s.setRegister name v) :=
  ⟨rfl, rfl, rfl, id, List.Subset.refl _, fun _ => rfl, List.suffix_cons _ _⟩

end Avoids

variable {i : Nat} {s t : Session}

theorem SideEffect.avoids (h : SideEffect s t) (hc : s.current ≠ i) : Avoids i s t := by
  cases h with
  | struct name => exact .ensureStruct s name
  | cast c d => exact .noteCast s c d
  | string h =>
    obtain ⟨-, rfl⟩ := addString_ok h
    exact .updateModule hc _

theorem Evaluates.avoids (h : Evaluates s t) (hc : s.current ≠ i) : Avoids i s t := by
  induction h with
  | refl => exact .refl s
  | tail _ h ih => exact ih.trans (h.avoids (ih.current ▸ hc))

end Session

open Session

variable {i : Nat} {s t : Session} {c : Command}

theorem Command.Does.avoids (h : c.Does s t) (hw : c.switches = false)
    (hm : c.makesStruct = false) (ha : c.appends → ¬ s.StandsIn i) (hc : s.current ≠ i) :
    Avoids i s t := by
  cases h with
  | side h => exact h.avoids hc
  | module | use => cases hw
  | struct | structBody => cases hm
  | flag _ f => exact .updateModule hc _
  | entryPoint _ e => exact .addEntryPoint hc e
  | function | global => exact .updateModule hc _
  | attr hr => exact .updateFn (hr ▸ hc) _
  | register _ name v => exact .setRegister s name v
  | block hr => exact (Avoids.addBlock (hr ▸ hc) _).trans (.moveTo (hr ▸ hc))
  | move hb => exact .moveTo (hb ▸ hc)
  | unset | loose => exact .setPosition nofun
  | instr _ happ hx => exact .append (ha happ) (by simp [hx])
  | emit h => exact .emit (ha rfl) h

theorem Command.act_avoids (hw : c.switches = false) (hm : c.makesStruct = false)
    (ha : c.appends → ¬ s.StandsIn i) (hc : s.current ≠ i) : Avoids i s (c.act.leaves s) := by
  have hdoes := c.act_does s
  generalize c.act.leaves s = t at hdoes
  induction hdoes with
  | refl => exact .refl s
  | tail _ h ih => exact ih.trans (h.avoids hw hm (fun happ => ih.away (ha happ)) (ih.current ▸ hc))

theorem Test.fork_avoids {test : Test} (hs : ¬ s.StandsIn i) (hc : s.current ≠ i) :
    Avoids i s (test.fork.leaves s) := by
  obtain ⟨u, w, hu, hw, ht⟩ := test.fork_leaves s
  have hsu := hu.avoids hc
  have hsw : Avoids i s w := by
    rcases hw with rfl | ⟨r, v, hw⟩
    · exact hsu
    · exact hsu.trans (.emit (hsu.away hs) hw)
  rcases ht with ht | ⟨v, blocks, ht⟩
  · rw [ht]
    exact hsw
  · exact hsw.trans (.fork (hsw.away hs) ht)

theorem Test.fork_module {test : Test} {blocks : Fork} (hs : s.StandsIn s.current)
    (h : test.fork s = .ok blocks t) : blocks.one.fn.module = s.current ∧
      blocks.zero.fn.module = s.current ∧ blocks.join.fn.module = s.current := by
  obtain ⟨b, hb, hm⟩ := hs
  obtain ⟨u, v, -, hp, hf⟩ := Test.fork_ok h
  obtain ⟨c, hc, hone, hzero, hjoin⟩ := Session.fork_ok hf
  obtain rfl := Position.endOf.inj (hc.symm.trans (hp.trans hb))
  rw [hone, hzero, hjoin]
  exact ⟨hm, hm, hm⟩

namespace Step

mutual

/-- A step that is carried out for another module leaves a module alone. -/
theorem avoids_run : ∀ {step : Step} {o : Owners} {s : Session}, step.anonymous → step.settled →
    step.Orderly o s → s.current ≠ i → Avoids i s (step.run s).2
  | .perform c, o, s, ha, hs, ho, hc => by
    rw [run, answer_snd]
    refine Command.act_avoids (by simpa [settled] using hs) (Command.anonymous_iff.mp ha).1
      (fun happ hi => ?_) hc
    exact hc ((Command.Orderly.place ho happ).unique hi)
  | .fail _, _, s, _, _, _, _ => .refl s
  | .conditional test mode one zero, o, s, ha, hs, ho, hc => by
    simp only [anonymous, settled, Bool.and_eq_true] at ha hs
    obtain ⟨⟨-, haone⟩, hazero⟩ := ha
    rw [Orderly] at ho
    obtain ⟨hin, -, hbranches⟩ := ho
    have haway : ¬ s.StandsIn i := fun hi => hc (hin.unique hi)
    have hfork := test.fork_avoids haway hc
    rw [run]
    cases hf : test.fork s with
    | error e t =>
      rw [leaves_error hf] at hfork
      exact hfork
    | ok blocks t =>
      rw [leaves_ok hf] at hfork
      rw [hf] at hbranches
      obtain ⟨hone, hzero⟩ := hbranches
      obtain ⟨hb₁, hb₀, hbj⟩ := Test.fork_module hin hf
      have hmove := hfork.trans (.moveTo (hb₁ ▸ hc))
      have hfirst := hmove.trans (avoids_runAll haone hs.1 hone (hmove.current ▸ hc))
      simp only
      generalize runAll one (t.moveTo blocks.one) = first at hfirst hzero ⊢
      cases hobserve : mode.observe first.failure with
      | some message => exact hfirst
      | none =>
        have hjump := (hfirst.trans (.jump (hfirst.away haway) (hbj ▸ hc))).trans
          (.moveTo (hb₀ ▸ hc))
        have hsecond := hjump.trans
          (avoids_runAll hazero hs.2 (hzero hobserve) (hjump.current ▸ hc))
        generalize runAll zero ((first.session.jump blocks.join).moveTo blocks.zero) = second
          at hsecond ⊢
        cases mode.observe second.failure with
        | some message => exact hsecond
        | none =>
          exact (hsecond.trans (.jump (hsecond.away haway) (hbj ▸ hc))).trans (.moveTo (hbj ▸ hc))

theorem avoids_runAll : ∀ {steps : List Step} {o : Owners} {s : Session}, anonymousAll steps →
    settledAll steps → OrderlyAll steps o s → s.current ≠ i → Avoids i s (runAll steps s).session
  | [], _, s, _, _, _, _ => .refl s
  | .fail _ :: _, _, s, _, _, _, _ => .refl s
  | .perform c :: steps, o, s, ha, hs, ho, hc => by
    simp only [anonymousAll, settledAll, Bool.and_eq_true] at ha hs
    have hrun := avoids_run ha.1 hs.1 ho.1 hc
    exact hrun.trans (avoids_runAll ha.2 hs.2 ho.2 (hrun.current ▸ hc))
  | .conditional test mode one zero :: steps, o, s, ha, hs, ho, hc => by
    simp only [anonymousAll, settledAll, Bool.and_eq_true] at ha hs
    have hrun := avoids_run ha.1 hs.1 ho.1 hc
    exact hrun.trans (avoids_runAll ha.2 hs.2 ho.2 (hrun.current ▸ hc))

end

end Step

/-- A register has been set for the module in use, or is as it was. -/
theorem Session.lookup_track {o : Owners} {s s' : Session} (h : s.registers <:+ s'.registers)
    (r : String) : List.lookup r (o.track s s') = some s.current ∨
      List.lookup r (o.track s s') = List.lookup r o ∧ s'.register? r = s.register? r := by
  obtain ⟨new, hnew⟩ := h
  rw [Owners.track_eq hnew.symm, register?, register?, ← hnew]
  clear hnew
  induction new with
  | nil => exact .inr ⟨rfl, rfl⟩
  | cons x new ih =>
    rw [List.map_cons, List.cons_append, List.cons_append, lookup_cons_eq_ite, lookup_cons_eq_ite]
    by_cases hr : r = x.1
    · exact .inl (if_pos hr)
    · rw [if_neg hr, if_neg hr]
      exact ih

theorem Session.Agrees.of_avoids {o : Owners} {s s' t : Session} (h : Agrees i o False s t)
    (hs : Avoids i s s') (hc : s.current ≠ i) : Agrees i (o.track s s') False s' t := by
  refine ⟨h.current.trans hs.current.symm, h.length.trans hs.length.symm,
    h.module.trans hs.module.symm, hs.bodiless h.left, h.right,
    List.Subset.trans h.names hs.names, ?_, ?_, ?_, h.values, h.closed⟩
  · rintro (hf | hin)
    · exact hf.elim
    · have hp := hs.place hin
      obtain ⟨b, hb, hi⟩ := hin
      exact (h.position (.inr ⟨b, hp ▸ hb, hi⟩)).trans hp.symm
  · intro r hr
    rcases lookup_track hs.registers r (o := o) with hl | ⟨hl, hsame⟩
    · rw [hl] at hr
      cases hr
    · rw [hsame]
      exact h.unbound r (hl ▸ hr)
  · intro r hr
    rcases lookup_track hs.registers r (o := o) with hl | ⟨hl, hsame⟩
    · exact absurd (Option.some.inj (hl.symm.trans hr)) hc
    · rw [hsame]
      exact h.bound r (hl ▸ hr)

theorem Session.agrees_start (i : Nat) (name : String) :
    Agrees i [] False (.start name) (.start name) := by
  refine ⟨rfl, rfl, rfl, nofun, nofun, List.Subset.refl _, fun _ => rfl, fun _ _ => ⟨rfl, rfl⟩,
    fun _ _ => rfl, nofun, fun m hm => ?_⟩
  have hmem : m ∈ (start name).modules := List.mem_of_getElem? hm
  rw [List.mem_singleton.mp hmem]
  exact .empty name

theorem Command.agrees_switch {o : Owners} (hw : c.switches) (h : Agrees i o False s t) :
    Agrees i o False (c.act.leaves s) (c.act.leaves t) := by
  cases c with
  | newModule name =>
    change Agrees i o False (s.addModule name) (t.addModule name)
    refine { h with current := h.length, length := ?_, module := ?_, closed := ?_ }
    · simp [addModule, h.length]
    · simp only [module?, addModule, List.getElem?_append, h.length]
      split
      · exact h.module
      · rfl
    · intro m hm
      simp only [module?, addModule, List.getElem?_append] at hm
      split at hm
      · exact h.closed m hm
      · rw [List.mem_singleton.mp (List.mem_of_getElem? hm)]
        exact .empty name
  | useModule n =>
    have hleaves : ∀ w : Session, (Command.useModule n).act.leaves w =
        if n < w.modules.length then { w with current := n } else w := by
      intro w
      rw [Command.act, leaves_get_bind]
      by_cases hn : n < w.modules.length
      · have hm : w.module? n = some w.modules[n] := List.getElem?_eq_getElem hn
        rw [hm, if_pos hn]
        rfl
      · have hm : w.module? n = none := List.getElem?_eq_none (Nat.not_lt.mp hn)
        rw [hm, if_neg hn]
        rfl
    rw [hleaves s, hleaves t, h.length]
    split
    · exact { h with current := rfl }
    · exact h
  | _ => cases hw

namespace Step

def isSwitch : Step → Bool
  | .perform c => c.switches
  | _ => false

/-- The steps that are left for a module: those that are carried out while it is in use, and those
that make or choose a module. -/
def restrict (i : Nat) : List Step → Session → List Step
  | [], _ => []
  | step :: steps, s =>
    if step.isSwitch ∨ s.current = i then step :: restrict i steps (step.run s).2
    else restrict i steps (step.run s).2

theorem orderlyAll_cons {step : Step} (hstep : ∀ message, step ≠ .fail message)
    {steps : List Step} {o : Owners} {s : Session} (h : OrderlyAll (step :: steps) o s) :
    step.Orderly o s ∧ OrderlyAll steps (o.track s (step.run s).2) (step.run s).2 := by
  cases step with
  | fail message => exact absurd rfl (hstep message)
  | perform | conditional => exact h

/-- One step: it is carried out in both sessions, or left out in the second. -/
theorem agrees_run {step : Step} {o : Owners} (ha : step.anonymous)
    (hs : step.isSwitch ∨ step.settled) (ho : step.Orderly o s) (h : Agrees i o False s t) :
    Agrees i (o.track s (step.run s).2) False (step.run s).2
      (if step.isSwitch ∨ s.current = i then (step.run t).2 else t) := by
  by_cases hw : step.isSwitch
  · cases step with
    | perform c =>
      have hkept : c.target? = none := by
        cases c <;> first | rfl | cases hw
      rw [if_pos (.inl hw), run, run, answer_snd, answer_snd,
        Owners.track_of_kept (Command.registers_act hkept s)]
      exact Command.agrees_switch hw h
    | conditional | fail => cases hw
  · have hsettled := hs.resolve_left hw
    by_cases hc : s.current = i
    · rw [if_pos (.inr hc)]
      have htwins : Twins i o False s t := ⟨h, hc, False.elim⟩
      exact (twins_run ha hsettled ho htwins).toAgrees
    · rw [if_neg (by simp [hw, hc])]
      exact h.of_avoids (avoids_run ha hsettled ho hc) hc

theorem agrees_restrict {steps : List Step} {o : Owners} {s t : Session} (ha : anonymousAll steps)
    (hs : ∀ step ∈ steps, step.isSwitch ∨ step.settled)
    (hf : ∀ message, Step.fail message ∉ steps) (ho : OrderlyAll steps o s)
    (h : Agrees i o False s t) :
    ∃ o', Agrees i o' False (runAll steps s).session (runAll (restrict i steps s) t).session := by
  induction steps generalizing o s t with
  | nil => exact ⟨o, h⟩
  | cons step steps ih =>
    simp only [anonymousAll, Bool.and_eq_true] at ha
    have hstep : ∀ message, step ≠ .fail message := by
      rintro message rfl
      exact hf message (by simp)
    obtain ⟨ho, hrest⟩ := orderlyAll_cons hstep ho
    have hrun := agrees_run ha.1 (hs step (by simp)) ho h
    have htail := ih ha.2 (fun x hx => hs x (List.mem_cons_of_mem _ hx))
      (fun message hm => hf message (List.mem_cons_of_mem _ hm)) hrest hrun
    rw [session_runAll_cons hstep, restrict]
    split_ifs at htail ⊢
    · rw [session_runAll_cons hstep]
      exact htail
    · exact htail

end Step

namespace Program

/-- The program names no struct, makes and chooses modules outside of conditionals only, has no
failure there, and all of its steps are carried out where they belong. -/
structure Separate (p : Program) : Prop where
  anonymous : Step.anonymousAll p.steps
  outermost : ∀ step ∈ p.steps, step.isSwitch ∨ step.settled
  lasting : ∀ message, Step.fail message ∉ p.steps
  orderly : Step.OrderlyAll p.steps [] (.start p.name)

def restrict (i : Nat) (p : Program) : Program :=
  ⟨p.name, Step.restrict i p.steps (.start p.name)⟩

/-- The steps for other modules may be left out of a program: the module is the same at the end, and
so is its text. -/
theorem module_restrict {p : Program} (h : p.Separate) (i : Nat) :
    (p.restrict i).run.session.module? i = p.run.session.module? i ∧
      ∀ m, p.run.session.module? i = some m →
        (p.restrict i).run.session.moduleText i m = p.run.session.moduleText i m := by
  obtain ⟨o, hagrees⟩ := Step.agrees_restrict h.anonymous h.outermost h.lasting h.orderly
    (agrees_start i p.name)
  refine ⟨hagrees.module, fun m hm => ?_⟩
  have hnames : ∀ s : Session, s.structNames ⊆ s.structs.map StructDef.name :=
    fun s => List.filter_subset_self _
  exact moduleText_eq (k := (p.restrict i).run.session.home i) hagrees.module hm
    (hagrees.closed m (hagrees.module.trans hm)) hagrees.left hagrees.right
    (List.Subset.trans hagrees.names (hnames _)) (hnames _)

def twoModules : Program where
  name := "first"
  steps := [
    .perform (.declare "f" .void [] .external),
    .perform (.newBlock "f" "entry"),
    .perform (.bind "q" (.qubit 0)),
    .perform (.apply .h [.register "q"]),
    .perform (.newModule "second"),
    .perform (.declare "f" .void [] .external),
    .perform (.newBlock "f" "entry"),
    .conditional (.result (.result 0)) .plain
      [.perform (.bind "q" (.qubit 1)), .perform (.apply .x [.register "q"])] [],
    .perform (.useModule 0),
    .perform (.position "f" 0),
    .perform (.ret none)]

theorem module_restrict_twoModules :
    twoModules.Separate ∧ (twoModules.restrict 1).steps.length = 5 ∧
      (twoModules.restrict 1).run.session.structs ≠ twoModules.run.session.structs ∧
      (twoModules.run.session.module? 1).isSome ∧
      (twoModules.restrict 1).run.session.module? 1 = twoModules.run.session.module? 1 ∧
      ∀ m, twoModules.run.session.module? 1 = some m →
        (twoModules.restrict 1).run.session.moduleText 1 m =
          twoModules.run.session.moduleText 1 m := by
  have h : twoModules.Separate := ⟨rfl, by decide, by simp [twoModules], by decide +kernel⟩
  exact ⟨h, by decide +kernel, by decide +kernel, by decide +kernel, module_restrict h 1⟩

end Program

end QuantumIR
