import QuantumIR.Proofs.Twins

/-! # The same steps in two sessions

A step that is carried out in two sessions that agree on the module in use leaves sessions that
agree. The builder has to stand in the module when something is built, and the registers that are
used must have been set for the module.
-/

namespace QuantumIR

open Attempt Session

/-- The owners when a session has gone on: a register that has been set belongs to the module that
was in use. -/
def Owners.track (o : Owners) (s s' : Session) : Owners :=
  (s'.registers.take (s'.registers.length - s.registers.length)).map
    (fun r => (r.1, s.current)) ++ o

namespace Owners

variable {o : Owners} {s s' s'' : Session}

theorem track_eq {l : List (String × Value)} (h : s'.registers = l ++ s.registers) :
    o.track s s' = l.map (fun r => (r.1, s.current)) ++ o := by
  simp [track, h]

theorem track_congr {u u' : Session} (hr : s'.registers = s.registers) (hc : s'.current = s.current)
    (hu : u'.registers = u.registers) : o.track s' u' = o.track s u := by
  rw [track, track, hr, hc, hu]

theorem track_of_kept (h : s'.registers = s.registers) : o.track s s' = o := track_eq (l := []) h

theorem track_setRegister (h : s'.registers = s.registers) (name : String) (v : Value) :
    o.track s (s'.setRegister name v) = (name, s.current) :: o :=
  track_eq (l := [(name, v)]) (by simp [Session.setRegister, h])

theorem track_track (h : s.registers <:+ s'.registers) (h' : s'.registers <:+ s''.registers)
    (hc : s'.current = s.current) : (o.track s s').track s' s'' = o.track s s'' := by
  obtain ⟨xs, hxs⟩ := h
  obtain ⟨ys, hys⟩ := h'
  have hall : s''.registers = (ys ++ xs) ++ s.registers := by rw [← hys, ← hxs, List.append_assoc]
  rw [track_eq hys.symm, track_eq hxs.symm, track_eq hall, hc, List.map_append, List.append_assoc]

end Owners

namespace Command

def types : Command → List TypeExpr
  | .describeType t | .newGlobal _ t => [t]
  | .declare _ output params _ => output :: params
  | .newStruct _ body => body.getD []
  | _ => []

def operands : Command → List MetadataExpr
  | .addFlag _ _ m => [m]
  | .extractConstant v | .inspect v | .bind _ v | .ids v | .extractString v => [.value v]
  | .ret v => v.toList.map .value
  | .call _ vs _ | .apply _ vs => vs.map .value
  | _ => []

def registers (c : Command) : List String := MetadataExpr.registersAll c.operands

def makesStruct : Command → Bool
  | .newStruct _ _ => true
  | _ => false

def anonymous (c : Command) : Bool :=
  !c.makesStruct && c.types.all TypeExpr.anonymous && MetadataExpr.anonymousAll c.operands

/-- The command is carried out where it belongs: something is built in the module in use only, and
the registers that are used were set for it. -/
structure Orderly (o : Owners) (s : Session) (c : Command) : Prop where
  place : c.appends → s.StandsIn s.current
  registers : o.Allow s.current c.registers

instance (o : Owners) (s : Session) (c : Command) : Decidable (c.Orderly o s) :=
  decidable_of_iff ((c.appends → s.StandsIn s.current) ∧ o.Allow s.current c.registers)
    ⟨fun h => ⟨h.1, h.2⟩, fun h => ⟨h.1, h.2⟩⟩

theorem Does.registers {c : Command} {s t : Session} (h : c.Does s t) :
    t.registers = s.registers ∨
      ∃ name v, c.target? = some name ∧ t.registers = (name, v) :: s.registers := by
  cases h with
  | side h => exact .inl h.registers
  | struct h => exact .inl h.registers
  | structBody ts h => exact .inl h.registers
  | entryPoint _ e => exact .inl (registers_addEntryPoint s _ e)
  | register _ name v hc => exact .inr ⟨name, v, hc, rfl⟩
  | instr => exact .inl (registers_append s _)
  | emit h => exact .inl (emit_registers h)
  | module | use | flag | function | global | attr | block | move | unset | loose => exact .inl rfl

theorem exists_registers_act_eq (c : Command) (s : Session) :
    ∃ set, (c.act.leaves s).registers = set ++ s.registers ∧ ∀ x ∈ set, c.target? = some x.1 := by
  have hdoes := c.act_does s
  generalize c.act.leaves s = t at hdoes
  induction hdoes with
  | refl => exact ⟨[], rfl, nofun⟩
  | tail _ h ih =>
    obtain ⟨set, hset, htarget⟩ := ih
    rcases h.registers with hr | ⟨name, v, hname, hr⟩
    · exact ⟨set, hr.trans hset, htarget⟩
    · refine ⟨(name, v) :: set, ?_, List.forall_mem_cons.mpr ⟨hname, htarget⟩⟩
      rw [hr, hset, List.cons_append]

theorem suffix_registers_act (c : Command) (s : Session) :
    s.registers <:+ (c.act.leaves s).registers := by
  obtain ⟨set, hset, -⟩ := c.exists_registers_act_eq s
  exact ⟨set, hset.symm⟩

theorem registers_act {c : Command} (hc : c.target? = none) (s : Session) :
    (c.act.leaves s).registers = s.registers := by
  obtain ⟨set, hset, htarget⟩ := c.exists_registers_act_eq s
  have hnil : set = [] := by
    refine List.eq_nil_iff_forall_not_mem.mpr fun x hx => ?_
    cases hc.symm.trans (htarget x hx)
  rw [hset, hnil, List.nil_append]

theorem anonymous_iff {c : Command} : c.anonymous ↔ c.makesStruct = false ∧
    (∀ t ∈ c.types, t.anonymous) ∧ MetadataExpr.anonymousAll c.operands := by
  simp [anonymous, and_assoc]

end Command

theorem MetadataExpr.anonymousAll_map_value {vs : List ValueExpr}
    (h : anonymousAll (vs.map .value)) : ∀ v ∈ vs, v.anonymous := by
  induction vs with
  | nil => nofun
  | cons v vs ih =>
    obtain ⟨hv, hvs⟩ := Bool.and_eq_true_iff.mp h
    exact List.forall_mem_cons.mpr ⟨hv, ih hvs⟩

theorem MetadataExpr.registersAll_map_value (vs : List ValueExpr) :
    registersAll (vs.map .value) = vs.flatMap ValueExpr.registers := by
  induction vs with
  | nil => rfl
  | cons v vs ih =>
    simp only [List.map_cons, registersAll, MetadataExpr.registers, List.flatMap_cons, ih]

section Twins

variable {i : Nat} {o : Owners} {full : Prop} {s t : Session} {c : Command}

theorem Command.operand_couples {m : MetadataExpr} (hm : c.operands = [m]) (ha : c.anonymous)
    (ho : o.Allow i c.registers) (h : Twins i o full s t) :
    CouplesIn i o full Metadata.In m.eval m.eval s t := by
  have han := (anonymous_iff.mp ha).2.2
  rw [Command.registers, hm] at ho
  rw [hm] at han
  refine MetadataExpr.eval_couples (Bool.and_eq_true_iff.mp han).1 ?_ h
  exact (List.forall_mem_append.mp ho).1

theorem Command.value_couples {v : ValueExpr} (hv : c.operands = [.value v]) (ha : c.anonymous)
    (ho : o.Allow i c.registers) (h : Twins i o full s t) :
    CouplesIn i o full Value.In v.eval v.eval s t := by
  have han := (anonymous_iff.mp ha).2.2
  rw [Command.registers, hv] at ho
  rw [hv] at han
  refine ValueExpr.eval_couples (Bool.and_eq_true_iff.mp han).1 ?_ h
  exact (List.forall_mem_append.mp ho).1

theorem Command.values_couples {vs : List ValueExpr} (hv : c.operands = vs.map .value)
    (ha : c.anonymous) (ho : o.Allow i c.registers) (h : Twins i o full s t) :
    CouplesIn i o full (fun k vs => ∀ v ∈ vs, v.In k) (ValueExpr.evalList vs)
      (ValueExpr.evalList vs) s t := by
  have han := (anonymous_iff.mp ha).2.2
  rw [Command.registers, hv, MetadataExpr.registersAll_map_value] at ho
  rw [hv] at han
  exact ValueExpr.evalList_couples (MetadataExpr.anonymousAll_map_value han) ho h

theorem Command.leaves_getFlag (id : String) (s : Session) :
    (Command.getFlag id).act.leaves s = s := by
  refine leaves_pass rfl fun _ => leaves_pass (leaves_currentModule s) fun m => ?_
  split <;> rfl

/-- The commands that only look, or change the module in use and nothing else. -/
theorem Command.twins_edit (hb : c.appends = false) (hc : c.target? = none)
    (hs : c.switches = false) (ha : c.anonymous) (ho : o.Allow i c.registers)
    (h : Twins i o full s t) :
    Twins i o full (c.act.leaves s) (c.act.leaves t) := by
  have hlook : ∀ {s t} s' t', (Twins.comparison i o full).Holds s t s' t' → Twins i o full s' t' :=
    fun _ _ h => h.1
  obtain ⟨hstruct, htypes, -⟩ := anonymous_iff.mp ha
  cases c with
  | print | verify | flags | entryPoints =>
    exact h.currentModule.leaves_bind hlook fun _ _ _ h _ => h.1
  | extractConstant v | inspect v | ids v =>
    exact (value_couples rfl ha ho h).leaves_bind hlook fun _ _ _ h _ => h.1
  | getFlag id =>
    rw [leaves_getFlag, leaves_getFlag]
    exact h
  | setVersion flag value =>
    refine h.currentModule.leaves_bind hlook fun m s' t' h hm => ?_
    have hset : ∀ n, m.setVersion flag value = .ok n → n.In (t'.home i) := by
      intro n hn
      unfold Module.setVersion at hn
      split at hn <;> cases hn
      exact hm.addFlag trivial
    refine (Couples.guarded (P := fun w n => n.In (w.home i)) h.1.holds hset).leaves_bind hlook
      fun n s'' t'' h hn => ?_
    exact h.1.updateCurrent fun _ _ => hn
  | setManagement flag value =>
    exact h.updateCurrent fun m hm => hm.addFlag trivial
  | addFlag behavior id value =>
    refine (operand_couples rfl ha ho h).leaves_bind hlook fun m s' t' h hm => ?_
    exact h.1.updateCurrent fun _ hn => hn.addFlag hm
  | describeType ty =>
    refine (TypeExpr.eval_couples (htypes ty (by simp [types])) h).leaves_bind hlook ?_
    exact fun _ _ _ h _ => h.1
  | entryPoint e =>
    change Twins i o full (s.addEntryPoint s.current e).2 (t.addEntryPoint t.current e).2
    rw [h.here, h.there]
    exact h.addEntryPoint e
  | declare name output params l =>
    refine (TypeExpr.eval_couples (htypes output (by simp [types])) h).leaves_bind hlook
      fun output s' t' h hout => ?_
    have hparams : ∀ t ∈ params, t.anonymous := fun t ht => htypes t (List.mem_cons_of_mem _ ht)
    refine (TypeExpr.evalList_couples hparams h.1).leaves_bind hlook
      fun params s'' t'' h hpar => ?_
    obtain ⟨h, hn⟩ := h
    change Twins i o full (s''.addFunction s''.current name ⟨output, params⟩ l).2
      (t''.addFunction t''.current name ⟨output, params⟩ l).2
    rw [h.here, h.there]
    exact (h.addFunction name (Ty.in_function.mpr ⟨hout.mono (hn.within i), hpar⟩) l).2
  | newGlobal name ty =>
    refine (TypeExpr.eval_couples (htypes ty (by simp [types])) h).leaves_bind hlook
      fun ty s' t' h hty => ?_
    change Twins i o full (s'.addGlobal s'.current name ty).2 (t'.addGlobal t'.current name ty).2
    rw [h.1.here, h.1.there]
    exact (h.1.addGlobal name hty none).2
  | addAttr fn x key value =>
    refine (h.findFunction fn).leaves_bind hlook fun rf s' t' h hf => ?_
    exact h.1.addAttr hf.1 _ _
  | listAttrs fn x =>
    refine (h.findFunction fn).leaves_bind (R := Twins i o full) hlook fun rf s' t' h _ => ?_
    dsimp only
    split <;> exact h.1
  | extractString v =>
    refine (value_couples rfl ha ho h).leaves_bind hlook fun v s' t' h _ => ?_
    have hstill : ∀ w : Session, (do
        let data ← guarded ((← get).extractString v)
        return .bytes data : Attempt Answer).leaves w = w :=
      fun w => leaves_pass rfl fun w' => leaves_pass (leaves_guarded _ w) fun _ => rfl
    rw [hstill s', hstill t']
    exact h.1
  | newBlock fn name =>
    refine (h.findFunction fn).leaves_bind hlook fun rf s' t' h hf => ?_
    obtain ⟨hb, hblock⟩ := h.1.addBlock hf.1 (Bytes.ofString name)
    change Twins i o full (Session.moveTo _ _)
      (Session.moveTo _ (t'.addBlock rf.1 (Bytes.ofString name)).1)
    rw [hb]
    exact hblock.moveTo hf.1
  | position fn n =>
    refine (h.findFunction fn).leaves_bind hlook fun rf s' t' h hf => ?_
    refine (Couples.require (P := fun _ _ => True) h.1.holds (fun _ _ => trivial) _ _).leaves_bind
      hlook fun _ s'' t'' h _ => ?_
    exact h.1.moveTo hf.1
  | unposition => exact h.setPosition nofun
  | looseBlock name => exact h.setPosition nofun
  | newStruct => cases hstruct
  | newModule | useModule => cases hs
  | bind => cases hc
  | call | ret | apply => cases hb

theorem Command.twins_ret {e : Option ValueExpr} (ha : (Command.ret e).anonymous)
    (ho : o.Allow i (Command.ret e).registers) (h : Twins i o True s t) :
    Twins i o True ((Command.ret e).act.leaves s) ((Command.ret e).act.leaves t) := by
  have hend : ∀ {s t : Session} {v : Option Value}, Twins i o True s t →
      (∀ x ∈ v.toList, x.In (t.home i)) →
      let last : Attempt Answer := do requireBlock; modify (·.append (.ret v)); lastInstruction
      Twins i o True (last.leaves s) (last.leaves t) := by
    intro s t v h hv
    refine h.requireBlock.leaves_bind (fun _ _ h => h.1) fun _ s' t' h _ => ?_
    obtain ⟨h, hn⟩ := h
    rw [leaves_modify_bind, leaves_modify_bind, leaves_lastInstruction, leaves_lastInstruction]
    exact h.append ⟨Ty.in_void, nofun, fun x hx => (hv x hx).mono (hn.within i), nofun⟩
  cases e with
  | none => exact hend h nofun
  | some e =>
    have hvalue : CouplesIn i o True (fun k v => ∀ x ∈ v.toList, x.In k) (some <$> e.eval)
        (some <$> e.eval) s t := by
      refine (value_couples rfl ha ho h).bind fun v s' t' h hv => .pure h.1.holds ?_
      exact fun x hx => List.mem_singleton.mp hx ▸ hv
    exact hvalue.leaves_bind (fun _ _ h => h.1) fun v s' t' h hv => hend h.1 hv

theorem Command.twins_apply {op : Operation} {es : List ValueExpr}
    (ha : (Command.apply op es).anonymous) (ho : o.Allow i (Command.apply op es).registers)
    (h : Twins i o True s t) :
    Twins i o True ((Command.apply op es).act.leaves s) ((Command.apply op es).act.leaves t) := by
  have hargs := values_couples rfl ha ho h
  rw [Command.act]
  split_ifs
  · exact h
  · refine hargs.leaves_bind (fun _ _ h => h.1) fun args s' t' h hin => ?_
    refine (h.1.emit hin).leaves_bind (fun _ _ h => h.1) fun v s'' t'' h _ => ?_
    rw [leaves_lastInstruction, leaves_lastInstruction]
    exact h.1

theorem Command.twins_bind {name : String} {e : ValueExpr} (ha : (Command.bind name e).anonymous)
    (ho : o.Allow i (Command.bind name e).registers) (h : Twins i o full s t) :
    Twins i (o.track s ((Command.bind name e).act.leaves s)) full
      ((Command.bind name e).act.leaves s) ((Command.bind name e).act.leaves t) := by
  refine (value_couples rfl ha ho h).leaves_bind
    (R := fun s' t' => Twins i (o.track s s') full s' t')
    (fun s' t' h => ?_) fun v s' t' h' hv => ?_
  · rw [Owners.track_of_kept h.2.kept]
    exact h.1
  · change Twins i (o.track s (s'.setRegister name v)) full (s'.setRegister name v)
      (t'.setRegister name v)
    rw [Owners.track_setRegister h'.2.kept, h.here]
    exact h'.1.setRegister name hv

theorem Command.twins_call {fn : String} {es : List ValueExpr} {name : Option String}
    (ha : (Command.call fn es name).anonymous) (ho : o.Allow i (Command.call fn es name).registers)
    (hs : s.StandsIn i) (h : Twins i o True s t) :
    Twins i (o.track s ((Command.call fn es name).act.leaves s)) True
      ((Command.call fn es name).act.leaves s) ((Command.call fn es name).act.leaves t) := by
  obtain ⟨b, hb, -⟩ := hs
  have hkept : ∀ {s' t' : Session}, s'.registers = s.registers → Twins i o True s' t' →
      Twins i (o.track s s') True s' t' :=
    fun hk h => (Owners.track_of_kept hk).symm ▸ h
  refine (h.findFunction fn).leaves_bind (R := fun s' t' => Twins i (o.track s s') True s' t')
    (fun _ _ h => hkept h.2.kept h.1) fun rf s' t' h' hf => ?_
  obtain ⟨h', hn'⟩ := h'
  refine (values_couples rfl ha ho h').leaves_bind
    (R := fun s' t' => Twins i (o.track s s') True s' t')
    (fun _ _ h => hkept (hn'.trans h.2).kept h.1) fun args s'' t'' h'' hargs => ?_
  obtain ⟨h'', hn''⟩ := h''
  refine h''.requireBlock.leaves_bind (R := fun s' t' => Twins i (o.track s s') True s' t')
    (fun _ _ h => hkept (hn'.trans (hn''.trans h.2)).kept h.1) fun _ s₃ t₃ h₃ _ => ?_
  obtain ⟨h₃, hn₃⟩ := h₃
  have hn := hn'.trans (hn''.trans hn₃)
  have hmodule : rf.1.module = i := hf.1
  obtain ⟨hv, hin, hcall⟩ := h₃.call (hn.still.trans hb) hmodule
    fun v hv => (hargs v hv).mono (hn₃.within i)
  have hregisters : (s₃.call rf.1 args).2.registers = s.registers :=
    (registers_append _ _).trans hn.kept
  rw [leaves_update_bind, leaves_update_bind, hv]
  cases name with
  | none =>
    change Twins i (o.track s (lastInstruction.leaves _)) True (lastInstruction.leaves _)
      (lastInstruction.leaves _)
    rw [leaves_lastInstruction, leaves_lastInstruction]
    exact hkept hregisters hcall
  | some name =>
    dsimp only
    rw [leaves_modify_bind, leaves_modify_bind, leaves_lastInstruction, leaves_lastInstruction,
      Owners.track_setRegister hregisters, h.here]
    refine hcall.setRegister name ?_
    rw [home, structNames_call]
    exact hin

theorem Command.twins_act (ha : c.anonymous) (hs : c.switches = false) (ho : c.Orderly o s)
    (h : Twins i o full s t) :
    Twins i (o.track s (c.act.leaves s)) full (c.act.leaves s) (c.act.leaves t) := by
  have hallow : o.Allow i c.registers := h.here ▸ ho.registers
  have hplace : c.appends → s.StandsIn i := h.here ▸ ho.place
  have hkept : c.target? = none → o.track s (c.act.leaves s) = o :=
    fun hc => Owners.track_of_kept (registers_act hc s)
  cases c with
  | bind name e => exact twins_bind ha hallow h
  | call fn es name =>
    have hin := hplace rfl
    exact (twins_call ha hallow hin (h.enter hin)).mono fun _ => trivial
  | ret e =>
    rw [hkept rfl]
    exact (twins_ret ha hallow (h.enter (hplace rfl))).mono fun _ => trivial
  | apply op es =>
    rw [hkept rfl]
    exact (twins_apply ha hallow (h.enter (hplace rfl))).mono fun _ => trivial
  | _ =>
    rw [hkept rfl]
    exact twins_edit rfl rfl hs ha hallow h

end Twins

namespace Step

mutual

def anonymous : Step → Bool
  | .perform c => c.anonymous
  | .conditional test _ one zero => test.operand.anonymous && anonymousAll one && anonymousAll zero
  | .fail _ => true

def anonymousAll : List Step → Bool
  | [] => true
  | step :: steps => step.anonymous && anonymousAll steps

end

mutual

def settled : Step → Bool
  | .perform c => !c.switches
  | .conditional _ _ one zero => settledAll one && settledAll zero
  | .fail _ => true

def settledAll : List Step → Bool
  | [] => true
  | step :: steps => step.settled && settledAll steps

end

mutual

/-- The step and those inside it are carried out where they belong, as far as they are carried
out. -/
def Orderly : Step → Owners → Session → Prop
  | .perform c, o, s => c.Orderly o s
  | .conditional test mode one zero, o, s =>
    s.StandsIn s.current ∧ o.Allow s.current test.operand.registers ∧
      match test.fork s with
      | .error _ _ => True
      | .ok blocks t =>
        let first := runAll one (t.moveTo blocks.one)
        OrderlyAll one o (t.moveTo blocks.one) ∧
          (mode.observe first.failure = none →
            OrderlyAll zero (o.track s first.session)
              ((first.session.jump blocks.join).moveTo blocks.zero))
  | .fail _, _, _ => True

/-- The steps are carried out where they belong, until one fails. -/
def OrderlyAll : List Step → Owners → Session → Prop
  | [], _, _ => True
  | .fail _ :: _, _, _ => True
  | step :: steps, o, s =>
    step.Orderly o s ∧ OrderlyAll steps (o.track s (step.run s).2) (step.run s).2

end

mutual

/-- Whether a step is carried out where it belongs is found out by running it. -/
def decOrderly : (step : Step) → (o : Owners) → (s : Session) → Decidable (step.Orderly o s)
  | .perform c, o, s => inferInstanceAs (Decidable (c.Orderly o s))
  | .conditional test mode one zero, o, s =>
    let branches : (r : EStateM.Result Fault Session Fork) → Decidable (match r with
        | .error _ _ => True
        | .ok blocks t =>
          let first := runAll one (t.moveTo blocks.one)
          OrderlyAll one o (t.moveTo blocks.one) ∧
            (mode.observe first.failure = none →
              OrderlyAll zero (o.track s first.session)
                ((first.session.jump blocks.join).moveTo blocks.zero)))
      | .error _ _ => isTrue trivial
      | .ok blocks t =>
        let first := runAll one (t.moveTo blocks.one)
        have := decOrderlyAll one o (t.moveTo blocks.one)
        have := decOrderlyAll zero (o.track s first.session)
          ((first.session.jump blocks.join).moveTo blocks.zero)
        inferInstanceAs (Decidable (_ ∧ (_ → _)))
    have := branches (test.fork s)
    inferInstanceAs
      (Decidable (s.StandsIn s.current ∧ o.Allow s.current test.operand.registers ∧ _))
  | .fail _, _, _ => isTrue trivial

def decOrderlyAll : (steps : List Step) → (o : Owners) → (s : Session) →
    Decidable (OrderlyAll steps o s)
  | [], _, _ => isTrue trivial
  | .fail _ :: _, _, _ => isTrue trivial
  | .perform c :: steps, o, s =>
    let next := ((perform c).run s).2
    have := decOrderly (.perform c) o s
    have := decOrderlyAll steps (o.track s next) next
    inferInstanceAs (Decidable (_ ∧ _))
  | .conditional test mode one zero :: steps, o, s =>
    let next := ((conditional test mode one zero).run s).2
    have := decOrderly (.conditional test mode one zero) o s
    have := decOrderlyAll steps (o.track s next) next
    inferInstanceAs (Decidable (_ ∧ _))

end

instance (steps : List Step) (o : Owners) (s : Session) : Decidable (OrderlyAll steps o s) :=
  decOrderlyAll steps o s

end Step

section Twins

variable {i : Nat} {o : Owners} {full : Prop} {s t : Session}

theorem Test.eval_couples {test : Test} (ha : test.operand.anonymous)
    (ho : o.Allow i test.operand.registers) (h : Twins i o True s t) :
    CouplesIn i o True Value.In test.eval test.eval s t := by
  have hvalue := ValueExpr.eval_couples ha ho h
  cases test with
  | bit condition => exact hvalue
  | result measured =>
    exact hvalue.bind fun v s' t' h hv => h.1.emit fun x hx => List.mem_singleton.mp hx ▸ hv

theorem Test.fork_couples {test : Test} (ha : test.operand.anonymous)
    (ho : o.Allow i test.operand.registers) (h : Twins i o True s t) :
    CouplesIn i o True (fun k (f : Fork) => ∀ b ∈ [f.one, f.zero, f.join], b.fn.module = k.module)
      test.fork test.fork s t :=
  (test.eval_couples ha ho h).bind fun _ _ _ h hv => h.1.fork hv

end Twins

theorem Test.fork_registers (test : Test) (s : Session) :
    (test.fork.leaves s).registers = s.registers :=
  test.fork_rel (R := fun s t => t.registers = s.registers) (fun _ => rfl) (fun h h' => h'.trans h)
    SideEffect.registers emit_registers (fun _ _ _ => rfl) registers_append s

theorem Frame.registers_leave (frame : Frame) (failure : Option String) (stack : List Frame)
    (s : Session) : (frame.leave failure stack s).session.registers = s.registers :=
  frame.leave_rel (R := fun s t => t.registers = s.registers) (fun _ => rfl)
    (fun h h' => h'.trans h) registers_append (fun _ _ => rfl) failure stack s

theorem Config.suffix_registers_next {c d : Config} (h : c.next = some d) :
    c.session.registers <:+ d.session.registers := by
  rcases next_cases h with ⟨command, rest, -, rfl⟩ |
    ⟨test, mode, one, zero, rest, e, t, -, hf, rfl⟩ |
    ⟨test, mode, one, zero, rest, blocks, t, -, hf, rfl⟩ | ⟨frame, stack, failure, -, -, rfl⟩
  · exact command.suffix_registers_act c.session
  · have hregisters := test.fork_registers c.session
    rw [leaves_error hf] at hregisters
    exact hregisters ▸ List.suffix_refl _
  · have hregisters := test.fork_registers c.session
    rw [leaves_ok hf] at hregisters
    exact hregisters ▸ List.suffix_refl _
  · have hregisters := frame.registers_leave failure stack c.session
    exact hregisters ▸ List.suffix_refl _

theorem Config.Reaches.suffix_registers {c d : Config} (h : c.Reaches d) :
    c.session.registers <:+ d.session.registers :=
  h.invariant (P := fun d => c.session.registers <:+ d.session.registers)
    (fun _ _ hn hc => hc.trans (suffix_registers_next hn)) (List.suffix_refl _)

namespace Step

theorem suffix_registers_runAll (steps : List Step) (s : Session) :
    s.registers <:+ (runAll steps s).session.registers := by
  obtain ⟨left, h, -⟩ := reaches_runAll steps [] s
  exact h.suffix_registers

theorem suffix_registers_run (step : Step) (s : Session) :
    s.registers <:+ (step.run s).2.registers := by
  rw [← session_runAll_singleton]
  exact suffix_registers_runAll [step] s

theorem track_runAll {step : Step} {steps : List Step} {o : Owners} {s : Session}
    (hc : (step.run s).2.current = s.current) :
    (o.track s (step.run s).2).track (step.run s).2 (runAll steps (step.run s).2).session =
      o.track s (runAll steps (step.run s).2).session :=
  Owners.track_track (suffix_registers_run step s) (suffix_registers_runAll steps _) hc

variable {i : Nat}

mutual

theorem twins_run : ∀ {step : Step} {o : Owners} {full : Prop} {s t : Session}, step.anonymous →
    step.settled → step.Orderly o s → Twins i o full s t →
      Twins i (o.track s (step.run s).2) full (step.run s).2 (step.run t).2
  | .perform c, o, full, s, t, ha, hs, ho, h => by
    rw [run, run, answer_snd, answer_snd]
    exact c.twins_act ha (by simpa [settled] using hs) ho h
  | .fail _, _, _, _, _, _, _, _, h => by
    rw [run, run, Owners.track_of_kept rfl]
    exact h
  | .conditional test mode one zero, o, full, s, t, ha, hs, ho, h => by
    simp only [anonymous, settled, Bool.and_eq_true] at ha hs
    obtain ⟨⟨htest, haone⟩, hazero⟩ := ha
    rw [Orderly] at ho
    obtain ⟨hin, hallow, hbranches⟩ := ho
    rw [h.here] at hin hallow
    refine (test.fork_couples htest hallow (h.enter hin)).cases
      (fun blocks s₁ t₁ hfs hft h₁ hb => ?_) (fun e f s₁ t₁ hfs hft h₁ => ?_)
    · obtain ⟨h₁, hn⟩ := h₁
      rw [hfs] at hbranches
      obtain ⟨hone, hzero⟩ := hbranches
      rw [run, run, hfs, hft]
      have hregisters : (s₁.moveTo blocks.one).registers = s.registers := hn.kept
      have hcurrent : (s₁.moveTo blocks.one).current = s.current := h₁.here.trans h.here.symm
      have hsuffix := suffix_registers_runAll one (s₁.moveTo blocks.one)
      obtain ⟨hfirst, hfailure⟩ := twins_runAll haone hs.1 hone (h₁.moveTo (hb _ (by simp)))
      rw [Owners.track_congr hregisters hcurrent rfl] at hfirst
      rw [hregisters] at hsuffix
      simp only [hfailure]
      generalize runAll one (s₁.moveTo blocks.one) = first at hfirst hsuffix hzero
      generalize runAll one (t₁.moveTo blocks.one) = first' at hfirst
      cases hobserve : mode.observe first.failure with
      | some message => exact hfirst.mono fun _ => trivial
      | none =>
        have hjump := (hfirst.jump (hb blocks.join (by simp))).moveTo (hb blocks.zero (by simp))
        obtain ⟨hsecond, hfailure'⟩ := twins_runAll hazero hs.2 (hzero hobserve) hjump
        have hsuffix' := suffix_registers_runAll zero
          ((first.session.jump blocks.join).moveTo blocks.zero)
        have hregisters' : ((first.session.jump blocks.join).moveTo blocks.zero).registers =
          first.session.registers := registers_append _ _
        rw [Owners.track_congr hregisters' (current_append _ _) rfl] at hsecond
        rw [hregisters'] at hsuffix'
        simp only [hfailure']
        generalize runAll zero ((first.session.jump blocks.join).moveTo blocks.zero) = second
          at hsecond hsuffix'
        generalize runAll zero ((first'.session.jump blocks.join).moveTo blocks.zero) = second'
          at hsecond
        rw [Owners.track_track hsuffix hsuffix' (hfirst.here.trans h.here.symm)] at hsecond
        cases mode.observe second.failure with
        | some message => exact hsecond.mono fun _ => trivial
        | none =>
          have hjoin := (hsecond.jump (hb blocks.join (by simp))).moveTo (hb blocks.join (by simp))
          have htrack : o.track s ((second.session.jump blocks.join).moveTo blocks.join) =
            o.track s second.session := Owners.track_congr rfl rfl (registers_append _ _)
          rw [← htrack] at hjoin
          exact hjoin.mono fun _ => trivial
    · rw [run, run, hfs, hft, Owners.track_of_kept h₁.2.kept]
      exact h₁.1.mono fun _ => trivial

/-- Steps keep two sessions in agreement on the module in use, and end with the same failure. -/
theorem twins_runAll : ∀ {steps : List Step} {o : Owners} {full : Prop} {s t : Session},
    anonymousAll steps → settledAll steps → OrderlyAll steps o s → Twins i o full s t →
      Twins i (o.track s (runAll steps s).session) full (runAll steps s).session
        (runAll steps t).session ∧ (runAll steps t).failure = (runAll steps s).failure
  | [], _, _, _, _, _, _, _, h => ⟨Owners.track_of_kept rfl ▸ h, rfl⟩
  | .fail _ :: _, _, _, _, _, _, _, _, h => ⟨Owners.track_of_kept rfl ▸ h, rfl⟩
  | .perform c :: steps, o, full, s, t, ha, hs, ho, h => by
    simp only [anonymousAll, settledAll, Bool.and_eq_true] at ha hs
    have hrun := twins_run ha.1 hs.1 ho.1 h
    have hrest := twins_runAll ha.2 hs.2 ho.2 hrun
    rwa [track_runAll (hrun.here.trans h.here.symm)] at hrest
  | .conditional test mode one zero :: steps, o, full, s, t, ha, hs, ho, h => by
    simp only [anonymousAll, settledAll, Bool.and_eq_true] at ha hs
    have hrun := twins_run ha.1 hs.1 ho.1 h
    have hrest := twins_runAll ha.2 hs.2 ho.2 hrun
    rwa [track_runAll (hrun.here.trans h.here.symm)] at hrest

end

end Step

end QuantumIR
