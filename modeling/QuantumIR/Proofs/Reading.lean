import QuantumIR.Proofs.Isolation
import QuantumIR.Proofs.Registers
import QuantumIR.Proofs.StructTable

/-! # Results that are read by calls

A result is read by a call of a function of the builder's module. Where this module is in use, has
the function already, and the struct of results is there, nothing but the call is needed. So a
conditional on a result goes on as a conditional on a register does that has been set to the value
of such a call, in a session that differs in registers only.
-/

namespace QuantumIR

open Attempt Session

namespace Session

variable {s t u : Session}

structure Proceeds (s t : Session) : Prop where
  grows : s.Grows t
  names : s.KeepsNames t
  current : t.current = s.current

namespace Proceeds

theorem refl (s : Session) : s.Proceeds s := ⟨.refl s, .refl s, rfl⟩

theorem trans (h : s.Proceeds t) (h' : t.Proceeds u) : s.Proceeds u :=
  ⟨h.grows.trans h'.grows, h.names.trans h'.names, h'.current.trans h.current⟩

theorem append (s : Session) (i : Instr) : s.Proceeds (s.append i) :=
  ⟨.append s i, .append s i, current_append s i⟩

theorem moveTo (s : Session) (b : BlockRef) : s.Proceeds (s.moveTo b) :=
  ⟨.of_modules_eq rfl, .of_structs_eq rfl, rfl⟩

end Proceeds

/-- The builder stands in no other module than the one in use, which has the function that reads
results, and there is the struct of results. -/
structure Equipped (s : Session) : Prop where
  inside : ∀ b, s.position = .endOf b → b.fn.module = s.current
  found : ∃ k, s.Finds s.current .readResult k
  known : Ty.resultName ∈ s.structNames

theorem Equipped.proceed (hs : s.Equipped) (h : s.Proceeds t)
    (hp : ∀ b, t.position = .endOf b → b.fn.module = s.current) : t.Equipped := by
  obtain ⟨k, hk⟩ := hs.found
  constructor
  · rw [h.current]
    exact hp
  · rw [h.current]
    exact ⟨k, hk.grows h.grows⟩
  · exact h.names.subset hs.known

/-- A function of the module in use that reads results is found there, and the struct of results is
that of its parameter. -/
theorem Reachable.equipped {m : Module} {f : Fn} (hs : s.Reachable) (hin : s.StandsIn s.current)
    (hm : s.module? s.current = some m) (hf : f ∈ m.functions)
    (hname : f.name = Operation.readResult.symbol)
    (hsig : f.sig = Operation.readResult.signature) : s.Equipped := by
  obtain ⟨k, hk⟩ := List.getElem?_of_mem hf
  constructor
  · intro b hb
    obtain ⟨c, hc, hcur⟩ := hin
    rwa [Position.endOf.inj (hb.symm.trans hc)]
  · refine ⟨k, m, hm, ?_⟩
    rw [← hname]
    apply (hs.distinct hm).findFunction?_eq hk
    rw [hname]
    exact Operation.readResult.symbol_ne_empty
  · have hty := hs.typesKnown ⟨s.current, k⟩ f (fn?_eq_some_iff.mpr ⟨m, hm, hk⟩)
    rw [hsig] at hty
    have hresult := (Ty.in_function.mp hty).2 .result (by decide)
    exact Ty.in_struct.mp (Ty.in_ptr.mp hresult)

theorem Equipped.emit_eq {b : BlockRef} {k : Nat} (hs : s.Equipped) (hb : s.position = .endOf b)
    (hk : s.Finds s.current .readResult k) (args : List Value) :
    s.emit .readResult args = .ok (s.call ⟨s.current, k⟩ args) := by
  obtain ⟨m, hm, hfind⟩ := hk
  have hfn : s.builderFn? = some b.fn := by rw [builderFn?, hb]
  have hstructs : Operation.readResult.structs.foldl ensureStruct s = s := if_pos hs.known
  have hdeclare : s.declare b.fn.module .readResult = (⟨s.current, k⟩, s) := by
    rw [declare, hs.inside b hb, hm, Option.bind_some, hfind]
  unfold emit prepare
  rw [hfn, hstructs]
  dsimp only
  rw [hdeclare]
  rfl

end Session

namespace Command

variable {c : Command} {s t : Session}

theorem Does.inside {b : BlockRef} (h : c.Does s t) (hb : t.position = .endOf b) :
    s.position = .endOf b ∨ b.fn.module = s.current := by
  cases h with
  | side h => exact .inl (h.position ▸ hb)
  | struct h => exact .inl (h.position ▸ hb)
  | structBody ts h => exact .inl (h.position ▸ hb)
  | entryPoint _ e =>
    left
    rw [← hb]
    exact (addEntryPoint_induction (P := fun t => t.position = s.position) rfl
      fun _ _ _ _ _ h => h).symm
  | block hr =>
    right
    rw [← Position.endOf.inj hb]
    exact hr
  | move hr =>
    right
    rw [← Position.endOf.inj hb]
    exact hr
  | instr => exact .inl (position_append s _ ▸ hb)
  | emit h => exact .inl (emit_position h ▸ hb)
  | unset | loose => cases hb
  | module | use | flag | function | global | attr | register => exact .inl hb

theorem Does.proceeds (hc : c.switches = false) (h : c.Does s t) : s.Proceeds t := by
  have hcurrent : t.current = s.current := by
    rcases h.current with h | ⟨h, -⟩
    · exact h
    · rw [hc] at h
      cases h
  rcases h.acts with h | ⟨_, _, b, -, -, rfl⟩
  · exact ⟨h.grows, h.keepsNames, hcurrent⟩
  · exact .moveTo s b

/-- A command that makes or chooses a module, and leaves the same module in use, does nothing. -/
theorem leaves_of_switches (hc : c.switches = true) (h : (c.act.leaves s).current = s.current)
    (hs : (s.module? s.current).isSome) : c.act.leaves s = s := by
  cases c with
  | newModule name =>
    have hlength : s.modules.length = s.current := h
    rw [module?, ← hlength] at hs
    simp at hs
  | useModule i =>
    change (Attempt.leaves (Attempt.require _ (s.module? i) >>= _) s).current = _ at h
    change Attempt.leaves (Attempt.require _ (s.module? i) >>= _) s = s
    cases hi : s.module? i with
    | none => rfl
    | some m =>
      rw [hi] at h
      have hcurrent : i = s.current := h
      subst hcurrent
      rfl
  | _ => cases hc

theorem proceeds_act (hc : (c.act.leaves s).current = s.current) (hs : s.Equipped) :
    s.Proceeds (c.act.leaves s) ∧ (c.act.leaves s).Equipped := by
  cases hswitch : c.switches with
  | false =>
    have hdoes := c.act_does s
    clear hc
    generalize c.act.leaves s = t at hdoes
    induction hdoes with
    | refl => exact ⟨.refl s, hs⟩
    | tail _ h ih =>
      obtain ⟨hp, he⟩ := ih
      have hnext := h.proceeds hswitch
      refine ⟨hp.trans hnext, he.proceed hnext fun b hb => ?_⟩
      rcases h.inside hb with hb | hb
      · exact he.inside b hb
      · exact hb
  | true =>
    rw [leaves_of_switches hswitch hc ?_]
    · exact ⟨.refl s, hs⟩
    · obtain ⟨k, m, hm, -⟩ := hs.found
      rw [hm]
      rfl

end Command

theorem Test.proceeds_fork (test : Test) (s : Session) : s.Proceeds (test.fork.leaves s) :=
  test.fork_rel Proceeds.refl Proceeds.trans (fun h => ⟨h.grows, h.keepsNames, h.current⟩)
    (fun h => ⟨(emit_acts h).grows, (emit_acts h).keepsNames, emit_current h⟩)
    (fun s r name => ⟨.addBlock s r name, .of_structs_eq rfl, rfl⟩) .append s

theorem Session.Equipped.fork_module {s t : Session} {test : Test} {blocks : Fork}
    (hs : s.Equipped) (h : test.fork s = .ok blocks t) : blocks.one.fn.module = s.current ∧
      blocks.zero.fn.module = s.current ∧ blocks.join.fn.module = s.current := by
  obtain ⟨u, v, -, hp, hf⟩ := Test.fork_ok h
  obtain ⟨b, hb, -⟩ := fork_ok hf
  rw [hp] at hb
  exact Test.fork_module ⟨b, hb, hs.inside b hb⟩ h

theorem Session.Finds.findFunction {s : Session} {op : Operation} {k : Nat}
    (h : s.Finds s.current op k) :
    ∃ f, Attempt.findFunction op.symbol s = .ok (⟨s.current, k⟩, f) s := by
  obtain ⟨m, hm, hk⟩ := h
  obtain ⟨f, hf, -⟩ := Module.findFunction?_eq_some hk
  exact ⟨f, findFunction_of_place hm hk hf⟩

section

variable {op : Operation} {r : ValueExpr} {x : String} {s t : Session} {k : Nat}

theorem leaves_call_error {e : Fault} (hk : s.Finds s.current op k) (hr : r.eval s = .error e t) :
    (Command.call op.symbol [r] (some x)).act.leaves s = t := by
  obtain ⟨f, hf⟩ := hk.findFunction
  have hargs : ValueExpr.evalList [r] s = .error e t := bind_of_error hr
  rw [Command.act, leaves_bind, hf]
  dsimp only
  rw [leaves_bind, hargs]

theorem leaves_call_ok {v : Value} {b : BlockRef} (hk : s.Finds s.current op k)
    (hr : r.eval s = .ok v t) (hb : t.position = .endOf b) :
    (Command.call op.symbol [r] (some x)).act.leaves s =
      (t.call ⟨s.current, k⟩ [v]).2.setRegister x (t.call ⟨s.current, k⟩ [v]).1 := by
  obtain ⟨f, hf⟩ := hk.findFunction
  have hargs : ValueExpr.evalList [r] s = .ok [v] t := bind_of_ok hr
  have hblock : requireBlock t = .ok () t := by
    change (if t.position = .unset then _ else _ : Attempt Unit) t = _
    rw [hb]
    rfl
  rw [Command.act, leaves_bind, hf]
  dsimp only
  rw [leaves_bind, hargs]
  dsimp only
  rw [leaves_bind, hblock]
  dsimp only
  rw [leaves_update_bind, leaves_modify_bind, leaves_lastInstruction]

end

namespace Session

variable {U xs ys : List String} {s t s' t' s'' t'' : Session} {b : BlockRef}

structure Paired (U : List String) (s t : Session) : Prop where
  alike : Alike U s t
  equipped : s.Equipped

/-- The sessions have gone on as a pair, in the same module, and the second has set no other of the
registers in which they may differ than those of some names. -/
structure Strides (U xs : List String) (s t s' t' : Session) : Prop where
  paired : Paired U s' t'
  current : s'.current = s.current
  kept : ∀ y ∈ U, y ∉ xs → t'.register? y = t.register? y

namespace Strides

theorem refl (h : Paired U s t) : Strides U [] s t s t := ⟨h, rfl, fun _ _ _ => rfl⟩

theorem trans (h : Strides U xs s t s' t') (h' : Strides U ys s' t' s'' t'') :
    Strides U (xs ++ ys) s t s'' t'' := by
  refine ⟨h'.paired, h'.current.trans h.current, fun y hy hn => ?_⟩
  rw [List.mem_append, not_or] at hn
  exact (h'.kept y hy hn.2).trans (h.kept y hy hn.1)

theorem mono (h : Strides U xs s t s' t') (hxs : xs ⊆ ys) : Strides U ys s t s' t' :=
  ⟨h.paired, h.current, fun y hy hn => h.kept y hy fun hx => hn (hxs hx)⟩

theorem moveTo (h : Paired U s t) (hb : b.fn.module = s.current) :
    Strides U [] s t (s.moveTo b) (t.moveTo b) := by
  refine ⟨⟨h.alike.moveTo b, h.equipped.proceed (.moveTo s b) ?_⟩, rfl, fun _ _ _ => rfl⟩
  intro c hc
  rwa [← Position.endOf.inj hc]

theorem jump (h : Paired U s t) (b : BlockRef) : Strides U [] s t (s.jump b) (t.jump b) := by
  refine ⟨⟨h.alike.jump b, h.equipped.proceed (.append s _) ?_⟩, current_append s _, ?_⟩
  · intro c hc
    rw [Session.jump, position_append] at hc
    exact h.equipped.inside c hc
  · intro y _ _
    rw [register?, Session.jump, registers_append]
    rfl

theorem of_fork {test : Test} (h : Paired U s t) (halike : Alike U (test.fork.leaves s) t')
    (hkept : ∀ y ∈ U, y ∉ xs → t'.register? y = t.register? y) :
    Strides U xs s t (test.fork.leaves s) t' := by
  have hp := test.proceeds_fork s
  refine ⟨⟨halike, h.equipped.proceed hp ?_⟩, hp.current, hkept⟩
  rw [test.position_fork]
  exact h.equipped.inside

end Strides

namespace Paired

variable {r : ValueExpr} {x : String}

theorem finds (hst : Paired U s t) : ∃ k, s.Finds s.current .readResult k ∧
    t.Finds t.current .readResult k := by
  obtain ⟨k, hk⟩ := hst.equipped.found
  refine ⟨k, hk, ?_⟩
  unfold Finds
  rwa [hst.alike.current, module?_congr hst.alike.modules]

/-- If the result cannot be evaluated, both ways of reading it are stopped: the register is not set,
so there is nothing to test. -/
theorem fork_stopped {e : Fault} (hst : Paired U s t) (hr : ∀ y ∈ r.registers, y ∉ U)
    (hx : t.register? x = none) (hs : r.eval s = .error e s') :
    ∃ t' d, (Command.call Operation.readResult.symbol [r] (some x)).act.leaves t = t' ∧
      (Test.result r).fork s = .error e s' ∧
      (Test.bit (.register x)).fork t' = .error d t' ∧ Strides U [] s t s' t' := by
  obtain ⟨k, -, hk⟩ := hst.finds
  obtain ⟨_, t', ht, halike⟩ := (ValueExpr.eval_matches hr hst.alike).error hs
  have hfork : (Test.result r).fork s = .error e s' := bind_of_error (bind_of_error hs)
  have hkept : ∀ y, t'.register? y = t.register? y := by
    intro y
    rw [← leaves_error ht, register?, (r.eval_evaluates t).registers]
    rfl
  refine ⟨t', .defect (.unknownRegister x), leaves_call_error hk ht, hfork, ?_, ?_⟩
  · apply bind_of_error
    change Attempt.require _ (t'.register? x) t' = _
    rw [hkept, hx]
    rfl
  · rw [← leaves_error hfork] at halike ⊢
    exact .of_fork hst halike fun y _ _ => hkept y

theorem call_read {v : Value} (hst : Paired U s t) (hr : ∀ y ∈ r.registers, y ∉ U) (hx : x ∈ U)
    (hs : r.eval s = .ok v s') (hb : s'.position = .endOf b) :
    ∃ value u t', s'.emit .readResult [v] = .ok (value, u) ∧
      (Command.call Operation.readResult.symbol [r] (some x)).act.leaves t = t' ∧
      t'.registers = (x, value) :: t.registers ∧ Alike U u t' := by
  obtain ⟨k, hk, hk'⟩ := hst.finds
  have he : Evaluates s s' := leaves_ok hs ▸ r.eval_evaluates s
  have hs' : s'.Equipped := by
    apply hst.equipped.proceed ⟨he.grows, he.acts.keepsNames, he.current⟩
    rw [he.position]
    exact hst.equipped.inside
  have hemit := hs'.emit_eq hb (he.current ▸ hk.grows he.grows) [v]
  obtain ⟨t₁, ht, halike⟩ := (ValueExpr.eval_matches hr hst.alike).ok hs
  have hleaves := leaves_call_ok (x := x) hk' ht (halike.position.trans hb)
  have hcall := call_withRegisters s' t₁.registers ⟨s'.current, k⟩ [v]
  rw [← halike.rest] at hcall
  rw [hst.alike.current, ← he.current, hcall] at hleaves
  refine ⟨_, _, _, hemit, hleaves, ?_, ?_⟩
  · change (x, _) :: t₁.registers = _
    rw [← (r.eval_evaluates t).registers, leaves_ok ht]
    rfl
  · exact (halike.of_kept (registers_append s' _) rfl).setRegister_right hx _

/-- If the result can be evaluated where the builder stands in a block, both ways of reading it fork
in the same way. -/
theorem fork_read {v : Value} (hst : Paired U s t) (hr : ∀ y ∈ r.registers, y ∉ U) (hx : x ∈ U)
    (hs : r.eval s = .ok v s') (hb : s'.position = .endOf b) :
    ∃ blocks u w, (Test.result r).fork s = .ok blocks u ∧
      (Test.bit (.register x)).fork
        ((Command.call Operation.readResult.symbol [r] (some x)).act.leaves t) = .ok blocks w ∧
      Strides U [x] s t u w := by
  obtain ⟨value, u, t', hemit, hcall, hregisters, halike⟩ := hst.call_read hr hx hs hb
  have hlookup : ∀ y, t'.register? y = if y = x then some value else t.register? y := by
    intro y
    rw [register?, hregisters, lookup_cons_eq_ite]
    rfl
  have hvalue : (ValueExpr.register x).eval t' = .ok value t' := by
    change Attempt.require _ (t'.register? x) t' = _
    rw [hlookup, if_pos rfl]
    rfl
  obtain ⟨blocks, u', hf⟩ : ∃ blocks u', u.fork value = .ok (blocks, u') := by
    simp [Session.fork, builderFn?, emit_position hemit, hb]
  have hfork : (Test.result r).fork s = .ok blocks u' :=
    (bind_of_ok ((bind_of_ok hs).trans (ok_updateGuarded.mpr hemit))).trans
      (ok_updateGuarded.mpr hf)
  obtain ⟨w, hw, halike⟩ := (halike.updateGuarded (f := (·.fork value))
    (fork_withRegisters · · value)).ok (ok_updateGuarded.mpr hf)
  have hbit : (Test.bit (.register x)).fork t' = .ok blocks w := (bind_of_ok hvalue).trans hw
  refine ⟨blocks, u', w, hfork, hcall ▸ hbit, ?_⟩
  rw [← leaves_ok hfork] at halike ⊢
  apply Strides.of_fork hst halike
  intro y _ hy
  rw [register?, ← leaves_ok hbit, Test.fork_registers]
  exact (hlookup y).trans (if_neg (by simpa using hy))

end Paired

end Session

end QuantumIR
