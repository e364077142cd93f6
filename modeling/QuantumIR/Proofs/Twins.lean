import QuantumIR.Proofs.Agreement

/-! # Building in two sessions

Whatever is added to the module in use, in two sessions that agree on it, leaves sessions that
agree. Code is only built where the builder stands in the module, so that both builders are at the
same place.
-/

namespace QuantumIR

namespace Session

theorem mem_structNames_foldl_ensureStruct {names : List String} (hn : ∀ n ∈ names, n ≠ "")
    {s : Session} {x : String} :
    x ∈ (names.foldl ensureStruct s).structNames ↔ x ∈ s.structNames ∨ x ∈ names := by
  induction names generalizing s with
  | nil => simp
  | cons name names ih =>
    rw [List.foldl_cons, ih (fun n hm => hn n (List.mem_cons_of_mem _ hm)),
      mem_structNames_ensureStruct (hn name (by simp)), List.mem_cons, or_assoc]

theorem registers_prepare (s : Session) (i : Nat) (op : Operation) :
    (s.prepare i op).2.registers = s.registers :=
  prepare_induction (P := fun t => t.registers = s.registers) rfl
    (fun t name h => (registers_ensureStruct t name).trans h) (fun _ h => h) (fun _ _ _ _ _ h => h)

theorem subset_structNames_prepare (s : Session) (i : Nat) (op : Operation) :
    s.structNames ⊆ (s.prepare i op).2.structNames :=
  prepare_induction (P := fun t => s.structNames ⊆ t.structNames) (List.Subset.refl _)
    (fun t name h => List.Subset.trans h (subset_structNames_ensureStruct t name)) (fun _ h => h)
    (fun _ _ _ _ _ h => h)

theorem SideEffect.registers {s t : Session} (h : SideEffect s t) :
    t.registers = s.registers := by
  cases h with
  | struct name => simp
  | cast c d => simp
  | string h =>
    obtain ⟨-, rfl⟩ := addString_ok h
    rfl

theorem Evaluates.registers {s t : Session} (h : Evaluates s t) : t.registers = s.registers := by
  induction h with
  | refl => rfl
  | tail _ h ih => exact h.registers.trans ih

theorem emit_registers {s t : Session} {op : Operation} {args : List Value} {v : Value}
    (h : s.emit op args = .ok (v, t)) : t.registers = s.registers :=
  emit_induction (P := fun t => t.registers = s.registers) h
    (fun b _ => registers_prepare s b.fn.module op) fun u _ _ hu => (registers_append u _).trans hu

theorem registers_addEntryPoint (s : Session) (i : Nat) (e : EntryPoint) :
    (s.addEntryPoint i e).2.registers = s.registers :=
  addEntryPoint_induction (P := fun t => t.registers = s.registers) rfl fun _ _ _ _ _ h => h

@[simp] theorem structNames_append (s : Session) (x : Instr) :
    (s.append x).structNames = s.structNames := by
  rw [structNames, structNames, structs_append]

@[simp] theorem structNames_call (s : Session) (callee : FnRef) (args : List Value) :
    (s.call callee args).2.structNames = s.structNames := structNames_append s _

end Session

theorem Operation.structs_ne_empty (op : Operation) : ∀ name ∈ op.structs, name ≠ "" := by
  cases op <;> decide

theorem Operation.in_signature {op : Operation} {k : Home} (h : op.structs ⊆ k.structs) :
    op.signature.ty.In k := by
  have hnames : ∀ name ∈ op.signature.ty.names, name ∈ op.structs := by
    cases op <;> decide
  exact fun name hn => h (hnames name hn)

open Attempt Session

theorem lookup_cons_eq_ite {β : Type} (r name : String) (b : β) (entries : List (String × β)) :
    List.lookup r ((name, b) :: entries) =
      if r = name then some b else List.lookup r entries := by
  rw [List.lookup_cons]
  by_cases hr : r = name
  · simp [hr]
  · rw [beq_eq_false_iff_ne.mpr hr, if_neg hr]

namespace Session.Twins

variable {i : Nat} {o : Owners} {full : Prop} {s t : Session}

theorem mono {full' : Prop} (h : Twins i o full s t) (hf : full' → full) :
    Twins i o full' s t :=
  { h with
    position := fun hp => h.position (hp.imp_left hf)
    inside := fun hf' => h.inside (hf hf') }

/-- Where something is built, the builders are at the same place. -/
theorem enter (h : Twins i o full s t) (hs : s.StandsIn i) : Twins i o True s t := by
  refine { h with position := fun _ => h.position (.inr hs), inside := ?_ }
  intro _ b hb
  obtain ⟨c, hc, rfl⟩ := hs
  rw [Position.endOf.inj (hb.symm.trans hc)]

theorem place (h : Twins i o True s t) : t.position = s.position := h.position (.inl trivial)

theorem setPosition {p : Position} (h : Twins i o full s t)
    (hp : ∀ b, p = .endOf b → b.fn.module = i) :
    Twins i o full { s with position := p } { t with position := p } :=
  ⟨⟨h.current, h.length, h.module, h.left, h.right, h.names, fun _ => rfl, h.unbound, h.bound,
    h.values, h.closed⟩, h.here, fun _ => hp⟩

theorem moveTo {b : BlockRef} (h : Twins i o full s t) (hb : b.fn.module = i) :
    Twins i o full (s.moveTo b) (t.moveTo b) :=
  h.setPosition fun _ hc => Position.endOf.inj hc ▸ hb

theorem addAttr {r : FnRef} (h : Twins i o full s t) (hr : r.module = i) (x : AttrIndex)
    (a : Attr) : Twins i o full (s.addAttr r x a) (t.addAttr r x a) :=
  h.updateFn (g := fun f => f.addAttr x a) hr fun _ hf => hf.addAttr x a

theorem addBlock {r : FnRef} (h : Twins i o full s t) (hr : r.module = i) (name : Bytes) :
    (t.addBlock r name).1 = (s.addBlock r name).1 ∧
      Twins i o full (s.addBlock r name).2 (t.addBlock r name).2 := by
  refine ⟨?_, h.updateFn (g := fun f => f.addBlock name) hr fun _ hf => hf.addBlock name⟩
  rw [Session.addBlock, Session.addBlock, h.fn? hr]

theorem in_fn {r : FnRef} {f : Fn} (h : Twins i o full s t) (hr : r.module = i)
    (hf : t.fn? r = some f) : f.In (t.home i) := by
  obtain ⟨m, hm, hf⟩ := fn?_eq_some_iff.mp hf
  exact (h.closed m (hr ▸ hm)).functions f (List.mem_of_getElem? hf)

theorem insert {x : Instr} (h : Twins i o True s t) (hx : x.In (t.home i)) :
    Twins i o True (s.insert x) (t.insert x) := by
  have hp := h.place
  cases hs : s.position with
  | endOf b =>
    have hblock := h.updateBlock (h.inside trivial b hs) fun _ hblk => hblk.push hx
    simp only [Session.insert, hp, hs]
    exact hblock.of_shared rfl rfl
  | unset | loose =>
    simp only [Session.insert, hp, hs]
    exact h.of_shared (by simp only [Session.shared, hs]) (by simp only [Session.shared, hp, hs])

theorem addSources {x : Source} {targets : List BlockRef} (h : Twins i o full s t)
    (ht : ∀ b ∈ targets, b.fn.module = i) (hx : x.In (t.home i)) :
    Twins i o full (targets.foldl (fun s b => s.updateBlock b (·.addSource x)) s)
      (targets.foldl (fun s b => s.updateBlock b (·.addSource x)) t) := by
  induction targets generalizing s t with
  | nil => exact h
  | cons b targets ih =>
    refine ih ?_ (fun c hc => ht c (List.mem_cons_of_mem _ hc)) hx
    exact h.updateBlock (ht b (by simp)) fun _ hblk => hblk.addSource hx

theorem append {x : Instr} (h : Twins i o True s t) (hx : x.In (t.home i)) :
    Twins i o True (s.append x) (t.append x) := by
  have hsource : t.source = s.source := by
    unfold Session.source
    rw [h.place]
  have hin : s.source.In (t.home i) := by
    unfold Session.source
    split
    · trivial
    · trivial
    next b hb => exact h.inside trivial b hb
  have hhome : (t.insert x).home i = t.home i := by
    unfold Session.insert
    split <;> rfl
  unfold Session.append
  rw [hsource]
  exact (h.insert hx).addSources hx.targets (hhome ▸ hin)

theorem jump {b : BlockRef} (h : Twins i o True s t) (hb : b.fn.module = i) :
    Twins i o True (s.jump b) (t.jump b) :=
  h.append ⟨Ty.in_void, nofun, nofun, fun _ hc => List.mem_singleton.mp hc ▸ hb⟩

theorem declare {op : Operation} (h : Twins i o full s t) (hop : op.structs ⊆ t.structNames) :
    (t.declare i op).1 = (s.declare i op).1 ∧ (s.declare i op).1.module = i ∧
      Twins i o full (s.declare i op).2 (t.declare i op).2 := by
  unfold Session.declare
  rw [h.module]
  split
  · exact ⟨rfl, rfl, h⟩
  · obtain ⟨hr, htwins⟩ := h.addFunction op.symbol (Operation.in_signature hop) .external
    exact ⟨hr, rfl, htwins⟩

theorem mark {r : FnRef} (h : Twins i o full s t) (hr : r.module = i) (op : Operation) :
    Twins i o full (s.mark op r) (t.mark op r) := by
  unfold Session.mark
  split
  · exact h.updateFn hr fun _ hf => (hf.addAttr _ _).addAttr _ _
  · exact h

theorem prepare (h : Twins i o full s t) (op : Operation) :
    (t.prepare i op).1 = (s.prepare i op).1 ∧ (s.prepare i op).1.module = i ∧
      Twins i o full (s.prepare i op).2 (t.prepare i op).2 := by
  have hne := op.structs_ne_empty
  have hop : op.structs ⊆ (op.structs.foldl Session.ensureStruct t).structNames :=
    fun x hx => (mem_structNames_foldl_ensureStruct hne).mpr (.inr hx)
  obtain ⟨hr, hm, htwins⟩ := (h.foldl_ensureStruct hne).declare hop
  refine ⟨hr, hm, ?_⟩
  change Twins i o full (Session.mark _ op _)
    (Session.mark _ op ((op.structs.foldl Session.ensureStruct t).declare i op).1)
  rw [hr]
  exact htwins.mark hm op

theorem call {b : BlockRef} {callee : FnRef} {args : List Value} (h : Twins i o True s t)
    (hb : s.position = .endOf b) (hc : callee.module = i) (ha : ∀ v ∈ args, v.In (t.home i)) :
    (t.call callee args).1 = (s.call callee args).1 ∧
      (s.call callee args).1.In (t.home i) ∧
      Twins i o True (s.call callee args).2 (t.call callee args).2 := by
  have hbi := h.inside trivial b hb
  have hsite : t.nextSite = s.nextSite := by
    unfold Session.nextSite
    rw [h.place, hb]
    simp only [h.block? hbi]
  have hin : (s.call callee args).1.In (t.home i) := by
    simp only [Session.call, Value.In, Session.nextSite, hb]
    exact hbi
  have hsig : (((t.fn? callee).map Fn.sig).getD ⟨.void, []⟩).ret.In (t.home i) := by
    cases hf : t.fn? callee with
    | none => exact Ty.in_void
    | some f => exact (Ty.in_function.mp (h.in_fn hc hf).sig).1
  refine ⟨?_, hin, ?_⟩
  · simp only [Session.call, hsite, h.fn? hc]
  · rw [h.fn? hc] at hsig
    simp only [Session.call, h.fn? hc]
    exact h.append ⟨hsig, fun r hr => Option.some.inj hr ▸ hc, ha, nofun⟩

theorem emit {op : Operation} {args : List Value} (h : Twins i o True s t)
    (ha : ∀ v ∈ args, v.In (t.home i)) :
    CouplesIn i o True Value.In (updateGuarded (·.emit op args)) (updateGuarded (·.emit op args))
      s t := by
  cases hs : s.position with
  | unset | loose =>
    have herror : ∀ w : Session, w.position = s.position → w.emit op args = .error .noPosition := by
      intro w hw
      simp [Session.emit, builderFn?, hw, hs]
    exact .updateGuarded_error h.holds (herror s rfl) (herror t h.place)
  | endOf b =>
    have hemit : ∀ w : Session, w.position = .endOf b →
        w.emit op args = .ok ((w.prepare i op).2.call (w.prepare i op).1 args) := by
      intro w hw
      simp [Session.emit, builderFn?, hw, h.inside trivial b hs]
    have hgrown := subset_structNames_prepare t i op
    obtain ⟨hr, hm, hp⟩ := h.prepare op
    obtain ⟨hv, hin, hcall⟩ := hp.call ((position_prepare s i op).trans hs) hm
      fun v hv => (ha v hv).mono ⟨rfl, hgrown⟩
    refine .updateGuarded_ok (hemit s hs) ?_ ⟨hcall, ?_, ?_, ?_⟩ ?_
    · rw [hemit t (h.place.trans hs), hr]
      exact congrArg Except.ok (Prod.ext hv rfl)
    · rw [structNames_call]
      exact hgrown
    · exact (position_append _ _).trans (position_prepare s i op)
    · exact (registers_append _ _).trans (registers_prepare s i op)
    · rw [home, structNames_call]
      exact hin

theorem fork {v : Value} (h : Twins i o True s t) (hv : v.In (t.home i)) :
    CouplesIn i o True (fun k (f : Fork) => ∀ b ∈ [f.one, f.zero, f.join], b.fn.module = k.module)
      (updateGuarded (·.fork v)) (updateGuarded (·.fork v)) s t := by
  cases hs : s.position with
  | unset | loose =>
    have herror : ∀ w : Session, w.position = s.position → w.fork v = .error .noPosition := by
      intro w hw
      simp [Session.fork, builderFn?, hw, hs]
    exact .updateGuarded_error h.holds (herror s rfl) (herror t h.place)
  | endOf b =>
    have hb := h.inside trivial b hs
    obtain ⟨hone, h₁⟩ := h.addBlock hb (Bytes.ofString "then")
    obtain ⟨hzero, h₂⟩ := h₁.addBlock hb (Bytes.ofString "else")
    set one := (s.addBlock b.fn (Bytes.ofString "then")).1
    set zero := ((s.addBlock b.fn (Bytes.ofString "then")).2.addBlock b.fn
      (Bytes.ofString "else")).1
    have hbranch : (Instr.condBr v one zero).In (t.home i) := by
      refine ⟨Ty.in_void, by simp [Instr.callee?], fun w hw => List.mem_singleton.mp hw ▸ hv, ?_⟩
      simp only [Instr.targets, List.mem_cons, List.not_mem_nil, or_false, forall_eq_or_imp,
        forall_eq]
      exact ⟨hb, hb⟩
    have h₃ := h₂.append hbranch
    obtain ⟨hjoin, h₄⟩ := h₃.addBlock hb (Bytes.ofString "continue")
    set join := (Session.addBlock (Session.append _ (.condBr v one zero)) b.fn
      (Bytes.ofString "continue")).1
    refine .updateGuarded_ok (a := ⟨one, zero, join⟩) ?_ ?_ ⟨h₄, ?_, ?_, ?_⟩ ?_
    · simp only [Session.fork, builderFn?, hs, hjoin]
      rfl
    · simp only [Session.fork, builderFn?, h.place.trans hs, hone, hzero]
      rfl
    · exact fun x hx => (structNames_append _ _).symm ▸ hx
    · exact position_append _ _
    · exact registers_append _ _
    · simp only [List.mem_cons, List.not_mem_nil, or_false, forall_eq_or_imp, forall_eq]
      exact ⟨hb, hb, hb⟩

theorem setRegister {v : Value} (h : Twins i o full s t) (name : String) (hv : v.In (t.home i)) :
    Twins i ((name, i) :: o) full (s.setRegister name v) (t.setRegister name v) := by
  have hregister : ∀ (w : Session) r, (w.setRegister name v).register? r =
      if r = name then some v else w.register? r :=
    fun w r => lookup_cons_eq_ite r name v w.registers
  refine ⟨⟨h.current, h.length, h.module, h.left, h.right, h.names, h.position, ?_, ?_, ?_,
    h.closed⟩, h.here, h.inside⟩
  · intro r hr
    rw [lookup_cons_eq_ite] at hr
    rw [hregister, hregister]
    split at hr
    · cases hr
    next hne => simpa only [hne, if_false] using h.unbound r hr
  · intro r hr
    rw [lookup_cons_eq_ite] at hr
    rw [hregister, hregister]
    split at hr
    next he => simp only [he, if_true]
    next hne => simpa only [hne, if_false] using h.bound r hr
  · intro r w hw
    rw [hregister] at hw
    split at hw
    · cases hw
      exact hv
    · exact h.values r w hw

theorem updateCurrent {g : Module → Module} (h : Twins i o full s t)
    (hg : ∀ m, m.In (t.home i) → (g m).In (t.home i)) :
    Twins i o full (s.updateModule s.current g) (t.updateModule t.current g) := by
  rw [h.here, h.there]
  exact h.updateModule hg

theorem addEntryPoint (h : Twins i o full s t) (e : EntryPoint) :
    Twins i o full (s.addEntryPoint i e).2 (t.addEntryPoint i e).2 := by
  have hsig : (⟨.void, []⟩ : Signature).ty.In (t.home i) :=
    Ty.in_function.mpr ⟨Ty.in_void, nofun⟩
  obtain ⟨hr, hfn⟩ := h.addFunction e.name hsig .external
  have hmark : ∀ f : Fn, f.In (t.home i) → (e.mark f).In (t.home i) := fun f hf =>
    List.foldlRecOn _ _ hf fun g hg kv _ => hg.addAttr _ _
  rw [addEntryPoint_eq, addEntryPoint_eq, hr]
  exact hfn.updateFn rfl hmark

theorem requireBlock (h : Twins i o True s t) :
    CouplesIn i o True (fun _ _ => True) QuantumIR.requireBlock QuantumIR.requireBlock s t := by
  refine .get_bind ?_
  rw [h.place]
  split
  · exact .reject h.holds _ _
  · exact .pure h.holds trivial

end Session.Twins

end QuantumIR
