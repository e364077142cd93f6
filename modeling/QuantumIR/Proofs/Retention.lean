import QuantumIR.Proofs.Invariant

/-! # Nothing is taken away

Whatever is done to a session, what was there stays: functions, globals, flags, blocks,
instructions and structs keep their places and their contents, and functions keep the keys of their
attributes. A struct without a body keeps none, since a body is given only to a new struct.
-/

namespace QuantumIR

open Relation

namespace AttrSet

theorem isSome_get?_iff {a : AttrSet} {key : Bytes} :
    (a.get? key).isSome ↔ key ∈ a.strings.map Prod.fst := by
  simp [get?]

theorem mem_keys_insertSorted {key value k : Bytes} {l : List (Bytes × Bytes)}
    (h : k ∈ l.map Prod.fst) : k ∈ (insertSorted key value l).map Prod.fst := by
  induction l with
  | nil => cases h
  | cons x l ih =>
    obtain ⟨k', v⟩ := x
    rw [List.map_cons, List.mem_cons] at h
    unfold insertSorted
    split
    · exact List.mem_cons_of_mem _ (List.mem_cons.mpr h)
    split
    next hk =>
      rcases h with rfl | h
      · simp [hk]
      · exact List.mem_cons_of_mem _ h
    · rcases h with rfl | h
      · simp
      · exact List.mem_cons_of_mem _ (ih h)

structure Within (a b : AttrSet) : Prop where
  marks : a.marks ⊆ b.marks
  keys : ∀ key, (a.get? key).isSome → (b.get? key).isSome

theorem Within.refl (a : AttrSet) : a.Within a := ⟨List.Subset.refl _, fun _ => id⟩

theorem Within.trans {a b c : AttrSet} (h : a.Within b) (h' : b.Within c) : a.Within c :=
  ⟨List.Subset.trans h.marks h'.marks, fun key hk => h'.keys key (h.keys key hk)⟩

theorem within_insert (a : AttrSet) (x : Attr) : a.Within (a.insert x) := by
  constructor
  · intro m hm
    cases x with
    | mark k => exact mem_marks_insert.mpr (.inr hm)
    | string key value => exact hm
  · intro k hk
    cases x with
    | mark _ => exact hk
    | string key value =>
      rw [isSome_get?_iff] at hk ⊢
      exact mem_keys_insertSorted hk

end AttrSet

theorem AttrTable.get_insert (t : AttrTable) (i j : AttrIndex) (a : Attr) :
    (t.insert i a).get j = if j = i then (t.get j).insert a else t.get j := by
  unfold AttrTable.get
  induction t with
  | nil =>
    unfold AttrTable.insert
    by_cases h : j = i
    · simp [h]
    · simp [h, List.lookup_cons, beq_eq_false_iff_ne.mpr h]
  | cons x t ih =>
    obtain ⟨k, set⟩ := x
    unfold AttrTable.insert
    by_cases hk : i = k
    · subst hk
      by_cases h : j = i
      · simp [h]
      · simp [h, List.lookup_cons, beq_eq_false_iff_ne.mpr h]
    · by_cases h : j = k
      · subst h
        simp [hk, Ne.symm hk]
      · simp only [hk, if_false, List.lookup_cons, beq_eq_false_iff_ne.mpr h]
        exact ih

theorem Fn.within_addAttr (f : Fn) (i : AttrIndex) (a : Attr) (j : AttrIndex) :
    (f.attrs.get j).Within ((f.addAttr i a).attrs.get j) := by
  change (f.attrs.get j).Within ((f.attrs.insert i a).get j)
  rw [AttrTable.get_insert]
  split
  · exact AttrSet.within_insert _ a
  · exact .refl _

namespace Session

/-- The code grows, attributes keep their keys, and structs are kept with their bodies. -/
structure Retains (s t : Session) : Prop where
  grows : s.Grows t
  attrs : ∀ r f g, s.fn? r = some f → t.fn? r = some g →
    ∀ i, (f.attrs.get i).Within (g.attrs.get i)
  structs : s.structs <+: t.structs

variable {s t u : Session}

namespace Retains

theorem of_modules_eq (hm : t.modules = s.modules) (hs : s.structs <+: t.structs) :
    s.Retains t := by
  refine ⟨.of_modules_eq hm, fun r f g hf hg i => ?_, hs⟩
  rw [fn?_congr hm] at hg
  obtain rfl : f = g := Option.some.inj (hf.symm.trans hg)
  exact .refl _

theorem refl (s : Session) : s.Retains s := of_modules_eq rfl (List.prefix_refl _)

theorem trans (h : s.Retains t) (h' : t.Retains u) : s.Retains u := by
  refine ⟨h.grows.trans h'.grows, fun r f g hf hg i => ?_, h.structs.trans h'.structs⟩
  obtain ⟨k, hk, -⟩ := h.grows.fn? hf
  exact (h.attrs r f k hf hk i).trans (h'.attrs r k g hk hg i)

theorem of_reflTransGen {E : Session → Session → Prop} (hE : ∀ s t, E s t → s.Retains t)
    (h : ReflTransGen E s t) : s.Retains t := by
  induction h with
  | refl => exact refl s
  | tail _ h ih => exact ih.trans (hE _ _ h)

theorem of_skeleton (hg : s.Grows t)
    (h : ∀ q, (t.fn? q).map Fn.skeleton = (s.fn? q).map Fn.skeleton)
    (hs : t.structs = s.structs) : s.Retains t := by
  refine ⟨hg, fun r f g hf hg i => ?_, hs ▸ List.prefix_refl _⟩
  have hr := h r
  rw [hf, hg] at hr
  have ha : g.attrs = f.attrs := (congrArg Fn.attrs (Option.some.inj hr) :)
  rw [ha]
  exact .refl _

theorem append (s : Session) (i : Instr) : s.Retains (s.append i) :=
  of_skeleton (.append s i) (skeleton_append s i) (structs_append s i)

theorem addBlock (s : Session) (r : FnRef) (name : Bytes) : s.Retains (s.addBlock r name).2 :=
  of_skeleton (.addBlock s r name) (skeleton_addBlock s r name) rfl

theorem addAttr (s : Session) (r : FnRef) (i : AttrIndex) (a : Attr) :
    s.Retains (s.addAttr r i a) := by
  refine ⟨.addAttr s r i a, fun q f g hf hg j => ?_, List.prefix_refl _⟩
  rw [Session.addAttr, fn?_updateFn, hf] at hg
  split at hg
  · obtain rfl := Option.some.inj hg
    exact f.within_addAttr i a j
  · obtain rfl := Option.some.inj hg
    exact .refl _

theorem updateModule {g : Module → Module} {i : Nat} (hg : s.Grows (s.updateModule i g))
    (h : ∀ m, m.functions <+: (g m).functions) : s.Retains (s.updateModule i g) := by
  refine ⟨hg, fun r f f' hf hf' j => ?_, List.prefix_refl _⟩
  obtain ⟨m, hm, hk⟩ := fn?_eq_some_iff.mp hf
  rw [fn?_updateModule] at hf'
  have he : f' = f := by
    split at hf'
    next hi =>
      subst hi
      obtain ⟨fs, hfs⟩ := h m
      rw [hm, Option.bind_some, ← hfs,
        List.getElem?_append_left (List.getElem?_eq_some_iff.mp hk).1] at hf'
      exact Option.some.inj (hf'.symm.trans hk)
    · exact Option.some.inj (hf'.symm.trans hf)
  rw [he]
  exact .refl _

theorem addFunction (s : Session) (i : Nat) (name : String) (sig : Signature) (l : Linkage) :
    s.Retains (s.addFunction i name sig l).2 :=
  updateModule (.addFunction s i name sig l) fun _ => List.prefix_append _ _

theorem addGlobal (s : Session) (i : Nat) (name : String) (ty : Ty) (data : Option Bytes) :
    s.Retains (s.addGlobal i name ty data).2 :=
  updateModule (.addGlobal s i name ty data) fun _ => List.prefix_refl _

theorem addFlag (s : Session) (i : Nat) (f : Flag) :
    s.Retains (s.updateModule i (·.addFlag f)) :=
  updateModule (.addFlag s i f) fun _ => List.prefix_refl _

theorem addModule (s : Session) (name : String) : s.Retains (s.addModule name) := by
  refine of_skeleton (.addModule s name) (fun q => ?_) rfl
  rw [fn?_addModule]

theorem addStruct (s : Session) (name : String) : s.Retains (s.addStruct name).2 :=
  of_modules_eq rfl (List.prefix_append _ _)

theorem ensureStruct (s : Session) (name : String) : s.Retains (s.ensureStruct name) := by
  unfold Session.ensureStruct
  split
  · exact refl s
  · exact addStruct s name

theorem setBody (h : s.Retains t) {i : Nat} (hi : s.structs.length ≤ i) (ts : List Ty) :
    s.Retains (t.setBody i ts) := by
  refine ⟨h.grows.trans (.of_modules_eq rfl), h.attrs, ?_⟩
  refine List.prefix_iff_getElem?.mpr fun k hk => ?_
  have hne : i ≠ k := by omega
  simpa [Session.setBody, List.getElem?_modify, hne] using
    List.prefix_iff_getElem?.mp h.structs k hk

end Retains

theorem SideEffect.retains (h : SideEffect s t) : s.Retains t := by
  cases h with
  | struct name => exact .ensureStruct s name
  | cast c d => exact .of_modules_eq (modules_noteCast s c d) (by simp)
  | string h =>
    obtain ⟨-, rfl⟩ := addString_ok h
    exact .addGlobal _ _ _ _ _

theorem Evaluates.retains (h : Evaluates s t) : s.Retains t :=
  .of_reflTransGen (fun _ _ => SideEffect.retains) h

theorem retains_prepare (s : Session) (i : Nat) (op : Operation) :
    s.Retains (s.prepare i op).2 :=
  prepare_induction (.refl s) (fun t name h => h.trans (.ensureStruct t name))
    (fun t h => h.trans (.addFunction t i _ _ _)) (fun t r x a _ h => h.trans (.addAttr t r x a))

theorem emit_retains {op : Operation} {args : List Value} {v : Value}
    (h : s.emit op args = .ok (v, t)) : s.Retains t :=
  emit_induction h (fun b _ => retains_prepare s b.fn.module op)
    fun u _ _ hu => hu.trans (.append u _)

theorem retains_addEntryPoint (s : Session) (i : Nat) (e : EntryPoint) :
    s.Retains (s.addEntryPoint i e).2 :=
  addEntryPoint_induction (.addFunction s i e.name ⟨.void, []⟩ .external)
    fun t r _ _ _ h => h.trans (.addAttr t r _ _)

end Session

open Session Attempt

theorem Command.Does.retains {c : Command} {s t : Session} (h : c.Does s t) : s.Retains t := by
  cases h with
  | side h => exact h.retains
  | module _ name => exact .addModule s name
  | use _ => exact .of_modules_eq rfl (List.prefix_refl _)
  | flag _ f _ => exact .addFlag s _ f
  | struct h => exact (Retains.addStruct s _).trans h.retains
  | structBody ts h => exact ((Retains.addStruct s _).trans h.retains).setBody (Nat.le_refl _) ts
  | entryPoint _ e => exact retains_addEntryPoint s _ e
  | function _ sig => exact .addFunction s _ _ sig _
  | global _ ty => exact .addGlobal s _ _ ty none
  | attr _ => exact .addAttr s _ _ _
  | register _ _ _ => exact .of_modules_eq rfl (List.prefix_refl _)
  | block _ _ => exact (Retains.addBlock s _ _).trans (.of_modules_eq rfl (List.prefix_refl _))
  | move _ _ => exact .of_modules_eq rfl (List.prefix_refl _)
  | unset => exact .of_modules_eq rfl (List.prefix_refl _)
  | loose _ _ => exact .of_modules_eq rfl (List.prefix_refl _)
  | instr _ _ _ => exact .append s _
  | emit h => exact emit_retains h

namespace Config

variable {c d : Config}

/-- A step of a run takes nothing away. -/
theorem next_retains (h : c.next = some d) : c.session.Retains d.session := by
  have hmove : ∀ (s : Session) b, s.Retains (s.moveTo b) :=
    fun _ _ => .of_modules_eq rfl (List.prefix_refl _)
  apply Config.next_rel Retains.refl Retains.trans ?_ SideEffect.retains emit_retains
    Retains.addBlock Retains.append hmove h
  intro command _ _
  exact .of_reflTransGen (fun _ _ => Command.Does.retains) (command.act_does c.session)

theorem Reaches.retains (h : Reaches c d) : c.session.Retains d.session :=
  h.invariant (P := fun d => c.session.Retains d.session)
    (fun _ _ hn hc => hc.trans (next_retains hn)) (.refl _)

end Config

namespace Step

/-- Whatever a step does, at any depth of a run, everything that was there before is there after it,
and after each of the steps inside it: the lists of functions, globals, flags, blocks, instructions
and structs are continued, and no attribute is removed. -/
theorem retains_run (step : Step) (s : Session) :
    s.Retains (step.run s).2 ∧
      ∀ rest stack d, Config.Reaches ⟨step :: rest, stack, s⟩ d → s.Retains d.session := by
  constructor
  · obtain ⟨left, h, -⟩ := reaches_runAll [step] [] s
    rw [← session_runAll_singleton]
    exact h.retains
  · intro rest stack d h
    exact h.retains

end Step

end QuantumIR
