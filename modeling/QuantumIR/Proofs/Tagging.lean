import QuantumIR.Proofs.AttributeTable
import QuantumIR.Proofs.Callee
import QuantumIR.Proofs.FlagHistory

/-! # How a run changes attributes

A function is made with the marks of the intrinsic that it is declared as. From then on its
attributes change only where a string attribute is added to it and where a measurement calls it. So
the attributes of a function in a reachable session are these marks and all such changes, in order.
-/

namespace QuantumIR

/-- The attributes that a function has as an intrinsic. -/
def Fn.given (f : Fn) : AttrTable := (f.intrinsic.map Intrinsic.attrs).getD []

theorem Fn.strings_given (f : Fn) (i : AttrIndex) : (f.given.get i).strings = [] := by
  unfold given
  cases f.intrinsic with
  | none => rfl
  | some x => exact x.strings_attrs i

theorem Fn.ordered_given (f : Fn) (i : AttrIndex) : (f.given.get i).Ordered := by
  rw [AttrSet.Ordered, f.strings_given]
  exact .nil

/-- What becomes of a function when its attributes are changed; one that is made on the way has had
all the changes. -/
inductive Fn.Tagged : List Tagging → Option Fn → Option Fn → Prop
  | absent : Tagged [] none none
  | made {events : List Tagging} {g : Fn} : g.attrs = g.given.replay events →
      Tagged events none (some g)
  | kept {events : List Tagging} {f g : Fn} : g.intrinsic = f.intrinsic →
      g.attrs = f.attrs.replay events → Tagged events (some f) (some g)

theorem Fn.Tagged.refl : ∀ o : Option Fn, Tagged [] o o
  | none => .absent
  | some _ => .kept rfl rfl

theorem Fn.Tagged.trans {xs ys : List Tagging} {o p q : Option Fn} (h : Tagged xs o p)
    (h' : Tagged ys p q) : Tagged (xs ++ ys) o q := by
  cases h with
  | absent => exact h'
  | made hg =>
    cases h' with
    | kept hi ha =>
      -- It is still the same intrinsic, so it was given the same attributes.
      refine .made ?_
      rw [ha, hg, AttrTable.replay_append, given, given, hi]
  | kept hi ha =>
    cases h' with
    | kept hi' ha' =>
      refine .kept (hi'.trans hi) ?_
      rw [ha', ha, AttrTable.replay_append]

def EntryPoint.taggings (e : EntryPoint) : List Tagging :=
  e.attributes.map fun (key, value) => .added ⟨.function, Bytes.ofString key, value⟩

theorem EntryPoint.attrs_mark (e : EntryPoint) (f : Fn) :
    (e.mark f).intrinsic = f.intrinsic ∧ (e.mark f).attrs = f.attrs.replay e.taggings := by
  unfold mark taggings
  induction e.attributes generalizing f with
  | nil => exact ⟨rfl, rfl⟩
  | cons x attributes ih => exact ih _

namespace Session

variable {s t u : Session} {r : FnRef} {xs ys : List Tagging}

def Tags (r : FnRef) (events : List Tagging) (s t : Session) : Prop :=
  Fn.Tagged events (s.fn? r) (t.fn? r)

namespace Tags

theorem of_fn? (h : t.fn? r = s.fn? r) : Tags r [] s t := by
  rw [Tags, h]
  exact .refl _

theorem refl (s : Session) : Tags r [] s s := of_fn? rfl

theorem trans (h : Tags r xs s t) (h' : Tags r ys t u) : Tags r (xs ++ ys) s u :=
  Fn.Tagged.trans h h'

theorem trans_nil (h : Tags r [] s t) (h' : Tags r [] t u) : Tags r [] s u := h.trans h'

theorem of_skeleton (h : (t.fn? r).map Fn.skeleton = (s.fn? r).map Fn.skeleton) :
    Tags r [] s t := by
  unfold Tags
  cases hs : s.fn? r with
  | none =>
    rw [hs] at h
    rw [Option.map_eq_none_iff.mp h]
    exact .absent
  | some f =>
    rw [hs] at h
    obtain ⟨g, hg, hfg⟩ := Option.map_eq_some_iff.mp h
    rw [hg]
    exact .kept (congrArg Fn.intrinsic hfg :) (congrArg Fn.attrs hfg :)

theorem append (s : Session) (i : Instr) : Tags r [] s (s.append i) :=
  of_skeleton (skeleton_append s i r)

theorem addBlock (s : Session) (q : FnRef) (name : Bytes) : Tags r [] s (s.addBlock q name).2 :=
  of_skeleton (skeleton_addBlock s q name r)

theorem addFunction (s : Session) (i : Nat) (name : String) (sig : Signature) (l : Linkage) :
    Tags r [] s (s.addFunction i name sig l).2 := by
  unfold Tags
  cases hs : s.fn? r with
  | some f =>
    have hf : (s.addFunction i name sig l).2.fn? r = some f :=
      fn?_updateModule_of_prefix (fun _ => List.prefix_append _ _) hs
    rw [hf]
    exact .refl _
  | none =>
    cases ht : (s.addFunction i name sig l).2.fn? r with
    | none => exact .absent
    | some g =>
      rcases fn?_addFunction s i name sig l ht with hg | ⟨m, -, -, hg⟩
      · rw [hs] at hg
        cases hg
      · obtain rfl := List.singleton_inj.mp (List.append_cancel_left hg)
        exact .made rfl

theorem updateFn {q : FnRef} {g : Fn → Fn} (hq : q = r → (s.fn? r).isSome)
    (hg : ∀ f, (g f).intrinsic = f.intrinsic ∧ (g f).attrs = f.attrs.replay xs) :
    Tags r (if q = r then xs else []) s (s.updateFn q g) := by
  rw [Tags, fn?_updateFn]
  by_cases h : q = r
  · obtain ⟨f, hf⟩ := Option.isSome_iff_exists.mp (hq h)
    rw [if_pos h, if_pos h, hf]
    exact .kept (hg f).1 (hg f).2
  · rw [if_neg h, if_neg h]
    exact .refl _

theorem declare (s : Session) (i : Nat) (op : Operation) :
    Tags r [] s ((op.structs.foldl ensureStruct s).declare i op).2 := by
  apply (of_fn? (fn?_congr (modules_foldl_ensureStruct op.structs s) r)).trans_nil
  unfold Session.declare
  split
  · exact refl _
  · exact addFunction _ i _ _ _

theorem emit {op : Operation} {args : List Value} {v : Value} (hop : op ≠ .mz)
    (h : s.emit op args = .ok (v, t)) : Tags r [] s t := by
  have hprepare : ∀ i, Tags r [] s (s.prepare i op).2 := by
    intro i
    simp only [Session.prepare, mark, hop, if_false]
    exact declare s i op
  exact emit_induction h (fun b _ => hprepare b.fn.module)
    fun u _ _ hu => hu.trans_nil (append u _)

theorem prepare_mz {i : Nat} {m : Module} (hm : s.module? i = some m) :
    Tags r (if (s.prepare i .mz).1 = r then [.measured] else []) s (s.prepare i .mz).2 := by
  have hmarked : ∀ f : Fn, f.marked.intrinsic = f.intrinsic ∧
      f.marked.attrs = f.attrs.replay [.measured] := fun _ => ⟨rfl, rfl⟩
  obtain ⟨k, f, hk, hf, -⟩ := prepare_callee .mz hm
  have hdeclare : Tags r [] s _ := declare s i .mz
  unfold Session.prepare at hk hf ⊢
  generalize ((Operation.structs .mz).foldl ensureStruct s).declare i .mz = p at hk hf hdeclare ⊢
  obtain ⟨q, u⟩ := p
  have hmark : u.mark .mz q = u.updateFn q Fn.marked := rfl
  simp only [hmark] at hk hf hdeclare ⊢
  subst hk
  apply hdeclare.trans (updateFn _ hmarked)
  -- What is marked is there: after the marking it is, and marking adds no function.
  rintro rfl
  rw [fn?_updateFn, if_pos rfl] at hf
  rw [← Option.isSome_map, hf]
  rfl

theorem addEntryPoint {i : Nat} (hi : (s.module? i).isSome) (e : EntryPoint) :
    Tags r (if (s.addEntryPoint i e).1 = r then e.taggings else []) s (s.addEntryPoint i e).2 := by
  obtain ⟨m, hm⟩ := Option.isSome_iff_exists.mp hi
  have hm' : s.modules[i]? = some m := hm
  have hnew : (s.addEntryPoint i e).1 = (s.addFunction i e.name ⟨.void, []⟩).1 := rfl
  rw [addEntryPoint_eq, hnew]
  apply (addFunction s i e.name ⟨.void, []⟩ .external).trans (updateFn ?_ e.attrs_mark)
  rintro rfl
  simp [Session.addFunction, fn?_updateModule, hm, hm', Module.addFunction]

end Tags

end Session

open Session Attempt

/-- The function that a step calls, if all that it does to the builder's block is to append a
call. -/
def Step.called? (step : Step) (s : Session) : Option FnRef :=
  match s.position with
  | .endOf b =>
    match ((step.run s).2.body? b).map (·.drop ((s.body? b).getD []).length) with
    | some [Instr.call callee _ _] => some callee
    | _ => none
  | _ => none

theorem Step.called?_eq_none {step : Step} {s : Session}
    (h : ∀ b, (step.run s).2.body? b = s.body? b) : step.called? s = none := by
  unfold called?
  cases s.position with
  | unset | loose => rfl
  | endOf b =>
    simp only [h]
    cases s.body? b <;> simp

theorem Step.Appends.called? {step : Step} {s : Session} {r : FnRef} {sig : Signature}
    {args : List Value} (h : step.Appends s (.call r sig args)) : step.called? s = some r := by
  obtain ⟨b, body, hp, hb, hbody⟩ := h
  simp [Step.called?, hp, hb, hbody]

namespace Command

variable {s t : Session} {r : FnRef}

def tags : Command → Bool
  | .addAttr .. | .entryPoint _ | .apply .mz _ => true
  | _ => false

def taggings (r : FnRef) (s : Session) : Command → List Tagging
  | .addAttr fn index key value =>
    if s.current = r.module ∧ (s.module? s.current).bind (·.findFunction? fn) = some r.index then
      [.added ⟨index, key, value⟩]
    else []
  | .entryPoint e => if (s.addEntryPoint s.current e).1 = r then e.taggings else []
  | .apply .mz args =>
    if (Step.perform (.apply .mz args)).called? s = some r then [.measured] else []
  | _ => []

theorem taggings_eq_nil {c : Command} (hc : c.tags = false) (r : FnRef) (s : Session) :
    c.taggings r s = [] := by
  unfold taggings
  split
  · cases hc
  · cases hc
  · cases hc
  · rfl

theorem Does.tags_nil {c : Command} (hc : c.tags = false) (h : c.Does s t) : Tags r [] s t := by
  cases h with
  | side h => exact .of_fn? (h.fn? r)
  | module _ name => exact .of_fn? (fn?_addModule s name r)
  | flag _ f _ => exact .of_fn? (fn?_addFlag s _ f r)
  | struct h => exact .of_fn? (h.fn? r)
  | structBody ts h => exact .of_fn? (h.fn? r)
  | entryPoint _ e => cases hc
  | function _ sig => exact .addFunction s _ _ sig _
  | global _ ty => exact .of_fn? (fn?_addGlobal s _ _ ty none r)
  | attr _ => cases hc
  | block _ _ => exact (Tags.addBlock s _ _).trans_nil (.of_fn? rfl)
  | instr _ _ _ => exact .append s _
  | emit h =>
    apply Tags.emit _ h
    rintro rfl
    cases hc
  | use | register | move | unset | loose => exact .of_fn? rfl

theorem findFunction_found {fn : String} (hr : s.current = r.module)
    (hplace : (s.module? s.current).bind (·.findFunction? fn) = some r.index) :
    ∃ f, findFunction fn s = .ok (r, f) s := by
  obtain ⟨m, hm, hk⟩ := Option.bind_eq_some_iff.mp hplace
  obtain ⟨f, hf, -⟩ := Module.findFunction?_eq_some hk
  refine ⟨f, ?_⟩
  rw [findFunction_of_place hm hk hf, hr]

theorem leaves_addAttr {fn : String} (hr : s.current = r.module)
    (hplace : (s.module? s.current).bind (·.findFunction? fn) = some r.index) (i : AttrIndex)
    (key value : Bytes) :
    (addAttr fn i key value).act.leaves s = s.addAttr r i (.string key value) := by
  obtain ⟨f, hf⟩ := findFunction_found hr hplace
  rw [Command.act, leaves_bind, hf]
  rfl

theorem tags_addAttr (fn : String) (i : AttrIndex) (key value : Bytes) (s : Session) :
    Tags r ((addAttr fn i key value).taggings r s) s ((addAttr fn i key value).act.leaves s) := by
  have hadd : ∀ f : Fn, (f.addAttr i (.string key value)).intrinsic = f.intrinsic ∧
      (f.addAttr i (.string key value)).attrs = f.attrs.replay [.added ⟨i, key, value⟩] :=
    fun _ => ⟨rfl, rfl⟩
  rw [taggings, Command.act, leaves_bind]
  cases hf : findFunction fn s with
  | error e t =>
    have ht : t = s := by rw [← leaves_error hf, leaves_findFunction]
    rw [ht, if_neg]
    · exact .refl s
    · rintro ⟨hr, hplace⟩
      obtain ⟨f, hfound⟩ := findFunction_found hr hplace
      rw [hfound] at hf
      cases hf
  | ok rf t =>
    obtain ⟨q, f⟩ := rf
    obtain ⟨hfn, hq, hplace, rfl⟩ := ok_findFunction hf
    have hfound : (t.current = r.module ∧ (t.module? t.current).bind (·.findFunction? fn) =
        some r.index) ↔ q = r := by
      rw [hplace, ← hq]
      obtain ⟨i, k⟩ := q
      obtain ⟨i', k'⟩ := r
      simp
    rw [if_congr hfound rfl rfl]
    change Tags r _ t (t.updateFn q fun f => f.addAttr i (.string key value))
    apply Tags.updateFn _ hadd
    rintro rfl
    simp [hfn]

theorem tags_apply_mz (hs : s.Tidy) (args : List ValueExpr) :
    Tags r ((apply .mz args).taggings r s) s ((apply .mz args).act.leaves s) := by
  have hrun : ((Step.perform (.apply .mz args)).run s).2 = (apply .mz args).act.leaves s := by
    rw [Step.run, answer_snd]
  obtain ⟨u, hu, h | ⟨values, v, h⟩⟩ := apply_leaves .mz args s
  · -- Only the arguments have been evaluated.
    have hnone : (Step.perform (.apply .mz args)).called? s = none :=
      Step.called?_eq_none fun b => by rw [hrun, h, hu.body?]
    rw [taggings, hnone, if_neg nofun, h]
    exact .of_fn? (hu.fn? r)
  · -- The call that has been appended tells which function has been marked.
    obtain ⟨b, hp, -⟩ := emit_ok h
    have hps : s.position = .endOf b := hu.position.symm.trans hp
    obtain ⟨body, hb⟩ := Option.isSome_iff_exists.mp (hs.position b hps)
    have hbu : u.body? b = some body := (hu.body? b).trans hb
    obtain ⟨f, -, hf, -⟩ := body?_eq_some_iff.mp hbu
    obtain ⟨m, hm, -⟩ := fn?_eq_some_iff.mp hf
    obtain ⟨callee, w, sig, hw, -, ht, -⟩ := emit_spec hp hbu h
    have hprepare : Tags r _ u _ := .prepare_mz hm
    have hbw := body?_prepare u b.fn.module .mz b
    have hpw := position_prepare u b.fn.module .mz
    rw [hw] at hprepare hbw hpw
    have happ : (Step.perform (.apply .mz args)).Appends s (.call callee sig values) := by
      refine ⟨b, body, hps, hb, ?_⟩
      rw [hrun, ht, body?_append, hbw, hpw, if_pos hp, hbu]
      rfl
    rw [taggings, happ.called?, ht]
    have hcallee : (some callee = some r) ↔ callee = r := Option.some_inj
    rw [if_congr hcallee rfl rfl]
    have htags := ((Tags.of_fn? (hu.fn? r)).trans hprepare).trans
      (.append w (.call callee sig values))
    rwa [List.append_nil] at htags

theorem tags_act (c : Command) (hs : s.Tidy) (hcurrent : (s.module? s.current).isSome) :
    Tags r (c.taggings r s) s (c.act.leaves s) := by
  cases hc : c.tags with
  | false =>
    rw [taggings_eq_nil hc]
    have hdoes := c.act_does s
    generalize c.act.leaves s = t at hdoes
    induction hdoes with
    | refl => exact .refl s
    | tail _ h ih => exact ih.trans_nil (h.tags_nil hc)
  | true =>
    unfold tags at hc
    split at hc
    · exact tags_addAttr _ _ _ _ s
    · exact Tags.addEntryPoint hcurrent _
    · exact tags_apply_mz hs _
    · cases hc

end Command

namespace Config

variable {c d : Config} {r : FnRef} {events : List Tagging}

def taggings (r : FnRef) (c : Config) : List Tagging :=
  match c.steps with
  | .perform command :: _ => command.taggings r c.session
  | _ => []

theorem next_tags (hc : c.Tidy) (hcurrent : (c.session.module? c.session.current).isSome)
    (h : c.next = some d) : Tags r (c.taggings r) c.session d.session := by
  by_cases hcommand : ∃ command rest, c.steps = .perform command :: rest
  · obtain ⟨command, rest, hsteps⟩ := hcommand
    obtain ⟨steps, stack, s⟩ := c
    subst hsteps
    obtain rfl := Option.some.inj h
    change Tags r (command.taggings r s) s (command.act.answer s).2
    rw [answer_snd]
    exact command.tags_act hc.session hcurrent
  · have hnil : c.taggings r = [] := by
      unfold taggings
      split
      next command rest hsteps => exact absurd ⟨command, rest, hsteps⟩ hcommand
      · rfl
    rw [hnil]
    refine next_rel .refl .trans_nil ?_ (fun h => .of_fn? (h.fn? r)) (.emit nofun) .addBlock
      .append (fun _ _ => .of_fn? rfl) h
    intro command rest hsteps
    exact absurd ⟨command, rest, hsteps⟩ hcommand

theorem Trace.tags (h : Trace (taggings r) c events d) (hc : c.Tidy)
    (hcurrent : (c.session.module? c.session.current).isSome) :
    Tags r events c.session d.session := by
  induction h with
  | start => exact .refl _
  | step hd hn ih =>
    have hreach := hd.reaches
    exact ih.trans (next_tags (hc.reaches hreach) (hreach.isSome_current hcurrent) hn)

/-- The attributes of a function are those of its intrinsic, and what the run has added. -/
theorem Trace.attrs_eq {p : Program} {f : Fn} (h : Trace (taggings r) p.start events d)
    (hf : d.session.fn? r = some f) : f.attrs = f.given.replay events := by
  have hempty : p.start.session.fn? r = none := by
    obtain ⟨i, k⟩ := r
    cases i <;> rfl
  have htags := h.tags ⟨tidy_start p.name, nofun⟩ rfl
  rw [Tags, hempty, hf] at htags
  cases htags with
  | made hg => exact hg

/-- A function whose name is not reserved has no attributes of its own. -/
theorem Trace.given_eq_nil {p : Program} {f : Fn} (h : Trace (taggings r) p.start events d)
    (hf : d.session.fn? r = some f) (hname : ¬ "llvm.".toList <+: f.name.toList) :
    f.given = [] := by
  have hstart : p.start.Tidy := ⟨tidy_start p.name, nofun⟩
  have hnone : f.intrinsic = none := by
    by_contra hi
    exact hname (((hstart.reaches h.reaches).session.plain r f hf).reserved hi)
  rw [Fn.given, hnone]
  rfl

end Config

theorem Session.Reachable.ordered {s : Session} {r : FnRef} {f : Fn} (hs : s.Reachable)
    (hf : s.fn? r = some f) (i : AttrIndex) : (f.attrs.get i).Ordered := by
  obtain ⟨c, ⟨name, steps, hc⟩, rfl⟩ := hs
  obtain ⟨events, h⟩ := hc.exists_trace (Config.taggings r)
  have h : Config.Trace (Config.taggings r) (Program.mk name steps).start events c := h
  rw [h.attrs_eq hf]
  exact AttrTable.ordered_replay f.ordered_given events i

end QuantumIR
