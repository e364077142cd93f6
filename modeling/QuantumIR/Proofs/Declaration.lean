import Mathlib.Logic.Function.Iterate
import QuantumIR.Proofs.Structured

/-! # Declarations

Building a structured program declares the functions of its operations that are missing, in the
order in which they are first called, and every call of an operation is a call of the one function
of its name. Beside that a module gets strings, the blocks of the builder's function, and the marks
of a measurement.
-/

namespace QuantumIR

open Session

def Guard.calls : Guard → List (Operation × List Value)
  | .bit _ => []
  | .result r => [(.readResult, [r])]

namespace Stmt

mutual

/-- The operations that a statement calls and their arguments, in the order of the text. -/
def calls : Stmt → List (Operation × List Value)
  | .call op args => [(op, args)]
  | .branch guard one zero => guard.calls ++ (callsAll one ++ callsAll zero)
  | _ => []

def callsAll : List Stmt → List (Operation × List Value)
  | [] => []
  | st :: p => st.calls ++ callsAll p

end

def operations (p : List Stmt) : List Operation := (callsAll p).map Prod.fst

end Stmt

/-- A function is what it was but for the marks of a measurement and, if it is the builder's own,
its blocks. -/
structure Fn.Kept (own : Prop) (f g : Fn) : Prop where
  name : g.name = f.name
  sig : g.sig = f.sig
  linkage : g.linkage = f.linkage
  intrinsic : g.intrinsic = f.intrinsic
  attrs : ∃ n, g.attrs = (Fn.marked^[n] f).attrs ∧ (n ≠ 0 → f.name = Operation.mz.symbol)
  blocks : ¬ own → g.blocks = f.blocks ∧ g.nextBlock = f.nextBlock

namespace Fn.Kept

variable {own : Prop} {f g h : Fn}

theorem refl (own : Prop) (f : Fn) : f.Kept own f :=
  ⟨rfl, rfl, rfl, rfl, ⟨0, rfl, fun h => absurd rfl h⟩, fun _ => ⟨rfl, rfl⟩⟩

theorem attrs_iterate_marked (n : Nat) (h : g.attrs = f.attrs) :
    (Fn.marked^[n] g).attrs = (Fn.marked^[n] f).attrs := by
  induction n with
  | zero => exact h
  | succ n ih =>
    simp only [Function.iterate_succ_apply', Fn.marked, Fn.addAttr, ih]

theorem trans (hfg : f.Kept own g) (hgh : g.Kept own h) : f.Kept own h := by
  obtain ⟨n, hn, hmz⟩ := hfg.attrs
  obtain ⟨n', hn', hmz'⟩ := hgh.attrs
  refine ⟨hgh.name.trans hfg.name, hgh.sig.trans hfg.sig, hgh.linkage.trans hfg.linkage,
    hgh.intrinsic.trans hfg.intrinsic, ⟨n' + n, ?_, fun hne => ?_⟩, fun ho => ?_⟩
  · rw [hn', Function.iterate_add_apply]
    exact attrs_iterate_marked n' hn
  · by_cases h0 : n = 0
    · exact hfg.name ▸ hmz' (by omega)
    · exact hmz h0
  · obtain ⟨hb, hx⟩ := hfg.blocks ho
    obtain ⟨hb', hx'⟩ := hgh.blocks ho
    exact ⟨hb'.trans hb, hx'.trans hx⟩

theorem of_skeleton (ho : own) (h : g.skeleton = f.skeleton) : f.Kept own g :=
  ⟨(congrArg Fn.name h :), (congrArg Fn.sig h :), (congrArg Fn.linkage h :),
    (congrArg Fn.intrinsic h :), ⟨0, (congrArg Fn.attrs h :), fun h => absurd rfl h⟩,
    fun hn => absurd ho hn⟩

theorem marking {op : Operation} (own : Prop) (h : f.name = op.symbol) :
    f.Kept own (op.marking f) := by
  unfold Operation.marking
  split
  next hop => exact ⟨rfl, rfl, rfl, rfl, ⟨1, rfl, fun _ => hop ▸ h⟩, fun _ => ⟨rfl, rfl⟩⟩
  · exact refl own f

end Fn.Kept

/-- The functions of some operations have been declared as far as they were missing. Beside that
there are strings, and functions are kept. -/
structure Module.Declares (own : Nat) (ops : List Operation) (m n : Module) : Prop where
  name : n.name = m.name
  flags : n.flags = m.flags
  nextSymbol : n.nextSymbol = m.nextSymbol
  globals : ∃ strings : List Bytes, n.globals = m.globals ++ strings.map .ofString
  length : n.functions.length = (m.declared ops).length
  functions : ∀ (i : Nat) f, (m.declared ops)[i]? = some f →
    ∃ g, n.functions[i]? = some g ∧ f.Kept (i = own) g

namespace Module

variable {m n l : Module} {own : Nat} {ops ops' : List Operation}

/-- Operations that are called later are missing unless they have been declared before. -/
theorem missing_append (h : n.functions.map Fn.name = (m.declared ops).map Fn.name) :
    m.missing (ops ++ ops') = m.missing ops ++ n.missing ops' := by
  unfold missing
  rw [List.filter_append, List.eraseDups_append, h]
  congr 2
  unfold List.removeAll
  rw [List.filter_filter]
  refine List.filter_congr fun op _ => ?_
  have hmem : op.symbol ∈ (m.declared ops).map Fn.name ↔
      op.symbol ∈ m.functions.map Fn.name ∨ op ∈ m.missing ops := by
    simp only [declared, List.map_append, List.map_map, List.mem_append]
    refine or_congr_right ⟨fun h => ?_, fun h => List.mem_map.mpr ⟨op, h, rfl⟩⟩
    obtain ⟨op', h', he⟩ := List.mem_map.mp h
    exact Operation.symbol_injective he ▸ h'
  have hmiss : op ∈ m.missing ops ↔ op ∈ ops ∧ op.symbol ∉ m.functions.map Fn.name := by
    simp [missing, List.mem_eraseDups]
  rw [Bool.eq_iff_iff]
  simp only [Bool.and_eq_true, Bool.not_eq_true', decide_eq_true_eq, List.elem_eq_mem,
    decide_eq_false_iff_not, List.mem_filter, hmem, hmiss]
  tauto

theorem declared_append (ops' : List Operation)
    (h : n.functions.map Fn.name = (m.declared ops).map Fn.name) :
    m.declared (ops ++ ops') = m.declared ops ++ (n.missing ops').map Operation.declaration := by
  simp [declared, missing_append h]

namespace Declares

theorem map_name (h : m.Declares own ops n) :
    n.functions.map Fn.name = (m.declared ops).map Fn.name := by
  refine List.ext_getElem? fun i => ?_
  rw [List.getElem?_map, List.getElem?_map]
  cases hf : (m.declared ops)[i]? with
  | none =>
    have hlen := List.getElem?_eq_none_iff.mp hf
    rw [← h.length] at hlen
    rw [List.getElem?_eq_none hlen]
  | some f =>
    obtain ⟨g, hg, hk⟩ := h.functions i f hf
    rw [hg, Option.map_some, Option.map_some, hk.name]

theorem updateFunction {g : Fn → Fn} (hg : ∀ f, (g f).skeleton = f.skeleton) (m : Module)
    (own : Nat) : m.Declares own [] (m.updateFunction own g) := by
  have hd : m.declared [] = m.functions := by simp [declared, missing]
  refine ⟨rfl, rfl, rfl, ⟨[], by simp [Module.updateFunction]⟩, ?_, fun i f hf => ?_⟩
  · simp [hd, Module.updateFunction]
  · rw [hd] at hf
    by_cases hi : own = i
    · exact ⟨g f, by simp [Module.updateFunction, hi, hf], .of_skeleton hi.symm (hg f)⟩
    · exact ⟨f, by simp [Module.updateFunction, hi, hf], .refl _ f⟩

theorem strings (m : Module) (own : Nat) (strings : List Bytes) :
    m.Declares own [] { m with globals := m.globals ++ strings.map .ofString } := by
  have hd : m.declared [] = m.functions := by simp [declared, missing]
  exact ⟨rfl, rfl, rfl, ⟨strings, rfl⟩, by rw [hd], fun i f hf => ⟨f, hd ▸ hf, .refl _ f⟩⟩

theorem operation {op : Operation} {k : Nat} (own : Nat)
    (hk : ({ m with functions := m.declared [op] } : Module).findFunction? op.symbol = some k) :
    m.Declares own [op] { m with functions := (m.declared [op]).modify k op.marking } := by
  obtain ⟨f, hf, hn⟩ := findFunction?_eq_some hk
  refine ⟨rfl, rfl, rfl, ⟨[], by simp⟩, by simp, fun i g hg => ?_⟩
  by_cases hi : k = i
  · subst hi
    obtain rfl : f = g := Option.some.inj (hf.symm.trans hg)
    exact ⟨op.marking f, by simp [hg], .marking _ hn⟩
  · exact ⟨g, by simp [hi, hg], .refl _ g⟩

theorem trans (h : m.Declares own ops n) (h' : n.Declares own ops' l) :
    m.Declares own (ops ++ ops') l := by
  obtain ⟨xs, hxs⟩ := h.globals
  obtain ⟨ys, hys⟩ := h'.globals
  have hd := declared_append ops' h.map_name
  refine ⟨h'.name.trans h.name, h'.flags.trans h.flags, h'.nextSymbol.trans h.nextSymbol,
    ⟨xs ++ ys, by simp [hys, hxs]⟩, ?_, fun i f hf => ?_⟩
  · rw [h'.length, hd]
    simp [declared, h.length, Nat.add_assoc]
  · rw [hd, List.getElem?_append] at hf
    split at hf
    · -- a function that had been declared before is kept twice
      obtain ⟨g, hg, hfg⟩ := h.functions i f hf
      have hg' : (n.declared ops')[i]? = some g := by
        rw [declared, List.getElem?_append_left (List.getElem?_eq_some_iff.mp hg).1, hg]
      obtain ⟨g', hg', hgg⟩ := h'.functions i g hg'
      exact ⟨g', hg', hfg.trans hgg⟩
    next hi =>
      rw [← h.length] at hi hf
      exact h'.functions i f (by rw [declared, List.getElem?_append, if_neg hi, hf])

end Declares

end Module

namespace Session

variable {s t u : Session} {r : FnRef} {ops ops' : List Operation}

def Declares (r : FnRef) (ops : List Operation) (s t : Session) : Prop :=
  ∀ m, s.module? r.module = some m → ∃ n, t.module? r.module = some n ∧ m.Declares r.index ops n

theorem Declares.trans (h : Declares r ops s t) (h' : Declares r ops' t u) :
    Declares r (ops ++ ops') s u := by
  intro m hm
  obtain ⟨n, hn, hmn⟩ := h m hm
  obtain ⟨l, hl, hnl⟩ := h' n hn
  exact ⟨l, hl, hmn.trans hnl⟩

theorem Evaluates.declares (h : Evaluates s t) (r : FnRef) : Declares r [] s t := by
  intro m hm
  obtain ⟨strings, -, ht⟩ := h.module? hm
  exact ⟨_, ht, .strings m _ strings⟩

theorem Recodes.declares (h : Recodes r s t) : Declares r [] s t := by
  intro m hm
  obtain ⟨g, hg, hi⟩ := h.module?
  specialize hi r.module
  rw [if_pos rfl, hm] at hi
  exact ⟨_, hi, .updateFunction hg m _⟩

theorem Stands.declares_emit {b : BlockRef} {op : Operation} {args : List Value} {v : Value}
    (hs : s.Stands b) (hc : s.ClearAt b.fn.module) (he : s.emit op args = .ok (v, t)) :
    Declares b.fn [op] s t := by
  have hprepare : Declares b.fn [op] s (s.prepare b.fn.module op).2 := by
    intro m hm
    obtain ⟨m', hm', hc⟩ := hc
    obtain rfl : m = m' := Option.some.inj (hm.symm.trans hm')
    obtain ⟨k, -, hk, hi, -⟩ := prepare_spec op hm hc
    exact ⟨_, hi, .operation _ hk⟩
  exact hprepare.trans (emit_recodes hs.position he).declares

end Session

def Instr.call? : Instr → Option (FnRef × List Value)
  | .call callee _ args => some (callee, args)
  | _ => none

def Fn.calls (f : Fn) : List (FnRef × List Value) :=
  f.blocks.flatMap fun blk => blk.body.filterMap Instr.call?

theorem flatMap_perm_append {α : Type} {l : List Nat} {f g : Nat → List α} {j : Nat} {xs : List α}
    (hl : l.Nodup) (hj : j ∈ l) (hg : ∀ k, k ≠ j → g k = f k) (hgj : g j = f j ++ xs) :
    (l.flatMap g).Perm (l.flatMap f ++ xs) := by
  induction l with
  | nil => cases hj
  | cons k l ih =>
    obtain ⟨hk, hl⟩ := List.nodup_cons.mp hl
    rw [List.flatMap_cons, List.flatMap_cons]
    rcases List.mem_cons.mp hj with rfl | hj
    · have he : l.flatMap g = l.flatMap f :=
        List.flatMap_congr fun i hi => hg i fun h => hk (h ▸ hi)
      rw [hgj, he, List.append_assoc, List.append_assoc]
      exact List.perm_append_comm.append_left _
    · rw [hg k fun h => hk (h ▸ hj), List.append_assoc]
      exact (ih hl hj).append_left _

namespace Session

variable {s t S : Session} {b : BlockRef} {r : FnRef}

def calls (s : Session) (r : FnRef) : List (FnRef × List Value) :=
  (List.range (s.size r)).flatMap fun k => ((s.body? ⟨r, k⟩).getD []).filterMap Instr.call?

theorem calls_congr (h : ∀ c, t.body? c = s.body? c) : t.calls r = s.calls r := by
  have hsize : t.size r = s.size r := size_congr fun k => by rw [h]
  simp only [calls, hsize, h]

theorem calls_perm_of_body? {i : Instr} (hb : (s.body? b).isSome)
    (hbody : t.body? b = (s.body? b).map (· ++ [i])) (hother : ∀ c, c ≠ b → t.body? c = s.body? c) :
    (t.calls b.fn).Perm (s.calls b.fn ++ i.call?.toList) := by
  obtain ⟨r, j⟩ := b
  obtain ⟨body, hs⟩ := Option.isSome_iff_exists.mp hb
  have hsize : t.size r = s.size r := by
    refine size_congr fun k => ?_
    by_cases hk : (⟨r, k⟩ : BlockRef) = ⟨r, j⟩
    · rw [hk, hbody]
      simp
    · rw [hother _ hk]
  unfold calls
  rw [hsize]
  refine flatMap_perm_append (j := j) List.nodup_range ?_ (fun k hk => ?_) ?_
  · exact List.mem_range.mpr (isSome_body?_iff.mp hb)
  · rw [hother _ (by simpa using hk)]
  · rw [hbody, hs]
    cases h : i.call? <;> simp [h]

theorem Stands.calls_append (hs : s.Stands b) (i : Instr) :
    ((s.append i).calls b.fn).Perm (s.calls b.fn ++ i.call?.toList) := by
  refine calls_perm_of_body? hs.exist ?_ fun c hc => hs.body?_append i hc
  rw [Session.body?_append, if_pos hs.position]

theorem Forked.calls {v : Value} {blocks : Fork} (h : Forked s b v blocks t) :
    t.calls b.fn = s.calls b.fn := by
  have hnew : ∀ c, c = blocks.one ∨ c = blocks.zero ∨ c = blocks.join →
      ((t.body? c).getD []).filterMap Instr.call? = [] := by
    intro c hc
    rw [h.fresh c hc]
    rfl
  have hone := hnew _ (.inl rfl)
  have hzero := hnew _ (.inr (.inl rfl))
  have hjoin := hnew _ (.inr (.inr rfl))
  rw [h.one] at hone
  rw [h.zero] at hzero
  rw [h.join] at hjoin
  unfold Session.calls
  rw [h.size]
  simp only [List.range_succ, List.flatMap_append, List.flatMap_singleton, hone, hzero, hjoin,
    List.append_nil]
  refine List.flatMap_congr fun k hk => ?_
  have hk : (s.body? ⟨b.fn, k⟩).isSome := isSome_body?_iff.mpr (List.mem_range.mp hk)
  by_cases hb : ⟨b.fn, k⟩ = b
  · rw [hb, h.body]
    cases s.body? b <;> simp [Instr.call?]
  · rw [h.body?_eq hb hk]

def place (s : Session) (i : Nat) (op : Operation) : FnRef :=
  ⟨i, ((s.module? i).bind (·.findFunction? op.symbol)).getD 0⟩

theorem Finds.place_eq {i k : Nat} {op : Operation} (h : s.Finds i op k) :
    s.place i op = ⟨i, k⟩ := by
  obtain ⟨m, hm, hk⟩ := h
  simp [place, hm, hk]

theorem Stands.calls_emit {op : Operation} {args : List Value} {v : Value} (hs : s.Stands b)
    (hc : s.ClearAt b.fn.module) (he : s.emit op args = .ok (v, t)) (hS : t.Grows S) :
    (t.calls b.fn).Perm (s.calls b.fn ++ [(S.place b.fn.module op, args)]) := by
  obtain ⟨body, hb⟩ := Option.isSome_iff_exists.mp hs.exist
  obtain ⟨k, f, hfind, -, ht, -⟩ := emit_call hc hs.position hb he
  rw [(hfind.grows hS).place_eq]
  refine calls_perm_of_body? (i := .call ⟨b.fn.module, k⟩ f.sig args) hs.exist ?_
    fun c hcb => hs.body?_emit he hcb
  rw [ht, hb]
  rfl

end Session

namespace Builds

variable {s t S : Session} {b c : BlockRef} {p : List Stmt} {xs : List Branching}

/-- What composes and holds of each part of building holds of building as a whole, with the calls in
the order of the text. -/
theorem compose {R : List (Operation × List Value) → Session → Session → Prop} {r : FnRef}
    (trans : ∀ {xs ys s t u}, R xs s t → R ys t u → R (xs ++ ys) s u)
    (side : ∀ {s t}, Evaluates s t → R [] s t)
    (emit : ∀ {s t b op args v}, b.fn = r → s.Stands b → s.ClearAt r.module →
      s.emit op args = .ok (v, t) → R [(op, args)] s t)
    (append : ∀ {s b i}, b.fn = r → s.Stands b → i.call? = none → (∀ c ∈ i.targets, c.fn = r) →
      R [] s (s.append i))
    (fork : ∀ {s t b v blocks}, b.fn = r → Forked s b v blocks t → R [] s t)
    (move : ∀ {s b}, R [] s (s.moveTo b))
    (h : Builds s b p xs t c) (hb : b.fn = r) (hc : s.ClearAt r.module) :
    R (Stmt.callsAll p) s t := by
  induction h with
  | nil => exact side .refl
  | @advance s t u b c st p xs hs hst _ ih =>
    have hrest := ih hb (hb ▸ hst.clearAt hs (hb ▸ hc))
    cases hst with
    | skip he => exact trans (side he) hrest
    | call he hu =>
      have hcall := emit hb (hs.of_evaluates he) (hc.of_evaluates he) hu
      exact (trans (side he) (trans hcall hrest) :)
    | ret => exact trans (append hb hs rfl (by simp [Instr.targets])) hrest
  | @branch s t u x y z b c d e p one zero xs ys zs g v blocks hs hg hf h₁ h₂ _ ih₁ ih₂ ih₃ =>
    subst hb
    have harms := arms hf h₁ h₂
    obtain ⟨test, -, hadv⟩ := hg.advances
    obtain ⟨hcu, hcx, hcy⟩ := clearAt_arms hf h₁ h₂ (hadv.clearAt hs hc)
    have hjump : ∀ {s d}, s.Stands d → d.fn = b.fn → R [] s (s.jump blocks.join) :=
      fun hs hd => append hd hs rfl (by simpa [Instr.targets] using harms.join)
    have htest : R g.calls s t := by
      cases hg with
      | bit v he => exact side he
      | result he hu =>
        exact (trans (side he) (emit rfl (hs.of_evaluates he) (hc.of_evaluates he) hu) :)
    have hx := hjump harms.first (h₁.stands.2.1.trans harms.one)
    have hy := hjump harms.second (h₂.stands.2.1.trans harms.zero)
    have henter := trans htest (trans (fork rfl hf) (move (b := blocks.one)))
    have hcross := trans (ih₁ harms.one hcu) (trans hx (move (b := blocks.zero)))
    have hleave := trans (ih₂ harms.zero hcx) (trans hy (move (b := blocks.join)))
    simpa [Stmt.callsAll, Stmt.calls] using
      trans (trans henter (trans hcross hleave)) (ih₃ harms.join hcy)

theorem declares (h : Builds s b p xs t c) (hc : s.ClearAt b.fn.module) :
    Declares b.fn (Stmt.operations p) s t := by
  refine h.compose (R := fun xs => Declares b.fn (xs.map Prod.fst)) ?_ ?_ ?_ ?_ ?_ ?_ rfl hc
  · intro xs ys s t u h h'
    simpa using h.trans h'
  · exact fun h => h.declares _
  · exact fun hb hs hc he => hb ▸ hs.declares_emit (hb ▸ hc) he
  · exact fun hb hs _ hi => (Recodes.append hs.position hb hi).declares
  · exact fun hb hf => hb ▸ hf.recodes.declares
  · exact (Recodes.moveTo _ _ _).declares

/-- Each call of an operation is a call of the function of its name. -/
theorem calls_perm (h : Builds s b p xs t c) (hc : s.ClearAt b.fn.module) (hS : t.Grows S) :
    (t.calls b.fn).Perm
      (s.calls b.fn ++ (Stmt.callsAll p).map fun x => (S.place b.fn.module x.1, x.2)) := by
  have hgrows := h.stands.2.2
  refine (h.compose (r := b.fn) (R := fun xs s t => s.Grows t ∧ (t.Grows S → (t.calls b.fn).Perm
    (s.calls b.fn ++ xs.map fun x => (S.place b.fn.module x.1, x.2))))
    ?_ ?_ ?_ ?_ ?_ ?_ rfl hc).2 hS
  · rintro xs ys s t u ⟨hst, h⟩ ⟨htu, h'⟩
    refine ⟨hst.trans htu, fun hS => (h' hS).trans ?_⟩
    simpa using (h (htu.trans hS)).append_right _
  · refine fun h => ⟨h.grows, fun _ => ?_⟩
    simp [calls_congr h.body?]
  · rintro s t d op args v hd hs hc he
    exact ⟨(emit_acts he).grows, fun hS => hd ▸ hs.calls_emit (hd ▸ hc) he hS⟩
  · rintro s d i hd hs hi -
    refine ⟨.append s i, fun _ => ?_⟩
    simpa [hi, hd] using hs.calls_append i
  · rintro s t d v blocks hd hf
    refine ⟨hf.grows, fun _ => ?_⟩
    simp [← hd, hf.calls]
  · exact ⟨.of_modules_eq rfl, fun _ => by simp [calls_congr (body?_moveTo _ _)]⟩

end Builds

namespace Module.Declares

variable {m n : Module} {own : Nat} {ops : List Operation}

end Module.Declares

namespace Step

end Step

end QuantumIR
