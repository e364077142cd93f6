import Mathlib.Data.List.Nodup
import Mathlib.Data.List.Perm.Subperm
import QuantumIR.Proofs.Retention

/-! # The names of a module

Globals and functions share one table of names. A name that is in use gets a number, and a free
number is always found, so in every reachable session the names of a module are different.
-/

namespace QuantumIR

open Relation

namespace Name

variable {α : Type} [DecidableEq α] {taken : List α} {numbered : Nat → α} {next : Nat} {name : α}

/-- One of the numbers that are tried is free, since there are more of them than names in use. -/
theorem fresh_not_mem (h : Function.Injective numbered) :
    (fresh taken numbered next name).1 ∉ taken := by
  unfold fresh
  split
  next hname => exact hname
  split
  next k hk => simpa using List.find?_some hk
  next hnone =>
    exfalso
    have hall : (List.range' next (taken.length + 1)).map numbered ⊆ taken := by
      intro x hx
      obtain ⟨k, hk, rfl⟩ := List.mem_map.mp hx
      simpa using List.find?_eq_none.mp hnone k hk
    have hnodup : ((List.range' next (taken.length + 1)).map numbered).Nodup :=
      (List.nodup_range' 1).map h
    have hlength := (hnodup.subperm hall).length_le
    rw [List.length_map, List.length_range'] at hlength
    omega

theorem fresh_eq_iff (h : Function.Injective numbered) :
    (fresh taken numbered next name).1 = name ↔ name ∉ taken := by
  constructor
  · intro he
    rw [← he]
    exact fresh_not_mem h
  · intro hname
    simp [fresh, hname]

theorem nodup_append_fresh {taken : List String} {numbered : Nat → String} {next : Nat}
    {name : String} (ht : taken.Nodup) (h : Function.Injective numbered) :
    (taken ++ [(fresh taken numbered next name).1].filter (· ≠ "")).Nodup := by
  refine List.nodup_append.mpr ⟨ht, List.Nodup.filter _ (List.nodup_singleton _), ?_⟩
  rintro x hx y hy rfl
  obtain rfl := List.mem_singleton.mp (List.mem_filter.mp hy).1
  exact fresh_not_mem h hx

end Name

inductive Module.Edit : Module → Module → Prop
  | update (m : Module) (k : Nat) {g : Fn → Fn} : (∀ f, (g f).name = f.name) →
      Edit m (m.updateFunction k g)
  | function (m : Module) (name : String) (sig : Signature) (l : Linkage) :
      Edit m (m.addFunction name sig l)
  | global (m : Module) (name : String) (ty : Ty) (data : Option Bytes) :
      Edit m (m.addGlobal name ty data)
  | flag (m : Module) (f : Flag) : Edit m (m.addFlag f)

namespace Session

variable {s t u : Session} {i : Nat}

/-- Every module is a module of the other session, or a new one, that has been edited. -/
def Edits (s t : Session) : Prop :=
  ∀ i n, t.module? i = some n →
    ∃ m, (s.module? i = some m ∨ ∃ name, m = { name }) ∧ ReflTransGen Module.Edit m n

namespace Edits

theorem of_modules_eq (h : t.modules = s.modules) : s.Edits t := by
  intro i n hn
  exact ⟨n, .inl (module?_congr h i ▸ hn), .refl⟩

theorem refl (s : Session) : s.Edits s := of_modules_eq rfl

theorem trans (h : s.Edits t) (h' : t.Edits u) : s.Edits u := by
  intro i n hn
  obtain ⟨m, hm | ⟨name, rfl⟩, hmn⟩ := h' i n hn
  · obtain ⟨l, hl, hlm⟩ := h i m hm
    exact ⟨l, hl, hlm.trans hmn⟩
  · exact ⟨_, .inr ⟨name, rfl⟩, hmn⟩

theorem updateModule {g : Module → Module} (hg : ∀ m : Module, m.Edit (g m)) (s : Session)
    (i : Nat) : s.Edits (s.updateModule i g) := by
  intro j n hn
  rw [module?_updateModule] at hn
  split at hn
  · obtain ⟨m, hm, rfl⟩ := Option.map_eq_some_iff.mp hn
    exact ⟨m, .inl hm, .single (hg m)⟩
  · exact ⟨n, .inl hn, .refl⟩

theorem updateFn {g : Fn → Fn} (hg : ∀ f, (g f).name = f.name) (s : Session) (r : FnRef) :
    s.Edits (s.updateFn r g) :=
  updateModule (fun m => .update m r.index hg) s r.module

theorem append (s : Session) (i : Instr) : s.Edits (s.append i) := by
  have hblock : ∀ (s : Session) (b : BlockRef) (g : Block → Block), s.Edits (s.updateBlock b g) :=
    fun s b g => updateFn (g := fun f => { f with blocks := f.blocks.modify b.index g })
      (fun _ => rfl) s b.fn
  have hinsert : s.Edits (s.insert i) := by
    unfold insert
    split
    · exact (hblock s _ _).trans (of_modules_eq rfl)
    · exact of_modules_eq rfl
  cases i with
  | call | ret => exact hinsert
  | br b => exact hinsert.trans (hblock _ b _)
  | condBr _ a b => exact (hinsert.trans (hblock _ a _)).trans (hblock _ b _)

theorem addBlock (s : Session) (r : FnRef) (name : Bytes) : s.Edits (s.addBlock r name).2 :=
  updateFn (g := fun f => f.addBlock name) (fun _ => rfl) s r

theorem addAttr (s : Session) (r : FnRef) (i : AttrIndex) (a : Attr) : s.Edits (s.addAttr r i a) :=
  updateFn (g := fun f => f.addAttr i a) (fun _ => rfl) s r

theorem addModule (s : Session) (name : String) : s.Edits (s.addModule name) := by
  intro i n hn
  unfold module? Session.addModule at hn
  rw [List.getElem?_append] at hn
  split at hn
  · exact ⟨n, .inl hn, .refl⟩
  · refine ⟨n, .inr ⟨name, ?_⟩, .refl⟩
    simpa using (List.mem_of_getElem? hn)

end Edits

theorem SideEffect.edits (h : SideEffect s t) : s.Edits t := by
  cases h with
  | struct name => exact .of_modules_eq (modules_ensureStruct s name)
  | cast c d => exact .of_modules_eq (modules_noteCast s c d)
  | string h =>
    obtain ⟨-, rfl⟩ := addString_ok h
    exact .updateModule (fun m => .global m _ _ _) s s.current

theorem Change.edits (h : Change s t) : s.Edits t := by
  cases h with
  | side h => exact h.edits
  | module name => exact .addModule s name
  | flag f => exact .updateModule (fun m => .flag m f) s _
  | function i name sig l => exact .updateModule (fun m => .function m name sig l) s i
  | global i name ty => exact .updateModule (fun m => .global m name ty none) s i
  | attr r i key value => exact .addAttr s r i _
  | measurement r =>
    rw [markMeasurement_eq]
    exact (Edits.addAttr s r _ _).trans (.addAttr _ r _ _)
  | block r name _ => exact (Edits.addBlock s r name).trans (.of_modules_eq rfl)
  | instr i _ => exact .append s i
  | use | struct | setBody | register | unset | loose => exact .of_modules_eq rfl

theorem Acts.edits (h : Acts s t) : s.Edits t := by
  induction h with
  | refl => exact .refl _
  | tail _ h ih => exact ih.trans h.edits

end Session

open Session

theorem Config.next_edits {c d : Config} (h : c.next = some d) : c.session.Edits d.session := by
  have hmove : ∀ (s : Session) b, s.Edits (s.moveTo b) := fun _ _ => .of_modules_eq rfl
  apply Config.next_rel Edits.refl Edits.trans ?_ SideEffect.edits (fun h => (emit_acts h).edits)
    Edits.addBlock Edits.append hmove h
  intro command _ _
  exact command.act_rel Edits.refl Edits.trans Change.edits hmove c.session

/-- What is true of an empty module and kept by every edit is true of all modules of a reachable
session. -/
theorem Session.Reachable.module_induction {P : Module → Prop} (hempty : ∀ name, P { name })
    (hedit : ∀ m n, m.Edit n → P m → P n) {s : Session} (hs : s.Reachable) {i : Nat} {m : Module}
    (hm : s.module? i = some m) : P m := by
  obtain ⟨c, ⟨name, steps, hc⟩, rfl⟩ := hs
  have hall : ∀ i m, c.session.module? i = some m → P m := by
    refine hc.invariant (P := fun c => ∀ i m, c.session.module? i = some m → P m) ?_ ?_
    · intro c d hn hP i n hi
      obtain ⟨m, hm, hmn⟩ := Config.next_edits hn i n hi
      have hPm : P m := by
        rcases hm with hm | ⟨name, rfl⟩
        · exact hP i m hm
        · exact hempty name
      clear hi
      induction hmn with
      | refl => exact hPm
      | tail _ h ih => exact hedit _ _ h ih
    · rintro (_ | i) m hm
      · cases hm
        exact hempty name
      · cases hm
  exact hall i m hm

namespace Module

variable {m n : Module}

def Distinct (m : Module) : Prop := m.symbols.Nodup

theorem numbered_injective (name : String) :
    Function.Injective fun k : Nat => name ++ "." ++ toString k := by
  intro j k h
  have hlist := congrArg String.toList h
  simp only [String.toList_append, Nat.toString_eq_repr, Nat.toList_repr] at hlist
  have hdigits := congrArg (Nat.ofDigitChars 10 · 0) (List.append_cancel_left hlist)
  simpa using hdigits

theorem freshSymbol_eq_iff (m : Module) (name : String) :
    (m.freshSymbol name).1 = name ↔ name ∉ m.symbols :=
  Name.fresh_eq_iff (numbered_injective name)

theorem names_updateFunction {g : Fn → Fn} (hg : ∀ f, (g f).name = f.name) (m : Module) (k : Nat) :
    (m.updateFunction k g).functions.map Fn.name = m.functions.map Fn.name := by
  refine List.ext_getElem? fun j => ?_
  simp only [updateFunction, List.getElem?_map, List.getElem?_modify]
  split
  · cases m.functions[j]? <;> simp [hg]
  · simp

theorem nodup_symbols_append (hm : m.Distinct) (name : String) :
    (m.symbols ++ [(m.freshSymbol name).1].filter (· ≠ "")).Nodup :=
  Name.nodup_append_fresh hm (numbered_injective name)

theorem Edit.distinct (h : m.Edit n) (hm : m.Distinct) : n.Distinct := by
  cases h with
  | update k hg =>
    unfold Distinct symbols
    rw [names_updateFunction hg]
    exact hm
  | function name sig l =>
    have hs := nodup_symbols_append hm name
    rw [symbols, ← List.filter_append] at hs
    simpa [Distinct, symbols, addFunction, newFunction] using hs
  | global name ty data =>
    have hs := nodup_symbols_append hm name
    rw [symbols, ← List.filter_append] at hs
    refine (List.Perm.nodup_iff (List.Perm.filter _ ?_)).mp hs
    simp only [addGlobal, List.map_append, List.append_assoc]
    exact List.Perm.append_left _ List.perm_append_comm
  | flag f => exact hm

end Module

theorem Session.Reachable.distinct {s : Session} (hs : s.Reachable) {i : Nat} {m : Module}
    (hm : s.module? i = some m) : m.Distinct :=
  hs.module_induction (P := Module.Distinct) (fun _ => List.nodup_nil)
    (fun _ _ => Module.Edit.distinct) hm

namespace Module.Distinct

variable {m : Module} {op : Operation}

theorem global_ne (hm : m.Distinct) {g : Global} {f : Fn} (hg : g ∈ m.globals)
    (hf : f ∈ m.functions) (hn : f.name ≠ "") : g.name ≠ f.name := by
  intro he
  unfold Distinct symbols at hm
  rw [List.filter_append] at hm
  refine (List.nodup_append.mp hm).2.2 f.name ?_ f.name ?_ rfl
  · exact List.mem_filter.mpr ⟨he ▸ List.mem_map_of_mem hg, by simpa using hn⟩
  · exact List.mem_filter.mpr ⟨List.mem_map_of_mem hf, by simpa using hn⟩

theorem findFunction?_eq (hm : m.Distinct) {k : Nat} {f : Fn} (hf : m.functions[k]? = some f)
    (hn : f.name ≠ "") : m.findFunction? f.name = some k := by
  unfold Distinct symbols at hm
  rw [List.filter_append] at hm
  have hpair := List.pairwise_filter.mp (List.nodup_append.mp hm).2.1
  rw [List.pairwise_map, List.pairwise_iff_getElem] at hpair
  obtain ⟨hk, rfl⟩ := List.getElem?_eq_some_iff.mp hf
  unfold findFunction?
  rw [if_neg hn, List.findIdx?_eq_some_iff_getElem]
  refine ⟨hk, by simp, fun j hj => ?_⟩
  by_cases hempty : m.functions[j].name = ""
  · simpa [hempty] using Ne.symm hn
  · simpa using hpair j k (Nat.lt_trans hj hk) hk hj (by simpa using hempty) (by simpa using hn)

end Module.Distinct

end QuantumIR
