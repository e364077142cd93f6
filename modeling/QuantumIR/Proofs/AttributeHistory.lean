import Mathlib.Data.List.Induction
import QuantumIR.Proofs.Emission
import QuantumIR.Proofs.Retention

/-! # The history of an attribute

A string attribute of a function is set by one command, which finds the function by its name. An
entry point sets the attributes of a function that is new, and a measurement sets one key only. So a
function keeps what it has under any other key as long as no command sets that key.
-/

namespace QuantumIR

theorem Bytes.ofString_inj {a b : String} : Bytes.ofString a = Bytes.ofString b ↔ a = b := by
  constructor
  · intro h
    have hbytes : a.toList.utf8Encode = b.toList.utf8Encode := congrArg List.toByteArray h
    rwa [String.utf8Encode_toList, String.utf8Encode_toList, String.toByteArray_inj] at hbytes
  · exact congrArg _

theorem AttrSet.get?_insert_string (a : AttrSet) (key value k : Bytes) :
    (a.insert (.string key value)).get? k = if k = key then some value else a.get? k := by
  change ((insertSorted key value a.strings).find? (·.1 = k)).map (·.2) = _
  unfold get?
  induction a.strings with
  | nil => by_cases h : k = key <;> simp [insertSorted, h, eq_comm]
  | cons x l ih =>
    obtain ⟨k', v⟩ := x
    unfold insertSorted
    by_cases h : k = key
    · subst h
      split
      · simp
      split
      · simp
      next hne => simp_all [eq_comm]
    · split
      · simp [h, eq_comm]
      split
      next hk => simp_all [eq_comm]
      · by_cases hk : k' = k <;> simp_all

theorem AttrTable.get?_insert_string (t : AttrTable) (i j : AttrIndex) (key value k : Bytes) :
    ((t.insert j (.string key value)).get i).get? k =
      if j = i ∧ k = key then some value else (t.get i).get? k := by
  rw [AttrTable.get_insert]
  by_cases h : i = j
  · rw [if_pos h, AttrSet.get?_insert_string]
    simp [h]
  · rw [if_neg h, if_neg fun hj => h hj.1.symm]

theorem AttrTable.get?_insert_mark (t : AttrTable) (i j : AttrIndex) (m : Mark) (k : Bytes) :
    ((t.insert j (.mark m)).get i).get? k = (t.get i).get? k := by
  rw [AttrTable.get_insert]
  split <;> rfl

theorem Intrinsic.strings_attrs (i : Intrinsic) (j : AttrIndex) :
    (i.attrs.get j).strings = [] := by
  have hmarks : ∀ (marks : List (AttrIndex × Mark)) (t : AttrTable),
      ((marks.foldl (fun t x => t.insert x.1 (.mark x.2)) t).get j).strings =
        (t.get j).strings := by
    intro marks
    induction marks with
    | nil => exact fun _ => rfl
    | cons x marks ih =>
      intro t
      rw [List.foldl_cons, ih, AttrTable.get_insert]
      split <;> rfl
  exact hmarks _ []

namespace Fn

/-- The value of a string attribute of the function itself, under a key of any bytes. -/
def own? (f : Fn) (key : Bytes) : Option Bytes := (f.attrs.get .function).get? key

theorem own?_addAttr_string (f : Fn) (i : AttrIndex) (key value k : Bytes) :
    (f.addAttr i (.string key value)).own? k =
      if i = .function ∧ k = key then some value else f.own? k :=
  f.attrs.get?_insert_string .function i key value k

theorem own?_addAttr_mark (f : Fn) (i : AttrIndex) (m : Mark) (k : Bytes) :
    (f.addAttr i (.mark m)).own? k = f.own? k :=
  f.attrs.get?_insert_mark .function i m k

theorem own?_newFunction (m : Module) (name : String) (sig : Signature) (l : Linkage) (k : Bytes) :
    (m.newFunction name sig l).own? k = none := by
  unfold own? Module.newFunction
  cases Intrinsic.find? name with
  | none => rfl
  | some i =>
    change (((i.attrs.get .function).strings.find? _).map _) = none
    rw [Intrinsic.strings_attrs]
    rfl

end Fn

namespace EntryPoint

theorem own?_mark (e : EntryPoint) (f : Fn) (k : Bytes) : (e.mark f).own? k =
    ((e.attributes.reverse.find? fun x => k = Bytes.ofString x.1).map (·.2)).or (f.own? k) := by
  unfold mark
  induction e.attributes using List.reverseRecOn with
  | nil => rfl
  | append_singleton kvs kv ih =>
    rw [List.foldl_append, List.foldl_cons, List.foldl_nil, Fn.own?_addAttr_string, ih,
      List.reverse_append, List.reverse_singleton, List.singleton_append, List.find?_cons]
    by_cases hk : k = Bytes.ofString kv.1 <;> simp [hk]

end EntryPoint

namespace Session

variable {s t u : Session} {r : FnRef} {key : Bytes}

def KeepsAttr (r : FnRef) (key : Bytes) (s t : Session) : Prop :=
  ∀ f, s.fn? r = some f → ∃ g, t.fn? r = some g ∧ g.own? key = f.own? key

namespace KeepsAttr

theorem of_fn? (h : t.fn? r = s.fn? r) : KeepsAttr r key s t := by
  intro f hf
  exact ⟨f, h.trans hf, rfl⟩

theorem refl (s : Session) : KeepsAttr r key s s := of_fn? rfl

theorem trans (h : KeepsAttr r key s t) (h' : KeepsAttr r key t u) : KeepsAttr r key s u := by
  intro f hf
  obtain ⟨g, hg, hfg⟩ := h f hf
  obtain ⟨k, hk, hgk⟩ := h' g hg
  exact ⟨k, hk, hgk.trans hfg⟩

theorem of_skeleton (h : (t.fn? r).map Fn.skeleton = (s.fn? r).map Fn.skeleton) :
    KeepsAttr r key s t := by
  intro f hf
  rw [hf] at h
  obtain ⟨g, hg, hfg⟩ := Option.map_eq_some_iff.mp h
  have hattrs : g.attrs = f.attrs := (congrArg Fn.attrs hfg :)
  exact ⟨g, hg, by rw [Fn.own?, hattrs, Fn.own?]⟩

theorem updateFn {q : FnRef} {g : Fn → Fn} (hg : q = r → ∀ f, (g f).own? key = f.own? key) :
    KeepsAttr r key s (s.updateFn q g) := by
  intro f hf
  rw [fn?_updateFn, hf]
  by_cases hq : q = r
  · rw [if_pos hq]
    exact ⟨g f, rfl, hg hq f⟩
  · rw [if_neg hq]
    exact ⟨f, rfl, rfl⟩

theorem addFunction (s : Session) (i : Nat) (name : String) (sig : Signature) (l : Linkage) :
    KeepsAttr r key s (s.addFunction i name sig l).2 :=
  fun f hf => ⟨f, fn?_updateModule_of_prefix (fun _ => List.prefix_append _ _) hf, rfl⟩

theorem append (s : Session) (i : Instr) : KeepsAttr r key s (s.append i) :=
  of_skeleton (skeleton_append s i r)

theorem addBlock (s : Session) (q : FnRef) (name : Bytes) :
    KeepsAttr r key s (s.addBlock q name).2 :=
  of_skeleton (skeleton_addBlock s q name r)

theorem addEntryPoint (s : Session) (i : Nat) (e : EntryPoint) :
    KeepsAttr r key s (s.addEntryPoint i e).2 := by
  intro f hf
  rw [addEntryPoint_eq]
  obtain ⟨g, hg, hfg⟩ := @KeepsAttr.addFunction r key s i e.name ⟨.void, []⟩ .external f hf
  refine ⟨g, ?_, hfg⟩
  have hne : (s.addFunction i e.name ⟨.void, []⟩).1 ≠ r := by
    rintro rfl
    obtain ⟨m, hm, hk⟩ := fn?_eq_some_iff.mp hf
    have hm' : s.modules[i]? = some m := hm
    simp [Session.addFunction, hm'] at hk
  rw [fn?_updateFn, if_neg hne, hg]

theorem prepare (hkey : key ≠ Bytes.ofString "irreversible") (s : Session) (i : Nat)
    (op : Operation) : KeepsAttr r key s (s.prepare i op).2 := by
  have hstructs : KeepsAttr r key s (op.structs.foldl Session.ensureStruct s) :=
    of_fn? (fn?_congr (modules_foldl_ensureStruct op.structs s) r)
  have hdeclare : ∀ t : Session, KeepsAttr r key t (t.declare i op).2 := by
    intro t
    unfold declare
    split
    · exact refl t
    · exact addFunction t i _ _ _
  have hmark : ∀ (t : Session) q, KeepsAttr r key t (t.mark op q) := by
    intro t q
    unfold mark
    split
    · apply updateFn
      intro _ f
      rw [Fn.marked, Fn.own?_addAttr_string, if_neg fun h => hkey h.2, Fn.own?_addAttr_mark]
    · exact refl t
  exact (hstructs.trans (hdeclare _)).trans (hmark _ _)

theorem emit (hkey : key ≠ Bytes.ofString "irreversible") {op : Operation} {args : List Value}
    {v : Value} (h : s.emit op args = .ok (v, t)) : KeepsAttr r key s t :=
  emit_induction h (fun b _ => prepare hkey s b.fn.module op)
    fun u _ _ hu => hu.trans (append u _)

end KeepsAttr

end Session

open Session Attempt

/-- Only one command sets attributes of functions by their keys. -/
theorem Command.Does.keepsAttr {c : Command} {s t : Session} {r : FnRef} {key : Bytes}
    (hkey : key ≠ Bytes.ofString "irreversible")
    (hc : ∀ fn i key value, c ≠ .addAttr fn i key value) (h : c.Does s t) :
    KeepsAttr r key s t := by
  cases h with
  | side h => exact .of_fn? (h.fn? r)
  | module _ name => exact .of_fn? (fn?_addModule s name r)
  | flag _ f _ => exact .of_fn? (fn?_addFlag s _ f r)
  | struct h => exact .of_fn? (h.fn? r)
  | structBody ts h => exact .of_fn? (h.fn? r)
  | entryPoint _ e => exact .addEntryPoint s _ e
  | function _ sig => exact .addFunction s _ _ sig _
  | global _ ty => exact .of_fn? (fn?_addGlobal s _ _ ty none r)
  | attr _ => exact absurd rfl (hc _ _ _ _)
  | block _ _ => exact (KeepsAttr.addBlock s _ _).trans (.of_fn? rfl)
  | instr _ _ _ => exact .append s _
  | emit h => exact .emit hkey h
  | use | register | move | unset | loose => exact .of_fn? rfl

namespace Config

variable {c d : Config} {r : FnRef} {key : Bytes}

/-- The key under which the next step sets an attribute of a function itself. -/
def writes (r : FnRef) (c : Config) : List Bytes :=
  match c.steps with
  | .perform (.addAttr fn .function key _) :: _ =>
    if c.session.current = r.module ∧
        (c.session.module? c.session.current).bind (·.findFunction? fn) = some r.index then [key]
    else []
  | _ => []

theorem next_keepsAttr (hkey : key ≠ Bytes.ofString "irreversible") (hw : key ∉ c.writes r)
    (h : c.next = some d) : KeepsAttr r key c.session d.session := by
  apply next_rel KeepsAttr.refl KeepsAttr.trans ?_ (fun h => .of_fn? (h.fn? r)) (.emit hkey)
    KeepsAttr.addBlock KeepsAttr.append (fun _ _ => .of_fn? rfl) h
  intro command rest hsteps
  by_cases hc : ∃ fn i k value, command = .addAttr fn i k value
  · obtain ⟨fn, i, k, value, rfl⟩ := hc
    unfold Command.act
    rw [leaves_bind]
    cases hf : findFunction fn c.session with
    | error e t =>
      have ht : t = c.session := by rw [← leaves_error hf, leaves_findFunction]
      subst ht
      exact .refl _
    | ok rf t =>
      obtain ⟨q, f⟩ := rf
      obtain ⟨-, hq, hplace, rfl⟩ := ok_findFunction hf
      apply KeepsAttr.updateFn
      rintro rfl g
      rw [Fn.own?_addAttr_string, if_neg]
      rintro ⟨rfl, rfl⟩
      apply hw
      simp [writes, hsteps, hq, hplace]
  · push Not at hc
    have hdoes := command.act_does c.session
    generalize command.act.leaves c.session = t at hdoes
    induction hdoes with
    | refl => exact .refl _
    | tail _ h ih => exact ih.trans (h.keepsAttr hkey hc)

theorem Trace.keepsAttr {keys : List Bytes} (hkey : key ≠ Bytes.ofString "irreversible")
    (h : Trace (writes r) c keys d) (hw : key ∉ keys) : KeepsAttr r key c.session d.session := by
  induction h with
  | start => exact .refl _
  | step _ hn ih =>
    rw [List.mem_append, not_or] at hw
    exact (ih hw.1).trans (next_keepsAttr hkey hw.2 hn)

end Config

end QuantumIR
