import QuantumIR.Proofs.Conditional
import QuantumIR.Proofs.Effect
import QuantumIR.Proofs.Machine

/-! # What holds in every reachable session

The builder stands in a block that exists, branches lead to blocks that exist, only functions with
reserved names are intrinsics, and other functions have no mark but the one of a measurement. Every
change keeps this, and so does every step of a run.
-/

namespace QuantumIR

open Relation

namespace Intrinsic

theorem prefix_name_of_mem_family {names : List String} {output : Shape} {params : List Shape}
    {marks : List Mark} {paramMarks : List (Nat × List Mark)} {check : Check} :
    ∀ i ∈ family names output params marks paramMarks check, "llvm.".toList <+: i.name.toList := by
  intro i h
  obtain ⟨name, -, rfl⟩ := List.mem_map.mp h
  simp

theorem prefix_name_of_mem : ∀ i ∈ all, "llvm.".toList <+: i.name.toList := by
  unfold all floats strictFloats integers blocks memory stack control exceptions annotations
    collection references coroutines vectors lanes
  repeat' first
    | exact prefix_name_of_mem_family
    | refine List.forall_mem_append.mpr ⟨?_, ?_⟩

theorem prefix_of_mem_stems {seen cs x : List Char} (h : x ∈ stems seen cs) :
    x <+: seen.reverse ++ cs := by
  induction cs generalizing seen with
  | nil => cases h
  | cons c cs ih =>
    have hs : (c :: seen).reverse ++ cs = seen.reverse ++ c :: cs := by simp
    unfold stems at h
    split at h
    · rcases List.mem_cons.mp h with rfl | h
      · exact List.prefix_append _ _
      · exact hs ▸ ih h
    · exact hs ▸ ih h

theorem prefix_of_find? {name : String} {i : Intrinsic} (h : find? name = some i) :
    "llvm.".toList <+: name.toList := by
  unfold find? at h
  obtain ⟨s, hs, h⟩ := Option.bind_eq_some_iff.mp h
  obtain ⟨l, -⟩ := Option.filter_eq_some_iff.mp h
  obtain ⟨k, k', hk, -⟩ := List.lookup_eq_some_iff.mp l
  have hmem : (s, i) ∈ all.map fun i => (i.name.toList, i) := by rw [hk]; simp
  obtain ⟨j, hj, he⟩ := List.mem_map.mp hmem
  obtain ⟨rfl, rfl⟩ := Prod.mk.inj he
  refine (prefix_name_of_mem _ hj).trans ?_
  rcases List.mem_cons.mp (List.mem_of_find?_eq_some hs) with hn | hn
  · exact hn ▸ List.prefix_refl _
  · exact prefix_of_mem_stems (List.mem_reverse.mp hn)

end Intrinsic

theorem Module.prefix_freshSymbol (m : Module) (name : String) :
    name.toList <+: (m.freshSymbol name).1.toList := by
  unfold Module.freshSymbol Name.fresh
  split
  · exact List.prefix_refl _
  split
  · simp [String.append_assoc]
  · exact List.prefix_refl _

/-- A function that is an intrinsic has a reserved name, and any other has no marks but the one of a
measurement. -/
structure Fn.Plain (f : Fn) : Prop where
  reserved : f.intrinsic ≠ none → "llvm.".toList <+: f.name.toList
  marks : f.intrinsic = none → ∀ x ∈ f.attrs, ∀ m ∈ x.2.marks, m = .writeOnly

theorem AttrTable.mem_insert {t : AttrTable} {i : AttrIndex} {a : Attr} {x : AttrIndex × AttrSet}
    (h : x ∈ t.insert i a) :
    x ∈ t ∨ x = (i, AttrSet.insert {} a) ∨ ∃ set, (i, set) ∈ t ∧ x = (i, set.insert a) := by
  induction t with
  | nil => exact .inr (.inl (List.mem_singleton.mp h))
  | cons y t ih =>
    obtain ⟨j, set⟩ := y
    unfold AttrTable.insert at h
    split at h
    next he =>
      subst he
      rcases List.mem_cons.mp h with rfl | h
      · exact .inr (.inr ⟨set, by simp, rfl⟩)
      · exact .inl (List.mem_cons_of_mem _ h)
    · rcases List.mem_cons.mp h with rfl | h
      · exact .inl (by simp)
      · rcases ih h with h | h | ⟨set', h', rfl⟩
        · exact .inl (List.mem_cons_of_mem _ h)
        · exact .inr (.inl h)
        · exact .inr (.inr ⟨set', List.mem_cons_of_mem _ h', rfl⟩)

theorem AttrSet.mem_insertSorted {key value : Bytes} {l : List (Bytes × Bytes)} {x : Bytes × Bytes}
    (h : x ∈ insertSorted key value l) : x = (key, value) ∨ x ∈ l := by
  induction l with
  | nil => exact .inl (List.mem_singleton.mp h)
  | cons y l ih =>
    obtain ⟨k, v⟩ := y
    unfold insertSorted at h
    split at h
    · exact List.mem_cons.mp h
    split at h
    · exact (List.mem_cons.mp h).imp_right (List.mem_cons_of_mem _)
    · rcases List.mem_cons.mp h with rfl | h
      · exact .inr (by simp)
      · exact (ih h).imp_right (List.mem_cons_of_mem _)

theorem AttrSet.mem_marks_insert {set : AttrSet} {m n : Mark} :
    m ∈ (set.insert (.mark n)).marks ↔ m = n ∨ m ∈ set.marks := by
  have hall : m ∈ Mark.all := by cases m <;> decide
  simp [AttrSet.insert, hall]

theorem AttrSet.marks_insert_writeOnly {set : AttrSet} (h : ∀ m ∈ set.marks, m = .writeOnly) :
    ∀ m ∈ (set.insert (.mark .writeOnly)).marks, m = .writeOnly := by
  intro m hm
  rcases AttrSet.mem_marks_insert.mp hm with hm | hm
  · exact hm
  · exact h m hm

namespace Fn.Plain

variable {f g : Fn}

theorem of_skeleton (hf : f.Plain) (h : g.skeleton = f.skeleton) : g.Plain := by
  have hn : g.name = f.name := (congrArg Fn.name h :)
  have hi : g.intrinsic = f.intrinsic := (congrArg Fn.intrinsic h :)
  have ha : g.attrs = f.attrs := (congrArg Fn.attrs h :)
  exact ⟨by rw [hn, hi]; exact hf.reserved, by rw [hi, ha]; exact hf.marks⟩

theorem addAttr (hf : f.Plain) (i : AttrIndex) {a : Attr}
    (ha : ∀ set : AttrSet, (∀ m ∈ set.marks, m = .writeOnly) →
      ∀ m ∈ (set.insert a).marks, m = .writeOnly) : (f.addAttr i a).Plain := by
  refine ⟨hf.reserved, fun hi x hx => ?_⟩
  rcases AttrTable.mem_insert hx with hx | rfl | ⟨set, hs, rfl⟩
  · exact hf.marks hi x hx
  · exact ha {} (by simp)
  · exact ha set (hf.marks hi _ hs)

theorem addAttr_string (hf : f.Plain) (i : AttrIndex) (key value : Bytes) :
    (f.addAttr i (.string key value)).Plain :=
  hf.addAttr i fun _ h => h

theorem addAttr_writeOnly (hf : f.Plain) (i : AttrIndex) :
    (f.addAttr i (.mark .writeOnly)).Plain :=
  hf.addAttr i fun _ h => AttrSet.marks_insert_writeOnly h

theorem of_addFunction {m : Module} {name : String} {sig : Signature} {l : Linkage}
    (h : (m.addFunction name sig l).functions = m.functions ++ [f]) : f.Plain := by
  unfold Module.addFunction at h
  have hf := (List.singleton_inj.mp (List.append_cancel_left h)).symm
  subst hf
  refine ⟨fun hi => ?_, fun hi => ?_⟩
  · obtain ⟨i, hi⟩ := Option.ne_none_iff_exists'.mp hi
    exact (Intrinsic.prefix_of_find? hi).trans (m.prefix_freshSymbol name)
  · simp only [Module.newFunction] at hi
    simp [Module.newFunction, hi]

end Fn.Plain

namespace Session

variable {s t : Session} {b : BlockRef}

theorem addString_ok {i : Nat} {data : Bytes} {c : Constant}
    (h : s.addString i data = .ok (c, t)) :
    data.length < lengthBound ∧
      t = (s.addGlobal i "" (Global.ofString (terminated data)).ty (some (terminated data))).2 := by
  unfold addString at h
  split at h
  · cases h
  next hl => cases h; exact ⟨Nat.not_le.mp hl, rfl⟩

theorem SideEffect.position (h : SideEffect s t) : t.position = s.position := by
  cases h with
  | struct name => simp
  | cast c d => simp
  | string h => obtain ⟨-, rfl⟩ := addString_ok h; rfl

theorem SideEffect.current (h : SideEffect s t) : t.current = s.current := by
  cases h with
  | struct name => simp
  | cast c d => simp
  | string h => obtain ⟨-, rfl⟩ := addString_ok h; rfl

theorem SideEffect.fn? (h : SideEffect s t) (r : FnRef) : t.fn? r = s.fn? r := by
  cases h with
  | struct name => exact fn?_congr (by simp) r
  | cast c d => exact fn?_congr (by simp) r
  | string h => obtain ⟨-, rfl⟩ := addString_ok h; simp

theorem SideEffect.grows (h : SideEffect s t) : s.Grows t := by
  cases h with
  | struct name => exact .of_modules_eq (by simp)
  | cast c d => exact .of_modules_eq (by simp)
  | string h => obtain ⟨-, rfl⟩ := addString_ok h; exact .addGlobal _ _ _ _ _

theorem Evaluates.position (h : Evaluates s t) : t.position = s.position := by
  induction h with
  | refl => rfl
  | tail _ h ih => exact h.position.trans ih

theorem Evaluates.current (h : Evaluates s t) : t.current = s.current := by
  induction h with
  | refl => rfl
  | tail _ h ih => exact h.current.trans ih

theorem Evaluates.fn? (h : Evaluates s t) (r : FnRef) : t.fn? r = s.fn? r := by
  induction h with
  | refl => rfl
  | tail _ h ih => exact (h.fn? r).trans ih

theorem Evaluates.body? (h : Evaluates s t) (b : BlockRef) : t.body? b = s.body? b := by
  simp only [Session.body?, block?, h.fn?]

theorem Evaluates.grows (h : Evaluates s t) : s.Grows t := by
  induction h with
  | refl => exact .refl s
  | tail _ h ih => exact ih.trans h.grows

theorem current_prepare (s : Session) (i : Nat) (op : Operation) :
    (s.prepare i op).2.current = s.current :=
  prepare_induction (P := fun t => t.current = s.current) rfl
    (fun t name h => (current_ensureStruct t name).trans h) (fun _ h => h) (fun _ _ _ _ _ h => h)

theorem emit_current {op : Operation} {args : List Value} {v : Value}
    (h : s.emit op args = .ok (v, t)) : t.current = s.current :=
  emit_induction (P := fun t => t.current = s.current) h
    (fun b _ => current_prepare s b.fn.module op) fun u _ _ hu => (current_append u _).trans hu

theorem current_addEntryPoint (s : Session) (i : Nat) (e : EntryPoint) :
    (s.addEntryPoint i e).2.current = s.current :=
  addEntryPoint_induction (P := fun t => t.current = s.current) rfl fun _ _ _ _ _ h => h

theorem Change.grows (h : Change s t) : s.Grows t := by
  cases h with
  | side h => exact h.grows
  | module name => exact .addModule s name
  | flag f => exact .addFlag s _ f
  | function i name sig l => exact .addFunction s i name sig l
  | global i name ty => exact .addGlobal s i name ty none
  | attr r i key value => exact .addAttr s r i _
  | measurement r =>
    rw [markMeasurement_eq]
    exact (Grows.addAttr s r _ _).trans (.addAttr _ r _ _)
  | block r name _ => exact (Grows.addBlock s r name).trans (.of_modules_eq rfl)
  | instr i _ => exact .append s i
  | use | struct | setBody | register | unset | loose => exact .of_modules_eq rfl

/-- What a change does to a block: nothing, or it is new, or it is the builder's and gets one more
instruction. -/
theorem Change.code (h : Change s t) (b : BlockRef) :
    t.body? b = s.body? b ∨ (s.body? b = none ∧ t.body? b = some []) ∨
      (s.position = .endOf b ∧ ∃ i, i.targets = [] ∧ t.body? b = (s.body? b).map (· ++ [i])) := by
  cases h with
  | side h => exact .inl (by simp only [Session.body?, block?, h.fn?])
  | module name => exact .inl (by simp only [Session.body?, block?, fn?_addModule])
  | flag f =>
    exact .inl (body?_updateModule (g := (·.addFlag f)) (fun m => ⟨[], by simp [Module.addFlag]⟩) b)
  | function i name sig l => exact .inl (body?_addFunction s i name sig l b)
  | global i name ty => exact .inl (body?_addGlobal s i name ty none b)
  | attr r i key value => exact .inl (body?_addAttr s r i _ b)
  | measurement r => exact .inl (body?_updateFn (g := Fn.marked) (fun _ => rfl) r b)
  | block r name hr =>
    by_cases hb : b = ⟨r, s.size r⟩
    · subst hb
      have hn : s.body? ⟨r, s.size r⟩ = none := by
        rw [← Option.not_isSome_iff_eq_none, isSome_body?_iff]
        exact Nat.lt_irrefl _
      exact .inr (.inl ⟨hn, (body?_addBlock hr name _).trans (if_pos rfl)⟩)
    · exact .inl ((body?_addBlock hr name b).trans (if_neg hb))
  | instr i hi =>
    rw [body?_append]
    by_cases hp : s.position = .endOf b
    · exact .inr (.inr ⟨hp, i, hi, if_pos hp⟩)
    · exact .inl (if_neg hp)
  | use | struct | setBody | register | unset | loose => exact .inl (body?_congr rfl b)

theorem Change.place (h : Change s t) (hp : t.position = .endOf b) :
    s.position = .endOf b ∨ (s.body? b = none ∧ (t.body? b).isSome) := by
  cases h with
  | side h => exact .inl (h.position ▸ hp)
  | block r name hr =>
    obtain rfl : (⟨r, s.size r⟩ : BlockRef) = b := Position.endOf.inj hp
    refine .inr ⟨?_, ?_⟩
    · rw [← Option.not_isSome_iff_eq_none, isSome_body?_iff]
      exact Nat.lt_irrefl _
    · rw [body?_moveTo, body?_addBlock hr, if_pos rfl]
      rfl
  | instr i _ => exact .inl (position_append s i ▸ hp)
  | unset | loose => cases hp
  | module | use | flag | struct | setBody | function | global | attr | measurement | register =>
    exact .inl hp

theorem plain_updateFn {r : FnRef} {g : Fn → Fn} (hs : ∀ q f, s.fn? q = some f → f.Plain)
    (hg : ∀ f : Fn, f.Plain → (g f).Plain) (q : FnRef) (f : Fn)
    (hf : (s.updateFn r g).fn? q = some f) : f.Plain := by
  rw [fn?_updateFn] at hf
  split at hf
  · obtain ⟨f', hf', rfl⟩ := Option.map_eq_some_iff.mp hf
    exact hg f' (hs q f' hf')
  · exact hs q f hf

theorem plain_of_skeleton (hs : ∀ q f, s.fn? q = some f → f.Plain)
    (h : ∀ q, (t.fn? q).map Fn.skeleton = (s.fn? q).map Fn.skeleton) (q : FnRef) (f : Fn)
    (hf : t.fn? q = some f) : f.Plain := by
  have hq := h q
  rw [hf] at hq
  obtain ⟨f', hf', he⟩ := Option.map_eq_some_iff.mp hq.symm
  exact (hs q f' hf').of_skeleton he.symm

theorem Change.plain (h : Change s t) (hs : ∀ q f, s.fn? q = some f → f.Plain) (q : FnRef)
    (f : Fn) (hf : t.fn? q = some f) : f.Plain := by
  cases h with
  | side h => exact hs q f (h.fn? q ▸ hf)
  | module name => exact hs q f (fn?_addModule s name q ▸ hf)
  | flag g => exact hs q f (fn?_addFlag s _ g q ▸ hf)
  | function i name sig l =>
    rcases fn?_addFunction s i name sig l hf with hf | ⟨m, -, -, hm⟩
    · exact hs q f hf
    · exact .of_addFunction hm
  | global i name ty => exact hs q f (fn?_addGlobal s i name ty none q ▸ hf)
  | attr r i key value =>
    exact plain_updateFn hs (g := fun f => f.addAttr i _) (fun _ h => h.addAttr_string i _ _) q f hf
  | measurement r =>
    exact plain_updateFn hs (g := Fn.marked)
      (fun _ h => (h.addAttr_writeOnly _).addAttr_string _ _ _) q f hf
  | block r name _ => exact plain_of_skeleton hs (skeleton_addBlock s r name) q f hf
  | instr i _ => exact plain_of_skeleton hs (skeleton_append s i) q f hf
  | use | struct | setBody | register | unset | loose => exact hs q f hf

/-- The builder stands in a block that exists, branches lead to blocks that exist, and functions are
plain. -/
structure Tidy (s : Session) : Prop where
  position : ∀ b, s.position = .endOf b → (s.body? b).isSome
  targets : ∀ b body, s.body? b = some body → ∀ i ∈ body, ∀ c ∈ i.targets, (s.body? c).isSome
  plain : ∀ q f, s.fn? q = some f → f.Plain

theorem tidy_start (name : String) : (start name).Tidy := by
  have hfn : ∀ q, (start name).fn? q = none := by
    rintro ⟨_ | n, i⟩ <;> rfl
  refine ⟨nofun, fun b body hb => ?_, fun q f hf => ?_⟩
  · simp [Session.body?, block?, hfn] at hb
  · simp [hfn] at hf

/-- A session stays tidy when blocks are extended by instructions that lead to blocks that exist. -/
theorem Tidy.of_grows (hs : s.Tidy) (hg : s.Grows t)
    (hpos : ∀ b, t.position = .endOf b → s.position = .endOf b ∨ (t.body? b).isSome)
    (hbody : ∀ b body, t.body? b = some body → body = [] ∨ ∃ old new, s.body? b = some old ∧
      body = old ++ new ∧ ∀ i ∈ new, ∀ c ∈ i.targets, (t.body? c).isSome)
    (hplain : ∀ q f, t.fn? q = some f → f.Plain) : t.Tidy := by
  refine ⟨fun b hb => ?_, fun b body hb i hi c hc => ?_, hplain⟩
  · rcases hpos b hb with hb | hb
    · exact hg.isSome_body? (hs.position b hb)
    · exact hb
  · rcases hbody b body hb with rfl | ⟨old, new, hold, rfl, hnew⟩
    · cases hi
    · rcases List.mem_append.mp hi with hi | hi
      · exact hg.isSome_body? (hs.targets b old hold i hi c hc)
      · exact hnew i hi c hc

theorem Change.tidy (h : Change s t) (hs : s.Tidy) : t.Tidy := by
  refine hs.of_grows h.grows (fun b hb => ?_) (fun b body hb => ?_) (h.plain hs.plain)
  · exact (h.place hb).imp_right And.right
  · rcases h.code b with he | ⟨-, he⟩ | ⟨-, i, hi, he⟩
    · exact .inr ⟨body, [], he ▸ hb, by simp, by simp⟩
    · exact .inl (Option.some.inj (hb.symm.trans he))
    · obtain ⟨old, hold, rfl⟩ := Option.map_eq_some_iff.mp (he ▸ hb)
      exact .inr ⟨old, [i], hold, rfl, by simp [hi]⟩

theorem Acts.tidy (h : Acts s t) (hs : s.Tidy) : t.Tidy := by
  induction h with
  | refl => exact hs
  | tail _ h ih => exact h.tidy ih

theorem Acts.grows (h : Acts s t) : s.Grows t := by
  induction h with
  | refl => exact .refl s
  | tail _ h ih => exact ih.trans h.grows

theorem Tidy.moveTo (hs : s.Tidy) (hb : (s.body? b).isSome) : (s.moveTo b).Tidy := by
  refine ⟨fun c hc => ?_, hs.targets, hs.plain⟩
  obtain rfl : b = c := Position.endOf.inj hc
  exact hb

theorem Tidy.append (hs : s.Tidy) {i : Instr} (hi : ∀ c ∈ i.targets, (s.body? c).isSome) :
    (s.append i).Tidy := by
  have hg := Grows.append s i
  refine hs.of_grows hg (fun b hb => .inl (position_append s i ▸ hb)) (fun b body hb => ?_)
    (plain_of_skeleton hs.plain (skeleton_append s i))
  rw [body?_append] at hb
  split at hb
  · obtain ⟨old, hold, rfl⟩ := Option.map_eq_some_iff.mp hb
    exact .inr ⟨old, [i], hold, rfl, by simpa using fun c hc => hg.isSome_body? (hi c hc)⟩
  · exact .inr ⟨body, [], hb, by simp, by simp⟩

theorem Forked.tidy {v : Value} {blocks : Fork} (h : Forked s b v blocks t) (hs : s.Tidy)
    (hp : s.position = .endOf b) : t.Tidy := by
  refine hs.of_grows h.grows (fun c hc => .inl ?_) (fun c body hc => ?_)
    (plain_of_skeleton hs.plain h.recodes.skeleton)
  · rw [hp, ← h.position, hc]
  · by_cases hn : c = blocks.one ∨ c = blocks.zero ∨ c = blocks.join
    · exact .inl (Option.some.inj (hc.symm.trans (h.fresh c hn)))
    · simp only [not_or] at hn
      by_cases hb : c = b
      · subst hb
        obtain ⟨old, hold, rfl⟩ := Option.map_eq_some_iff.mp (h.body ▸ hc)
        refine .inr ⟨old, _, hold, rfl, ?_⟩
        simp [Instr.targets, h.fresh]
      · exact .inr ⟨body, [], h.other c hb hn.1 hn.2.1 hn.2.2 ▸ hc, by simp, by simp⟩

end Session

open Attempt Session

def Test.operand : Test → ValueExpr
  | .bit condition => condition
  | .result measured => measured

theorem Test.eval_cases (test : Test) (s : Session) : ∃ u, Evaluates s u ∧
    (test.eval.leaves s = u ∨ ∃ r v, u.emit .readResult [r] = .ok (v, test.eval.leaves s)) := by
  cases test with
  | bit c => exact ⟨_, c.eval_evaluates s, .inl rfl⟩
  | result c =>
    refine ⟨_, c.eval_evaluates s, ?_⟩
    unfold Test.eval
    rw [leaves_bind]
    cases h : c.eval s with
    | error e t => exact .inl (leaves_error h).symm
    | ok r t =>
      rw [leaves_ok h]
      simp only
      cases he : t.emit .readResult [r] with
      | error p => exact .inl (leaves_updateGuarded_error he)
      | ok vu => exact .inr ⟨r, vu.1, by rw [leaves_updateGuarded_ok he]; exact he⟩

/-- What a test leaves: expressions are evaluated, a result may be read, and blocks are appended
unless something stops it. -/
theorem Test.fork_leaves (test : Test) (s : Session) : ∃ u w, Evaluates s u ∧
    (w = u ∨ ∃ r v, u.emit .readResult [r] = .ok (v, w)) ∧
    (test.fork.leaves s = w ∨ ∃ v blocks, w.fork v = .ok (blocks, test.fork.leaves s)) := by
  obtain ⟨u, hu, hw⟩ := test.eval_cases s
  refine ⟨u, test.eval.leaves s, hu, hw, ?_⟩
  unfold Test.fork
  rw [leaves_bind]
  cases hv : test.eval s with
  | error e t => exact .inl (leaves_error hv).symm
  | ok v t =>
    rw [leaves_ok hv]
    simp only
    cases hf : t.fork v with
    | error p => exact .inl (leaves_updateGuarded_error hf)
    | ok bu => exact .inr ⟨v, bu.1, by rw [leaves_updateGuarded_ok hf]; exact hf⟩

theorem Test.eval_acts (test : Test) (s : Session) :
    Acts s (test.eval.leaves s) ∧ (test.eval.leaves s).position = s.position := by
  obtain ⟨u, hu, h | ⟨r, v, h⟩⟩ := test.eval_cases s
  · rw [h]
    exact ⟨hu.acts, hu.position⟩
  · exact ⟨hu.acts.trans (emit_acts h), (emit_position h).trans hu.position⟩

theorem Test.fork_ok {test : Test} {s t : Session} {blocks : Fork}
    (h : test.fork s = .ok blocks t) :
    ∃ u v, Acts s u ∧ u.position = s.position ∧ u.fork v = .ok (blocks, t) := by
  obtain ⟨v, u, hv, h⟩ := ok_bind h
  obtain ⟨ha, hp⟩ := test.eval_acts s
  rw [leaves_ok hv] at ha hp
  exact ⟨u, v, ha, hp, ok_updateGuarded.mp h⟩

theorem Test.fork_error {test : Test} {s t : Session} {e : Fault}
    (h : test.fork s = .error e t) : Acts s t := by
  have ha := (test.eval_acts s).1
  rcases error_bind h with h | ⟨v, u, hv, h⟩
  · rwa [leaves_error h] at ha
  · obtain rfl := error_updateGuarded h
    rwa [leaves_ok hv] at ha

def Frame.pending : Frame → List BlockRef
  | .inOne blocks _ _ _ => [blocks.zero, blocks.join]
  | .inZero blocks _ _ => [blocks.join]

/-- How a run goes on: a command is carried out, a test is stopped, a conditional is entered, or a
branch of one is left. -/
theorem Config.next_cases {c d : Config} (h : c.next = some d) :
    (∃ command rest, c.steps = .perform command :: rest ∧
      d = ⟨rest, c.stack, command.act.leaves c.session⟩) ∨
    (∃ test mode one zero rest e t, c.steps = .conditional test mode one zero :: rest ∧
      test.fork c.session = .error e t ∧ d = ⟨rest, c.stack, t⟩) ∨
    (∃ test mode one zero rest blocks t, c.steps = .conditional test mode one zero :: rest ∧
      test.fork c.session = .ok blocks t ∧
      d = ⟨one, .inOne blocks mode zero rest :: c.stack, t.moveTo blocks.one⟩) ∨
    (∃ frame stack failure, Step.Rest failure c.steps ∧ c.stack = frame :: stack ∧
      d = frame.leave failure stack c.session) := by
  obtain ⟨steps, stack, s⟩ := c
  cases steps with
  | nil =>
    cases stack with
    | nil => cases h
    | cons frame stack =>
      exact .inr (.inr (.inr ⟨frame, stack, none, rfl, rfl, (Option.some.inj h).symm⟩))
  | cons step rest =>
    cases step with
    | perform command =>
      refine .inl ⟨command, rest, rfl, ?_⟩
      obtain rfl := Option.some.inj h
      unfold Attempt.answer leaves
      split <;> simp [*]
    | conditional test mode one zero =>
      refine .inr ?_
      simp only [next] at h
      cases hf : test.fork s with
      | error e t =>
        rw [hf] at h
        exact .inl ⟨test, mode, one, zero, rest, e, t, rfl, hf, (Option.some.inj h).symm⟩
      | ok blocks t =>
        rw [hf] at h
        exact .inr (.inl
          ⟨test, mode, one, zero, rest, blocks, t, rfl, hf, (Option.some.inj h).symm⟩)
    | fail message =>
      cases stack with
      | nil => cases h
      | cons frame stack =>
        refine .inr (.inr (.inr ⟨frame, stack, some message, ⟨rest, rfl⟩, rfl, ?_⟩))
        exact (Option.some.inj h).symm

def Command.switches : Command → Bool
  | .newModule _ | .useModule _ => true
  | _ => false

theorem Command.Does.current {c : Command} {s t : Session} (h : c.Does s t) :
    t.current = s.current ∨ (c.switches ∧ (t.module? t.current).isSome) := by
  cases h with
  | side h => exact .inl h.current
  | module _ name => exact .inr ⟨rfl, by simp [addModule, module?]⟩
  | use h => exact .inr ⟨rfl, h⟩
  | struct h => exact .inl h.current
  | structBody ts h => exact .inl h.current
  | entryPoint _ e => exact .inl (current_addEntryPoint s _ e)
  | instr => exact .inl (current_append s _)
  | emit h => exact .inl (emit_current h)
  | flag | function | global | attr | register | block | move | unset | loose => exact .inl rfl

section

variable {R : Session → Session → Prop} (hrefl : ∀ s, R s s)
  (htrans : ∀ {s t u}, R s t → R t u → R s u)

include hrefl htrans

theorem Command.act_rel (hchange : ∀ {s t}, Change s t → R s t) (hmove : ∀ s b, R s (s.moveTo b))
    (command : Command) (s : Session) : R s (command.act.leaves s) := by
  have hacts : ∀ {t u}, Acts t u → R t u := by
    intro t u h
    induction h with
    | refl => exact hrefl t
    | tail _ h ih => exact htrans ih (hchange h)
  have hdoes := command.act_does s
  generalize command.act.leaves s = t at hdoes
  induction hdoes with
  | refl => exact hrefl s
  | tail _ h ih =>
    rcases h.acts with h | ⟨_, _, b, -, -, rfl⟩
    · exact htrans ih (hacts h)
    · exact htrans ih (hmove _ b)

theorem Test.fork_rel (hside : ∀ {s t}, SideEffect s t → R s t)
    (hemit : ∀ {s args v t}, s.emit .readResult args = .ok (v, t) → R s t)
    (hblock : ∀ s r name, R s (s.addBlock r name).2) (happend : ∀ s i, R s (s.append i))
    (test : Test) (s : Session) : R s (test.fork.leaves s) := by
  obtain ⟨u, w, hu, hw, ht⟩ := test.fork_leaves s
  have hsu : R s u := by
    clear hw
    induction hu with
    | refl => exact hrefl _
    | tail _ h ih => exact htrans ih (hside h)
  have hsw : R s w := by
    rcases hw with rfl | ⟨r, v, hw⟩
    · exact hsu
    · exact htrans hsu (hemit hw)
  generalize test.fork.leaves s = t at ht ⊢
  rcases ht with rfl | ⟨v, blocks, ht⟩
  · exact hsw
  · apply fork_induction ht hsw
    · exact fun b _ u name hu => htrans hu (hblock u b.fn name)
    · exact fun b _ u one zero _ _ hu => htrans hu (happend u _)

theorem Frame.leave_rel (happend : ∀ s i, R s (s.append i)) (hmove : ∀ s b, R s (s.moveTo b))
    (frame : Frame) (failure : Option String) (stack : List Frame) (s : Session) :
    R s (frame.leave failure stack s).session := by
  have hjump : ∀ target b, R s ((s.jump target).moveTo b) :=
    fun target b => htrans (happend _ _) (hmove _ b)
  cases frame <;> simp only [Frame.leave] <;> cases Mode.observe _ failure <;>
    [exact hjump _ _; exact hrefl _; exact hjump _ _; exact hrefl _]

/-- What the next command does, and all else that a step of a run is made of, the step does. -/
theorem Config.next_rel {c d : Config}
    (hcommand : ∀ command rest, c.steps = .perform command :: rest →
      R c.session (command.act.leaves c.session))
    (hside : ∀ {s t}, SideEffect s t → R s t)
    (hemit : ∀ {s args v t}, s.emit .readResult args = .ok (v, t) → R s t)
    (hblock : ∀ s r name, R s (s.addBlock r name).2) (happend : ∀ s i, R s (s.append i))
    (hmove : ∀ s b, R s (s.moveTo b)) (h : c.next = some d) : R c.session d.session := by
  have hfork := fun test : Test => test.fork_rel hrefl htrans hside hemit hblock happend c.session
  rcases next_cases h with ⟨command, rest, hsteps, rfl⟩ | ⟨test, _, _, _, _, e, t, -, hf, rfl⟩ |
    ⟨test, _, _, _, _, blocks, t, -, hf, rfl⟩ | ⟨frame, stack, failure, -, -, rfl⟩
  · exact hcommand command rest hsteps
  · rw [← leaves_error hf]
    exact hfork test
  · rw [← leaves_ok hf]
    exact htrans (hfork test) (hmove _ _)
  · exact frame.leave_rel hrefl htrans happend hmove failure stack c.session

end

theorem Test.fork_current (test : Test) (s : Session) :
    (test.fork.leaves s).current = s.current :=
  test.fork_rel (R := fun s t => t.current = s.current) (fun _ => rfl) (fun h h' => h'.trans h)
    SideEffect.current emit_current (fun _ _ _ => rfl) current_append s

theorem Frame.current_leave (frame : Frame) (failure : Option String) (stack : List Frame)
    (s : Session) : (frame.leave failure stack s).session.current = s.current :=
  frame.leave_rel (R := fun s t => t.current = s.current) (fun _ => rfl) (fun h h' => h'.trans h)
    current_append (fun _ _ => rfl) failure stack s

theorem Test.position_fork (test : Test) (s : Session) :
    (test.fork.leaves s).position = s.position :=
  test.fork_rel (R := fun s t => t.position = s.position) (fun _ => rfl) (fun h h' => h'.trans h)
    SideEffect.position emit_position (fun _ _ _ => rfl) position_append s

/-- The session is tidy, and so is what the conditionals around it will do. -/
structure Config.Tidy (c : Config) : Prop where
  session : c.session.Tidy
  pending : ∀ frame ∈ c.stack, ∀ b ∈ frame.pending, (c.session.body? b).isSome

theorem Command.act_tidy (command : Command) {s : Session} (hs : s.Tidy) :
    s.Grows (command.act.leaves s) ∧ (command.act.leaves s).Tidy := by
  have hdoes := command.act_does s
  generalize command.act.leaves s = t at hdoes
  induction hdoes with
  | refl => exact ⟨.refl s, hs⟩
  | tail _ h ih =>
    rcases h.acts with h | ⟨_, _, b, -, hb, rfl⟩
    · exact ⟨ih.1.trans h.grows, h.tidy ih.2⟩
    · exact ⟨ih.1.trans (.of_modules_eq rfl), ih.2.moveTo hb⟩

namespace Config.Tidy

variable {c d : Config}

theorem of_grows {rest : List Step} {t : Session} (hc : c.Tidy) (hg : c.session.Grows t)
    (ht : t.Tidy) : (⟨rest, c.stack, t⟩ : Config).Tidy :=
  ⟨ht, fun frame hf b hb => hg.isSome_body? (hc.pending frame hf b hb)⟩

theorem leave {frame : Frame} {stack : List Frame} {s : Session} (failure : Option String)
    (hs : s.Tidy) (hp : ∀ f ∈ frame :: stack, ∀ b ∈ f.pending, (s.body? b).isSome) :
    (frame.leave failure stack s).Tidy := by
  have hstack : ∀ f ∈ stack, ∀ b ∈ f.pending, (s.body? b).isSome :=
    fun f hf => hp f (List.mem_cons_of_mem _ hf)
  have hframe := hp frame (by simp)
  have hjump : ∀ c, (s.body? c).isSome → (s.jump c).Tidy := fun c hc =>
    hs.append (by simpa [Instr.targets] using hc)
  have hkeep : ∀ c b, (s.body? b).isSome → ((s.jump c).body? b).isSome := fun c b hb =>
    (Grows.append s (.br c)).isSome_body? hb
  cases frame with
  | inOne blocks mode zero rest =>
    have hz : (s.body? blocks.zero).isSome := hframe _ (by simp [Frame.pending])
    have hj : (s.body? blocks.join).isSome := hframe _ (by simp [Frame.pending])
    simp only [Frame.leave]
    cases mode.observe failure with
    | some _ => exact ⟨hs, hstack⟩
    | none =>
      refine ⟨(hjump _ hj).moveTo (hkeep _ _ hz), fun f hf b hb => hkeep _ b ?_⟩
      rcases List.mem_cons.mp hf with rfl | hf
      · obtain rfl : b = blocks.join := by simpa [Frame.pending] using hb
        exact hj
      · exact hstack f hf b hb
  | inZero blocks mode rest =>
    have hj : (s.body? blocks.join).isSome := hframe _ (by simp [Frame.pending])
    simp only [Frame.leave]
    cases mode.observe failure with
    | some _ => exact ⟨hs, hstack⟩
    | none =>
      exact ⟨(hjump _ hj).moveTo (hkeep _ _ hj), fun f hf b hb => hkeep _ b (hstack f hf b hb)⟩

theorem next (hc : c.Tidy) (h : c.next = some d) : d.Tidy := by
  rcases next_cases h with ⟨command, rest, -, rfl⟩ |
    ⟨test, mode, one, zero, rest, e, t, -, hf, rfl⟩ |
    ⟨test, mode, one, zero, rest, blocks, t, -, hf, rfl⟩ | ⟨frame, stack, failure, -, hst, rfl⟩
  · obtain ⟨hg, ht⟩ := command.act_tidy hc.session
    exact hc.of_grows hg ht
  · have ha := Test.fork_error hf
    exact hc.of_grows ha.grows (ha.tidy hc.session)
  · obtain ⟨u, v, ha, hp, hf⟩ := Test.fork_ok hf
    obtain ⟨b, hb, -⟩ := fork_ok hf
    have hu := ha.tidy hc.session
    have hk := fork_forked hb (hu.position b hb) hf
    have hnew : ∀ c, c = blocks.one ∨ c = blocks.zero ∨ c = blocks.join → (t.body? c).isSome :=
      fun c hc => by rw [hk.fresh c hc]; rfl
    refine ⟨(hk.tidy hu hb).moveTo (hnew _ (.inl rfl)), fun frame hframe c hcp => ?_⟩
    rcases List.mem_cons.mp hframe with rfl | hframe
    · refine hnew c (.inr ?_)
      simpa [Frame.pending] using hcp
    · exact (ha.grows.trans hk.grows).isSome_body? (hc.pending frame hframe c hcp)
  · exact leave failure hc.session (hst ▸ hc.pending)

theorem reaches (hc : c.Tidy) (h : c.Reaches d) : d.Tidy :=
  h.invariant (fun _ _ hn hc => hc.next hn) hc

end Config.Tidy

theorem Config.Reachable.tidy {c : Config} (h : c.Reachable) : c.Tidy := by
  obtain ⟨name, steps, h⟩ := h
  have hstart : Config.Tidy ⟨steps, [], .start name⟩ := ⟨tidy_start name, nofun⟩
  exact hstart.reaches h

theorem Session.Reachable.tidy {s : Session} (h : s.Reachable) : s.Tidy := by
  obtain ⟨c, hc, rfl⟩ := h
  exact hc.tidy.session

end QuantumIR
