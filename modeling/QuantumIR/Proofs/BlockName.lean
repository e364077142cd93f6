import Mathlib.Logic.Function.Iterate
import QuantumIR.Proofs.Structured
import QuantumIR.Proofs.WellFormed

/-! # The names of blocks

The blocks of a function have names of their own. A name that is in use gets a number, and the
numbers of a function are counted together, whatever the name is. The three blocks of a conditional
take their names one after the other; so once these names are in use, each further conditional takes
three numbers in a row.
-/

namespace QuantumIR

theorem Name.fresh_next {α : Type} [DecidableEq α] {taken : List α} {numbered : Nat → α}
    {next : Nat} {name : α} (hname : name ∈ taken) (hnext : numbered next ∉ taken) :
    fresh taken numbered next name = (numbered next, next + 1) := by
  have hfind : (List.range' next (taken.length + 1)).find? (fun k => decide (numbered k ∉ taken)) =
      some next := by
    rw [List.range'_succ]
    exact List.find?_cons_of_pos (decide_eq_true hnext)
  rw [fresh, if_neg (not_not.mpr hname), hfind]

namespace Labels

variable {l : Labels} {a b : String} {m n : Nat}

def add (l : Labels) (name : Bytes) : Labels :=
  let (name, next) := l.fresh name
  ⟨l.names ++ [name], next⟩

theorem labels_addBlock (f : Fn) (name : Bytes) : (f.addBlock name).labels = f.labels.add name := by
  simp [Fn.labels, Fn.addBlock, add]

def stems : List String := ["then", "else", "continue"]

def fork (l : Labels) : Labels := stems.foldl (fun l a => l.add (Bytes.ofString a)) l

theorem length_iterate_fork (l : Labels) (k : Nat) :
    (fork^[k] l).names.length = l.names.length + 3 * k := by
  have hfork : ∀ l : Labels, l.fork.names.length = l.names.length + 3 := by
    intro l
    simp [fork, stems, add]
  induction k with
  | zero => rfl
  | succ k ih => rw [Function.iterate_succ_apply', hfork, ih, Nat.mul_succ, Nat.add_assoc]

def numbered (name : String) (k : Nat) : Bytes :=
  Bytes.ofString name ++ Bytes.ofString (toString k)

theorem ofString_toString_injective :
    Function.Injective fun k : Nat => Bytes.ofString (toString k) := by
  intro j k h
  have hchars : (toString j).toList = (toString k).toList := Utf8.encode_injective h
  simp only [Nat.toString_eq_repr, Nat.toList_repr] at hchars
  simpa using congrArg (Nat.ofDigitChars 10 · 0) hchars

theorem ofString_toString_ne_nil (k : Nat) : Bytes.ofString (toString k) ≠ [] := by
  intro h
  have hchars : (toString k).toList = [] := Utf8.encode_injective h
  rw [Nat.toString_eq_repr, Nat.toList_repr] at hchars
  exact Nat.toDigits_ne_nil hchars

theorem take_stem (ha : a ∈ stems) :
    (Bytes.ofString a).take bound = Bytes.ofString a := by
  revert a
  decide +kernel

theorem stem_ne_nil (ha : a ∈ stems) : Bytes.ofString a ≠ [] := by
  revert a
  decide +kernel

/-- The names are told apart by how they begin. -/
theorem stem_injective (ha : a ∈ stems) (hb : b ∈ stems)
    (h : (Bytes.ofString a).head? = (Bytes.ofString b).head?) : a = b := by
  have hall : ∀ a ∈ stems, ∀ b ∈ stems,
      (Bytes.ofString a).head? = (Bytes.ofString b).head? → a = b := by
    decide +kernel
  exact hall a ha b hb h

theorem numbered_ne_nil (ha : a ∈ stems) : numbered a m ≠ [] :=
  List.append_ne_nil_of_left_ne_nil (stem_ne_nil ha) _

theorem numbered_inj (ha : a ∈ stems) (hb : b ∈ stems) :
    numbered a m = numbered b n ↔ a = b ∧ m = n := by
  constructor
  · intro h
    have hhead := congrArg List.head? h
    rw [numbered, numbered, List.head?_append_of_ne_nil _ (stem_ne_nil ha),
      List.head?_append_of_ne_nil _ (stem_ne_nil hb)] at hhead
    obtain rfl := stem_injective ha hb hhead
    exact ⟨rfl, ofString_toString_injective (List.append_cancel_left h)⟩
  · rintro ⟨rfl, rfl⟩
    rfl

theorem numbered_ne_stem (ha : a ∈ stems) (hb : b ∈ stems) : numbered a m ≠ Bytes.ofString b := by
  intro h
  have hhead := congrArg List.head? h
  rw [numbered, List.head?_append_of_ne_nil _ (stem_ne_nil ha)] at hhead
  obtain rfl := stem_injective ha hb hhead
  exact ofString_toString_ne_nil m (List.append_right_eq_self.mp h)

theorem mem_filter_ne_nil {name : Bytes} (h : name ≠ []) :
    name ∈ l.names.filter (· ≠ []) ↔ name ∈ l.names := by
  simp [h]

theorem add_of_notMem (ha : a ∈ stems) (h : Bytes.ofString a ∉ l.names) :
    l.add (Bytes.ofString a) = ⟨l.names ++ [Bytes.ofString a], l.next⟩ := by
  have hfresh : Bytes.ofString a ∉ l.names.filter (· ≠ []) := by
    rwa [mem_filter_ne_nil (stem_ne_nil ha)]
  rw [add, fresh, take_stem ha, Name.fresh, if_pos hfresh]

theorem add_of_mem (ha : a ∈ stems) (h : Bytes.ofString a ∈ l.names)
    (hfree : numbered a l.next ∉ l.names) :
    l.add (Bytes.ofString a) = ⟨l.names ++ [numbered a l.next], l.next + 1⟩ := by
  rw [add, fresh, take_stem ha, Name.fresh_next]
  · rfl
  · rwa [mem_filter_ne_nil (stem_ne_nil ha)]
  · change numbered a l.next ∉ _
    rwa [mem_filter_ne_nil (numbered_ne_nil ha)]

/-- No name begins as those of the blocks of a conditional do. -/
def Plain (l : Labels) : Prop := ∀ name ∈ l.names, ∀ a ∈ stems, ¬ Bytes.ofString a <+: name

/-- The blocks of a conditional get the numbers to try next. -/
structure Counting (l : Labels) : Prop where
  used : ∀ a ∈ stems, Bytes.ofString a ∈ l.names
  free : ∀ a ∈ stems, ∀ n, l.next ≤ n → numbered a n ∉ l.names

theorem Counting.add (h : l.Counting) (ha : a ∈ stems) :
    l.add (Bytes.ofString a) = ⟨l.names ++ [numbered a l.next], l.next + 1⟩ ∧
      (l.add (Bytes.ofString a)).Counting := by
  have hadd := add_of_mem ha (h.used a ha) (h.free a ha _ (Nat.le_refl _))
  refine ⟨hadd, ?_⟩
  rw [hadd]
  constructor
  · intro b hb
    exact List.mem_append_left _ (h.used b hb)
  · intro b hb n hn hmem
    rcases List.mem_append.mp hmem with hmem | hmem
    · exact h.free b hb n (Nat.le_of_succ_le hn) hmem
    · obtain ⟨-, rfl⟩ := (numbered_inj hb ha).mp (List.mem_singleton.mp hmem)
      exact Nat.not_succ_le_self _ hn

theorem Counting.fork (h : l.Counting) :
    l.fork = ⟨l.names ++ [numbered "then" l.next, numbered "else" (l.next + 1),
      numbered "continue" (l.next + 2)], l.next + 3⟩ ∧ l.fork.Counting := by
  obtain ⟨h₁, hone⟩ := h.add (a := "then") (by simp [stems])
  obtain ⟨h₂, hzero⟩ := hone.add (a := "else") (by simp [stems])
  obtain ⟨h₃, hjoin⟩ := hzero.add (a := "continue") (by simp [stems])
  refine ⟨?_, hjoin⟩
  change ((l.add _).add _).add _ = _
  rw [h₃, h₂, h₁]
  simp

theorem Plain.fork (h : l.Plain) :
    l.fork = ⟨l.names ++ stems.map Bytes.ofString, l.next⟩ ∧ l.fork.Counting := by
  have hnew : ∀ a ∈ stems, Bytes.ofString a ∉ l.names := by
    intro a ha hmem
    exact h _ hmem a ha List.prefix_rfl
  have hfork : l.fork = ⟨l.names ++ stems.map Bytes.ofString, l.next⟩ := by
    have hzero : Bytes.ofString "else" ∉ l.names ++ [Bytes.ofString "then"] := by
      rw [List.mem_append, not_or]
      exact ⟨hnew _ (by simp [stems]), by decide +kernel⟩
    have hjoin : Bytes.ofString "continue" ∉
        l.names ++ [Bytes.ofString "then"] ++ [Bytes.ofString "else"] := by
      rw [List.append_assoc, List.mem_append, not_or]
      exact ⟨hnew _ (by simp [stems]), by decide +kernel⟩
    have hone := add_of_notMem (a := "then") (by simp [stems]) (hnew _ (by simp [stems]))
    change ((l.add _).add _).add _ = _
    rw [hone, add_of_notMem (a := "else") (by simp [stems]) hzero,
      add_of_notMem (a := "continue") (by simp [stems]) hjoin]
    simp [stems]
  refine ⟨hfork, ?_⟩
  rw [hfork]
  constructor
  · intro a ha
    exact List.mem_append_right _ (List.mem_map_of_mem ha)
  · intro a ha n _ hmem
    rcases List.mem_append.mp hmem with hmem | hmem
    · exact h _ hmem a ha (List.prefix_append _ _)
    · obtain ⟨b, hb, heq⟩ := List.mem_map.mp hmem
      exact numbered_ne_stem ha hb heq.symm

/-- The names of the blocks of one of several conditionals. -/
def ofFork (next : Nat) : Nat → List Bytes
  | 0 => stems.map Bytes.ofString
  | k + 1 => [numbered "then" (next + 3 * k), numbered "else" (next + 3 * k + 1),
      numbered "continue" (next + 3 * k + 2)]

/-- The first of several conditionals takes the names as they are, and the others take them with
three numbers in a row. -/
theorem Plain.iterate_fork_succ (h : l.Plain) (k : Nat) :
    Labels.fork^[k + 1] l =
        ⟨l.names ++ (List.range (k + 1)).flatMap (ofFork l.next), l.next + 3 * k⟩ ∧
      (Labels.fork^[k + 1] l).Counting := by
  induction k with
  | zero => simpa [ofFork] using h.fork
  | succ k ih =>
    obtain ⟨heq, hcounting⟩ := ih
    obtain ⟨hnext, hagain⟩ := hcounting.fork
    rw [Function.iterate_succ_apply']
    refine ⟨?_, hagain⟩
    have hrange : List.range (k + 2) = List.range (k + 1) ++ [k + 1] := List.range_succ
    rw [hnext, heq, hrange, List.flatMap_append, ← List.append_assoc]
    rfl

theorem Plain.names_iterate_fork (h : l.Plain) (k : Nat) :
    (Labels.fork^[k] l).names = l.names ++ (List.range k).flatMap (ofFork l.next) := by
  cases k with
  | zero => simp
  | succ k => rw [(h.iterate_fork_succ k).1]

end Labels

namespace Session

variable {s t : Session} {b : BlockRef} {r q : FnRef} {f : Fn}

def labels? (s : Session) (r : FnRef) : Option Labels := (s.fn? r).map Fn.labels

theorem size_eq_labels? (s : Session) (r : FnRef) :
    s.size r = ((s.labels? r).map fun l => l.names.length).getD 0 := by
  cases hf : s.fn? r <;> simp [size, labels?, Fn.labels, hf]

theorem labels?_updateBlock {g : Block → Block} (hg : ∀ blk, (g blk).name = blk.name) (s : Session)
    (b : BlockRef) (r : FnRef) : (s.updateBlock b g).labels? r = s.labels? r := by
  have hnames : ∀ blocks : List Block, (blocks.modify b.index g).map Block.name =
      blocks.map Block.name := by
    intro blocks
    ext1 k
    rw [List.getElem?_map, List.getElem?_map, List.getElem?_modify]
    cases blocks[k]? with
    | none => rfl
    | some blk => by_cases hk : b.index = k <;> simp [hk, hg]
  rw [labels?, updateBlock, fn?_updateFn]
  split
  · cases hf : s.fn? r <;> simp [labels?, hf, Fn.labels, hnames]
  · rfl

theorem labels?_append (s : Session) (i : Instr) (r : FnRef) :
    (s.append i).labels? r = s.labels? r := by
  have hinsert : (s.insert i).labels? r = s.labels? r := by
    unfold insert
    split
    · exact labels?_updateBlock (g := fun blk => blk.push i) (fun _ => rfl) s _ r
    · rfl
  have hsource : ∀ blk : Block, (blk.addSource s.source).name = blk.name := fun _ => rfl
  cases i <;>
    simp only [append, Instr.targets, List.foldl, labels?_updateBlock hsource, hinsert]

theorem labels?_addBlock (s : Session) (r : FnRef) (name : Bytes) :
    (s.addBlock r name).2.labels? r = (s.labels? r).map (·.add name) := by
  rw [labels?, fn?_addBlock, if_pos rfl, labels?, Option.map_map, Option.map_map]
  exact Option.map_congr fun f _ => Labels.labels_addBlock f name

theorem labels?_fork {v : Value} {blocks : Fork} (hp : s.position = .endOf b)
    (h : s.fork v = .ok (blocks, t)) : t.labels? b.fn = (s.labels? b.fn).map Labels.fork := by
  simp only [fork, builderFn?, hp] at h
  obtain ⟨-, rfl⟩ := Prod.mk.inj (Except.ok.inj h)
  rw [labels?_addBlock, labels?_append, labels?_addBlock, labels?_addBlock, Option.map_map,
    Option.map_map]
  rfl

def code? (s : Session) (r : FnRef) : Option (List Block × Nat) :=
  (s.fn? r).map fun f => (f.blocks, f.nextBlock)

theorem code?_prepare (hr : (s.fn? r).isSome) (i : Nat) (op : Operation) :
    (s.prepare i op).2.code? r = s.code? r := by
  obtain ⟨f, hf⟩ := Option.isSome_iff_exists.mp hr
  suffices hkept : ∃ g, (s.prepare i op).2.fn? r = some g ∧ g.blocks = f.blocks ∧
      g.nextBlock = f.nextBlock by
    obtain ⟨g, hg, hblocks, hnext⟩ := hkept
    rw [code?, code?, hf, hg, Option.map_some, Option.map_some, hblocks, hnext]
  apply prepare_induction (P := fun t => ∃ g, t.fn? r = some g ∧ g.blocks = f.blocks ∧
    g.nextBlock = f.nextBlock)
  · exact ⟨f, hf, rfl, rfl⟩
  · rintro t name ⟨g, hg, hcode⟩
    exact ⟨g, (fn?_congr (modules_ensureStruct t name) r).trans hg, hcode⟩
  · rintro t ⟨g, hg, hcode⟩
    exact ⟨g, fn?_updateModule_of_prefix (fun m => List.prefix_append _ _) hg, hcode⟩
  · rintro t q x a - ⟨g, hg, hcode⟩
    by_cases hq : q = r
    · refine ⟨g.addAttr x a, ?_, hcode⟩
      rw [addAttr, fn?_updateFn, if_pos hq, hg, Option.map_some]
    · refine ⟨g, ?_, hcode⟩
      rw [addAttr, fn?_updateFn, if_neg hq, hg]

theorem labels?_eq_code? (s : Session) (r : FnRef) :
    s.labels? r = (s.code? r).map fun code => ⟨code.1.map Block.name, code.2⟩ := by
  rw [labels?, code?, Option.map_map]
  rfl

theorem Stands.labels?_emit {op : Operation} {args : List Value} {v : Value} (hs : s.Stands b)
    (h : s.emit op args = .ok (v, t)) : t.labels? b.fn = s.labels? b.fn := by
  apply emit_induction h
  · intro c _
    have hcode := code?_prepare (isSome_fn?_of_body? hs.exist) c.fn.module op
    rw [labels?_eq_code?, hcode, ← labels?_eq_code?]
  · exact fun u _ _ hu => (labels?_append u _ _).trans hu

end Session

end QuantumIR
