import Mathlib.Data.List.Basic
import QuantumIR.Builder

/-! # Look-ups after updates

The code of a session is seen through the instructions of its blocks. Each operation of the builder
changes the instructions of the builder's block only, or adds blocks without instructions.
-/

namespace QuantumIR

/-- A function without its code. -/
def Fn.skeleton (f : Fn) : Fn := { f with blocks := [], nextBlock := 1 }

namespace Session

variable {s : Session} {r : FnRef} {b c : BlockRef} {f : Fn}

def body? (s : Session) (r : BlockRef) : Option (List Instr) := (s.block? r).map Block.body

def size (s : Session) (r : FnRef) : Nat := ((s.fn? r).map fun f => f.blocks.length).getD 0

theorem fn?_eq_some_iff :
    s.fn? r = some f ↔ ∃ m, s.module? r.module = some m ∧ m.functions[r.index]? = some f := by
  simp [fn?, module?, Option.bind_eq_some_iff]

theorem size_eq (h : s.fn? r = some f) : s.size r = f.blocks.length := by simp [size, h]

theorem body?_eq_some_iff {body : List Instr} :
    s.body? b = some body ↔
      ∃ f blk, s.fn? b.fn = some f ∧ f.blocks[b.index]? = some blk ∧ blk.body = body := by
  simp [body?, block?, Option.bind_eq_some_iff]

theorem isSome_body?_iff : (s.body? b).isSome ↔ b.index < s.size b.fn := by
  cases h : s.fn? b.fn <;> simp [body?, block?, size, h]

theorem module?_updateModule (s : Session) (i : Nat) (g : Module → Module) (j : Nat) :
    (s.updateModule i g).module? j = if i = j then (s.module? j).map g else s.module? j := by
  simp only [module?, updateModule, List.getElem?_modify]
  split <;> simp_all

theorem updateModule_const {s : Session} {i : Nat} {m : Module} (hm : s.module? i = some m)
    (g : Module → Module) : s.updateModule i (fun _ => g m) = s.updateModule i g := by
  have hmodules : s.modules.modify i (fun _ => g m) = s.modules.modify i g := by
    ext1 j
    rw [List.getElem?_modify, List.getElem?_modify]
    by_cases hj : i = j
    · have hm : s.modules[j]? = some m := hj ▸ hm
      simp [hj, hm]
    · simp [hj]
  rw [updateModule, updateModule, hmodules]

theorem fn?_updateModule (s : Session) (i : Nat) (g : Module → Module) (r : FnRef) :
    (s.updateModule i g).fn? r =
      if i = r.module then (s.module? i).bind fun m => (g m).functions[r.index]? else s.fn? r := by
  have h := module?_updateModule s i g r.module
  simp only [module?] at h
  simp only [fn?, h, module?]
  split
  · subst i; cases s.modules[r.module]? <;> rfl
  · rfl

theorem fn?_updateModule_of_prefix {i : Nat} {g : Module → Module}
    (hg : ∀ m, m.functions <+: (g m).functions) (hf : s.fn? r = some f) :
    (s.updateModule i g).fn? r = some f := by
  rw [fn?_updateModule]
  split
  next hi =>
    subst hi
    obtain ⟨m, hm, hk⟩ := fn?_eq_some_iff.mp hf
    obtain ⟨hlt, rfl⟩ := List.getElem?_eq_some_iff.mp hk
    rw [hm, Option.bind_some, List.prefix_iff_getElem?.mp (hg m) _ hlt]
  · exact hf

theorem fn?_updateFn (s : Session) (r : FnRef) (g : Fn → Fn) (q : FnRef) :
    (s.updateFn r g).fn? q = if r = q then (s.fn? q).map g else s.fn? q := by
  obtain ⟨i, j⟩ := r
  obtain ⟨i', j'⟩ := q
  simp only [updateFn, fn?_updateModule, Module.updateFunction, List.getElem?_modify,
    FnRef.mk.injEq]
  by_cases hi : i = i'
  · subst hi
    by_cases hj : j = j' <;> cases h : s.modules[i]? <;> simp [fn?, module?, hj, h]
  · simp [hi]

theorem updateFn_updateFn (s : Session) (r : FnRef) (g h : Fn → Fn) :
    (s.updateFn r g).updateFn r h = s.updateFn r (h ∘ g) := by
  have hm : (fun m : Module => m.updateFunction r.index h) ∘
      (fun m : Module => m.updateFunction r.index g) =
        fun m : Module => m.updateFunction r.index (h ∘ g) := by
    ext1 m
    simp [Module.updateFunction, List.modify_modify_eq]
  simp only [updateFn, updateModule, List.modify_modify_eq, hm]

theorem markMeasurement_eq (s : Session) (r : FnRef) :
    s.markMeasurement r = (s.addAttr r (.param 2) (.mark .writeOnly)).addAttr r .function
      (.string (Bytes.ofString "irreversible") []) := by
  rw [addAttr, addAttr, updateFn_updateFn]
  rfl

theorem block?_updateBlock (s : Session) (b : BlockRef) (g : Block → Block) (c : BlockRef) :
    (s.updateBlock b g).block? c = if b = c then (s.block? c).map g else s.block? c := by
  obtain ⟨r, i⟩ := b
  obtain ⟨q, j⟩ := c
  simp only [updateBlock, block?, fn?_updateFn, BlockRef.mk.injEq]
  by_cases hr : r = q
  · subst hr
    by_cases hi : i = j <;> cases h : s.fn? r <;> simp [hi]
  · simp [hr]

theorem body?_updateFn {g : Fn → Fn} (h : ∀ f, (g f).blocks = f.blocks) (r : FnRef)
    (b : BlockRef) : (s.updateFn r g).body? b = s.body? b := by
  simp only [body?, block?, fn?_updateFn]
  split
  · cases s.fn? b.fn <;> simp [h]
  · rfl

theorem body?_updateBlock {g : Block → Block} (h : ∀ blk, (g blk).body = blk.body)
    (b c : BlockRef) : (s.updateBlock b g).body? c = s.body? c := by
  simp only [body?, block?_updateBlock]
  split
  · cases s.block? c <;> simp [h]
  · rfl

theorem skeleton_updateFn {g : Fn → Fn} (h : ∀ f, (g f).skeleton = f.skeleton) (r q : FnRef) :
    ((s.updateFn r g).fn? q).map Fn.skeleton = (s.fn? q).map Fn.skeleton := by
  rw [fn?_updateFn]
  split
  · cases s.fn? q <;> simp [h]
  · rfl

theorem skeleton_updateBlock (s : Session) (b : BlockRef) (g : Block → Block) (q : FnRef) :
    ((s.updateBlock b g).fn? q).map Fn.skeleton = (s.fn? q).map Fn.skeleton :=
  skeleton_updateFn (g := fun f => { f with blocks := f.blocks.modify b.index g })
    (fun _ => rfl) _ q

theorem append_eq (s : Session) (i : Instr) : s.append i =
    { s with
      modules := (s.append i).modules
      strays := (s.append i).strays
      mentions := (s.append i).mentions } := by
  cases i <;> simp only [append, Instr.targets, List.foldl] <;> unfold insert <;> split <;> rfl

@[simp] theorem position_append (s : Session) (i : Instr) : (s.append i).position = s.position := by
  rw [append_eq]

@[simp] theorem current_append (s : Session) (i : Instr) : (s.append i).current = s.current := by
  rw [append_eq]

@[simp] theorem registers_append (s : Session) (i : Instr) :
    (s.append i).registers = s.registers := by
  rw [append_eq]

@[simp] theorem structs_append (s : Session) (i : Instr) : (s.append i).structs = s.structs := by
  rw [append_eq]

theorem body?_insert (s : Session) (i : Instr) (c : BlockRef) :
    (s.insert i).body? c =
      if s.position = .endOf c then (s.body? c).map (· ++ [i]) else s.body? c := by
  unfold insert
  split
  next b hp =>
    rw [hp]
    simp only [body?, Position.endOf.injEq]
    change ((s.updateBlock b _).block? c).map _ = _
    rw [block?_updateBlock]
    split
    · cases s.block? c <;> rfl
    · rfl
  next hp =>
    rw [if_neg (hp c)]
    rfl

theorem body?_append (s : Session) (i : Instr) (c : BlockRef) :
    (s.append i).body? c =
      if s.position = .endOf c then (s.body? c).map (· ++ [i]) else s.body? c := by
  have h : ∀ blk : Block, (blk.addSource s.source).body = blk.body := fun _ => rfl
  rw [← body?_insert]
  cases i <;> simp only [append, Instr.targets, List.foldl, body?_updateBlock h]

theorem skeleton_append (s : Session) (i : Instr) (q : FnRef) :
    ((s.append i).fn? q).map Fn.skeleton = (s.fn? q).map Fn.skeleton := by
  have h : ((s.insert i).fn? q).map Fn.skeleton = (s.fn? q).map Fn.skeleton := by
    unfold insert
    split
    · exact skeleton_updateBlock s _ _ q
    · rfl
  cases i <;> simp only [append, Instr.targets, List.foldl, skeleton_updateBlock, h]

theorem fn?_addBlock (s : Session) (r : FnRef) (name : Bytes) (q : FnRef) :
    (s.addBlock r name).2.fn? q = if r = q then (s.fn? q).map (·.addBlock name) else s.fn? q :=
  fn?_updateFn s r _ q

theorem body?_addBlock (h : (s.fn? r).isSome) (name : Bytes) (c : BlockRef) :
    (s.addBlock r name).2.body? c = if c = ⟨r, s.size r⟩ then some [] else s.body? c := by
  obtain ⟨f, hf⟩ := Option.isSome_iff_exists.mp h
  obtain ⟨q, j⟩ := c
  simp only [body?, block?, fn?_addBlock, BlockRef.mk.injEq, size_eq hf]
  by_cases hr : r = q
  · subst hr
    simp only [hf, Fn.addBlock, List.getElem?_append, if_true, Option.map_some, Option.bind_some,
      true_and]
    rcases Nat.lt_trichotomy j f.blocks.length with hj | hj | hj
    · simp [hj, Nat.ne_of_lt hj]
    · simp [hj]
    · have hn : j - f.blocks.length ≠ 0 := by omega
      have hj' : f.blocks.length ≤ j := by omega
      simp [Nat.ne_of_gt hj, Nat.not_lt.mpr hj', hn]
  · simp [hr, Ne.symm hr]

theorem size_addBlock (h : (s.fn? r).isSome) (name : Bytes) :
    (s.addBlock r name).2.size r = s.size r + 1 := by
  obtain ⟨f, hf⟩ := Option.isSome_iff_exists.mp h
  simp [size, fn?_addBlock, hf, Fn.addBlock]

theorem skeleton_addBlock (s : Session) (r : FnRef) (name : Bytes) (q : FnRef) :
    ((s.addBlock r name).2.fn? q).map Fn.skeleton = (s.fn? q).map Fn.skeleton :=
  skeleton_updateFn (g := fun f => f.addBlock name) (fun _ => rfl) r q

theorem body?_updateModule {g : Module → Module} {i : Nat}
    (h : ∀ m, ∃ fs, (g m).functions = m.functions ++ fs ∧ ∀ f ∈ fs, f.blocks = [])
    (c : BlockRef) : (s.updateModule i g).body? c = s.body? c := by
  simp only [body?, block?, fn?_updateModule]
  split
  next hi =>
    subst hi
    simp only [fn?, module?]
    cases hm : s.modules[c.fn.module]? with
    | none => rfl
    | some m =>
      obtain ⟨fs, hfs, hb⟩ := h m
      simp only [Option.bind_some, hfs, List.getElem?_append]
      split
      · rfl
      next hn =>
        rw [List.getElem?_eq_none (Nat.not_lt.mp hn)]
        cases hf : fs[c.fn.index - m.functions.length]? with
        | none => rfl
        | some f => simp [hb f (List.mem_of_getElem? hf)]
  · rfl

@[simp] theorem body?_addFunction (s : Session) (i : Nat) (name : String) (sig : Signature)
    (l : Linkage) (c : BlockRef) : (s.addFunction i name sig l).2.body? c = s.body? c :=
  body?_updateModule (fun _ => ⟨_, rfl, by simp [Module.newFunction]⟩) c

@[simp] theorem body?_addGlobal (s : Session) (i : Nat) (name : String) (ty : Ty)
    (data : Option Bytes) (c : BlockRef) : (s.addGlobal i name ty data).2.body? c = s.body? c :=
  body?_updateModule (fun m => ⟨[], by simp [Module.addGlobal], by simp⟩) c

@[simp] theorem fn?_addGlobal (s : Session) (i : Nat) (name : String) (ty : Ty)
    (data : Option Bytes) (r : FnRef) : (s.addGlobal i name ty data).2.fn? r = s.fn? r := by
  simp only [addGlobal, fn?_updateModule]
  split
  next hi => subst hi; unfold fn? module?; cases s.modules[r.module]? <;> rfl
  · rfl

@[simp] theorem fn?_addFlag (s : Session) (i : Nat) (f : Flag) (r : FnRef) :
    (s.updateModule i (·.addFlag f)).fn? r = s.fn? r := by
  rw [fn?_updateModule]
  split
  next hi => subst hi; unfold fn? module?; cases s.modules[r.module]? <;> rfl
  · rfl

theorem fn?_addFunction (s : Session) (i : Nat) (name : String) (sig : Signature) (l : Linkage)
    {r : FnRef} {f : Fn} (h : (s.addFunction i name sig l).2.fn? r = some f) :
    s.fn? r = some f ∨ ∃ m, s.module? i = some m ∧ r = ⟨i, m.functions.length⟩ ∧
      (m.addFunction name sig l).functions = m.functions ++ [f] := by
  simp only [addFunction, fn?_updateModule] at h
  split at h
  next hi =>
    subst hi
    cases hm : s.module? r.module with
    | none => simp [hm] at h
    | some m =>
      simp only [hm, Option.bind_some, Module.addFunction, List.getElem?_append] at h
      split at h
      · exact .inl (fn?_eq_some_iff.mpr ⟨m, hm, h⟩)
      next hn =>
        rw [List.getElem?_singleton] at h
        split at h
        next he =>
          refine .inr ⟨m, rfl, ?_, by rw [← Option.some.inj h]; rfl⟩
          obtain ⟨j, k⟩ := r
          simp only [FnRef.mk.injEq, true_and] at he hn ⊢
          omega
        · cases h
  · exact .inl h

@[simp] theorem body?_addAttr (s : Session) (r : FnRef) (i : AttrIndex) (a : Attr) (c : BlockRef) :
    (s.addAttr r i a).body? c = s.body? c :=
  body?_updateFn (g := fun f => f.addAttr i a) (fun _ => rfl) r c

@[simp] theorem fn?_addModule (s : Session) (name : String) (r : FnRef) :
    (s.addModule name).fn? r = s.fn? r := by
  simp only [fn?, addModule, List.getElem?_append]
  split
  · rfl
  next hn =>
    rw [List.getElem?_eq_none (Nat.not_lt.mp hn)]
    cases r.module - s.modules.length <;> simp

@[simp] theorem body?_moveTo (s : Session) (b c : BlockRef) :
    (s.moveTo b).body? c = s.body? c := rfl

@[simp] theorem modules_ensureStruct (s : Session) (name : String) :
    (s.ensureStruct name).modules = s.modules := by
  unfold ensureStruct; split <;> rfl

@[simp] theorem position_ensureStruct (s : Session) (name : String) :
    (s.ensureStruct name).position = s.position := by
  unfold ensureStruct; split <;> rfl

@[simp] theorem current_ensureStruct (s : Session) (name : String) :
    (s.ensureStruct name).current = s.current := by
  unfold ensureStruct; split <;> rfl

/-- A cast leaves everything alone but the list of functions that have been cast. -/
theorem exists_noteCast_eq (s : Session) (c d : Constant) :
    ∃ castFns, s.noteCast c d = { s with castFns } := by
  unfold noteCast
  split
  · split
    · exact ⟨s.castFns, rfl⟩
    · exact ⟨_, rfl⟩
  · exact ⟨s.castFns, rfl⟩

@[simp] theorem modules_noteCast (s : Session) (c d : Constant) :
    (s.noteCast c d).modules = s.modules := by
  obtain ⟨_, h⟩ := s.exists_noteCast_eq c d
  rw [h]

@[simp] theorem position_noteCast (s : Session) (c d : Constant) :
    (s.noteCast c d).position = s.position := by
  obtain ⟨_, h⟩ := s.exists_noteCast_eq c d
  rw [h]

@[simp] theorem current_noteCast (s : Session) (c d : Constant) :
    (s.noteCast c d).current = s.current := by
  obtain ⟨_, h⟩ := s.exists_noteCast_eq c d
  rw [h]

@[simp] theorem registers_noteCast (s : Session) (c d : Constant) :
    (s.noteCast c d).registers = s.registers := by
  obtain ⟨_, h⟩ := s.exists_noteCast_eq c d
  rw [h]

@[simp] theorem structs_noteCast (s : Session) (c d : Constant) :
    (s.noteCast c d).structs = s.structs := by
  obtain ⟨_, h⟩ := s.exists_noteCast_eq c d
  rw [h]

theorem module?_congr {t : Session} (h : t.modules = s.modules) (i : Nat) :
    t.module? i = s.module? i := by rw [module?, module?, h]

theorem fn?_congr {t : Session} (h : t.modules = s.modules) (r : FnRef) : t.fn? r = s.fn? r := by
  rw [fn?, fn?, h]

theorem body?_congr {t : Session} (h : t.modules = s.modules) (c : BlockRef) :
    t.body? c = s.body? c := by rw [body?, body?, block?, block?, fn?_congr h]

end Session

end QuantumIR
