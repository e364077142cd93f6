import QuantumIR.Proofs.Invariant

/-! # Calls of operations

Calling an operation finds its function in the module of the builder's block or declares it there,
and appends a call of it where the builder stands. As long as no global has the name of an
operation, the function that is called has it, and nothing but this declaration, the marks of a
measurement and the builder's block has changed.
-/

namespace QuantumIR

open Relation

namespace Operation

def all : List Operation :=
  [barrier, h, s, sAdj, t, tAdj, x, y, z, reset, cx, cz, swap, ccx, rx, ry, rz, mz, readResult,
    setup, recordArray, recordTuple, recordResult]

theorem find?_symbol (op : Operation) : (all.find? fun o => o.symbol = op.symbol) = some op := by
  cases op <;> decide +kernel

theorem symbol_injective : Function.Injective symbol := by
  intro op op' h
  have hop := find?_symbol op
  rw [h, find?_symbol op'] at hop
  exact (Option.some.inj hop).symm

theorem not_prefix_symbol (op : Operation) : ¬ "llvm.".toList <+: op.symbol.toList := by
  cases op <;> decide +kernel

theorem symbol_ne_empty (op : Operation) : op.symbol ≠ "" := by
  cases op <;> decide +kernel

def declaration (op : Operation) : Fn := { name := op.symbol, sig := op.signature }

end Operation

/-- What calling an operation does to its function. -/
def Operation.marking (op : Operation) (f : Fn) : Fn := if op = .mz then f.marked else f

namespace Module

variable {m : Module} {op : Operation}

/-- No global has the name of an operation. -/
def Clear (m : Module) : Prop := ∀ g ∈ m.globals, ∀ op : Operation, g.name ≠ op.symbol

/-- The operations of a list whose name no function has, each once and in order. -/
def missing (m : Module) (ops : List Operation) : List Operation :=
  (ops.filter fun op => op.symbol ∉ m.functions.map Fn.name).eraseDups

def declared (m : Module) (ops : List Operation) : List Fn :=
  m.functions ++ (m.missing ops).map Operation.declaration

theorem missing_singleton (m : Module) (op : Operation) :
    m.missing [op] = if op.symbol ∈ m.functions.map Fn.name then [] else [op] := by
  unfold missing
  split <;> simp_all [List.eraseDups_cons]

theorem findFunction?_eq_none (h : m.findFunction? op.symbol = none) :
    op.symbol ∉ m.functions.map Fn.name := by
  unfold findFunction? at h
  rw [if_neg op.symbol_ne_empty] at h
  simpa using h

theorem findFunction?_eq_some {name : String} {k : Nat} (h : m.findFunction? name = some k) :
    ∃ f, m.functions[k]? = some f ∧ f.name = name := by
  unfold findFunction? at h
  split at h
  · cases h
  · obtain ⟨hk, hn, -⟩ := List.findIdx?_eq_some_iff_getElem.mp h
    exact ⟨m.functions[k], List.getElem?_eq_getElem hk, by simpa using hn⟩

theorem Grows.findFunction? {n : Module} (h : m.Grows n) {k : Nat}
    (hk : m.findFunction? op.symbol = some k) : n.findFunction? op.symbol = some k := by
  unfold Module.findFunction? at hk ⊢
  rw [if_neg op.symbol_ne_empty] at hk ⊢
  obtain ⟨hlt, hname, hfirst⟩ := List.findIdx?_eq_some_iff_getElem.mp hk
  have hgrown : ∀ j, j < m.functions.length → ∃ h : j < n.functions.length,
      n.functions[j].name = (m.functions[j]?.map Fn.name).getD "" := by
    intro j hj
    obtain ⟨g, hg, hfg⟩ := h.functions j _ (List.getElem?_eq_getElem hj)
    obtain ⟨hj', rfl⟩ := List.getElem?_eq_some_iff.mp hg
    exact ⟨hj', by simp [hfg.name, List.getElem?_eq_getElem hj]⟩
  obtain ⟨hlt', hname'⟩ := hgrown k hlt
  refine List.findIdx?_eq_some_iff_getElem.mpr ⟨hlt', ?_, fun j hj => ?_⟩
  · simpa [hname', List.getElem?_eq_getElem hlt] using hname
  · have hjlt := Nat.lt_trans hj hlt
    obtain ⟨hlt'', hname''⟩ := hgrown j hjlt
    simpa [hname'', List.getElem?_eq_getElem hjlt] using hfirst j hj

theorem addFunction_unreserved (m : Module) {name : String}
    (h : ¬ "llvm.".toList <+: name.toList) (sig : Signature) (l : Linkage) :
    m.addFunction name sig l =
      { m with
        functions := m.functions ++ [{ name := (m.freshSymbol name).1, sig, linkage := l }]
        nextSymbol := (m.freshSymbol name).2 } := by
  have hi : Intrinsic.find? name = none := by
    by_contra hi
    obtain ⟨i, hi⟩ := Option.ne_none_iff_exists'.mp hi
    exact h (Intrinsic.prefix_of_find? hi)
  simp [addFunction, newFunction, hi]

theorem addFunction_symbol (hc : m.Clear) (h : op.symbol ∉ m.functions.map Fn.name) :
    m.addFunction op.symbol op.signature =
      { m with functions := m.functions ++ [op.declaration] } := by
  have hs : op.symbol ∉ m.symbols := by
    intro hs
    rcases List.mem_append.mp (List.mem_filter.mp hs).1 with hg | hf
    · obtain ⟨g, hg, hn⟩ := List.mem_map.mp hg
      exact hc g hg op hn
    · exact h hf
  rw [addFunction_unreserved m op.not_prefix_symbol]
  simp [freshSymbol, Name.fresh, hs, Operation.declaration]

end Module

theorem Module.addGlobal_ofString (m : Module) (data : Bytes) :
    m.addGlobal "" (Global.ofString data).ty (some data) =
      { m with globals := m.globals ++ [.ofString data] } := by
  have h : "" ∉ m.symbols := by simp [Module.symbols]
  simp [Module.addGlobal, Module.freshSymbol, Name.fresh, h, Global.ofString]

namespace Session

variable {s t : Session} {b : BlockRef} {op : Operation} {args : List Value} {v : Value}
  {m : Module}
  {i : Nat}

theorem SideEffect.module? (h : SideEffect s t) (hm : s.module? i = some m) :
    ∃ strings : List Bytes, (i ≠ s.current → strings = []) ∧
      t.module? i = some { m with globals := m.globals ++ strings.map .ofString } := by
  cases h with
  | struct name => exact ⟨[], fun _ => rfl, by simpa [module?_congr (modules_ensureStruct s name)]⟩
  | cast c d => exact ⟨[], fun _ => rfl, by simpa [module?_congr (modules_noteCast s c d)]⟩
  | @string _ data c h =>
    obtain ⟨-, rfl⟩ := addString_ok h
    simp only [addGlobal, module?_updateModule, hm]
    by_cases hi : s.current = i
    · refine ⟨[terminated data], fun hn => absurd hi.symm hn, ?_⟩
      rw [if_pos hi, Option.map_some, Module.addGlobal_ofString]
      rfl
    · exact ⟨[], fun _ => rfl, by simp [hi]⟩

theorem Evaluates.module? (h : Evaluates s t) (hm : s.module? i = some m) :
    ∃ strings : List Bytes, (i ≠ s.current → strings = []) ∧
      t.module? i = some { m with globals := m.globals ++ strings.map .ofString } := by
  induction h with
  | refl => exact ⟨[], fun _ => rfl, by simpa⟩
  | tail hst h ih =>
    obtain ⟨xs, hx, hxs⟩ := ih
    obtain ⟨ys, hy, hys⟩ := h.module? hxs
    refine ⟨xs ++ ys, fun hi => ?_, by simpa using hys⟩
    rw [hx hi, hy (by rwa [Evaluates.current hst])]
    rfl

theorem modules_foldl_ensureStruct (names : List String) (s : Session) :
    (names.foldl ensureStruct s).modules = s.modules := by
  induction names generalizing s with
  | nil => rfl
  | cons name names ih => exact (ih _).trans (modules_ensureStruct s name)

theorem body?_prepare (s : Session) (i : Nat) (op : Operation) (c : BlockRef) :
    (s.prepare i op).2.body? c = s.body? c :=
  prepare_induction (P := fun t => t.body? c = s.body? c) rfl
    (fun t name h => (body?_congr (modules_ensureStruct t name) c).trans h)
    (fun t h => (body?_addFunction t i _ _ _ c).trans h)
    (fun t r x a _ h => (body?_addAttr t r x a c).trans h)

/-- The function of an operation is found or declared. -/
theorem declare_spec (op : Operation) (hm : s.module? i = some m) (hc : m.Clear) :
    ∃ k, (s.declare i op).1 = ⟨i, k⟩ ∧
      ({ m with functions := m.declared [op] } : Module).findFunction? op.symbol = some k ∧
      (s.declare i op).2.module? i = some { m with functions := m.declared [op] } ∧
      ∀ j, j ≠ i → (s.declare i op).2.module? j = s.module? j := by
  unfold declare
  rw [hm, Option.bind_some]
  cases hk : m.findFunction? op.symbol with
  | some k =>
    obtain ⟨f, hf, hn⟩ := Module.findFunction?_eq_some hk
    have hd : m.declared [op] = m.functions := by
      have hmem : op.symbol ∈ m.functions.map Fn.name :=
        List.mem_map.mpr ⟨f, List.mem_of_getElem? hf, hn⟩
      simp [Module.declared, Module.missing_singleton, hmem]
    rw [hd]
    exact ⟨k, rfl, hk, hm, fun _ _ => rfl⟩
  | none =>
    have hmem := Module.findFunction?_eq_none hk
    have hd : m.declared [op] = m.functions ++ [op.declaration] := by
      simp [Module.declared, Module.missing_singleton, hmem]
    refine ⟨m.functions.length, ?_, ?_, ?_, fun j hj => ?_⟩
    · have hm' : s.modules[i]? = some m := hm
      simp [addFunction, hm']
    · have hnone : m.functions.findIdx? (fun f => decide (f.name = op.symbol)) = none := by
        simpa using hmem
      simp [Module.findFunction?, op.symbol_ne_empty, hd, hnone, Operation.declaration]
    · simp only [addFunction, module?_updateModule, if_true, hm, Option.map_some]
      rw [Module.addFunction_symbol hc hmem, hd]
    · simp only [addFunction, module?_updateModule, Ne.symm hj, if_false]

theorem module?_markMeasurement (s : Session) (r : FnRef) (j : Nat) :
    (s.markMeasurement r).module? j =
      if r.module = j then (s.module? j).map (·.updateFunction r.index Fn.marked)
      else s.module? j :=
  module?_updateModule s r.module _ j

theorem prepare_spec (op : Operation) (hm : s.module? i = some m) (hc : m.Clear) :
    ∃ k, (s.prepare i op).1 = ⟨i, k⟩ ∧
      ({ m with functions := m.declared [op] } : Module).findFunction? op.symbol = some k ∧
      (s.prepare i op).2.module? i =
        some { m with functions := (m.declared [op]).modify k op.marking } ∧
      ∀ j, j ≠ i → (s.prepare i op).2.module? j = s.module? j := by
  have hs := modules_foldl_ensureStruct op.structs s
  obtain ⟨k, hr, hk, hi, hj⟩ := declare_spec op ((module?_congr hs i).trans hm) hc
  refine ⟨k, hr, hk, ?_, fun j hji => ?_⟩
  · simp only [prepare, mark, hr]
    by_cases hop : op = .mz
    · simp only [hop, if_true, module?_markMeasurement] at hi ⊢
      rw [hi]
      rfl
    · have hid : op.marking = id := by funext f; simp [Operation.marking, hop]
      simpa [hop, hid, List.modify_id] using hi
  · rw [← module?_congr hs j, ← hj j hji]
    simp only [prepare, mark, hr]
    split
    · rw [module?_markMeasurement, if_neg (Ne.symm hji)]
    · rfl

/-- A call of the function of an operation is appended to the builder's block. -/
theorem emit_spec {body : List Instr} (hp : s.position = .endOf b) (hb : s.body? b = some body)
    (h : s.emit op args = .ok (v, t)) :
    ∃ callee u sig, s.prepare b.fn.module op = (callee, u) ∧
      sig = ((u.fn? callee).map Fn.sig).getD ⟨.void, []⟩ ∧ t = u.append (.call callee sig args) ∧
      v = .bound (.result (.placed ⟨b, body.length⟩) sig.ret) := by
  obtain ⟨c, hc, hemit⟩ := emit_ok h
  obtain rfl : b = c := Position.endOf.inj (hp.symm.trans hc)
  obtain ⟨rfl, rfl⟩ := Prod.mk.inj hemit
  have hu := (position_prepare s b.fn.module op).trans hp
  have hub := (body?_prepare s b.fn.module op b).trans hb
  obtain ⟨blk, hblk, rfl⟩ := Option.map_eq_some_iff.mp hub
  refine ⟨(s.prepare b.fn.module op).1, (s.prepare b.fn.module op).2, _, rfl, rfl, rfl, ?_⟩
  simp [nextSite, hu, hblk]

theorem context_prepare (s : Session) (i : Nat) (op : Operation) :
    (s.prepare i op).2.context = s.context := by
  refine prepare_induction (P := fun t => t.context = s.context) rfl ?_ (fun _ h => h)
    (fun _ _ _ _ _ h => h)
  intro t name h
  unfold ensureStruct
  split <;> exact h

def ClearAt (s : Session) (i : Nat) : Prop := ∃ m, s.module? i = some m ∧ m.Clear

theorem ClearAt.of_evaluates (hc : s.ClearAt i) (h : Evaluates s t) : t.ClearAt i := by
  obtain ⟨m, hm, hc⟩ := hc
  obtain ⟨strings, -, ht⟩ := h.module? hm
  refine ⟨_, ht, fun g hg op hn => ?_⟩
  rcases List.mem_append.mp hg with hg | hg
  · exact hc g hg op hn
  · obtain ⟨data, -, rfl⟩ := List.mem_map.mp hg
    exact op.symbol_ne_empty hn.symm

theorem ClearAt.of_recodes {r : FnRef} (hc : s.ClearAt i) (h : Recodes r s t) : t.ClearAt i := by
  obtain ⟨m, hm, hc⟩ := hc
  obtain ⟨g, -, hi⟩ := h.module?
  specialize hi i
  split at hi
  · exact ⟨m.updateFunction r.index g, hi.trans (by rw [hm]; rfl), hc⟩
  · exact ⟨m, hi.trans hm, hc⟩

theorem ClearAt.of_prepare (hc : s.ClearAt i) (op : Operation) : (s.prepare i op).2.ClearAt i := by
  obtain ⟨m, hm, hc⟩ := hc
  obtain ⟨k, -, -, hi, -⟩ := prepare_spec op hm hc
  exact ⟨_, hi, hc⟩

/-- Once an operation has been made ready, only the code of the builder's function changes. -/
theorem emit_recodes (hp : s.position = .endOf b) (h : s.emit op args = .ok (v, t)) :
    Recodes b.fn (s.prepare b.fn.module op).2 t := by
  obtain ⟨c, hc, hemit⟩ := emit_ok h
  obtain rfl : b = c := Position.endOf.inj (hp.symm.trans hc)
  obtain ⟨-, rfl⟩ := Prod.mk.inj hemit
  exact .append ((position_prepare s b.fn.module op).trans hp) rfl (by simp [Instr.targets])

theorem emit_body {body : List Instr} (hp : s.position = .endOf b) (hb : s.body? b = some body)
    (h : s.emit op args = .ok (v, t)) :
    ∃ callee sig, t.body? b = some (body ++ [.call callee sig args]) ∧
      ∀ c, c ≠ b → t.body? c = s.body? c := by
  obtain ⟨callee, u, sig, hu, -, rfl, -⟩ := emit_spec hp hb h
  have hpu := (position_prepare s b.fn.module op).trans hp
  have hbu := body?_prepare s b.fn.module op
  rw [hu] at hpu hbu
  refine ⟨callee, sig, ?_, fun c hcb => ?_⟩
  · rw [body?_append, hbu, hpu, if_pos rfl, hb]
    rfl
  · rw [body?_append, hbu, hpu, if_neg (by simpa using Ne.symm hcb)]

def Finds (s : Session) (i : Nat) (op : Operation) (k : Nat) : Prop :=
  ∃ m, s.module? i = some m ∧ m.findFunction? op.symbol = some k

theorem Finds.grows {k : Nat} (h : s.Finds i op k) (hg : s.Grows t) : t.Finds i op k := by
  obtain ⟨m, hm, hk⟩ := h
  obtain ⟨n, hn, hmn⟩ := hg.module? hm
  exact ⟨n, hn, hmn.findFunction? hk⟩

theorem Finds.fn? {k : Nat} (h : s.Finds i op k) :
    ∃ f, s.fn? ⟨i, k⟩ = some f ∧ f.name = op.symbol := by
  obtain ⟨m, hm, hk⟩ := h
  obtain ⟨f, hf, hn⟩ := Module.findFunction?_eq_some hk
  exact ⟨f, fn?_eq_some_iff.mpr ⟨m, hm, hf⟩, hn⟩

theorem ClearAt.finds_prepare (hc : s.ClearAt i) (op : Operation) :
    ∃ k, (s.prepare i op).1 = ⟨i, k⟩ ∧ (s.prepare i op).2.Finds i op k := by
  obtain ⟨m, hm, hc⟩ := hc
  obtain ⟨k, hk, hfind, hi, -⟩ := prepare_spec op hm hc
  refine ⟨k, hk, _, hi, Module.Grows.findFunction? ?_ hfind⟩
  refine ⟨rfl, List.prefix_refl _, List.prefix_refl _, .modify Fn.Grows.refl (fun f => ?_) _ _⟩
  unfold Operation.marking
  split
  · exact ⟨rfl, rfl, rfl, rfl, .refl Block.Grows.refl _⟩
  · exact .refl f

theorem emit_at {body : List Instr} {k : Nat} {f : Fn} (hp : s.position = .endOf b)
    (hb : s.body? b = some body) (h : s.emit op args = .ok (v, t))
    (hk : (s.prepare b.fn.module op).1 = ⟨b.fn.module, k⟩)
    (hf : (s.prepare b.fn.module op).2.fn? ⟨b.fn.module, k⟩ = some f) :
    (s.prepare b.fn.module op).2.Grows t ∧ ∃ g, t.fn? ⟨b.fn.module, k⟩ = some g ∧ f.Grows g ∧
      t.body? b = some (body ++ [.call ⟨b.fn.module, k⟩ g.sig args]) ∧
      v = .bound (.result (.placed ⟨b, body.length⟩) g.sig.ret) := by
  obtain ⟨callee, u, sig, hu, hsig, rfl, hv⟩ := emit_spec hp hb h
  have hpu := (position_prepare s b.fn.module op).trans hp
  have hbu := body?_prepare s b.fn.module op b
  rw [hu] at hk hf hpu hbu ⊢
  subst hk
  have hgrows := Grows.append u (.call ⟨b.fn.module, k⟩ sig args)
  obtain ⟨g, hg, hfg⟩ := hgrows.fn? hf
  have hs : sig = g.sig := by
    rw [hfg.sig, hsig, hf]
    rfl
  subst hs
  refine ⟨hgrows, g, hg, hfg, ?_, hv⟩
  rw [body?_append, hbu, hpu, if_pos rfl, hb]
  rfl

theorem emit_call {body : List Instr} (hc : s.ClearAt b.fn.module) (hp : s.position = .endOf b)
    (hb : s.body? b = some body) (h : s.emit op args = .ok (v, t)) :
    ∃ k f, t.Finds b.fn.module op k ∧ t.fn? ⟨b.fn.module, k⟩ = some f ∧
      t.body? b = some (body ++ [.call ⟨b.fn.module, k⟩ f.sig args]) ∧
      v = .bound (.result (.placed ⟨b, body.length⟩) f.sig.ret) := by
  obtain ⟨k, hk, hfind⟩ := hc.finds_prepare op
  obtain ⟨f, hf, -⟩ := hfind.fn?
  obtain ⟨hgrows, g, hg, -, hbody, hv⟩ := emit_at hp hb h hk hf
  exact ⟨k, g, hfind.grows hgrows, hg, hbody, hv⟩

end Session

end QuantumIR
