import QuantumIR.Proofs.Update

/-! # Growing sessions

Nothing that has been built is taken away: modules, functions and blocks keep their places, and
instructions are only ever added behind others. So what is known about the code at a place stays
true.
-/

namespace QuantumIR

section Continues

variable {α : Type} {R : α → α → Prop} {xs ys zs : List α}

/-- The second list goes on where the first one ends, and each entry of the first has become one
that it is related to. -/
def Continues (R : α → α → Prop) (xs ys : List α) : Prop :=
  ∀ (i : Nat) a, xs[i]? = some a → ∃ b, ys[i]? = some b ∧ R a b

theorem Continues.refl (h : ∀ a, R a a) (xs : List α) : Continues R xs xs :=
  fun _ a ha => ⟨a, ha, h a⟩

theorem Continues.length_le (h : Continues R xs ys) : xs.length ≤ ys.length := by
  by_contra hlt
  obtain ⟨b, hb, -⟩ := h ys.length _ (List.getElem?_eq_getElem (Nat.not_le.mp hlt))
  simp at hb

theorem Continues.trans (h : ∀ a b c, R a b → R b c → R a c) (hx : Continues R xs ys)
    (hy : Continues R ys zs) : Continues R xs zs := by
  intro i a ha
  obtain ⟨b, hb, hab⟩ := hx i a ha
  obtain ⟨c, hc, hbc⟩ := hy i b hb
  exact ⟨c, hc, h a b c hab hbc⟩

theorem Continues.append (h : ∀ a, R a a) (xs ys : List α) : Continues R xs (xs ++ ys) := by
  intro i a ha
  have hi := (List.getElem?_eq_some_iff.mp ha).1
  exact ⟨a, by rw [List.getElem?_append_left hi, ha], h a⟩

theorem Continues.modify {g : α → α} (h : ∀ a, R a a) (hg : ∀ a, R a (g a)) (xs : List α)
    (n : Nat) : Continues R xs (xs.modify n g) := by
  intro i a ha
  by_cases hn : n = i
  · exact ⟨g a, by simp [ha, hn], hg a⟩
  · exact ⟨a, by simp [ha, hn], h a⟩

end Continues

structure Block.Grows (b c : Block) : Prop where
  name : c.name = b.name
  body : b.body <+: c.body

theorem Block.Grows.refl (b : Block) : b.Grows b := ⟨rfl, List.prefix_refl _⟩

theorem Block.Grows.trans (a b c : Block) (h : a.Grows b) (h' : b.Grows c) : a.Grows c :=
  ⟨h'.name.trans h.name, h.body.trans h'.body⟩

/-- A function keeps what it was declared as and gets more code. -/
structure Fn.Grows (f g : Fn) : Prop where
  name : g.name = f.name
  sig : g.sig = f.sig
  linkage : g.linkage = f.linkage
  intrinsic : g.intrinsic = f.intrinsic
  blocks : Continues Block.Grows f.blocks g.blocks

theorem Fn.Grows.refl (f : Fn) : f.Grows f := ⟨rfl, rfl, rfl, rfl, .refl .refl _⟩

theorem Fn.Grows.trans (f g h : Fn) (hf : f.Grows g) (hg : g.Grows h) : f.Grows h :=
  ⟨hg.name.trans hf.name, hg.sig.trans hf.sig, hg.linkage.trans hf.linkage,
    hg.intrinsic.trans hf.intrinsic, hf.blocks.trans Block.Grows.trans hg.blocks⟩

structure Module.Grows (m n : Module) : Prop where
  name : n.name = m.name
  globals : m.globals <+: n.globals
  flags : m.flags <+: n.flags
  functions : Continues Fn.Grows m.functions n.functions

theorem Module.Grows.refl (m : Module) : m.Grows m :=
  ⟨rfl, List.prefix_refl _, List.prefix_refl _, .refl .refl _⟩

theorem Module.Grows.trans (l m n : Module) (h : l.Grows m) (h' : m.Grows n) : l.Grows n :=
  ⟨h'.name.trans h.name, h.globals.trans h'.globals, h.flags.trans h'.flags,
    h.functions.trans Fn.Grows.trans h'.functions⟩

namespace Session

def Grows (s t : Session) : Prop := Continues Module.Grows s.modules t.modules

variable {s t u : Session}

namespace Grows

theorem refl (s : Session) : s.Grows s := Continues.refl Module.Grows.refl _

theorem trans (h : s.Grows t) (h' : t.Grows u) : s.Grows u :=
  Continues.trans Module.Grows.trans h h'

theorem of_modules_eq (h : t.modules = s.modules) : s.Grows t := by
  unfold Grows
  rw [h]
  exact Continues.refl Module.Grows.refl _

theorem module? (h : s.Grows t) {i : Nat} {m : Module} (hm : s.module? i = some m) :
    ∃ n, t.module? i = some n ∧ m.Grows n :=
  h i m hm

theorem fn? (h : s.Grows t) {r : FnRef} {f : Fn} (hf : s.fn? r = some f) :
    ∃ g, t.fn? r = some g ∧ f.Grows g := by
  obtain ⟨m, hm, hf⟩ := fn?_eq_some_iff.mp hf
  obtain ⟨n, hn, hmn⟩ := h.module? hm
  obtain ⟨g, hg, hfg⟩ := hmn.functions _ _ hf
  exact ⟨g, fn?_eq_some_iff.mpr ⟨n, hn, hg⟩, hfg⟩

theorem body? (h : s.Grows t) {b : BlockRef} {xs : List Instr} (hb : s.body? b = some xs) :
    ∃ ys, t.body? b = some ys ∧ xs <+: ys := by
  obtain ⟨f, blk, hf, hblk, rfl⟩ := body?_eq_some_iff.mp hb
  obtain ⟨g, hg, hfg⟩ := h.fn? hf
  obtain ⟨blk', hblk', hgrows⟩ := hfg.blocks _ _ hblk
  exact ⟨blk'.body, body?_eq_some_iff.mpr ⟨g, blk', hg, hblk', rfl⟩, hgrows.body⟩

theorem isSome_body? (h : s.Grows t) {b : BlockRef} (hb : (s.body? b).isSome) :
    (t.body? b).isSome := by
  obtain ⟨xs, hxs⟩ := Option.isSome_iff_exists.mp hb
  obtain ⟨ys, hys, -⟩ := h.body? hxs
  simp [hys]

theorem body?_eq_none (h : s.Grows t) {b : BlockRef} (hb : t.body? b = none) :
    s.body? b = none := by
  by_contra hn
  have hsome := h.isSome_body? (Option.isSome_iff_ne_none.mpr hn)
  rw [hb] at hsome
  cases hsome

theorem updateModule {g : Module → Module} (hg : ∀ m : Module, m.Grows (g m)) (s : Session)
    (i : Nat) : s.Grows (s.updateModule i g) :=
  Continues.modify Module.Grows.refl hg _ _

theorem updateFn {g : Fn → Fn} (hg : ∀ f : Fn, f.Grows (g f)) (s : Session) (r : FnRef) :
    s.Grows (s.updateFn r g) := by
  refine updateModule (g := fun m => m.updateFunction r.index g) (fun m => ?_) s r.module
  exact ⟨rfl, List.prefix_refl _, List.prefix_refl _, Continues.modify Fn.Grows.refl hg _ _⟩

theorem updateBlock {g : Block → Block} (hg : ∀ b : Block, b.Grows (g b)) (s : Session)
    (b : BlockRef) : s.Grows (s.updateBlock b g) := by
  refine updateFn (g := fun f => { f with blocks := f.blocks.modify b.index g })
    (fun f => ?_) s b.fn
  exact ⟨rfl, rfl, rfl, rfl, Continues.modify Block.Grows.refl hg _ _⟩

theorem insert (s : Session) (i : Instr) : s.Grows (s.insert i) := by
  unfold Session.insert
  split
  · exact (updateBlock (g := (·.push i)) (fun _ => ⟨rfl, List.prefix_append _ _⟩) s _).trans
      (of_modules_eq rfl)
  · exact of_modules_eq rfl

theorem append (s : Session) (i : Instr) : s.Grows (s.append i) := by
  have h : ∀ blk : Block, blk.Grows (blk.addSource s.source) :=
    fun _ => ⟨rfl, List.prefix_refl _⟩
  cases i with
  | call _ _ _ => exact insert s _
  | ret _ => exact insert s _
  | br b => exact (insert s _).trans (updateBlock h _ b)
  | condBr _ a b => exact ((insert s _).trans (updateBlock h _ a)).trans (updateBlock h _ b)

theorem addBlock (s : Session) (r : FnRef) (name : Bytes) : s.Grows (s.addBlock r name).2 := by
  refine updateFn (g := fun f => f.addBlock name) (fun f => ?_) s r
  exact ⟨rfl, rfl, rfl, rfl, Continues.append Block.Grows.refl _ _⟩

theorem addAttr (s : Session) (r : FnRef) (i : AttrIndex) (a : Attr) :
    s.Grows (s.addAttr r i a) := by
  refine updateFn (g := fun f => f.addAttr i a) (fun f => ?_) s r
  exact ⟨rfl, rfl, rfl, rfl, Continues.refl Block.Grows.refl _⟩

theorem addFunction (s : Session) (i : Nat) (name : String) (sig : Signature) (l : Linkage) :
    s.Grows (s.addFunction i name sig l).2 := by
  refine updateModule (g := fun m => m.addFunction name sig l) (fun m => ?_) s i
  exact ⟨rfl, List.prefix_refl _, List.prefix_refl _, Continues.append Fn.Grows.refl _ _⟩

theorem addGlobal (s : Session) (i : Nat) (name : String) (ty : Ty) (data : Option Bytes) :
    s.Grows (s.addGlobal i name ty data).2 := by
  refine updateModule (g := fun m => m.addGlobal name ty data) (fun m => ?_) s i
  exact ⟨rfl, List.prefix_append _ _, List.prefix_refl _, Continues.refl Fn.Grows.refl _⟩

theorem addFlag (s : Session) (i : Nat) (f : Flag) : s.Grows (s.updateModule i (·.addFlag f)) := by
  refine updateModule (g := (·.addFlag f)) (fun m => ?_) s i
  exact ⟨rfl, List.prefix_refl _, List.prefix_append _ _, Continues.refl Fn.Grows.refl _⟩

theorem addModule (s : Session) (name : String) : s.Grows (s.addModule name) :=
  Continues.append Module.Grows.refl _ _

end Grows

end Session

end QuantumIR
