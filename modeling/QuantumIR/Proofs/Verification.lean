import QuantumIR.Proofs.Closing

/-! # What verification says

A module passes verification if and only if its flags, its globals and the heads of its functions
are valid, each block is closed, each instruction fits its function, and neither casts nor
instructions outside the module get in the way. Blocks and instructions are named by their place in
the session, so that what building does to them can be followed.
-/

namespace QuantumIR

open Session

theorem all_mapIdx {α : Type} {g : Nat → α → Bool} {l : List α} :
    (l.mapIdx g).all id = true ↔ ∀ i a, l[i]? = some a → g i a = true := by
  simp only [List.all_eq_true, List.mem_iff_getElem?, List.getElem?_mapIdx, id]
  constructor
  · intro h i a ha
    exact h _ ⟨i, by rw [ha]; rfl⟩
  · rintro h x ⟨i, hx⟩
    obtain ⟨a, ha, rfl⟩ := Option.map_eq_some_iff.mp hx
    exact h i a ha

/-- A function is valid apart from its code. -/
structure Fn.HeadValid (f : Fn) : Prop where
  linkage : f.linkage = .external ∨ f.blocks ≠ []
  reserved : f.isReserved = true → f.blocks = []
  params : ∀ t ∈ f.sig.params, t ≠ .void
  attrs : ∀ x ∈ f.attrs, f.attrValid x = true

theorem Block.valid_iff {r : FnRef} {f : Fn} {d : Nat} {blk : Block} :
    blk.valid r f d = true ↔
      Closed blk.body ∧ ∀ k (i : Instr), blk.body[k]? = some i → i.valid r f d k = true := by
  rw [Block.valid, Bool.and_eq_true, Block.terminated_iff, all_mapIdx]

theorem Fn.valid_iff {r : FnRef} {f : Fn} :
    f.valid r = true ↔
      f.HeadValid ∧ ∀ d (blk : Block), f.blocks[d]? = some blk → blk.valid r f d = true := by
  rw [Fn.valid, Bool.and_eq_true, all_mapIdx]
  simp only [Bool.and_eq_true, Bool.or_eq_true, decide_eq_true_eq, Bool.not_eq_true',
    List.isEmpty_iff, List.isEmpty_eq_false_iff, List.all_eq_true]
  constructor
  · rintro ⟨⟨⟨⟨hl, hr⟩, hp⟩, ha⟩, hb⟩
    refine ⟨⟨hl, fun h => ?_, hp, ha⟩, hb⟩
    rcases hr with hr | hr
    · rw [h] at hr
      cases hr
    · exact hr
  · rintro ⟨⟨hl, hr, hp, ha⟩, hb⟩
    refine ⟨⟨⟨⟨hl, ?_⟩, hp⟩, ha⟩, hb⟩
    cases h : f.isReserved with
    | false => exact .inl rfl
    | true => exact .inr (hr h)

namespace Session

variable {s : Session} {i : Nat} {m : Module}

theorem fn?_of_module? (hm : s.module? i = some m) {q : FnRef} (hq : q.module = i) :
    s.fn? q = m.functions[q.index]? := by
  have hm : s.modules[i]? = some m := hm
  rw [fn?, hq, hm]
  rfl

theorem mem_instrs (hm : s.module? i = some m) {x : Instr} :
    x ∈ m.instrs ↔ ∃ d body, d.fn.module = i ∧ s.body? d = some body ∧ x ∈ body := by
  simp only [Module.instrs, List.mem_flatMap]
  constructor
  · rintro ⟨f, hf, blk, hblk, hx⟩
    obtain ⟨k, hk⟩ := List.mem_iff_getElem?.mp hf
    obtain ⟨d, hd⟩ := List.mem_iff_getElem?.mp hblk
    exact ⟨⟨⟨i, k⟩, d⟩, blk.body, rfl,
      body?_eq_some_iff.mpr ⟨f, blk, fn?_eq_some_iff.mpr ⟨m, hm, hk⟩, hd, rfl⟩, hx⟩
  · rintro ⟨d, body, rfl, hb, hx⟩
    obtain ⟨f, blk, hf, hblk, rfl⟩ := body?_eq_some_iff.mp hb
    obtain ⟨m', hm', hf⟩ := fn?_eq_some_iff.mp hf
    obtain rfl : m = m' := Option.some.inj (hm.symm.trans hm')
    exact ⟨f, List.mem_of_getElem? hf, blk, List.mem_of_getElem? hblk, hx⟩

theorem mem_outsideInstrs {x : Instr} :
    x ∈ s.outsideInstrs i ↔
      x ∈ s.strays ∨ ∃ d body, d.fn.module ≠ i ∧ s.body? d = some body ∧ x ∈ body := by
  rw [outsideInstrs, List.mem_append, List.mem_flatMap]
  refine or_congr_right ⟨?_, ?_⟩
  · rintro ⟨n, hn, hx⟩
    obtain ⟨j, hj, hn⟩ := List.mem_eraseIdx_iff_getElem?.mp hn
    obtain ⟨d, body, rfl, hb, hx⟩ := (mem_instrs hn).mp hx
    exact ⟨d, body, hj, hb, hx⟩
  · rintro ⟨d, body, hd, hb, hx⟩
    obtain ⟨f, blk, hf, -⟩ := body?_eq_some_iff.mp hb
    obtain ⟨n, hn, -⟩ := fn?_eq_some_iff.mp hf
    exact ⟨n, List.mem_eraseIdx_iff_getElem?.mpr ⟨_, hd, hn⟩,
      (mem_instrs hn).mpr ⟨d, body, rfl, hb, hx⟩⟩

def Addressable (s : Session) (i : Nat) (q : FnRef) : Prop :=
  q.module = i → ∀ g, s.fn? q = some g → g.isReserved = false

/-- An instruction of a module calls its functions as they ask for, and takes the address of those
only that allow it. -/
structure Respects (s : Session) (i : Nat) (x : Instr) : Prop where
  call : ∀ callee sig args, x = .call callee sig args → callee.module = i →
    ∀ g, s.fn? callee = some g → g.callValid sig args = true
  address : ∀ v ∈ x.operands, ∀ q, v.function? = some q → s.Addressable i q

/-- What a module has to be to pass verification. -/
structure Sound (s : Session) (i : Nat) (m : Module) : Prop where
  flags : m.flagsValid = true
  globals : ∀ g ∈ m.globals, g.valid = true
  heads : ∀ (k : Nat) (f : Fn), m.functions[k]? = some f → f.HeadValid
  closed : ∀ d body, d.fn.module = i → s.body? d = some body → Closed body
  instrs : ∀ d f body k x, d.fn.module = i → s.fn? d.fn = some f → s.body? d = some body →
    body[k]? = some x → x.valid d.fn f d.index k = true ∧ s.Respects i x
  casts : ∀ q ∈ s.castFns, s.Addressable i q
  strays : ∀ x ∈ s.strays, i ∉ x.modules
  others : ∀ d body, d.fn.module ≠ i → s.body? d = some body → ∀ x ∈ body, i ∉ x.modules

theorem callsValid_iff (hm : s.module? i = some m) :
    m.callsValid i = true ↔ ∀ x ∈ m.instrs, ∀ callee sig args, x = .call callee sig args →
      callee.module = i → ∀ g, s.fn? callee = some g → g.callValid sig args = true := by
  rw [Module.callsValid, List.all_eq_true]
  refine forall₂_congr fun x _ => ?_
  cases x with
  | call callee sig args =>
    simp only [Bool.or_eq_true, decide_eq_true_eq, Instr.call.injEq]
    constructor
    · rintro h _ _ _ ⟨rfl, rfl, rfl⟩ hi g hg
      rw [fn?_of_module? hm hi] at hg
      simpa [hg] using h.resolve_left fun hn => hn hi
    · intro h
      by_cases hi : callee.module = i
      · refine .inr ?_
        cases hg : m.functions[callee.index]? with
        | none => rfl
        | some g => exact h callee sig args ⟨rfl, rfl, rfl⟩ hi g ((fn?_of_module? hm hi).trans hg)
      · exact .inl hi
  | ret _ => simp
  | br _ => simp
  | condBr _ _ _ => simp

theorem addressesValid_iff (hm : s.module? i = some m) :
    m.addressesValid i s.castFns = true ↔ (∀ q ∈ s.castFns, s.Addressable i q) ∧
      ∀ x ∈ m.instrs, ∀ v ∈ x.operands, ∀ q, v.function? = some q → s.Addressable i q := by
  have haddr : ∀ q : FnRef, (decide (q.module ≠ i) ||
      !((m.functions[q.index]?).map Fn.isReserved).getD false) = true ↔ s.Addressable i q := by
    intro q
    by_cases hi : q.module = i
    · have hq := fn?_of_module? hm hi
      cases hg : m.functions[q.index]? <;> simp [Addressable, hq, hg, hi]
    · simp [Addressable, hi]
  simp only [Module.addressesValid, List.all_append, Bool.and_eq_true, List.all_eq_true, haddr,
    List.mem_flatMap, List.mem_filterMap]
  refine and_congr_right fun _ => ⟨fun h x hx v hv q hq => ?_, ?_⟩
  · exact h q ⟨x, hx, v, hv, hq⟩
  · rintro h q ⟨x, hx, v, hv, hq⟩
    exact h x hx v hv q hq

/-- A module passes verification if and only if it is sound. -/
theorem verify_iff_sound (hm : s.module? i = some m) : s.verify i m = true ↔ s.Sound i m := by
  have hfn : ∀ k, s.fn? ⟨i, k⟩ = m.functions[k]? := fun k => fn?_of_module? hm rfl
  simp only [verify, Module.valid, Bool.and_eq_true, all_mapIdx, callsValid_iff hm,
    addressesValid_iff hm]
  constructor
  · rintro ⟨⟨⟨⟨⟨hflags, hglobals⟩, hcalls⟩, hfunctions⟩, hcasts, haddr⟩, hout⟩
    have hblock : ∀ (d : BlockRef) f blk, d.fn.module = i → s.fn? d.fn = some f →
        f.blocks[d.index]? = some blk → blk.valid d.fn f d.index = true := by
      rintro ⟨⟨j, k⟩, d⟩ f blk rfl hf hblk
      exact (Fn.valid_iff.mp (hfunctions k f ((hfn k).symm.trans hf))).2 d blk hblk
    have hout : ∀ x ∈ s.outsideInstrs i, i ∉ x.modules := by simpa using hout
    refine ⟨hflags, List.all_eq_true.mp hglobals, fun k f hf => ?_, fun d body hd hb => ?_,
      fun d f body k x hd hf hb hx => ?_, hcasts, fun x hx => ?_, fun d body hd hb x hx => ?_⟩
    · exact (Fn.valid_iff.mp (hfunctions k f hf)).1
    · obtain ⟨f, blk, hf, hblk, rfl⟩ := body?_eq_some_iff.mp hb
      exact (Block.valid_iff.mp (hblock d f blk hd hf hblk)).1
    · have hmem := (mem_instrs hm).mpr ⟨d, body, hd, hb, List.mem_of_getElem? hx⟩
      obtain ⟨f', blk, hf', hblk, rfl⟩ := body?_eq_some_iff.mp hb
      obtain rfl : f = f' := Option.some.inj (hf.symm.trans hf')
      exact ⟨(Block.valid_iff.mp (hblock d f blk hd hf hblk)).2 k x hx, hcalls x hmem, haddr x hmem⟩
    · exact hout x (mem_outsideInstrs.mpr (.inl hx))
    · exact hout x (mem_outsideInstrs.mpr (.inr ⟨d, body, hd, hb, hx⟩))
  · intro h
    have hinstr : ∀ x ∈ m.instrs, s.Respects i x := by
      intro x hx
      obtain ⟨d, body, hd, hb, hx⟩ := (mem_instrs hm).mp hx
      obtain ⟨f, -, hf, -⟩ := body?_eq_some_iff.mp hb
      obtain ⟨k, hk⟩ := List.mem_iff_getElem?.mp hx
      exact (h.instrs d f body k x hd hf hb hk).2
    refine ⟨⟨⟨⟨⟨h.flags, List.all_eq_true.mpr h.globals⟩, fun x hx => (hinstr x hx).call⟩, ?_⟩,
      h.casts, fun x hx => (hinstr x hx).address⟩, ?_⟩
    · intro k f hf
      refine Fn.valid_iff.mpr ⟨h.heads k f hf, fun d blk hblk => ?_⟩
      have hf : s.fn? ⟨i, k⟩ = some f := (hfn k).trans hf
      have hb : s.body? ⟨⟨i, k⟩, d⟩ = some blk.body := body?_eq_some_iff.mpr ⟨f, blk, hf, hblk, rfl⟩
      exact Block.valid_iff.mpr
        ⟨h.closed _ _ rfl hb, fun j x hx => (h.instrs _ f _ j x rfl hf hb hx).1⟩
    · suffices hout : ∀ x ∈ s.outsideInstrs i, i ∉ x.modules by simpa using hout
      intro x hx
      rcases mem_outsideInstrs.mp hx with hx | ⟨d, body, hd, hb, hx⟩
      · exact h.strays x hx
      · exact h.others d body hd hb x hx

def Verifies (s : Session) (i : Nat) : Prop := ∃ m, s.module? i = some m ∧ s.verify i m = true

instance (s : Session) (i : Nat) : Decidable (s.Verifies i) :=
  match hm : s.module? i with
  | none => isFalse fun ⟨_, hm', _⟩ => nomatch hm.symm.trans hm'
  | some m =>
    decidable_of_iff (s.verify i m = true)
      ⟨fun hv => ⟨m, hm, hv⟩, fun ⟨_, hm', hv⟩ => Option.some.inj (hm.symm.trans hm') ▸ hv⟩

theorem Verifies.closed (h : s.Verifies i) {d : BlockRef} {body : List Instr}
    (hd : d.fn.module = i) (hb : s.body? d = some body) : Closed body := by
  obtain ⟨m, hm, hv⟩ := h
  exact ((verify_iff_sound hm).mp hv).closed d body hd hb

end Session

end QuantumIR
