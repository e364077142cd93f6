import QuantumIR.Proofs.Declaration
import QuantumIR.Proofs.Dominance
import QuantumIR.Proofs.Legality
import QuantumIR.Proofs.Verification

/-! # Completed functions

A module is sound in which some block of a function returns. When other code is put in the place of
the return, the module stays sound, provided that the blocks of the function are closed, that the
new instructions fit it, and that new functions are declarations of operations.
-/

namespace QuantumIR

open Session

namespace Fn

variable {f g : Fn}

theorem attrValid_addAttr {i : AttrIndex} {a : Attr} (hf : ∀ x ∈ f.attrs, f.attrValid x = true)
    (hnew : f.attrValid (i, AttrSet.insert {} a) = true)
    (hold : ∀ set, (i, set) ∈ f.attrs → f.attrValid (i, set.insert a) = true) :
    ∀ x ∈ (f.addAttr i a).attrs, (f.addAttr i a).attrValid x = true := by
  intro x hx
  change f.attrValid x = true
  rcases AttrTable.mem_insert hx with hx | rfl | ⟨set, hset, rfl⟩
  · exact hf x hx
  · exact hnew
  · exact hold set hset

theorem attrValid_irreversible {set : AttrSet} (h : f.attrValid (.function, set) = true) :
    f.attrValid (.function, set.insert (.string (Bytes.ofString "irreversible") [])) = true := by
  simp only [attrValid, AttrSet.switchesValid, AttrSet.functionValid, Bool.and_eq_true,
    List.all_eq_true] at h ⊢
  refine ⟨fun x hx => ?_, fun x hx => ?_⟩
  · rcases AttrSet.mem_insertSorted hx with rfl | hx
    · decide +kernel
    · exact h.1 x hx
  · rcases AttrSet.mem_insertSorted hx with rfl | hx
    · decide +kernel
    · exact h.2 x hx

theorem attrValid_marked (hsig : f.sig = Operation.mz.signature) (hp : f.Plain)
    (hi : f.intrinsic = none) (hf : ∀ x ∈ f.attrs, f.attrValid x = true) :
    ∀ x ∈ f.marked.attrs, f.marked.attrValid x = true := by
  have hparam : f.sig.params[2 - 1]? = some .result := by rw [hsig]; rfl
  have hwrite : ∀ set : AttrSet, (∀ m ∈ set.marks, m = .writeOnly) → set.switchesValid = true →
      f.attrValid (.param 2, set) = true := by
    intro set hm hs
    have hfits : ∀ m ∈ set.marks, m.fits f.sig.ret .result = true := by
      intro m hmem
      rw [hm m hmem]
      rfl
    have himm : Mark.immArg ∉ set.marks := fun hmem => by cases hm _ hmem
    simp only [attrValid, hparam, AttrSet.paramValid, Bool.and_eq_true, hs, List.all_eq_true,
      Bool.or_eq_true, decide_eq_true_eq, true_and]
    exact ⟨hfits, .inl himm⟩
  have hone : ∀ x ∈ (f.addAttr (.param 2) (.mark .writeOnly)).attrs,
      (f.addAttr (.param 2) (.mark .writeOnly)).attrValid x = true := by
    refine attrValid_addAttr hf ?_ fun set hset => ?_
    · exact hwrite _ (AttrSet.marks_insert_writeOnly (by simp)) rfl
    · have hv := hf _ hset
      simp only [attrValid, hparam, Bool.and_eq_true] at hv
      exact hwrite _ (AttrSet.marks_insert_writeOnly (hp.marks hi _ hset)) hv.1
  refine attrValid_addAttr hone (attrValid_irreversible rfl) fun set hset => ?_
  exact attrValid_irreversible (hone _ hset)

theorem attrValid_iterate_marked (hsig : f.sig = Operation.mz.signature) (hp : f.Plain)
    (hi : f.intrinsic = none) (hf : ∀ x ∈ f.attrs, f.attrValid x = true) (n : Nat) :
    ∀ x ∈ (marked^[n] f).attrs, f.attrValid x = true := by
  induction n generalizing f with
  | zero => exact hf
  | succ n ih =>
    exact ih (f := f.marked) hsig ((hp.addAttr_writeOnly _).addAttr_string _ _ _) hi
      (attrValid_marked hsig hp hi hf)

end Fn

theorem Operation.isReserved_declaration (op : Operation) : op.declaration.isReserved = false := by
  cases op <;> decide +kernel

theorem Fn.Plain.intrinsic_eq_none {f : Fn} (h : f.Plain) {op : Operation}
    (hn : f.name = op.symbol) : f.intrinsic = none := by
  by_contra hi
  exact op.not_prefix_symbol (hn ▸ h.reserved hi)

theorem Operation.plain_declaration (op : Operation) : op.declaration.Plain :=
  ⟨fun h => absurd rfl h, fun _ => nofun⟩

theorem Operation.ne_void_of_mem_params {op : Operation} : ∀ t ∈ op.params, t ≠ .void := by
  cases op <;> decide +kernel

theorem Operation.headValid_declaration (op : Operation) : op.declaration.HeadValid :=
  ⟨.inl rfl, fun _ => rfl, op.ne_void_of_mem_params, nofun⟩

namespace Fn.Kept

variable {own : Prop} {f g : Fn}

theorem isReserved (h : f.Kept own g) : g.isReserved = f.isReserved := by
  unfold Fn.isReserved
  rw [h.name]

theorem callValid (h : f.Kept own g) (sig : Signature) (args : List Value) :
    g.callValid sig args = f.callValid sig args := by
  unfold Fn.callValid
  rw [h.name, h.intrinsic]

theorem headValid (h : f.Kept own g) (hf : f.HeadValid) (hp : f.Plain)
    (hsig : ∀ op : Operation, f.name = op.symbol → f.sig = op.signature)
    (hb : g.blocks = [] ↔ f.blocks = []) : g.HeadValid := by
  refine ⟨?_, fun hr => ?_, ?_, fun x hx => ?_⟩
  · rw [h.linkage, ne_eq, hb]
    exact hf.linkage
  · exact hb.mpr (hf.reserved (h.isReserved ▸ hr))
  · rw [h.sig]
    exact hf.params
  · have hv : g.attrValid x = f.attrValid x := by
      unfold Fn.attrValid
      rw [h.sig]
    rw [hv]
    obtain ⟨n, hn, hmz⟩ := h.attrs
    rw [hn] at hx
    by_cases h0 : n = 0
    · subst h0
      exact hf.attrs x hx
    · exact attrValid_iterate_marked (hsig _ (hmz h0)) hp (hp.intrinsic_eq_none (hmz h0)) hf.attrs
        n x hx

end Fn.Kept

/-- A function of a module with new declarations is an old one that was kept, or a declaration. -/
theorem Module.Declares.cases {m n : Module} {own : Nat} {ops : List Operation}
    (h : m.Declares own ops n) {i : Nat} {g : Fn} (hg : n.functions[i]? = some g) :
    (∃ f, m.functions[i]? = some f ∧ f.Kept (i = own) g) ∨
      (m.functions[i]? = none ∧ ∃ op : Operation, op.declaration.Kept (i = own) g) := by
  have hlt := (List.getElem?_eq_some_iff.mp hg).1
  rw [h.length] at hlt
  have hf := List.getElem?_eq_getElem hlt
  obtain ⟨g', hg', hk⟩ := h.functions i _ hf
  obtain rfl : g = g' := Option.some.inj (hg.symm.trans hg')
  generalize (m.declared ops)[i] = f at hf hk
  rw [declared, List.getElem?_append] at hf
  split at hf
  · exact .inl ⟨f, hf, hk⟩
  next hi =>
    rw [List.getElem?_map] at hf
    obtain ⟨op, -, rfl⟩ := Option.map_eq_some_iff.mp hf
    exact .inr ⟨List.getElem?_eq_none (Nat.not_lt.mp hi), op, hk⟩

theorem Fn.available_congr {f g : Fn} (h : g.blocks = f.blocks) (r : FnRef) (d k : Nat)
    (site : Site) : g.available r d k site = f.available r d k site := by
  have hs : g.successors r = f.successors r := by
    funext a
    simp only [Fn.successors, h]
  have he : g.entered r = f.entered r := by
    funext closed
    simp only [Fn.entered, hs, h]
  simp only [Fn.available, Fn.dominates, he]

theorem Instr.valid_of_available {r : FnRef} {f g : Fn} {d k : Nat} {x : Instr}
    (hsig : g.sig = f.sig)
    (hav : ∀ site, f.available r d k site = true → g.available r d k site = true)
    (hx : x.valid r f d k = true) : x.valid r g d k = true := by
  have htypes : x.typesValid g = x.typesValid f := by
    unfold Instr.typesValid
    rw [hsig]
  simp only [Instr.valid, Bool.and_eq_true, htypes, List.all_eq_true] at hx ⊢
  refine ⟨hx.1, fun v hv => ?_⟩
  have huse := hx.2 v hv
  cases v with
  | const _ => exact huse
  | metadata _ => rfl
  | bound l =>
    cases l with
    | param _ _ _ => exact huse
    | result site _ => exact hav site huse

theorem Value.UsableIn.usableAt {r : FnRef} {v : Value} (h : v.UsableIn r) (f : Fn) (d k : Nat) :
    v.usableAt r f d k = true := by
  cases v with
  | const c => exact h
  | metadata _ => exact absurd h id
  | bound l =>
    cases l with
    | param owner _ _ => exact decide_eq_true h
    | result _ _ => exact absurd h id

/-- An instruction that fits is valid in a function without a result. -/
theorem Instr.Fits.valid {s : Session} {r : FnRef} {n k : Nat} {d : BlockRef} {x : Instr} {f : Fn}
    (h : x.Fits s r n d k) (hn : 0 < n) (hd : d.fn = r) (hret : f.sig.ret = .void) :
    x.valid r f d.index k = true := by
  have htarget : ∀ c : BlockRef, c.fn = r ∧ n ≤ c.index → c.targetIn r = true := by
    rintro c ⟨hc, hle⟩
    have h0 : c.index ≠ 0 := by omega
    simp [BlockRef.targetIn, hc, h0]
  simp only [Instr.valid, Bool.and_eq_true, List.all_eq_true]
  cases x with
  | call callee sig args =>
    obtain ⟨⟨hm, op, -, rfl⟩, htypes, huse⟩ := h
    refine ⟨⟨⟨?_, by simpa [Instr.calleeIn] using hm⟩, nofun⟩, fun v hv => ?_⟩
    · simp only [Instr.typesValid, Bool.and_eq_true, List.all_eq_true, decide_eq_true_eq]
      have htypes : args.map Value.ty = op.params := htypes
      refine ⟨fun v hv => ?_, htypes⟩
      exact op.ne_void_of_mem_params v.ty (htypes ▸ List.mem_map_of_mem hv)
    · exact (huse v hv).usableAt f d.index k
  | ret value =>
    obtain rfl : value = none := h
    exact ⟨⟨⟨by simpa [Instr.typesValid, Instr.operands] using hret, rfl⟩, nofun⟩, nofun⟩
  | br target =>
    refine ⟨⟨⟨rfl, rfl⟩, fun c hc => ?_⟩, nofun⟩
    obtain rfl := List.mem_singleton.mp hc
    exact htarget c h
  | condBr v one zero =>
    obtain ⟨hone, hzero, hbit, huse⟩ := h
    refine ⟨⟨⟨?_, rfl⟩, fun c hc => ?_⟩, fun w hw => ?_⟩
    · simp [Instr.typesValid, Instr.operands, hbit, Ty.bit]
    · rcases List.mem_cons.mp hc with rfl | hc
      · exact htarget _ hone
      · obtain rfl := List.mem_singleton.mp hc
        exact htarget _ hzero
    · obtain rfl := List.mem_singleton.mp hw
      rcases huse with huse | ⟨j, hj, rfl⟩
      · exact huse.usableAt f d.index k
      · simp [Value.usableAt, Fn.available, hd, hj]

theorem Value.ty_of_function? {v : Value} {q : FnRef} (h : v.function? = some q) :
    ∃ sig : Signature, v.ty = .ptr sig.ty 0 := by
  unfold Value.function? at h
  split at h
  next _ sig => exact ⟨sig, rfl⟩
  · cases h

/-- No operand of an operation is a function. -/
theorem Operation.function_not_mem_params (op : Operation) (sig : Signature) :
    .ptr sig.ty 0 ∉ op.params := by
  intro h
  cases op <;> simp [Operation.params, Ty.qubit, Ty.result, Ty.handle, Ty.byte, Signature.ty] at h

theorem Global.valid_ofString {data : Bytes} (h : data.length < lengthBound) :
    (Global.ofString data).valid = true := by
  simp [Global.valid, Global.listValid, Global.ofString, dataTy, Nat.mod_eq_of_lt h]

namespace Session

variable {s t S : Session} {r q : FnRef} {ops : List Operation} {g : Fn}

theorem Declares.fn?_cases (h : Declares r ops s S) (hr : (s.fn? r).isSome)
    (hq : q.module = r.module) (hg : S.fn? q = some g) :
    (∃ f, s.fn? q = some f ∧ f.Kept (q = r) g) ∨
      (s.fn? q = none ∧ ∃ op : Operation, op.declaration.Kept (q = r) g) := by
  obtain ⟨f₀, hf₀⟩ := Option.isSome_iff_exists.mp hr
  obtain ⟨m, hm, -⟩ := fn?_eq_some_iff.mp hf₀
  obtain ⟨n, hn, hd⟩ := h m hm
  have hown : (q.index = r.index) = (q = r) := by
    obtain ⟨i, k⟩ := q
    obtain ⟨j, l⟩ := r
    simp_all
  rw [fn?_of_module? hn hq] at hg
  rw [fn?_of_module? hm hq, ← hown]
  exact hd.cases hg

theorem Declares.signed (h : Declares r ops s S) (hr : (s.fn? r).isSome) (hs : s.Signed r.module) :
    S.Signed r.module := by
  intro k g op hg hn
  rcases h.fn?_cases hr (q := ⟨r.module, k⟩) rfl hg with ⟨f, hf, hk⟩ | ⟨-, op', hk⟩
  · rw [hk.sig]
    exact hs k f op hf (hk.name ▸ hn)
  · rw [hk.sig, Operation.symbol_injective (hn.symm.trans hk.name)]
    rfl

theorem Recodes.kept (h : Recodes r s t) {f : Fn} (hf : s.fn? q = some f) :
    ∃ f', t.fn? q = some f' ∧ f'.Kept (q = r) f := by
  by_cases hq : q = r
  · have hsk := h.skeleton q
    rw [hf, Option.map_some] at hsk
    obtain ⟨f', hf', he⟩ := Option.map_eq_some_iff.mp hsk
    exact ⟨f', hf', .of_skeleton hq he.symm⟩
  · obtain ⟨⟨g, -, hm⟩, -⟩ := h
    refine ⟨f, ?_, .refl _ f⟩
    rw [fn?_congr hm, fn?_updateFn, if_neg (Ne.symm hq), hf]

theorem Recodes.fn?_eq_none (h : Recodes r s t) (hq : s.fn? q = none) : t.fn? q = none := by
  have hsk := h.skeleton q
  rw [hq, Option.map_none] at hsk
  exact Option.map_eq_none_iff.mp hsk

theorem blocks_ne_nil {b : BlockRef} {f : Fn} (hb : (s.body? b).isSome) (hf : s.fn? b.fn = some f) :
    f.blocks ≠ [] := by
  rintro hn
  rw [isSome_body?_iff, size_eq hf, hn] at hb
  exact Nat.not_lt_zero _ hb

theorem successors_eq {f : Fn} (hf : s.fn? r = some f) (a : Nat) :
    f.successors r a = ((s.body? ⟨r, a⟩).map fun body =>
      (((body.getLast?.map Instr.targets).getD []).filter (·.fn = r)).map
        BlockRef.index).getD [] := by
  have hb : s.body? ⟨r, a⟩ = (f.blocks[a]?).map Block.body := by simp [body?, block?, hf]
  rw [hb, Option.map_map]
  rfl

theorem mem_successors {f : Fn} (hf : s.fn? r = some f) {a c : Nat} (h : c ∈ f.successors r a) :
    ∃ body, ∃ k : Nat, ∃ x : Instr, s.body? ⟨r, a⟩ = some body ∧ body[k]? = some x ∧
      ⟨r, c⟩ ∈ x.targets := by
  rw [successors_eq hf] at h
  cases hb : s.body? ⟨r, a⟩ with
  | none => simp [hb] at h
  | some body =>
    cases hx : body.getLast? with
    | none => simp [hb, hx] at h
    | some x =>
      simp only [hb, hx, Option.map_some, Option.getD_some, List.mem_map, List.mem_filter,
        decide_eq_true_eq] at h
      obtain ⟨⟨q, c⟩, ⟨htarget, rfl⟩, rfl⟩ := h
      rw [List.getLast?_eq_getElem?] at hx
      exact ⟨body, _, x, rfl, hx, htarget⟩

/-- The function of block `b`, which returns there, has been completed by other code, with what it
needs of new functions and strings. -/
structure Completes (s : Session) (b : BlockRef) (S : Session) : Prop where
  tidy : s.Tidy
  signed : s.Signed b.fn.module
  returns : ∃ body, s.body? b = some (body ++ [.ret none])
  exist : (S.body? b).isSome
  module : ∀ m, s.module? b.fn.module = some m → ∃ n, S.module? b.fn.module = some n ∧
    n.flags = m.flags ∧ ∃ strings : List Bytes, n.globals = m.globals ++ strings.map .ofString
  functions : ∀ q g, q.module = b.fn.module → S.fn? q = some g →
    (∃ f, s.fn? q = some f ∧ f.Kept (q = b.fn) g) ∨
      (s.fn? q = none ∧ ∃ op : Operation, op.declaration.Kept (q = b.fn) g)
  keeps : ∀ d, d ≠ b → (s.body? d).isSome → S.body? d = s.body? d
  fits : AddsFitting S b.fn (s.size b.fn) s S
  closed : ∀ d body, d.fn = b.fn → S.body? d = some body → Closed body
  strays : S.strays = s.strays

namespace Completes

variable {b : BlockRef} {m : Module}

theorem isSome_fn? (h : s.Completes b S) : (s.fn? b.fn).isSome := by
  obtain ⟨body, hb⟩ := h.returns
  exact isSome_fn?_of_body? (b := b) (by rw [hb]; rfl)

theorem body?_eq (h : s.Completes b S) {d : BlockRef} (hd : d.fn.module = b.fn.module)
    (hne : d.fn ≠ b.fn) {body : List Instr} (hb : S.body? d = some body) :
    s.body? d = some body := by
  obtain ⟨g, blk, hg, hblk, rfl⟩ := body?_eq_some_iff.mp hb
  rcases h.functions d.fn g hd hg with ⟨f, hf, hk⟩ | ⟨-, op, hk⟩
  · rw [(hk.blocks hne).1] at hblk
    exact body?_eq_some_iff.mpr ⟨f, blk, hf, hblk, rfl⟩
  · rw [(hk.blocks hne).1] at hblk
    cases hblk

theorem addressable (h : s.Completes b S) {q : FnRef} (hq : s.Addressable b.fn.module q) :
    S.Addressable b.fn.module q := by
  intro hm g hg
  rcases h.functions q g hm hg with ⟨f, hf, hk⟩ | ⟨-, op, hk⟩
  · exact hk.isReserved.trans (hq hm f hf)
  · exact hk.isReserved.trans op.isReserved_declaration

theorem respects (h : s.Completes b S) {x : Instr} (hx : s.Respects b.fn.module x) :
    S.Respects b.fn.module x := by
  refine ⟨fun callee sig args hcall hm g hg => ?_,
    fun v hv q hq => h.addressable (hx.address v hv q hq)⟩
  rcases h.functions callee g hm hg with ⟨f, hf, hk⟩ | ⟨-, op, hk⟩
  · exact (hk.callValid sig args).trans (hx.call callee sig args hcall hm f hf)
  · exact hk.callValid sig args

theorem headValid (h : s.Completes b S) (hs : s.Sound b.fn.module m)
    (hm : s.module? b.fn.module = some m) {q : FnRef} {g : Fn} (hq : q.module = b.fn.module)
    (hg : S.fn? q = some g) : g.HeadValid := by
  rcases h.functions q g hq hg with ⟨f, hf, hk⟩ | ⟨hnone, op, hk⟩
  · have hhead := hs.heads q.index f (fn?_of_module? hm hq ▸ hf)
    refine hk.headValid hhead (h.tidy.plain q f hf) (fun op hn => ?_) ?_
    · obtain ⟨i, k⟩ := q
      subst hq
      exact h.signed k f op hf hn
    · by_cases hown : q = b.fn
      · subst hown
        have hb : (s.body? b).isSome := by
          obtain ⟨body, hb⟩ := h.returns
          rw [hb]
          rfl
        simp [blocks_ne_nil hb hf, blocks_ne_nil h.exist hg]
      · rw [(hk.blocks hown).1]
  · refine hk.headValid op.headValid_declaration op.plain_declaration (fun op' hn => ?_) ?_
    · rw [← Operation.symbol_injective hn]
      rfl
    · have hown : q ≠ b.fn := by
        rintro rfl
        have hsome := h.isSome_fn?
        rw [hnone] at hsome
        cases hsome
      rw [(hk.blocks hown).1]

/-- An instruction with targets in the block that returned is new. -/
theorem not_mem_targets (h : s.Completes b S) (hs : s.Sound b.fn.module m) {old : List Instr}
    (hold : s.body? b = some old) {k : Nat} {x : Instr} (hx : old[k]? = some x) :
    x.targets = [] := by
  obtain ⟨body, hb⟩ := h.returns
  obtain rfl : body ++ [.ret none] = old := Option.some.inj (hb.symm.trans hold)
  obtain ⟨init, last, he, hstraight, -⟩ := hs.closed b _ rfl hb
  obtain ⟨rfl, -⟩ := List.append_inj' he rfl
  rcases List.mem_append.mp (List.mem_of_getElem? hx) with hx | hx
  · have hterm := hstraight x hx
    cases x with
    | call _ _ _ => rfl
    | ret _ => rfl
    | br _ => cases hterm
    | condBr _ _ _ => cases hterm
  · rw [List.mem_singleton.mp hx]
    rfl

/-- The completed function goes on behind block `b`. -/
theorem prolongs (h : s.Completes b S) (hs : s.Sound b.fn.module m) {f g : Fn}
    (hf : s.fn? b.fn = some f) (hg : S.fn? b.fn = some g) :
    Fn.Prolongs b.fn b.index (s.size b.fn) f g := by
  have hleave : ∀ a c, (a = b.index ∨ s.size b.fn ≤ a) → c ∈ g.successors b.fn a →
      s.size b.fn ≤ c := by
    intro a c ha hc
    obtain ⟨body, k, x, hbody, hx, htarget⟩ := mem_successors hg hc
    rcases h.fits _ body k x hbody hx with ⟨old, hold, hx⟩ | ⟨-, hfits⟩
    · rcases ha with rfl | ha
      · rw [h.not_mem_targets hs hold hx] at htarget
        cases htarget
      · have hlt : a < s.size b.fn := isSome_body?_iff.mp (by rw [hold]; rfl)
        exact absurd hlt (Nat.not_lt.mpr ha)
    · exact hfits.le_of_mem_targets htarget
  refine ⟨fun a ha hne => ?_, fun a c hc => ?_, fun c => hleave _ c (.inl rfl),
    fun a ha c => hleave a c (.inr ha)⟩
  · have hsome : (s.body? ⟨b.fn, a⟩).isSome := isSome_body?_iff.mpr ha
    rw [successors_eq hg, successors_eq hf, h.keeps _ (fun he => hne (by rw [← he])) hsome]
  · obtain ⟨body, k, x, hbody, hx, htarget⟩ := mem_successors hf hc
    refine ⟨isSome_body?_iff.mp (by rw [hbody]; rfl), ?_, ?_⟩
    · rintro rfl
      rw [h.not_mem_targets hs hbody hx] at htarget
      cases htarget
    · exact isSome_body?_iff.mp (h.tidy.targets _ body hbody x (List.mem_of_getElem? hx) _ htarget)

theorem respects_of_fits (h : s.Completes b S) {n k : Nat} {d : BlockRef} {x : Instr}
    (hx : x.Fits S b.fn n d k) : S.Respects b.fn.module x := by
  cases x with
  | call callee sig args =>
    obtain ⟨⟨hm, op, hfind, rfl⟩, htypes, -⟩ := hx
    have htypes : args.map Value.ty = op.params := htypes
    refine ⟨fun _ _ _ he _ g hg => ?_, fun v hv q hq => ?_⟩
    · obtain ⟨rfl, rfl, rfl⟩ := Instr.call.inj he
      obtain ⟨g', hg', hn⟩ := hfind.fn?
      obtain ⟨i, k⟩ := callee
      subst hm
      obtain rfl : g = g' := Option.some.inj (hg.symm.trans hg')
      have hi : g.intrinsic = none := by
        rcases h.functions ⟨_, k⟩ g rfl hg with ⟨f, hf, hk⟩ | ⟨-, op', hk⟩
        · exact hk.intrinsic.trans
            ((h.tidy.plain _ f hf).intrinsic_eq_none (hk.name.symm.trans hn))
        · exact hk.intrinsic
      simp only [Fn.callValid, hi]
    · obtain ⟨sig, hty⟩ := Value.ty_of_function? hq
      exact absurd (hty ▸ htypes ▸ List.mem_map_of_mem hv) (op.function_not_mem_params sig)
  | ret value =>
    obtain rfl : value = none := hx
    exact ⟨nofun, nofun⟩
  | br _ => exact ⟨nofun, nofun⟩
  | condBr v one zero =>
    refine ⟨nofun, fun w hw q hq => ?_⟩
    obtain rfl := List.mem_singleton.mp hw
    obtain ⟨sig, hty⟩ := Value.ty_of_function? hq
    exact nomatch hx.2.2.1.symm.trans hty

theorem ret_eq_void (h : s.Completes b S) (hs : s.Sound b.fn.module m) {f : Fn}
    (hf : s.fn? b.fn = some f) : f.sig.ret = .void := by
  obtain ⟨body, hb⟩ := h.returns
  have hv := (hs.instrs b f _ body.length (.ret none) rfl hf hb (by simp)).1
  simpa [Instr.valid, Instr.typesValid, Instr.operands, Instr.calleeIn, Instr.targets] using hv

theorem instr (h : s.Completes b S) (hs : s.Sound b.fn.module m) {d : BlockRef} {g : Fn}
    {body : List Instr} {k : Nat} {x : Instr} (hd : d.fn.module = b.fn.module)
    (hg : S.fn? d.fn = some g) (hb : S.body? d = some body) (hx : body[k]? = some x) :
    x.valid d.fn g d.index k = true ∧ S.Respects b.fn.module x := by
  by_cases hown : d.fn = b.fn
  · obtain ⟨f, hf⟩ := Option.isSome_iff_exists.mp h.isSome_fn?
    rw [hown] at hg
    have hsig : g.sig = f.sig := by
      rcases h.functions b.fn g rfl hg with ⟨f', hf', hk⟩ | ⟨hnone, -⟩
      · obtain rfl : f = f' := Option.some.inj (hf.symm.trans hf')
        exact hk.sig
      · exact nomatch hnone.symm.trans hf
    rcases h.fits d body k x hb hx with ⟨old, hold, hx⟩ | ⟨-, hfits⟩
    · obtain ⟨hv, hr⟩ := hs.instrs d f old k x hd (hown ▸ hf) hold hx
      have hlt : d.index < s.size b.fn := hown ▸ isSome_body?_iff.mp (by rw [hold]; rfl)
      rw [hown] at hv ⊢
      exact ⟨Instr.valid_of_available hsig (fun _ => (h.prolongs hs hf hg).available hlt) hv,
        h.respects hr⟩
    · have hpos : 0 < s.size b.fn := by
        obtain ⟨returned, hret⟩ := h.returns
        exact Nat.zero_lt_of_lt (isSome_body?_iff.mp (by rw [hret]; rfl))
      rw [hown]
      exact ⟨hfits.valid hpos hown (hsig ▸ h.ret_eq_void hs hf), h.respects_of_fits hfits⟩
  · have hb' := h.body?_eq hd hown hb
    rcases h.functions d.fn g hd hg with ⟨f, hf, hk⟩ | ⟨hnone, -⟩
    · obtain ⟨hv, hr⟩ := hs.instrs d f body k x hd hf hb' hx
      refine ⟨Instr.valid_of_available hk.sig (fun site ha => ?_) hv, h.respects hr⟩
      rwa [Fn.available_congr (hk.blocks hown).1]
    · obtain ⟨f, -, hf, -⟩ := body?_eq_some_iff.mp hb'
      exact nomatch hnone.symm.trans hf

theorem sound (h : s.Completes b S) (hm : s.module? b.fn.module = some m)
    (hs : s.Sound b.fn.module m) (hcasts : ∀ q ∈ S.castFns, S.Addressable b.fn.module q)
    {n : Module} (hn : S.module? b.fn.module = some n)
    (hstrings : ∀ g ∈ n.globals, ∀ data, g.data = some data → data.length < lengthBound) :
    S.Sound b.fn.module n := by
  obtain ⟨n', hn', hflags, strings, hglobals⟩ := h.module m hm
  obtain rfl : n = n' := Option.some.inj (hn.symm.trans hn')
  refine ⟨?_, fun g hg => ?_, fun k g hg => ?_, fun d body hd hb => ?_,
    fun d g body k x hd hg hb hx => ?_, hcasts, ?_, fun d body hd hb x hx => ?_⟩
  · have hf := hs.flags
    simp only [Module.flagsValid] at hf ⊢
    rwa [hflags]
  · have hshort := hstrings g hg
    rw [hglobals] at hg
    rcases List.mem_append.mp hg with hg | hg
    · exact hs.globals g hg
    · obtain ⟨data, -, rfl⟩ := List.mem_map.mp hg
      exact Global.valid_ofString (hshort data rfl)
  · exact h.headValid (q := ⟨b.fn.module, k⟩) hs hm rfl
      ((fn?_of_module? (q := ⟨b.fn.module, k⟩) hn rfl).trans hg)
  · by_cases hown : d.fn = b.fn
    · exact h.closed d body hown hb
    · exact hs.closed d body hd (h.body?_eq hd hown hb)
  · exact h.instr hs hd hg hb hx
  · rw [h.strays]
    exact hs.strays
  · obtain ⟨k, hk⟩ := List.mem_iff_getElem?.mp hx
    rcases h.fits d body k x hb hk with ⟨old, hold, hk⟩ | ⟨hown, -⟩
    · exact hs.others d old hd hold x (List.mem_of_getElem? hk)
    · exact absurd (congrArg FnRef.module hown) hd

end Completes

end Session

end QuantumIR
