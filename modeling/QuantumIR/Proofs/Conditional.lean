import QuantumIR.Proofs.Growth

/-! # Forks and jumps

A conditional adds three empty blocks to the builder's function and ends the builder's block with a
branch to the first two. Nothing else changes: all of this only recodes the builder's function.
-/

namespace QuantumIR

namespace Session

variable {s t : Session} {b : BlockRef} {r : FnRef}

theorem isSome_fn?_of_body? (h : (s.body? b).isSome) : (s.fn? b.fn).isSome := by
  obtain ⟨body, hb⟩ := Option.isSome_iff_exists.mp h
  obtain ⟨f, -, hf, -⟩ := body?_eq_some_iff.mp hb
  simp [hf]

theorem size_congr (h : ∀ k, (t.body? ⟨r, k⟩).isSome ↔ (s.body? ⟨r, k⟩).isSome) :
    t.size r = s.size r := by
  simp only [isSome_body?_iff] at h
  have h₁ := h (s.size r)
  have h₂ := h (t.size r)
  omega

theorem size_append (s : Session) (i : Instr) (r : FnRef) : (s.append i).size r = s.size r := by
  refine size_congr fun k => ?_
  rw [body?_append]
  split <;> simp

/-- What a session holds beside its modules, as far as validity depends on it. -/
def context (s : Session) : Nat × List Instr × List FnRef := (s.current, s.strays, s.castFns)

structure Recodes (r : FnRef) (s t : Session) : Prop where
  modules : ∃ g : Fn → Fn, (∀ f, (g f).skeleton = f.skeleton) ∧
    t.modules = (s.updateFn r g).modules
  context : t.context = s.context

namespace Recodes

variable {u : Session}

theorem refl (r : FnRef) (s : Session) : Recodes r s s := by
  refine ⟨⟨id, fun _ => rfl, ?_⟩, rfl⟩
  have h : (fun m : Module => m.updateFunction r.index id) = id := by
    funext m
    simp [Module.updateFunction, List.modify_id]
  simp only [updateFn, updateModule, h, List.modify_id]

theorem trans (h : Recodes r s t) (h' : Recodes r t u) : Recodes r s u := by
  obtain ⟨⟨g, hg, hm⟩, hc⟩ := h
  obtain ⟨⟨g', hg', hm'⟩, hc'⟩ := h'
  refine ⟨⟨g' ∘ g, fun f => (hg' (g f)).trans (hg f), ?_⟩, hc'.trans hc⟩
  rw [hm']
  simp only [updateFn, updateModule] at hm ⊢
  rw [hm, List.modify_modify_eq]
  congr 1
  funext m
  simp [Module.updateFunction, List.modify_modify_eq]

theorem of_modules_eq (h : t.modules = s.modules) (hc : t.context = s.context) : Recodes r s t :=
  ⟨h ▸ (refl r s).modules, hc⟩

theorem updateFn {g : Fn → Fn} (hg : ∀ f, (g f).skeleton = f.skeleton) (s : Session) (r : FnRef) :
    Recodes r s (s.updateFn r g) :=
  ⟨⟨g, hg, rfl⟩, rfl⟩

theorem updateBlock (hb : b.fn = r) (s : Session) (g : Block → Block) :
    Recodes r s (s.updateBlock b g) := by
  subst hb
  exact updateFn (g := fun f => { f with blocks := f.blocks.modify b.index g }) (fun _ => rfl) s _

theorem addBlock (s : Session) (r : FnRef) (name : Bytes) : Recodes r s (s.addBlock r name).2 :=
  updateFn (g := fun f => f.addBlock name) (fun _ => rfl) s r

theorem append (hp : s.position = .endOf b) (hb : b.fn = r) {i : Instr}
    (hi : ∀ c ∈ i.targets, c.fn = r) : Recodes r s (s.append i) := by
  have hins : Recodes r s (s.insert i) := by
    unfold insert
    rw [hp]
    exact (updateBlock hb s _).trans (of_modules_eq rfl rfl)
  cases i with
  | call _ _ _ => exact hins
  | ret _ => exact hins
  | br c => exact hins.trans (updateBlock (hi c (by simp [Instr.targets])) _ _)
  | condBr _ c d =>
    exact (hins.trans (updateBlock (hi c (by simp [Instr.targets])) _ _)).trans
      (updateBlock (hi d (by simp [Instr.targets])) _ _)

theorem moveTo (s : Session) (r : FnRef) (b : BlockRef) : Recodes r s (s.moveTo b) :=
  of_modules_eq rfl rfl

theorem module? (h : Recodes r s t) : ∃ g : Fn → Fn, (∀ f, (g f).skeleton = f.skeleton) ∧
    ∀ i, t.module? i =
      if r.module = i then (s.module? i).map (·.updateFunction r.index g) else s.module? i := by
  obtain ⟨⟨g, hg, hm⟩, -⟩ := h
  refine ⟨g, hg, fun i => ?_⟩
  rw [module?_congr hm, Session.updateFn, module?_updateModule]

theorem skeleton (h : Recodes r s t) (q : FnRef) :
    (t.fn? q).map Fn.skeleton = (s.fn? q).map Fn.skeleton := by
  obtain ⟨⟨g, hg, hm⟩, -⟩ := h
  rw [fn?_congr hm]
  exact skeleton_updateFn hg r q

end Recodes

/-- What a fork at the end of block `b` does: three new blocks, and a branch to the first two. -/
structure Forked (s : Session) (b : BlockRef) (v : Value) (blocks : Fork) (t : Session) :
    Prop where
  ok : s.fork v = .ok (blocks, t)
  one : blocks.one = ⟨b.fn, s.size b.fn⟩
  zero : blocks.zero = ⟨b.fn, s.size b.fn + 1⟩
  join : blocks.join = ⟨b.fn, s.size b.fn + 2⟩
  position : t.position = .endOf b
  grows : s.Grows t
  recodes : Recodes b.fn s t
  body : t.body? b = (s.body? b).map (· ++ [.condBr v blocks.one blocks.zero])
  fresh : ∀ c, c = blocks.one ∨ c = blocks.zero ∨ c = blocks.join → t.body? c = some []
  other : ∀ c, c ≠ b → c ≠ blocks.one → c ≠ blocks.zero → c ≠ blocks.join →
    t.body? c = s.body? c

/-- The blocks of a conditional belong to the function where the builder stands; if it stands in
none, the conditional is refused. -/
theorem fork_ok {v : Value} {blocks : Fork} (h : s.fork v = .ok (blocks, t)) :
    ∃ b, s.position = .endOf b ∧ blocks.one.fn = b.fn ∧ blocks.zero.fn = b.fn ∧
      blocks.join.fn = b.fn := by
  unfold fork builderFn? at h
  cases hp : s.position with
  | endOf b =>
    rw [hp] at h
    cases h
    exact ⟨b, rfl, rfl, rfl, rfl⟩
  | unset | loose =>
    rw [hp] at h
    cases h

/-- What is kept by new blocks of the builder's function, and by a branch to two of its blocks, is
kept when a conditional appends its blocks. -/
theorem fork_induction {P : Session → Prop} {v : Value} {blocks : Fork}
    (h : s.fork v = .ok (blocks, t)) (hs : P s)
    (hblock : ∀ b, s.position = .endOf b → ∀ u name, P u → P (u.addBlock b.fn name).2)
    (hbranch : ∀ b, s.position = .endOf b → ∀ u one zero, one.fn = b.fn → zero.fn = b.fn → P u →
      P (u.append (.condBr v one zero))) : P t := by
  obtain ⟨b, hp, -⟩ := fork_ok h
  simp only [fork, builderFn?, hp] at h
  obtain ⟨-, rfl⟩ := Prod.mk.inj (Except.ok.inj h)
  have hblocks := hblock b hp _ (Bytes.ofString "else") (hblock b hp _ (Bytes.ofString "then") hs)
  exact hblock b hp _ _ (hbranch b hp _ (s.addBlock b.fn _).1 (addBlock _ b.fn _).1 rfl rfl hblocks)

theorem fork_forked {v : Value} {blocks : Fork} (hp : s.position = .endOf b)
    (hb : (s.body? b).isSome) (h : s.fork v = .ok (blocks, t)) : Forked s b v blocks t := by
  obtain ⟨r, k⟩ := b
  have hlt : k < s.size r := isSome_body?_iff.mp hb
  have hok := h
  simp only [fork, builderFn?, hp] at h
  obtain ⟨rfl, rfl⟩ := Prod.mk.inj (Except.ok.inj h)
  -- the four sessions that the fork passes through
  set s₁ := (s.addBlock r (Bytes.ofString "then")).2 with hs₁
  set s₂ := (s₁.addBlock r (Bytes.ofString "else")).2 with hs₂
  set i : Instr := .condBr v (s.addBlock r (Bytes.ofString "then")).1
    (s₁.addBlock r (Bytes.ofString "else")).1 with hi
  have h₀ : (s.fn? r).isSome := isSome_fn?_of_body? hb
  have h₁ : (s₁.fn? r).isSome := by simpa [hs₁, fn?_addBlock] using h₀
  have h₂ : (s₂.fn? r).isSome := by simpa [hs₂, fn?_addBlock] using h₁
  have h₃ : ((s₂.append i).fn? r).isSome := by
    obtain ⟨g, hg⟩ := Option.isSome_iff_exists.mp h₂
    obtain ⟨g', hg', -⟩ := (Grows.append s₂ i).fn? hg
    simp [hg']
  have hn₁ : s₁.size r = s.size r + 1 := size_addBlock h₀ _
  have hn₂ : s₂.size r = s.size r + 2 := (size_addBlock h₁ _).trans (by rw [hn₁])
  have hn₃ : (s₂.append i).size r = s.size r + 2 := (size_append s₂ i r).trans hn₂
  have hp₂ : s₂.position = .endOf ⟨r, k⟩ := hp
  have hone : (s.addBlock r (Bytes.ofString "then")).1 = ⟨r, s.size r⟩ := rfl
  have hzero : (s₁.addBlock r (Bytes.ofString "else")).1 = ⟨r, s.size r + 1⟩ :=
    congrArg (BlockRef.mk r) hn₁
  have hjoin : ((s₂.append i).addBlock r (Bytes.ofString "continue")).1 = ⟨r, s.size r + 2⟩ :=
    congrArg (BlockRef.mk r) hn₃
  have hbody : ∀ c, ((s₂.append i).addBlock r (Bytes.ofString "continue")).2.body? c =
      if c = ⟨r, s.size r + 2⟩ then some []
      else if c = ⟨r, k⟩ then (s.body? c).map (· ++ [i])
      else if c = ⟨r, s.size r + 1⟩ ∨ c = ⟨r, s.size r⟩ then some [] else s.body? c := by
    intro c
    rw [body?_addBlock h₃, hn₃, body?_append, hp₂, body?_addBlock h₁, hn₁, body?_addBlock h₀]
    by_cases hc : c = ⟨r, k⟩
    · subst hc
      have hk : k ≠ s.size r ∧ k ≠ s.size r + 1 ∧ k ≠ s.size r + 2 := by omega
      simp [hk]
    · simp only [hc, Ne.symm hc, Position.endOf.injEq, if_false]
      split_ifs <;> simp_all
  constructor
  · exact hok
  · exact hone
  · exact hzero
  · exact hjoin
  · exact (position_append s₂ i).trans hp₂
  · exact ((Grows.addBlock s r _).trans (.addBlock s₁ r _)).trans
      ((Grows.append s₂ i).trans (.addBlock _ r _))
  · have hi' : ∀ c ∈ i.targets, c.fn = r := by
      simp only [hi, hone, hzero, Instr.targets, List.mem_cons, List.not_mem_nil, or_false]
      rintro c (rfl | rfl) <;> rfl
    exact ((Recodes.addBlock s r _).trans (.addBlock s₁ r _)).trans
      ((Recodes.append hp₂ rfl hi').trans (.addBlock _ r _))
  · have hk : k ≠ s.size r + 2 := by omega
    rw [hbody, if_neg (by simpa using hk), if_pos rfl]
  · intro c hc
    have hc : c = ⟨r, s.size r⟩ ∨ c = ⟨r, s.size r + 1⟩ ∨ c = ⟨r, s.size r + 2⟩ := by
      rwa [← hone, ← hzero, ← hjoin]
    have hk : s.size r ≠ k ∧ s.size r + 1 ≠ k := by omega
    rw [hbody]
    rcases hc with rfl | rfl | rfl <;> simp [hk]
  · intro c hb h₁ h₂ h₃
    have h₁ : c ≠ ⟨r, s.size r⟩ := h₁
    have h₂ : c ≠ ⟨r, s.size r + 1⟩ := hzero ▸ h₂
    have h₃ : c ≠ ⟨r, s.size r + 2⟩ := hjoin ▸ h₃
    simp [hbody, hb, h₁, h₂, h₃]

namespace Forked

variable {v : Value} {blocks : Fork} {c : BlockRef}

theorem body?_eq_none (h : Forked s b v blocks t)
    (hc : c = blocks.one ∨ c = blocks.zero ∨ c = blocks.join) : s.body? c = none := by
  rw [← Option.not_isSome_iff_eq_none, isSome_body?_iff]
  rcases hc with rfl | rfl | rfl
  · rw [h.one]; exact Nat.lt_irrefl _
  · rw [h.zero]; exact Nat.not_lt.mpr (Nat.le_add_right _ _)
  · rw [h.join]; exact Nat.not_lt.mpr (Nat.le_add_right _ _)

theorem ne (h : Forked s b v blocks t) : blocks.zero ≠ blocks.one ∧ blocks.join ≠ blocks.one ∧
    blocks.join ≠ blocks.zero := by
  rw [h.one, h.zero, h.join]
  simp

theorem size (h : Forked s b v blocks t) : t.size b.fn = s.size b.fn + 3 := by
  have hlast : s.size b.fn + 2 < t.size b.fn := by
    have hj : (t.body? blocks.join).isSome := by rw [h.fresh _ (.inr (.inr rfl))]; rfl
    rw [h.join] at hj
    exact isSome_body?_iff.mp hj
  have hnext : ¬ s.size b.fn + 3 < t.size b.fn := by
    intro hlt
    have hold : s.body? ⟨b.fn, s.size b.fn + 3⟩ = none := by
      rw [← Option.not_isSome_iff_eq_none, isSome_body?_iff]
      exact Nat.not_lt.mpr (Nat.le_add_right _ _)
    have hnew : (t.body? ⟨b.fn, s.size b.fn + 3⟩).isSome := isSome_body?_iff.mpr hlt
    by_cases hb : ⟨b.fn, s.size b.fn + 3⟩ = b
    · rw [hb, h.body, ← hb, hold] at hnew
      cases hnew
    · rw [h.other _ hb (by simp [h.one]) (by simp [h.zero]) (by simp [h.join]), hold] at hnew
      cases hnew
  omega

theorem body?_eq (h : Forked s b v blocks t) (hb : c ≠ b) (hc : (s.body? c).isSome) :
    t.body? c = s.body? c := by
  have hnew : ¬ (c = blocks.one ∨ c = blocks.zero ∨ c = blocks.join) := by
    intro hn
    rw [h.body?_eq_none hn] at hc
    cases hc
  simp only [not_or] at hnew
  exact h.other c hb hnew.1 hnew.2.1 hnew.2.2

end Forked

end Session

end QuantumIR
