import QuantumIR.Proofs.BlockName

/-! # The predecessors of a block

A block is entered by the branches to it: the places of these are noted at the block, and the
branches themselves are instructions of other blocks. Building enters new blocks only. What is
called, returned or evaluated enters no block, a conditional enters two of its new blocks, and
the third is entered by the jumps at the ends of its branches.
-/

namespace QuantumIR

namespace Session

variable {s t u : Session} {b c d : BlockRef} {r : FnRef}

def Leads (s : Session) (c d : BlockRef) : Prop := ∃ i ∈ (s.body? c).getD [], d ∈ i.targets

instance (s : Session) (c d : BlockRef) : Decidable (s.Leads c d) :=
  inferInstanceAs (Decidable (∃ i ∈ (s.body? c).getD [], d ∈ i.targets))

/-- The places of the branches to a block, the latest first. -/
def sources? (s : Session) (d : BlockRef) : Option (List Source) := (s.block? d).map Block.sources

/-- Every branch leads to a block that exists. -/
def Linked (s : Session) : Prop := ∀ c d, s.Leads c d → (s.body? d).isSome

structure EntersAlike (d : BlockRef) (s t : Session) : Prop where
  sources : t.sources? d = s.sources? d
  leads : ∀ c, t.Leads c d ↔ s.Leads c d

theorem EntersAlike.refl (d : BlockRef) (s : Session) : EntersAlike d s s := ⟨rfl, fun _ => Iff.rfl⟩

theorem EntersAlike.trans (h : EntersAlike d s t) (h' : EntersAlike d t u) : EntersAlike d s u :=
  ⟨h'.sources.trans h.sources, fun c => (h'.leads c).trans (h.leads c)⟩

theorem Tidy.linked (h : s.Tidy) : s.Linked := by
  rintro c d ⟨i, hi, hd⟩
  cases hbody : s.body? c with
  | none => simp [hbody] at hi
  | some body => exact h.targets c body hbody i (by simpa [hbody] using hi) d hd

theorem leads_congr (h : ∀ c, t.body? c = s.body? c) : t.Leads c d ↔ s.Leads c d := by
  rw [Leads, Leads, h]

theorem Stands.leads_append (hs : s.Stands b) (i : Instr) :
    (s.append i).Leads c d ↔ s.Leads c d ∨ c = b ∧ d ∈ i.targets := by
  obtain ⟨body, hbody⟩ := Option.isSome_iff_exists.mp hs.exist
  by_cases hc : c = b
  · subst hc
    simp [Leads, Session.body?_append, hs.position, hbody, or_and_right, exists_or]
  · simp [Leads, hs.body?_append i hc, hc]

theorem sources?_updateBlock (s : Session) (b : BlockRef) (g : Block → Block) (d : BlockRef) :
    (s.updateBlock b g).sources? d =
      if b = d then (s.block? d).map fun blk => (g blk).sources else s.sources? d := by
  rw [sources?, block?_updateBlock]
  split
  · rw [Option.map_map]
    rfl
  · rfl

theorem sources?_insert (s : Session) (i : Instr) (d : BlockRef) :
    (s.insert i).sources? d = s.sources? d := by
  unfold insert
  split
  next b _ =>
    change (s.updateBlock b _).sources? d = _
    rw [sources?_updateBlock]
    split <;> rfl
  · rfl

theorem sources?_append (s : Session) {i : Instr} (hd : d ∉ i.targets) :
    (s.append i).sources? d = s.sources? d := by
  cases i with
  | call _ _ _ => exact sources?_insert s _ d
  | ret _ => exact sources?_insert s _ d
  | br c =>
    have hc : c ≠ d := by simpa [Instr.targets, eq_comm] using hd
    simp only [append, Instr.targets, List.foldl]
    rw [sources?_updateBlock, if_neg hc, sources?_insert]
  | condBr _ c e =>
    have hce : c ≠ d ∧ e ≠ d := by simpa [Instr.targets, eq_comm] using hd
    simp only [append, Instr.targets, List.foldl]
    rw [sources?_updateBlock, if_neg hce.2, sources?_updateBlock, if_neg hce.1, sources?_insert]

/-- A jump is the latest entry of its target. -/
theorem Stands.sources?_jump (hs : s.Stands b) (d : BlockRef) :
    (s.jump d).sources? d = (s.sources? d).map (.block b :: ·) := by
  have hsource : s.source = .block b := by rw [source, hs.position]
  have hinsert := sources?_insert s (.br d) d
  change ((s.insert (.br d)).updateBlock d (·.addSource s.source)).sources? d = _
  rw [sources?_updateBlock, if_pos rfl, hsource, ← hinsert, sources?, Option.map_map]
  rfl

theorem Stands.leads_jump (hs : s.Stands b) : (s.jump d).Leads c d ↔ s.Leads c d ∨ c = b := by
  simp [jump, hs.leads_append, Instr.targets]

theorem Stands.entersAlike_jump {e : BlockRef} (hs : s.Stands b) (hd : d ≠ e) :
    EntersAlike d s (s.jump e) := by
  have htargets : d ∉ (Instr.br e).targets := by simpa [Instr.targets] using hd
  refine ⟨sources?_append s htargets, fun c => ?_⟩
  simp [jump, hs.leads_append, htargets]

theorem Stands.linked_jump (hs : s.Stands b) (h : s.Linked) (hd : (s.body? d).isSome) :
    (s.jump d).Linked := by
  intro c e he
  apply (Grows.append s _).isSome_body?
  rcases (hs.leads_append _).mp he with he | ⟨-, he⟩
  · exact h c e he
  · obtain rfl : e = d := by simpa [Instr.targets] using he
    exact hd

theorem EntersAlike.moveTo (h : EntersAlike d s t) (b : BlockRef) :
    EntersAlike d s (t.moveTo b) :=
  ⟨h.sources, h.leads⟩

theorem Stands.leads_emit {op : Operation} {args : List Value} {v : Value} (hs : s.Stands b)
    (h : s.emit op args = .ok (v, t)) : t.Leads c d ↔ s.Leads c d := by
  obtain ⟨body, hb⟩ := Option.isSome_iff_exists.mp hs.exist
  obtain ⟨callee, u, sig, hu, -, rfl, -⟩ := emit_spec hs.position hb h
  have hbody := body?_prepare s b.fn.module op
  have hposition := position_prepare s b.fn.module op
  rw [hu] at hbody hposition
  have hstands : u.Stands b := ⟨hposition.trans hs.position, by rw [hbody]; exact hs.exist⟩
  simp [hstands.leads_append, Instr.targets, leads_congr hbody]

theorem sources?_emit {op : Operation} {args : List Value} {v : Value}
    (h : s.emit op args = .ok (v, t)) (hd : (s.body? d).isSome) : t.sources? d = s.sources? d := by
  have hsources : ∀ s : Session, s.sources? d =
      (s.code? d.fn).bind fun code => (code.1[d.index]?).map Block.sources := by
    intro s
    rw [sources?, block?, code?]
    cases s.fn? d.fn <;> rfl
  apply emit_induction h
  · intro c _
    rw [hsources, code?_prepare (isSome_fn?_of_body? hd), ← hsources]
  · exact fun u _ _ hu => (sources?_append u (by simp [Instr.targets])).trans hu

theorem sources?_addBlock (h : (s.fn? r).isSome) (name : Bytes) (d : BlockRef) :
    (s.addBlock r name).2.sources? d =
      if d = (s.addBlock r name).1 then some [] else s.sources? d := by
  obtain ⟨f, hf⟩ := Option.isSome_iff_exists.mp h
  obtain ⟨q, k⟩ := d
  change _ = if _ = (⟨r, s.size r⟩ : BlockRef) then _ else _
  simp only [sources?, block?, fn?_addBlock, BlockRef.mk.injEq, size_eq hf]
  by_cases hr : r = q
  · subst hr
    have hblocks : ∀ blk : Block, (f.blocks ++ [blk])[k]? =
        if k = f.blocks.length then some blk else f.blocks[k]? := by
      grind
    simp only [hf, Fn.addBlock, if_true, Option.map_some, Option.bind_some, true_and, hblocks]
    split <;> rfl
  · simp [hr, Ne.symm hr]

theorem Forked.leads {v : Value} {blocks : Fork} (hb : (s.body? b).isSome)
    (h : Forked s b v blocks t) :
    t.Leads c d ↔ s.Leads c d ∨ c = b ∧ (d = blocks.one ∨ d = blocks.zero) := by
  by_cases hnew : c = blocks.one ∨ c = blocks.zero ∨ c = blocks.join
  · have hold := h.body?_eq_none hnew
    have hcb : c ≠ b := by
      rintro rfl
      rw [hold] at hb
      cases hb
    simp [Leads, h.fresh c hnew, hold, hcb]
  · simp only [not_or] at hnew
    obtain ⟨body, hbody⟩ := Option.isSome_iff_exists.mp hb
    by_cases hc : c = b
    · subst hc
      simp [Leads, h.body, hbody, Instr.targets, or_and_right, exists_or]
    · simp [Leads, h.other c hc hnew.1 hnew.2.1 hnew.2.2, hc]

theorem Stands.sources?_fork {v : Value} {blocks : Fork} (hs : s.Stands b)
    (h : s.fork v = .ok (blocks, t)) (hone : d ≠ blocks.one) (hzero : d ≠ blocks.zero) :
    t.sources? d = if d = blocks.join then some [] else s.sources? d := by
  have h₀ : (s.fn? b.fn).isSome := isSome_fn?_of_body? hs.exist
  have hadd : ∀ (s : Session) name, (s.fn? b.fn).isSome →
      ((s.addBlock b.fn name).2.fn? b.fn).isSome := by
    intro s name hs
    simpa [fn?_addBlock] using hs
  have happend : ∀ (s : Session) i, (s.fn? b.fn).isSome → ((s.append i).fn? b.fn).isSome := by
    intro s i hs
    obtain ⟨f, hf⟩ := Option.isSome_iff_exists.mp hs
    obtain ⟨g, hg, -⟩ := (Grows.append s i).fn? hf
    simp [hg]
  simp only [fork, builderFn?, hs.position] at h
  obtain ⟨rfl, rfl⟩ := Prod.mk.inj (Except.ok.inj h)
  dsimp only at hone hzero ⊢
  rw [sources?_addBlock (happend _ _ (hadd _ _ (hadd _ _ h₀)))]
  refine if_congr Iff.rfl rfl ?_
  rw [sources?_append _ (by simpa [Instr.targets] using ⟨hone, hzero⟩),
    sources?_addBlock (hadd _ _ h₀), if_neg hzero, sources?_addBlock h₀, if_neg hone]

theorem Stands.entersAlike_fork {v : Value} {blocks : Fork} (hs : s.Stands b)
    (h : s.fork v = .ok (blocks, t)) (hd : (s.body? d).isSome) : EntersAlike d s t := by
  have hforked := fork_forked hs.position hs.exist h
  have hnew : ∀ c, c = blocks.one ∨ c = blocks.zero ∨ c = blocks.join → d ≠ c := by
    rintro c hc rfl
    rw [hforked.body?_eq_none hc] at hd
    cases hd
  have hone := hnew _ (.inl rfl)
  have hzero := hnew _ (.inr (.inl rfl))
  constructor
  · rw [hs.sources?_fork h hone hzero, if_neg (hnew _ (.inr (.inr rfl)))]
  · intro c
    simp [hforked.leads hs.exist, hone, hzero]

/-- The last block of a conditional is not entered yet. -/
theorem Stands.join_fork {v : Value} {blocks : Fork} (hs : s.Stands b) (hlinked : s.Linked)
    (h : s.fork v = .ok (blocks, t)) :
    t.sources? blocks.join = some [] ∧ ∀ c, ¬ t.Leads c blocks.join := by
  have hforked := fork_forked hs.position hs.exist h
  obtain ⟨-, hone, hzero⟩ := hforked.ne
  constructor
  · rw [hs.sources?_fork h hone hzero, if_pos rfl]
  · intro c hc
    rcases (hforked.leads hs.exist).mp hc with hc | ⟨-, hc | hc⟩
    · have hexists := hlinked c _ hc
      rw [hforked.body?_eq_none (.inr (.inr rfl))] at hexists
      cases hexists
    · exact hone hc
    · exact hzero hc

theorem Stands.linked_fork {v : Value} {blocks : Fork} (hs : s.Stands b) (hlinked : s.Linked)
    (h : s.fork v = .ok (blocks, t)) : t.Linked := by
  have hforked := fork_forked hs.position hs.exist h
  intro c d hd
  rcases (hforked.leads hs.exist).mp hd with hd | ⟨-, rfl | rfl⟩
  · exact hforked.grows.isSome_body? (hlinked c d hd)
  · rw [hforked.fresh _ (.inl rfl)]
    rfl
  · rw [hforked.fresh _ (.inr (.inl rfl))]
    rfl

end Session

end QuantumIR
