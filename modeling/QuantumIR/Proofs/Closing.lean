import QuantumIR.Proofs.Structured
import QuantumIR.Verifier

/-! # How blocks end

While a structured program without returns is built, every block but the builder's is closed by a
terminator at its end. A return that is not the last statement leaves a terminator in the middle of
a block, and nothing mends that.
-/

namespace QuantumIR

open Session

def Straight (body : List Instr) : Prop := ∀ i ∈ body, i.isTerminator = false

/-- The last instruction ends the block, and no other. -/
def Closed (body : List Instr) : Prop :=
  ∃ init last, body = init ++ [last] ∧ Straight init ∧ last.isTerminator = true

/-- An instruction that ends the block has others behind it. -/
def Broken (body : List Instr) : Prop :=
  ∃ init i rest, body = init ++ i :: rest ∧ i.isTerminator = true ∧ rest ≠ []

section Bodies

variable {body rest : List Instr} {i : Instr}

theorem Block.terminated_iff {b : Block} : b.terminated = true ↔ Closed b.body := by
  unfold Block.terminated Closed
  rcases List.eq_nil_or_concat b.body with h | ⟨init, last, h⟩
  · simp [h]
  · rw [List.concat_eq_append] at h
    simp only [h, List.getLast?_concat, List.dropLast_concat, Bool.and_eq_true, List.all_eq_true,
      Bool.not_eq_true']
    constructor
    · rintro ⟨hl, hi⟩
      exact ⟨init, last, rfl, hi, hl⟩
    · rintro ⟨init', last', he, hi, hl⟩
      obtain ⟨rfl, rfl⟩ := List.append_inj' he rfl |>.imp_right List.singleton_inj.mp
      exact ⟨hl, hi⟩

theorem Straight.closed (h : Straight body) (hi : i.isTerminator = true) : Closed (body ++ [i]) :=
  ⟨body, i, rfl, h, hi⟩

theorem Straight.append (h : Straight body) (hi : i.isTerminator = false) :
    Straight (body ++ [i]) := by
  intro j hj
  rcases List.mem_append.mp hj with hj | hj
  · exact h j hj
  · rw [List.mem_singleton.mp hj, hi]

theorem Straight.not_closed (h : Straight body) : ¬ Closed body := by
  rintro ⟨init, last, rfl, -, hl⟩
  rw [h last (by simp)] at hl
  cases hl

theorem Broken.not_closed (h : Broken body) : ¬ Closed body := by
  obtain ⟨init, i, rest, rfl, hi, hr⟩ := h
  rintro ⟨init', last, he, hs, -⟩
  obtain ⟨rest, last', rfl⟩ := (List.eq_nil_or_concat rest).resolve_left hr
  rw [List.concat_eq_append, ← List.cons_append, ← List.append_assoc] at he
  obtain ⟨rfl, -⟩ := List.append_inj' he rfl
  rw [hs i (by simp)] at hi
  cases hi

theorem Broken.of_prefix (h : Broken body) (hp : body <+: rest) : Broken rest := by
  obtain ⟨init, i, tail, rfl, hi, hr⟩ := h
  obtain ⟨more, rfl⟩ := hp
  exact ⟨init, i, tail ++ more, by simp, hi, by simp [hr]⟩

theorem broken_append (h : ∃ i ∈ body, i.isTerminator = true) (j : Instr) :
    Broken (body ++ [j]) := by
  obtain ⟨i, hi, ht⟩ := h
  obtain ⟨init, rest, rfl⟩ := List.append_of_mem hi
  exact ⟨init, i, rest ++ [j], by simp, ht, by simp⟩

end Bodies

namespace Session

variable {s t : Session} {b c d : BlockRef} {P : List Instr → Prop}

def Has (s : Session) (d : BlockRef) (P : List Instr → Prop) : Prop :=
  ∃ body, s.body? d = some body ∧ P body

theorem Has.of_body? (h : s.Has d P) (he : t.body? d = s.body? d) : t.Has d P := by
  obtain ⟨body, hb, hP⟩ := h
  exact ⟨body, he.trans hb, hP⟩

theorem Has.broken_of_grows (h : s.Has d Broken) (hg : s.Grows t) : t.Has d Broken := by
  obtain ⟨body, hb, hbr⟩ := h
  obtain ⟨body', hb', hp⟩ := hg.body? hb
  exact ⟨body', hb', hbr.of_prefix hp⟩

theorem Stands.has_append {Q : List Instr → Prop} (hs : s.Stands b) (h : s.Has b P) {i : Instr}
    (hi : ∀ body, P body → Q (body ++ [i])) : (s.append i).Has b Q := by
  obtain ⟨body, hb, hP⟩ := h
  refine ⟨body ++ [i], ?_, hi body hP⟩
  rw [Session.body?_append, if_pos hs.position, hb]
  rfl

theorem Stands.has_emit {Q : List Instr → Prop} {op : Operation} {args : List Value} {v : Value}
    (hs : s.Stands b) (h : s.Has b P) (he : s.emit op args = .ok (v, t))
    (hi : ∀ body callee sig, P body → Q (body ++ [.call callee sig args])) : t.Has b Q := by
  obtain ⟨body, hb, hP⟩ := h
  obtain ⟨callee, sig, ht, -⟩ := emit_body hs.position hb he
  exact ⟨_, ht, hi body callee sig hP⟩

/-- Every block of the function at `r` is closed but for those in a list. -/
def ClosedBut (s : Session) (r : FnRef) (X : List BlockRef) : Prop :=
  ∀ d, d.fn = r → d ∉ X → (s.body? d).isSome → s.Has d Closed

theorem ClosedBut.of_body? {r : FnRef} {X : List BlockRef} (h : s.ClosedBut r X)
    (he : ∀ d, d ∉ X → t.body? d = s.body? d) : t.ClosedBut r X := by
  intro d hd hX hsome
  rw [he d hX] at hsome
  exact (h d hd hX hsome).of_body? (he d hX)

theorem ClosedBut.jump {r : FnRef} {X : List BlockRef} (h : s.ClosedBut r (b :: X))
    (hs : s.Stands b) (hb : s.Has b Straight) (target : BlockRef) :
    (s.jump target).ClosedBut r X := by
  intro d hd hX hsome
  by_cases hdb : d = b
  · subst hdb
    exact hs.has_append hb fun body hbody => hbody.closed rfl
  · have he := hs.body?_append (.br target) hdb
    exact (h d hd (by simp [hdb, hX]) (he ▸ hsome)).of_body? he

theorem Forked.closedBut {v : Value} {blocks : Fork} {r : FnRef} {X : List BlockRef}
    (h : Forked s b v blocks t) (hs : s.ClosedBut r (b :: X)) (hb : s.Has b Straight) :
    t.ClosedBut r (blocks.one :: blocks.zero :: blocks.join :: X) := by
  intro d hd hX hsome
  simp only [List.mem_cons, not_or] at hX
  by_cases hdb : d = b
  · subst hdb
    obtain ⟨body, hbody, hst⟩ := hb
    exact ⟨_, h.body.trans (by rw [hbody]; rfl), hst.closed rfl⟩
  · have he := h.other d hdb hX.1 hX.2.1 hX.2.2.1
    exact (hs d hd (by simp [hdb, hX.2.2.2]) (he ▸ hsome)).of_body? he

end Session

theorem Stmt.Advances.has {st : Stmt} {s t : Session} {b : BlockRef} {P : List Instr → Prop}
    (h : st.Advances s t) (hr : st.returns = 0) (hs : s.Stands b) (hb : s.Has b P)
    (hP : ∀ body callee sig args, P body → P (body ++ [.call callee sig args])) : t.Has b P := by
  cases h with
  | skip he => exact hb.of_body? (he.body? b)
  | call he hu =>
    refine (hs.of_evaluates he).has_emit (hb.of_body? (he.body? b)) hu ?_
    exact fun body callee sig h => hP body callee sig _ h
  | ret => simp [Stmt.returns] at hr

namespace Builds

variable {s t : Session} {b c : BlockRef} {p : List Stmt} {xs : List Branching}

/-- Without returns the builder's block stays open. -/
theorem has_straight (h : Builds s b p xs t c) (hr : Stmt.returnsAll p = 0)
    (hb : s.Has b Straight) : t.Has c Straight := by
  induction h with
  | nil => exact hb
  | advance hs hst _ ih =>
    rw [Stmt.returnsAll, Nat.add_eq_zero_iff] at hr
    exact ih hr.2 (hst.has hr.1 hs hb fun _ _ _ _ h => h.append rfl)
  | branch hs hg hf h₁ h₂ _ _ _ ih₃ =>
    simp only [Stmt.returnsAll, Nat.add_eq_zero_iff] at hr
    exact ih₃ hr.2 ⟨[], body?_join hf h₁ h₂, nofun⟩

/-- Without returns every block that is left is closed. The blocks in `X` are those to which
conditionals around this program have still to come. -/
theorem closedBut (h : Builds s b p xs t c) (hr : Stmt.returnsAll p = 0) (hb : s.Has b Straight)
    {X : List BlockRef} (hX : ∀ d ∈ X, d ≠ b ∧ (s.body? d).isSome)
    (hs : s.ClosedBut b.fn (b :: X)) : t.ClosedBut b.fn (c :: X) := by
  induction h generalizing X with
  | nil => exact hs
  | advance hst hadv _ ih =>
    rw [Stmt.returnsAll, Nat.add_eq_zero_iff] at hr
    refine ih hr.2 (hadv.has hr.1 hst hb fun _ _ _ _ h => h.append rfl) (fun d hd => ?_)
      (hs.of_body? fun d hd => hadv.body?_eq hst ?_)
    · obtain ⟨hne, hsome⟩ := hX d hd
      exact ⟨hne, hadv.body?_eq hst hne ▸ hsome⟩
    · exact fun hdb => hd (by simp [hdb])
  | @branch s t u x y z b c d e p one zero xs ys zs g v blocks hst hg hf h₁ h₂ _ ih₁ ih₂ ih₃ =>
    simp only [Stmt.returnsAll, Stmt.returns, Nat.add_eq_zero_iff] at hr
    have harms := arms hf h₁ h₂
    rw [harms.one] at ih₁
    rw [harms.zero] at ih₂
    rw [harms.join] at ih₃
    obtain ⟨test, htest, hadv⟩ := hg.advances
    have ht : t.ClosedBut b.fn (b :: X) := hs.of_body? fun d hd =>
      hadv.body?_eq hst fun hdb => hd (by simp [hdb])
    have htb : t.Has b Straight := hadv.has htest hst hb fun _ _ _ _ h => h.append rfl
    -- the blocks in `X` are older than those of this conditional, and outlive them
    have hXne : ∀ d ∈ X, ∀ c, c = blocks.one ∨ c = blocks.zero ∨ c = blocks.join → d ≠ c := by
      rintro d hd c hc rfl
      have hsome := hadv.grows.isSome_body? (hX d hd).2
      rw [hf.body?_eq_none hc] at hsome
      cases hsome
    have hXu : ∀ d ∈ X, (u.body? d).isSome := fun d hd =>
      hf.grows.isSome_body? (hadv.grows.isSome_body? (hX d hd).2)
    have hux : ∀ d, (u.body? d).isSome → ((x.jump blocks.join).body? d).isSome := fun d hd =>
      (Grows.append x _).isSome_body? (harms.grows.2.1.isSome_body? hd)
    have huy : ∀ d, (u.body? d).isSome → ((y.jump blocks.join).body? d).isSome := fun d hd =>
      (Grows.append y _).isSome_body? (harms.grows.2.2.isSome_body? (hux d hd))
    have hnew : ∀ d, d = blocks.one ∨ d = blocks.zero ∨ d = blocks.join → (u.body? d).isSome :=
      fun d hd => (hf.stands hd).exist
    have hx : x.ClosedBut b.fn (c :: blocks.zero :: blocks.join :: X) := by
      refine ih₁ hr.1.1 ⟨[], hf.fresh _ (.inl rfl), nofun⟩ ?_ (hf.closedBut ht htb)
      simp only [List.forall_mem_cons]
      exact ⟨⟨hf.ne.1, hnew _ (.inr (.inl rfl))⟩, ⟨hf.ne.2.1, hnew _ (.inr (.inr rfl))⟩,
        fun d hd => ⟨hXne d hd _ (.inl rfl), hXu d hd⟩⟩
    have hxc := h₁.has_straight hr.1.1 ⟨[], hf.fresh _ (.inl rfl), nofun⟩
    have hy : y.ClosedBut b.fn (d :: blocks.join :: X) := by
      refine ih₂ hr.1.2 ⟨[], body?_zero hf h₁, nofun⟩ ?_ (hx.jump harms.first hxc _)
      simp only [List.forall_mem_cons]
      exact ⟨⟨hf.ne.2.2, hux _ harms.joins.1⟩,
        fun d hd => ⟨hXne d hd _ (.inr (.inl rfl)), hux d (hXu d hd)⟩⟩
    have hyd := h₂.has_straight hr.1.2 ⟨[], body?_zero hf h₁, nofun⟩
    refine ih₃ hr.2 ⟨[], body?_join hf h₁ h₂, nofun⟩ ?_ (hy.jump harms.second hyd _)
    exact fun d hd => ⟨hXne d hd _ (.inr (.inr rfl)), huy d (hXu d hd)⟩

theorem body?_of_getLast? (h : Builds s b p xs t c) (hl : p.getLast? = some .ret) :
    ∃ body, t.body? c = some (body ++ [.ret none]) := by
  induction h with
  | nil => cases hl
  | @advance s t u b c st p xs hs hst hrest ih =>
    cases p with
    | nil =>
      obtain rfl : st = .ret := by simpa using hl
      cases hrest
      cases hst
      obtain ⟨body, hbody⟩ := Option.isSome_iff_exists.mp hs.exist
      refine ⟨body, ?_⟩
      rw [Session.body?_append, if_pos hs.position, hbody]
      rfl
    | cons st' p => exact ih (List.getLast?_cons_cons ▸ hl)
  | branch _ _ _ _ _ _ _ _ ih₃ => exact ih₃ ((Stmt.getLast?_cons (by simp) _).mp hl)

/-- What is built behind a terminator breaks the block. -/
theorem has_broken_of_terminator (h : Builds s b p xs t c) (hk : Stmt.completeAll p) (hp : p ≠ [])
    (hb : s.Has b fun body => ∃ i ∈ body, i.isTerminator = true) : t.Has b Broken := by
  cases h with
  | nil => exact absurd rfl hp
  | advance hs hst hrest =>
    refine Has.broken_of_grows ?_ hrest.stands.2.2
    cases hst with
    | skip => simp [Stmt.completeAll, Stmt.complete] at hk
    | call he hu =>
      refine (hs.of_evaluates he).has_emit (hb.of_body? (he.body? b)) hu ?_
      exact fun _ _ _ h => broken_append h _
    | ret => exact hs.has_append hb fun _ h => broken_append h _
  | branch hs hg hf h₁ h₂ h₃ =>
    obtain ⟨test, htest, hadv⟩ := hg.advances
    obtain ⟨body, hbody, hterm⟩ := hadv.has htest hs hb
      fun _ _ _ _ ⟨i, hi, ht⟩ => ⟨i, List.mem_append_left _ hi, ht⟩
    refine Has.broken_of_grows ⟨_, hf.body.trans (by rw [hbody]; rfl), broken_append hterm _⟩ ?_
    exact (h₁.stands.2.2.trans (Grows.append _ _)).trans
      ((h₂.stands.2.2.trans (Grows.append _ _)).trans h₃.stands.2.2)

theorem has_broken_jump (h : Builds s b p xs t c) (hr : Stmt.returnsAll p ≠ 0) (target : BlockRef)
    (ih : Stmt.returnsAll p ≠ 0 → ¬ (Stmt.returnsAll p = 1 ∧ p.getLast? = some .ret) →
      ∃ d, d.fn = b.fn ∧ t.Has d Broken) :
    ∃ d, d.fn = b.fn ∧ (t.jump target).Has d Broken := by
  by_cases hn : Stmt.returnsAll p = 1 ∧ p.getLast? = some .ret
  · obtain ⟨body, hbody⟩ := h.body?_of_getLast? hn.2
    obtain ⟨hst, hfn, -⟩ := h.stands
    refine ⟨c, hfn, hst.has_append (P := fun body => ∃ i ∈ body, i.isTerminator = true)
      ⟨_, hbody, .ret none, by simp, rfl⟩ fun _ h => broken_append h _⟩
  · obtain ⟨d, hd, hbr⟩ := ih hr hn
    exact ⟨d, hd, hbr.broken_of_grows (Grows.append _ _)⟩

/-- A return that is not the one last statement breaks a block. -/
theorem has_broken (h : Builds s b p xs t c) (hk : Stmt.completeAll p) (hr : Stmt.returnsAll p ≠ 0)
    (hn : ¬ (Stmt.returnsAll p = 1 ∧ p.getLast? = some .ret)) :
    ∃ d, d.fn = b.fn ∧ t.Has d Broken := by
  induction h with
  | nil => exact absurd rfl hr
  | @advance s t u b c st p xs hs hst hrest ih =>
    rw [Stmt.completeAll, Bool.and_eq_true] at hk
    cases hst with
    | skip => cases hk.1
    | call =>
      simp only [Stmt.returnsAll, Stmt.returns, Nat.zero_add] at hr hn
      rw [Stmt.getLast?_cons (by simp)] at hn
      exact ih hk.2 hr hn
    | ret =>
      cases p with
      | nil => exact absurd ⟨rfl, rfl⟩ hn
      | cons st p =>
        obtain ⟨body, hbody⟩ := Option.isSome_iff_exists.mp hs.exist
        refine ⟨b, rfl, hrest.has_broken_of_terminator hk.2 (by simp) ?_⟩
        exact hs.has_append (P := fun _ => True) ⟨body, hbody, trivial⟩
          fun body _ => ⟨.ret none, by simp, rfl⟩
  | @branch s t u x y z b c d e p one zero xs ys zs g v blocks hs hg hf h₁ h₂ h₃ ih₁ ih₂ ih₃ =>
    have harms := arms hf h₁ h₂
    simp only [Stmt.completeAll, Stmt.complete, Bool.and_eq_true] at hk
    simp only [Stmt.returnsAll, Stmt.returns] at hr hn
    rw [Stmt.getLast?_cons (by simp)] at hn
    by_cases hr₁ : Stmt.returnsAll one = 0
    · by_cases hr₂ : Stmt.returnsAll zero = 0
      · rw [hr₁, hr₂, Nat.zero_add] at hr hn
        obtain ⟨d, hd, hbr⟩ := ih₃ hk.2 hr hn
        exact ⟨d, hd.trans harms.join, hbr⟩
      · obtain ⟨d, hd, hbr⟩ := h₂.has_broken_jump hr₂ blocks.join (ih₂ hk.1.2)
        exact ⟨d, hd.trans harms.zero, hbr.broken_of_grows h₃.stands.2.2⟩
    · obtain ⟨d, hd, hbr⟩ := h₁.has_broken_jump hr₁ blocks.join (ih₁ hk.1.1)
      refine ⟨d, hd.trans harms.one, hbr.broken_of_grows ?_⟩
      exact h₂.stands.2.2.trans ((Grows.append _ _).trans h₃.stands.2.2)

theorem split {q : List Stmt} (h : Builds s b (p ++ q) xs t c) :
    ∃ u d ys zs, Builds s b p ys u d ∧ Builds u d q zs t c := by
  induction p generalizing s b xs with
  | nil => exact ⟨s, b, [], xs, .nil h.start, h⟩
  | cons st p ih =>
    cases h with
    | advance hs hst hrest =>
      obtain ⟨u, d, ys, zs, hp, hq⟩ := ih hrest
      exact ⟨u, d, ys, zs, .advance hs hst hp, hq⟩
    | branch hs hg hf h₁ h₂ hrest =>
      obtain ⟨u, d, _, zs, hp, hq⟩ := ih hrest
      exact ⟨u, d, _, zs, .branch hs hg hf h₁ h₂ hp, hq⟩

end Builds

end QuantumIR
