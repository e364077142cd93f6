import QuantumIR.Proofs.Declaration
import QuantumIR.Verifier

/-! # Legal statements

Statements are legal if their arguments have the types that the operations ask for, and may be used
in the function. The instructions that are built from them fit the function wherever they stand:
they call functions of the module, branch to new blocks only, and use no result but the one that
was read just before.
-/

namespace QuantumIR

open Session

/-- A value belongs to the function at `r`: it is a parameter, or a constant that refers to no other
module. -/
def Value.BelongsTo (r : FnRef) : Value → Prop
  | .const c => ∀ i ∈ c.modules, i = r.module
  | .bound (.param owner _ _) => owner = r
  | _ => False

instance (r : FnRef) (v : Value) : Decidable (v.BelongsTo r) :=
  match v with
  | .const c => inferInstanceAs (Decidable (∀ i ∈ c.modules, i = r.module))
  | .bound (.param owner _ _) => inferInstanceAs (Decidable (owner = r))
  | .bound (.result _ _) => inferInstanceAs (Decidable False)
  | .metadata _ => inferInstanceAs (Decidable False)

/-- A value may be used everywhere in the function at `r`: it is a parameter, or a constant that may
be used in the module. -/
def Value.UsableIn (r : FnRef) : Value → Prop
  | .const c => c.usableIn r.module = true
  | .bound (.param owner _ _) => owner = r
  | _ => False

theorem Value.IsCondition.usableIn {r : FnRef} {v : Value} (h : v.IsCondition r) :
    v.ty = .bit ∧ v.UsableIn r := by
  rcases h with ⟨c, rfl, hc⟩ | ⟨i, rfl⟩
  · refine ⟨hc, ?_⟩
    simp [Value.UsableIn, Constant.usableIn, hc, Ty.bit, Ty.isPtr]
  · exact ⟨rfl, rfl⟩

def Guard.Legal (r : FnRef) (P : Value → Prop) : Guard → Prop
  | .bit v => v.IsCondition r
  | .result v => v.ty = .result ∧ P v

instance (r : FnRef) (P : Value → Prop) [DecidablePred P] (g : Guard) : Decidable (g.Legal r P) :=
  match g with
  | .bit v => inferInstanceAs (Decidable (v.IsCondition r))
  | .result v => inferInstanceAs (Decidable (v.ty = .result ∧ P v))

namespace Stmt

mutual

/-- The arguments of a statement in the function at `r` have the types that operations ask for, and
are as they should be. -/
def Legal (r : FnRef) (P : Value → Prop) : Stmt → Prop
  | .call op args => args.map Value.ty = op.params ∧ ∀ v ∈ args, P v
  | .ret => True
  | .branch guard one zero => guard.Legal r P ∧ LegalAll r P one ∧ LegalAll r P zero
  | .skip => False

def LegalAll (r : FnRef) (P : Value → Prop) : List Stmt → Prop
  | [] => True
  | st :: p => st.Legal r P ∧ LegalAll r P p

end

section Decidable

variable (r : FnRef) (P : Value → Prop) [DecidablePred P]

mutual

def decLegal : (st : Stmt) → Decidable (st.Legal r P)
  | .call op args => inferInstanceAs (Decidable (args.map Value.ty = op.params ∧ ∀ v ∈ args, P v))
  | .ret => isTrue trivial
  | .branch guard one zero =>
    have := decLegalAll one
    have := decLegalAll zero
    inferInstanceAs (Decidable (guard.Legal r P ∧ LegalAll r P one ∧ LegalAll r P zero))
  | .skip => isFalse id

def decLegalAll : (p : List Stmt) → Decidable (LegalAll r P p)
  | [] => isTrue trivial
  | st :: p =>
    have := decLegal st
    have := decLegalAll p
    inferInstanceAs (Decidable (st.Legal r P ∧ LegalAll r P p))

end

instance (p : List Stmt) : Decidable (LegalAll r P p) := decLegalAll r P p

end Decidable

section Strengthen

variable {r : FnRef} {P Q : Value → Prop}

mutual

theorem Legal.imp : ∀ st : Stmt, (∀ x ∈ st.calls, ∀ v ∈ x.2, P v → Q v) → st.Legal r P →
    st.Legal r Q
  | .call op args, hPQ, h => ⟨h.1, fun v hv => hPQ (op, args) (by simp [calls]) v hv (h.2 v hv)⟩
  | .ret, _, _ => trivial
  | .branch guard one zero, hPQ, h => by
    simp only [calls, List.mem_append] at hPQ
    refine ⟨?_, LegalAll.imp one (fun x hx => hPQ x (.inr (.inl hx))) h.2.1,
      LegalAll.imp zero (fun x hx => hPQ x (.inr (.inr hx))) h.2.2⟩
    cases guard with
    | bit v => exact h.1
    | result v =>
      exact ⟨h.1.1, hPQ (.readResult, [v]) (.inl (by simp [Guard.calls])) v (by simp) h.1.2⟩
  | .skip, _, h => h

theorem LegalAll.imp : ∀ p : List Stmt, (∀ x ∈ callsAll p, ∀ v ∈ x.2, P v → Q v) →
    LegalAll r P p → LegalAll r Q p
  | [], _, _ => trivial
  | st :: p, hPQ, h => by
    simp only [callsAll, List.mem_append] at hPQ
    exact ⟨Legal.imp st (fun x hx => hPQ x (.inl hx)) h.1,
      LegalAll.imp p (fun x hx => hPQ x (.inr hx)) h.2⟩

end

end Strengthen

end Stmt

/-- Instruction `k` of block `d` fits the function at `r`, whatever the rest of its code is. It
branches to blocks from `n` on. -/
def Instr.Fits (s : Session) (r : FnRef) (n : Nat) (d : BlockRef) (k : Nat) : Instr → Prop
  | .call callee sig args =>
    (callee.module = r.module ∧ ∃ op, s.Finds r.module op callee.index ∧ sig = op.signature) ∧
      args.map Value.ty = sig.params ∧ ∀ v ∈ args, v.UsableIn r
  | .ret value => value = none
  | .br target => target.fn = r ∧ n ≤ target.index
  | .condBr v one zero =>
    (one.fn = r ∧ n ≤ one.index) ∧ (zero.fn = r ∧ n ≤ zero.index) ∧ v.ty = .bit ∧
      (v.UsableIn r ∨ ∃ j, j < k ∧ v = .bound (.result (.placed ⟨d, j⟩) .bit))

theorem Instr.Fits.le_of_mem_targets {s : Session} {r : FnRef} {n k : Nat} {d c : BlockRef}
    {x : Instr} (h : x.Fits s r n d k) (hc : c ∈ x.targets) : n ≤ c.index := by
  cases x with
  | call _ _ _ => cases hc
  | ret _ => cases hc
  | br target =>
    obtain rfl := List.mem_singleton.mp hc
    exact h.2
  | condBr v one zero =>
    rcases List.mem_cons.mp hc with rfl | hc
    · exact h.1.2
    · obtain rfl := List.mem_singleton.mp hc
      exact h.2.1.2

namespace Session

variable {s t u S : Session} {r : FnRef} {n : Nat} {b : BlockRef}

def AddsFitting (S : Session) (r : FnRef) (n : Nat) (s t : Session) : Prop :=
  ∀ d body k (i : Instr), t.body? d = some body → body[k]? = some i →
    (∃ old, s.body? d = some old ∧ old[k]? = some i) ∨ (d.fn = r ∧ i.Fits S r n d k)

namespace AddsFitting

theorem trans (h : AddsFitting S r n s t) (h' : AddsFitting S r n t u) : AddsFitting S r n s u := by
  intro d body k i hb hi
  rcases h' d body k i hb hi with ⟨old, hold, hi⟩ | hfits
  · exact h d old k i hold hi
  · exact .inr hfits

theorem of_body? (h : ∀ d, t.body? d = s.body? d) : AddsFitting S r n s t :=
  fun d body _ _ hb hi => .inl ⟨body, h d ▸ hb, hi⟩

theorem of_append {body : List Instr} {i : Instr} (hr : b.fn = r) (hs : s.body? b = some body)
    (hb : t.body? b = some (body ++ [i])) (hi : i.Fits S r n b body.length)
    (hother : ∀ d, d ≠ b → t.body? d = s.body? d ∨ t.body? d = some []) :
    AddsFitting S r n s t := by
  intro d body' k j hd hj
  by_cases hdb : d = b
  · subst hdb
    obtain rfl : body ++ [i] = body' := Option.some.inj (hb.symm.trans hd)
    rw [List.getElem?_append] at hj
    split at hj
    · exact .inl ⟨body, hs, hj⟩
    next hk =>
      rw [List.getElem?_singleton] at hj
      split at hj
      next h0 =>
        obtain rfl : k = body.length := by omega
        exact .inr ⟨hr, Option.some.inj hj ▸ hi⟩
      · cases hj
  · rcases hother d hdb with he | he
    · exact .inl ⟨body', he ▸ hd, hj⟩
    · obtain rfl : [] = body' := Option.some.inj (he.symm.trans hd)
      cases hj

theorem append (hs : s.Stands b) (hr : b.fn = r) {i : Instr}
    (hi : ∀ k, i.Fits S r n b k) : AddsFitting S r n s (s.append i) := by
  obtain ⟨body, hbody⟩ := Option.isSome_iff_exists.mp hs.exist
  refine of_append hr hbody ?_ (hi _) fun d hd => .inl (hs.body?_append i hd)
  rw [Session.body?_append, if_pos hs.position, hbody]
  rfl

end AddsFitting

theorem Grows.size_le (h : s.Grows t) (r : FnRef) : s.size r ≤ t.size r := by
  by_contra hlt
  have hsome : (s.body? ⟨r, t.size r⟩).isSome := isSome_body?_iff.mpr (Nat.not_le.mp hlt)
  exact Nat.lt_irrefl _ (isSome_body?_iff.mp (h.isSome_body? hsome))

def Signed (s : Session) (i : Nat) : Prop :=
  ∀ k f (op : Operation), s.fn? ⟨i, k⟩ = some f → f.name = op.symbol → f.sig = op.signature

/-- A call of an operation has its signature if the functions have it in the end. -/
theorem Stands.emit_signed {op : Operation} {args : List Value} {v : Value} (hs : s.Stands b)
    (hc : s.ClearAt b.fn.module) (he : s.emit op args = .ok (v, t)) (hS : t.Grows S)
    (hsig : S.Signed b.fn.module) :
    ∃ body k, s.body? b = some body ∧ S.Finds b.fn.module op k ∧
      t.body? b = some (body ++ [.call ⟨b.fn.module, k⟩ op.signature args]) ∧
      v = .bound (.result (.placed ⟨b, body.length⟩) op.signature.ret) := by
  obtain ⟨body, hbody⟩ := Option.isSome_iff_exists.mp hs.exist
  obtain ⟨k, f, hfind, hf, ht, hv⟩ := emit_call hc hs.position hbody he
  have hop : f.sig = op.signature := by
    obtain ⟨g, hg, hfg⟩ := hS.fn? hf
    obtain ⟨f', hf', hn⟩ := hfind.fn?
    obtain rfl : f = f' := Option.some.inj (hf.symm.trans hf')
    exact hfg.sig.symm.trans (hsig k g op hg (hfg.name.trans hn))
  rw [hop] at ht hv
  exact ⟨body, k, hbody, hfind.grows hS, ht, hv⟩

theorem Stands.addsFitting_emit {op : Operation} {args : List Value} {v : Value} (hs : s.Stands b)
    (hc : s.ClearAt b.fn.module) (he : s.emit op args = .ok (v, t)) (hS : t.Grows S)
    (hsig : S.Signed b.fn.module) (hargs : args.map Value.ty = op.params)
    (huse : ∀ v ∈ args, v.UsableIn b.fn) : AddsFitting S b.fn n s t := by
  obtain ⟨body, k, hbody, hfind, ht, -⟩ := hs.emit_signed hc he hS hsig
  exact .of_append rfl hbody ht ⟨⟨rfl, op, hfind, rfl⟩, hargs, huse⟩
    fun d hd => .inl (hs.body?_emit he hd)

theorem Forked.addsFitting {v : Value} {blocks : Fork} (h : Forked s b v blocks t)
    (hn : n ≤ s.size b.fn) (hv : v.ty = .bit ∧ ∃ body, s.body? b = some body ∧
      (v.UsableIn b.fn ∨ ∃ j, j < body.length ∧ v = .bound (.result (.placed ⟨b, j⟩) .bit))) :
    AddsFitting S b.fn n s t := by
  obtain ⟨hbit, body, hbody, huse⟩ := hv
  have ht : t.body? b = some (body ++ [.condBr v blocks.one blocks.zero]) := by
    rw [h.body, hbody]
    rfl
  refine .of_append rfl hbody ht ⟨?_, ?_, hbit, huse⟩ fun d hd => ?_
  · rw [h.one]
    exact ⟨rfl, hn⟩
  · rw [h.zero]
    exact ⟨rfl, Nat.le_add_right_of_le hn⟩
  · by_cases hnew : d = blocks.one ∨ d = blocks.zero ∨ d = blocks.join
    · exact .inr (h.fresh d hnew)
    · simp only [not_or] at hnew
      exact .inl (h.other d hd hnew.1 hnew.2.1 hnew.2.2)

end Session

namespace Guard

variable {s t u S : Session} {b : BlockRef} {g : Guard} {v : Value} {n : Nat}

theorem Tests.usable (h : g.Tests s v t) (hl : g.Legal b.fn (Value.UsableIn b.fn)) (hs : s.Stands b)
    (hc : s.ClearAt b.fn.module) (hS : t.Grows S) (hsig : S.Signed b.fn.module) :
    v.ty = .bit ∧ ∃ body, t.body? b = some body ∧
      (v.UsableIn b.fn ∨ ∃ j, j < body.length ∧ v = .bound (.result (.placed ⟨b, j⟩) .bit)) := by
  cases h with
  | bit v he =>
    obtain ⟨body, hbody⟩ := Option.isSome_iff_exists.mp (hs.of_evaluates he).exist
    exact ⟨hl.usableIn.1, body, hbody, .inl hl.usableIn.2⟩
  | result he hu =>
    obtain ⟨body, k, -, -, ht, rfl⟩ :=
      (hs.of_evaluates he).emit_signed (hc.of_evaluates he) hu hS hsig
    exact ⟨rfl, _, ht, .inr ⟨body.length, by simp, rfl⟩⟩

theorem Tests.addsFitting (h : g.Tests s v t) (hl : g.Legal b.fn (Value.UsableIn b.fn))
    (hs : s.Stands b) (hc : s.ClearAt b.fn.module) (hS : t.Grows S)
    (hsig : S.Signed b.fn.module) : AddsFitting S b.fn n s t := by
  cases h with
  | bit v he => exact .of_body? he.body?
  | result he hu =>
    refine (AddsFitting.of_body? he.body?).trans
      ((hs.of_evaluates he).addsFitting_emit (hc.of_evaluates he) hu hS hsig ?_ ?_)
    · simpa [Operation.params] using hl.1
    · simpa using hl.2

end Guard

namespace Builds

variable {s t S : Session} {b c : BlockRef} {p : List Stmt} {xs : List Branching} {n : Nat}

/-- The instructions that are built from legal statements fit the function. -/
theorem addsFitting (h : Builds s b p xs t c) (hl : Stmt.LegalAll b.fn (Value.UsableIn b.fn) p)
    (hc : s.ClearAt b.fn.module) (hS : t.Grows S) (hsig : S.Signed b.fn.module)
    (hn : n ≤ s.size b.fn) : AddsFitting S b.fn n s t := by
  induction h with
  | nil => exact .of_body? fun _ => rfl
  | @advance s t u b c st p xs hs hst hrest ih =>
    have hrestFits := ih hl.2 (hst.clearAt hs hc) hS hsig (Nat.le_trans hn (hst.grows.size_le _))
    refine AddsFitting.trans ?_ hrestFits
    cases hst with
    | skip => exact absurd hl.1 id
    | call he hu =>
      exact (AddsFitting.of_body? he.body?).trans ((hs.of_evaluates he).addsFitting_emit
        (hc.of_evaluates he) hu (hrest.stands.2.2.trans hS) hsig hl.1.1 hl.1.2)
    | ret => exact .append (i := .ret none) hs rfl fun _ => rfl
  | @branch s t u x y z b c d e p one zero xs ys zs g v blocks hs hg hf h₁ h₂ h₃ ih₁ ih₂ ih₃ =>
    have harms := arms hf h₁ h₂
    rw [harms.one] at ih₁
    rw [harms.zero] at ih₂
    rw [harms.join] at ih₃
    obtain ⟨test, -, hadv⟩ := hg.advances
    obtain ⟨hcu, hcx, hcy⟩ := clearAt_arms hf h₁ h₂ (hadv.clearAt hs hc)
    have hyS : y.Grows S := (Grows.append y _).trans (h₃.stands.2.2.trans hS)
    have hxS : x.Grows S := (Grows.append x _).trans (harms.grows.2.2.trans hyS)
    have huS : u.Grows S := harms.grows.2.1.trans hxS
    have htS : t.Grows S := hf.grows.trans huS
    have hnt : n ≤ t.size b.fn := Nat.le_trans hn (hadv.grows.size_le _)
    have hnu := Nat.le_trans hnt (hf.grows.size_le b.fn)
    have hnx := Nat.le_trans hnu (harms.grows.2.1.size_le b.fn)
    have hny := Nat.le_trans hnx (((Grows.append x (.br blocks.join)).trans
      harms.grows.2.2).size_le b.fn)
    have hjump : ∀ {s d}, s.Stands d → d.fn = b.fn →
        AddsFitting S b.fn n s (s.jump blocks.join) := fun hs hd =>
      .append hs hd fun _ => ⟨harms.join, by rw [hf.join]; exact Nat.le_add_right_of_le hnt⟩
    have hmove : ∀ (s : Session) (d), AddsFitting S b.fn n s (s.moveTo d) := fun s d =>
      .of_body? (body?_moveTo s d)
    have hfork : AddsFitting S b.fn n t u :=
      hf.addsFitting hnt (hg.usable hl.1.1 hs hc htS hsig)
    have henter := (hg.addsFitting hl.1.1 hs hc htS hsig).trans (hfork.trans (hmove u blocks.one))
    have hcross := (ih₁ hl.1.2.1 hcu hxS hsig hnu).trans
      ((hjump harms.first (h₁.stands.2.1.trans harms.one)).trans (hmove _ blocks.zero))
    have hleave := (ih₂ hl.1.2.2 hcx hyS hsig ((size_append x _ _).symm ▸ hnx)).trans
      ((hjump harms.second (h₂.stands.2.1.trans harms.zero)).trans (hmove _ blocks.join))
    exact (henter.trans (hcross.trans hleave)).trans
      (ih₃ hl.2 hcy hS hsig ((size_append y _ _).symm ▸ hny))

end Builds

end QuantumIR
