import QuantumIR.Proofs.Completion

/-! # When a built module is valid

A structured program whose arguments are legal is built into a module that would be valid if the
builder's function returned. The module is valid afterwards if and only if the program returns once,
and does so at its very end.
-/

namespace QuantumIR

open Session

namespace Stmt

mutual

theorem complete_of_legal {r : FnRef} {P : Value → Prop} :
    ∀ st : Stmt, st.Legal r P → st.complete = true
  | .call _ _, _ => rfl
  | .ret, _ => rfl
  | .branch _ one zero, h => by
    rw [complete, completeAll_of_legalAll one h.2.1, completeAll_of_legalAll zero h.2.2]
    rfl
  | .skip, h => absurd h id

theorem completeAll_of_legalAll {r : FnRef} {P : Value → Prop} :
    ∀ p : List Stmt, LegalAll r P p → completeAll p = true
  | [], _ => rfl
  | st :: p, h => by
    rw [completeAll, complete_of_legal st h.1, completeAll_of_legalAll p h.2]
    rfl

end

theorem returnsAll_append (p q : List Stmt) :
    returnsAll (p ++ q) = returnsAll p + returnsAll q := by
  induction p with
  | nil => exact (Nat.zero_add _).symm
  | cons st p ih => simp only [List.cons_append, returnsAll, ih, Nat.add_assoc]

end Stmt

namespace Step

theorem resolve_eq_ret_iff {step : Step} (h : step.structured = true) (s : Session) :
    step.resolve s = .ret ↔ step = .perform (.ret none) := by
  cases step with
  | perform command =>
    cases command with
    | apply op args =>
      unfold resolve
      split
      · simp
      · split <;> simp
    | ret v =>
      cases v with
      | none => exact ⟨fun _ => rfl, fun _ => rfl⟩
      | some v => cases h
    | _ => cases h
  | conditional test mode one zero =>
    unfold resolve
    split <;> simp
  | fail message => cases h

theorem getLast?_resolveAll {p : List Step} (h : structuredAll p = true) (s : Session) :
    (resolveAll p s).getLast? = some .ret ↔ p.getLast? = some (.perform (.ret none)) := by
  induction p generalizing s with
  | nil => exact ⟨nofun, nofun⟩
  | cons step p ih =>
    rw [structuredAll, Bool.and_eq_true] at h
    cases p with
    | nil => simpa [resolveAll] using resolve_eq_ret_iff h.1 s
    | cons step' p =>
      rw [List.getLast?_cons_cons, ← ih h.2 (step.run s).2]
      simp only [resolveAll, List.getLast?_cons_cons]

end Step

namespace Session

variable {s t : Session} {r : FnRef}

theorem Evaluates.strays (h : Evaluates s t) : t.strays = s.strays := by
  induction h with
  | refl => rfl
  | @tail u v _ h ih =>
    refine Eq.trans ?_ ih
    cases h with
    | struct name =>
      unfold ensureStruct
      split <;> rfl
    | cast c d =>
      obtain ⟨_, hcast⟩ := u.exists_noteCast_eq c d
      rw [hcast]
    | string h =>
      obtain ⟨-, rfl⟩ := addString_ok h
      rfl

theorem Recodes.strays (h : Recodes r s t) : t.strays = s.strays :=
  congrArg (fun x => x.2.1) h.context

end Session

theorem Builds.strays {s t : Session} {b c : BlockRef} {p : List Stmt} {xs : List Branching}
    (h : Builds s b p xs t c) (hc : s.ClearAt b.fn.module) : t.strays = s.strays := by
  refine h.compose (r := b.fn) (R := fun _ s t => t.strays = s.strays) ?_ ?_ ?_ ?_ ?_ ?_ rfl hc
  · exact fun h h' => h'.trans h
  · exact fun h => h.strays
  · intro s t d op args v hd hs _ he
    have hprepare := congrArg (fun x => x.2.1) (context_prepare s d.fn.module op)
    exact (emit_recodes hs.position he).strays.trans hprepare
  · exact fun hd hs _ hi => (Recodes.append hs.position hd hi).strays
  · exact fun _ hf => hf.recodes.strays
  · exact rfl

section Completion

variable {s S : Session} {b c : BlockRef} {p : List Stmt} {xs : List Branching} {m : Module}

/-- A function that would be valid if it returned in block `b` is open there and nowhere else. -/
theorem Session.Sound.closedBut (hs : s.Stands b)
    (hv : (s.append (.ret none)).Sound b.fn.module m) :
    s.Has b Straight ∧ s.ClosedBut b.fn [b] := by
  obtain ⟨body, hbody⟩ := Option.isSome_iff_exists.mp hs.exist
  refine ⟨⟨body, hbody, ?_⟩, fun d hd hne hsome => ?_⟩
  · have hb : (s.append (.ret none)).body? b = some (body ++ [.ret none]) := by
      rw [Session.body?_append, if_pos hs.position, hbody]
      rfl
    obtain ⟨init, last, he, hstraight, -⟩ := hv.closed b _ rfl hb
    obtain ⟨rfl, -⟩ := List.append_inj' he rfl
    exact hstraight
  · obtain ⟨body', hbody'⟩ := Option.isSome_iff_exists.mp hsome
    refine ⟨body', hbody', hv.closed d body' (by rw [hd]) ?_⟩
    rw [hs.body?_append _ (by simpa using hne), hbody']

namespace Builds

theorem closed_of_returns (h : Builds s b (p ++ [.ret]) xs S c) (hr : Stmt.returnsAll p = 0)
    (hv : (s.append (.ret none)).Sound b.fn.module m) {d : BlockRef} {body : List Instr}
    (hd : d.fn = b.fn) (hb : S.body? d = some body) : Closed body := by
  obtain ⟨hopen, hclosed⟩ := Sound.closedBut h.start hv
  obtain ⟨u, e, _, _, hp, hret⟩ := h.split
  have hue := hp.has_straight hr hopen
  have hu : u.ClosedBut b.fn [e] := hp.closedBut hr hopen nofun hclosed
  cases hret with
  | advance hs hst hnil =>
    cases hnil
    cases hst
    by_cases hde : d = c
    · subst hde
      obtain ⟨body', hb', hcl⟩ := hs.has_append (Q := Closed) (i := .ret none) hue
        fun _ h => h.closed rfl
      obtain rfl : body = body' := Option.some.inj (hb.symm.trans hb')
      exact hcl
    · rw [hs.body?_append _ hde] at hb
      obtain ⟨body', hb', hcl⟩ := hu d hd (by simpa using hde) (by rw [hb]; rfl)
      obtain rfl : body = body' := Option.some.inj (hb.symm.trans hb')
      exact hcl

/-- Such a program completes a function that would be valid if it returned where the program
begins. -/
theorem completes (h : Builds s b (p ++ [.ret]) xs S c) (hr : Stmt.returnsAll p = 0)
    (hl : Stmt.LegalAll b.fn (Value.UsableIn b.fn) (p ++ [.ret])) (ht : s.Tidy)
    (hc : s.ClearAt b.fn.module) (hsig : s.Signed b.fn.module)
    (hv : (s.append (.ret none)).Sound b.fn.module m) :
    (s.append (.ret none)).Completes b S := by
  have hs := h.start
  have hgrows := h.stands.2.2
  have hfn : (s.fn? b.fn).isSome := isSome_fn?_of_body? hs.exist
  have hdecl := h.declares hc
  have hrec : Recodes b.fn s (s.append (.ret none)) :=
    .append hs.position rfl (by simp [Instr.targets])
  obtain ⟨body, hbody⟩ := Option.isSome_iff_exists.mp hs.exist
  constructor
  · exact ht.append (by simp [Instr.targets])
  · exact hrec.declares.signed hfn hsig
  · refine ⟨body, ?_⟩
    rw [Session.body?_append, if_pos hs.position, hbody]
    rfl
  · exact hgrows.isSome_body? hs.exist
  · intro m' hm'
    obtain ⟨m₀, hm₀, -⟩ := hc
    obtain ⟨n, hn, hmn⟩ := hdecl m₀ hm₀
    obtain ⟨g, -, hg⟩ := hrec.module?
    have he := hg b.fn.module
    rw [if_pos rfl, hm₀, hm'] at he
    obtain rfl := Option.some.inj he
    exact ⟨n, hn, hmn.flags, hmn.globals⟩
  · intro q g hq hg
    rcases hdecl.fn?_cases hfn hq hg with ⟨f, hf, hk⟩ | ⟨hnone, hk⟩
    · obtain ⟨f', hf', hk'⟩ := hrec.kept hf
      exact .inl ⟨f', hf', hk'.trans hk⟩
    · exact .inr ⟨hrec.fn?_eq_none hnone, hk⟩
  · intro d hd hsome
    rw [hs.body?_append _ hd] at hsome ⊢
    exact h.keeps.old d hd hsome
  · intro d body' k x hd hx
    rw [size_append]
    have hfits := h.addsFitting hl hc (.refl S) (hdecl.signed hfn hsig) (Nat.le_refl _)
    refine (hfits d body' k x hd hx).imp_left ?_
    rintro ⟨old, hold, hx⟩
    obtain ⟨old', hold', more, rfl⟩ := (Grows.append s (.ret none)).body? hold
    refine ⟨_, hold', ?_⟩
    rw [List.getElem?_append_left (List.getElem?_eq_some_iff.mp hx).1, hx]
  · exact fun d body' hd hb => h.closed_of_returns hr hv hd hb
  · exact (h.strays hc).trans hrec.strays.symm

end Builds

end Completion

/-- A pointer is cast inside its address space only. -/
def Value.castsValid : Value → Bool
  | .const c => !c.ty.isPtr || c.castsValid
  | _ => true

theorem Value.castsValid_of_usableAt {r : FnRef} {f : Fn} {d k : Nat} {v : Value}
    (h : v.usableAt r f d k = true) : v.castsValid = true := by
  cases v with
  | const c =>
    simp only [Value.usableAt, Constant.usableIn, Value.castsValid, Bool.or_eq_true,
      Bool.and_eq_true] at h ⊢
    exact h.imp_right And.right
  | bound _ => rfl
  | metadata _ => rfl

theorem Value.BelongsTo.usableIn {r : FnRef} {v : Value} (h : v.BelongsTo r)
    (hc : v.castsValid = true) : v.UsableIn r := by
  cases v with
  | const c =>
    simp only [Value.castsValid, Value.UsableIn, Constant.usableIn, Bool.or_eq_true,
      Bool.and_eq_true, List.all_eq_true, decide_eq_true_eq] at hc ⊢
    exact hc.imp_right fun hc => ⟨h, hc⟩
  | bound l => cases l <;> exact h
  | metadata _ => exact h

theorem Session.Verifies.castsValid {t : Session} {r : FnRef} (h : t.Verifies r.module) :
    ∀ x ∈ t.calls r, ∀ v ∈ x.2, v.castsValid = true := by
  rintro ⟨callee, args⟩ hx v hv
  obtain ⟨m, hm, hver⟩ := h
  obtain ⟨k, -, hx⟩ := List.mem_flatMap.mp hx
  obtain ⟨x, hx, hcall⟩ := List.mem_filterMap.mp hx
  cases hb : t.body? ⟨r, k⟩ with
  | none => simp [hb] at hx
  | some body =>
    rw [hb, Option.getD_some] at hx
    obtain ⟨j, hj⟩ := List.mem_iff_getElem?.mp hx
    obtain ⟨f, -, hf, -⟩ := body?_eq_some_iff.mp hb
    have hvalid := (((verify_iff_sound hm).mp hver).instrs ⟨r, k⟩ f body j x rfl hf hb hj).1
    simp only [Instr.valid, Bool.and_eq_true, List.all_eq_true] at hvalid
    cases x with
    | call _ _ _ =>
      obtain ⟨rfl, rfl⟩ := Prod.mk.inj (Option.some.inj hcall)
      exact Value.castsValid_of_usableAt (hvalid.2 v hv)
    | ret _ | br _ | condBr _ _ _ => cases hcall

namespace Step

/-- A structured program is built in a function whose module would be valid if the function returned
at once. Its arguments have the types that the operations ask for, and belong to the function. Then
the module is valid if and only if the program returns once and at its end, the pointers that it
passes on are cast inside their address spaces, and no function with a reserved name has been cast,
as long as every string is short enough for its length to be counted. -/
theorem verifies_runAll_iff {s : Session} {b : BlockRef} {p : List Step} (hs : s.Reachable)
    (hb : s.position = .endOf b) (hv : (s.append (.ret none)).Verifies b.fn.module)
    (hc : ∀ m, s.module? b.fn.module = some m → m.Clear) (hsig : s.Signed b.fn.module)
    (hp : structuredAll p) (hl : Stmt.LegalAll b.fn (Value.BelongsTo b.fn) (resolveAll p s))
    (hstrings : ∀ n, (runAll p s).session.module? b.fn.module = some n → ∀ g ∈ n.globals,
      ∀ data, g.data = some data → data.length < lengthBound) :
    (runAll p s).session.Verifies b.fn.module ↔
      (returnsAll p = 1 ∧ p.getLast? = some (.perform (.ret none))) ∧
      (∀ x ∈ Stmt.callsAll (resolveAll p s), ∀ v ∈ x.2, v.castsValid = true) ∧
      ∀ q ∈ (runAll p s).session.castFns, (runAll p s).session.Addressable b.fn.module q := by
  have hst := hs.stands hb
  have hclear := hst.clearAt hc
  obtain ⟨m, hm, hv⟩ := hv
  have hsound := (verify_iff_sound hm).mp hv
  obtain ⟨c, hbuild, -⟩ := builds_resolveAll p s b hp hst
  have hcomplete := Stmt.completeAll_of_legalAll _ hl
  rw [← (countsAll_resolveAll p s hcomplete).1, ← getLast?_resolveAll hp s]
  generalize resolveAll p s = stmts at hl hbuild hcomplete ⊢
  generalize (runAll p s).session = t at hstrings hbuild ⊢
  constructor
  · intro ht
    refine ⟨?_, fun x hx => ?_, ?_⟩
    · by_contra hn
      -- a missing return leaves the builder's block open, any other return breaks a block
      by_cases h0 : Stmt.returnsAll stmts = 0
      · obtain ⟨body, hbody, hstraight⟩ := hbuild.has_straight h0 (Sound.closedBut hst hsound).1
        exact hstraight.not_closed (ht.closed (by rw [hbuild.stands.2.1]) hbody)
      · obtain ⟨d, hd, body, hbody, hbroken⟩ := hbuild.has_broken hcomplete h0 hn
        exact hbroken.not_closed (ht.closed (by rw [hd]) hbody)
    · exact ht.castsValid _ ((hbuild.calls_perm hclear (.refl t)).mem_iff.mpr
        (List.mem_append_right _ (List.mem_map_of_mem hx)))
    · obtain ⟨n, hn, hvn⟩ := ht
      exact ((verify_iff_sound hn).mp hvn).casts
  · rintro ⟨⟨hone, hlast⟩, hcasts, haddr⟩
    obtain ⟨q, rfl⟩ := List.getLast?_eq_some_iff.mp hlast
    rw [Stmt.returnsAll_append] at hone
    have hlegal := Stmt.LegalAll.imp _
      (fun x hx v hv hbel => Value.BelongsTo.usableIn hbel (hcasts x hx v hv)) hl
    have hcompletes := hbuild.completes (Nat.succ.inj hone) hlegal hs.tidy hclear hsig hsound
    obtain ⟨n, hn, -⟩ := hcompletes.module m hm
    exact ⟨n, hn, (verify_iff_sound hn).mpr (hcompletes.sound hm hsound haddr hn (hstrings n hn))⟩

theorem session_oneParameter : oneParameter.run.session =
    (((start "m").addFunction 0 "f" ⟨.void, [.int 1]⟩ .external).2.addBlock ⟨0, 0⟩
      (Bytes.ofString "entry")).2.moveTo ⟨⟨0, 0⟩, 0⟩ := rfl

theorem verifies_oneParameter : (oneParameter.run.session.append (.ret none)).Verifies 0 := by
  -- that `f` is no intrinsic is known, and need not be looked up
  have hf : ∀ m : Module, m.addFunction "f" ⟨.void, [.int 1]⟩ .external = _ :=
    fun m => m.addFunction_unreserved (by decide +kernel) _ _
  simp only [session_oneParameter, addFunction, hf]
  decide +kernel

theorem signed_oneParameter : oneParameter.run.session.Signed 0 := by
  have hnames : (oneParameter.run.session.module? 0).map (fun m => m.functions.map Fn.name) =
      some ["f"] := by decide +kernel
  intro k f op hf hname
  obtain ⟨m, hm, hf⟩ := fn?_eq_some_iff.mp hf
  rw [show oneParameter.run.session.module? 0 = some m from hm, Option.map_some] at hnames
  have hmem : op.symbol ∈ ["f"] := by
    rw [← Option.some.inj hnames, ← hname]
    exact List.mem_map_of_mem (List.mem_of_getElem? hf)
  cases op <;> exact absurd hmem (by decide +kernel)

/-- The branches, a record of a result under a name, and a return at the end. -/
def recordedBranches : List Step :=
  nestedBranches ++
    [.perform (.apply .recordResult [.result 0, .string (Bytes.ofString "r")]),
      .perform (.ret none)]

def earlyReturn : List Step :=
  [.conditional (.bit (.param "f" 0)) .plain [.perform (.ret none)] [], .perform (.ret none)]

theorem verifies_runAll_recordedBranches :
    (runAll recordedBranches oneParameter.run.session).session.Verifies 0 ∧
      ¬ (runAll earlyReturn oneParameter.run.session).session.Verifies 0 := by
  constructor
  · have hglobals : ((runAll recordedBranches oneParameter.run.session).session.module? 0).map
        Module.globals = some [.ofString (terminated (Bytes.ofString "r"))] := by decide +kernel
    have hcasts : (runAll recordedBranches oneParameter.run.session).session.castFns = [] := by
      decide +kernel
    refine (verifies_runAll_iff (b := ⟨⟨0, 0⟩, 0⟩) oneParameter.reachable_run (by decide +kernel)
      verifies_oneParameter clear_oneParameter signed_oneParameter (by decide +kernel)
      (by decide +kernel) ?_).mpr
        ⟨⟨by decide +kernel, rfl⟩, by decide +kernel, by rw [hcasts]; nofun⟩
    intro n hn g hg data hdata
    rw [hn] at hglobals
    rw [Option.some.inj hglobals, List.mem_singleton] at hg
    subst hg
    rw [← Option.some.inj hdata]
    decide +kernel
  · intro h
    have hglobals : ((runAll earlyReturn oneParameter.run.session).session.module? 0).map
        Module.globals = some [] := by decide +kernel
    have hstrings : ∀ n, (runAll earlyReturn oneParameter.run.session).session.module? 0 = some n →
        ∀ g ∈ n.globals, ∀ data, g.data = some data → data.length < lengthBound := by
      intro n hn g hg
      rw [hn] at hglobals
      rw [Option.some.inj hglobals] at hg
      cases hg
    obtain ⟨⟨htwice, -⟩, -⟩ := (verifies_runAll_iff (b := ⟨⟨0, 0⟩, 0⟩) oneParameter.reachable_run
      (by decide +kernel) verifies_oneParameter clear_oneParameter signed_oneParameter
      (by decide +kernel) (by decide +kernel) hstrings).mp h
    exact absurd htwice (by decide)

/-- An operation on an address that has been moved to another address space and cast back. -/
def spaceCast : List Step :=
  [.perform (.apply .setup [.bitcast (.element (.bitcast (.string (Bytes.ofString "abcdef"))
      (.ptr (.array (.int 8) 2) 2)) 0 1) (.ptr (.int 8) 0)]),
    .perform (.ret none)]

/-- Casts may invalidate a module although the program returns once and at its end, and its one
argument is a constant of the right type that refers to no other module. -/
theorem not_verifies_runAll_spaceCast :
    oneParameter.run.session.Reachable ∧
    oneParameter.run.session.position = .endOf ⟨⟨0, 0⟩, 0⟩ ∧
    oneParameter.run.session.current = 0 ∧
    (oneParameter.run.session.append (.ret none)).Verifies 0 ∧
    (∀ m, oneParameter.run.session.module? 0 = some m → m.Clear) ∧
    oneParameter.run.session.Signed 0 ∧
    structuredAll spaceCast = true ∧
    Stmt.LegalAll ⟨0, 0⟩ (Value.BelongsTo ⟨0, 0⟩)
      (resolveAll spaceCast oneParameter.run.session) ∧
    returnsAll spaceCast = 1 ∧ spaceCast.getLast? = some (.perform (.ret none)) ∧
    ¬ (runAll spaceCast oneParameter.run.session).session.Verifies 0 := by
  refine ⟨oneParameter.reachable_run, by decide +kernel, by decide +kernel, verifies_oneParameter,
    clear_oneParameter, signed_oneParameter, by decide +kernel, by decide +kernel,
    by decide +kernel, rfl, fun h => ?_⟩
  have hbad : ¬ ∀ x ∈ (runAll spaceCast oneParameter.run.session).session.calls ⟨0, 0⟩,
      ∀ v ∈ x.2, v.castsValid = true := by decide +kernel
  exact hbad h.castsValid

end Step

end QuantumIR
