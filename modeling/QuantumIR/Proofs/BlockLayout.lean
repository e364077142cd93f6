import QuantumIR.Proofs.Predecessor

/-! # The blocks of conditionals

Each conditional of a structured program adds its three blocks to the function at once, before its
branches are built. So the blocks of all conditionals stand one after the other in the order in
which the run comes to the conditionals, each before those inside it. The third block of each is
entered from where its two branches ended, and from nowhere else.
-/

namespace QuantumIR

open Session Attempt

namespace Stmt.Advances

variable {st : Stmt} {s t : Session} {b c d : BlockRef}

theorem labels? (h : st.Advances s t) (hs : s.Stands b) : t.labels? b.fn = s.labels? b.fn := by
  have hside : ∀ {u}, Evaluates s u → u.labels? b.fn = s.labels? b.fn := by
    intro u he
    rw [Session.labels?, Session.labels?, he.fn?]
  cases h with
  | skip he => exact hside he
  | call he hu => exact ((hs.of_evaluates he).labels?_emit hu).trans (hside he)
  | ret => exact labels?_append s _ _

theorem leads (h : st.Advances s t) (hs : s.Stands b) : t.Leads c d ↔ s.Leads c d := by
  cases h with
  | skip he => exact leads_congr he.body?
  | call he hu => exact ((hs.of_evaluates he).leads_emit hu).trans (leads_congr he.body?)
  | ret => simp [hs.leads_append, Instr.targets]

theorem entersAlike (h : st.Advances s t) (hs : s.Stands b) (hd : (s.body? d).isSome) :
    EntersAlike d s t := by
  refine ⟨?_, fun c => h.leads hs⟩
  have hside : ∀ {u}, Evaluates s u → u.sources? d = s.sources? d := by
    intro u he
    simp only [sources?, block?, he.fn?]
  cases h with
  | skip he => exact hside he
  | call he hu => exact (sources?_emit hu (he.grows.isSome_body? hd)).trans (hside he)
  | ret => exact sources?_append s (by simp [Instr.targets])

theorem linked (h : st.Advances s t) (hs : s.Stands b) (hlinked : s.Linked) : t.Linked := by
  intro c d hd
  exact h.grows.isSome_body? (hlinked c d ((h.leads hs).mp hd))

theorem size_eq (h : st.Advances s t) (hs : s.Stands b) : t.size b.fn = s.size b.fn := by
  rw [size_eq_labels?, h.labels? hs, ← size_eq_labels?]

end Stmt.Advances

namespace Builds

variable {s t : Session} {b c d : BlockRef} {p : List Stmt} {xs : List Branching}

theorem labels? (h : Builds s b p xs t c) :
    t.labels? b.fn = (s.labels? b.fn).map Labels.fork^[xs.length] := by
  induction h with
  | nil => simp
  | advance hs hst _ ih => rw [ih, hst.labels? hs]
  | @branch s t u x y z b c d e p one zero xs ys zs g v blocks hs hg hf h₁ h₂ _ ih₁ ih₂ ih₃ =>
    have harms := arms hf h₁ h₂
    rw [harms.one] at ih₁
    rw [harms.zero] at ih₂
    rw [harms.join] at ih₃
    obtain ⟨test, -, hadv⟩ := hg.advances
    have hmove : ∀ (s : Session) c, (s.moveTo c).labels? b.fn = s.labels? b.fn := fun _ _ => rfl
    have hlength : (⟨blocks, .endOf c, .endOf d⟩ :: (xs ++ ys ++ zs)).length =
        zs.length + (ys.length + (xs.length + 1)) := by
      simp only [List.length_cons, List.length_append]
      omega
    rw [ih₃, hmove, jump, labels?_append, ih₂, hmove, jump, labels?_append, ih₁, hmove,
      labels?_fork (hadv.stands hs).position hf.ok, hadv.labels? hs, hlength,
      Function.iterate_add, Function.iterate_add, Function.iterate_succ, Option.map_map,
      Option.map_map, Option.map_map]
    rfl

theorem size (h : Builds s b p xs t c) : t.size b.fn = s.size b.fn + 3 * xs.length := by
  obtain ⟨f, hf⟩ := Option.isSome_iff_exists.mp (isSome_fn?_of_body? h.start.exist)
  have hs : s.labels? b.fn = some f.labels := by rw [Session.labels?, hf, Option.map_some]
  rw [size_eq_labels?, size_eq_labels?, h.labels?, hs]
  exact Labels.length_iterate_fork _ _

theorem linked_arms {u x y : Session} {e : BlockRef} {v : Value} {blocks : Fork}
    {one zero : List Stmt} {ys : List Branching} (ht : t.Stands b) (hlinked : t.Linked)
    (hf : Forked t b v blocks u) (h₁ : Builds (u.moveTo blocks.one) blocks.one one xs x c)
    (h₂ : Builds ((x.jump blocks.join).moveTo blocks.zero) blocks.zero zero ys y e)
    (hx : u.Linked → x.Linked) (hy : (x.jump blocks.join).Linked → y.Linked) :
    u.Linked ∧ (x.jump blocks.join).Linked ∧ (y.jump blocks.join).Linked := by
  have harms := arms hf h₁ h₂
  obtain ⟨-, hjx, hjy⟩ := harms.joins
  have hu := ht.linked_fork hlinked hf.ok
  have hjump := harms.first.linked_jump (hx hu) hjx
  exact ⟨hu, hjump, harms.second.linked_jump (hy hjump) hjy⟩

theorem linked (h : Builds s b p xs t c) (hlinked : s.Linked) : t.Linked := by
  induction h with
  | nil => exact hlinked
  | advance hs hst _ ih => exact ih (hst.linked hs hlinked)
  | branch hs hg hf h₁ h₂ _ ih₁ ih₂ ih₃ =>
    obtain ⟨test, -, hadv⟩ := hg.advances
    exact ih₃ (linked_arms (hadv.stands hs) (hadv.linked hs hlinked) hf h₁ h₂ ih₁ ih₂).2.2

/-- Building enters new blocks only. -/
theorem entersAlike (h : Builds s b p xs t c) (hd : (s.body? d).isSome) : EntersAlike d s t := by
  induction h with
  | nil => exact .refl d _
  | advance hs hst _ ih => exact (hst.entersAlike hs hd).trans (ih (hst.grows.isSome_body? hd))
  | @branch s t u x y z b c e f p one zero xs ys zs g v blocks hs hg hf h₁ h₂ _ ih₁ ih₂ ih₃ =>
    have harms := arms hf h₁ h₂
    obtain ⟨htu, hux, hxy⟩ := harms.grows
    obtain ⟨test, -, hadv⟩ := hg.advances
    have hdt := hadv.grows.isSome_body? hd
    have hne : d ≠ blocks.join := by
      rintro rfl
      rw [hf.body?_eq_none (.inr (.inr rfl))] at hdt
      cases hdt
    have hdu := htu.isSome_body? hdt
    have hdx := (Grows.append x (.br blocks.join)).isSome_body? (hux.isSome_body? hdu)
    have hdy := (Grows.append y (.br blocks.join)).isSome_body? (hxy.isSome_body? hdx)
    have hu : EntersAlike d s u :=
      (hadv.entersAlike hs hd).trans ((hadv.stands hs).entersAlike_fork hf.ok hdt)
    have hx : EntersAlike d s x := (hu.moveTo _).trans (ih₁ hdu)
    have hy : EntersAlike d s y :=
      ((hx.trans (harms.first.entersAlike_jump hne)).moveTo _).trans (ih₂ hdx)
    exact ((hy.trans (harms.second.entersAlike_jump hne)).moveTo _).trans (ih₃ hdy)

end Builds

/-- Exactly two blocks branch to a third, the second of them after the first. -/
structure Session.EnteredFrom (s : Session) (d b c : BlockRef) : Prop where
  ne : b ≠ c
  sources : s.sources? d = some [.block c, .block b]
  leads : ∀ e, s.Leads e d ↔ e = b ∨ e = c

theorem Session.EnteredFrom.of_entersAlike {s t : Session} {b c d : BlockRef}
    (h : s.EnteredFrom d b c) (ht : EntersAlike d s t) : t.EnteredFrom d b c :=
  ⟨h.ne, ht.sources.trans h.sources, fun e => (ht.leads e).trans (h.leads e)⟩

theorem Session.EnteredFrom.isSome_body? {s : Session} {b c d : BlockRef}
    (h : s.EnteredFrom d b c) : (s.body? d).isSome := by
  obtain ⟨blk, hblk, -⟩ := Option.map_eq_some_iff.mp h.sources
  rw [body?, hblk]
  rfl

/-- The blocks of a conditional stand at a place of a function, and the last of them is entered from
the ends of its branches. -/
structure Branching.StandsAt (x : Branching) (s : Session) (r : FnRef) (n : Nat) : Prop where
  one : x.blocks.one = ⟨r, n⟩
  zero : x.blocks.zero = ⟨r, n + 1⟩
  join : x.blocks.join = ⟨r, n + 2⟩
  entered : ∃ b c, x.oneEnd = .endOf b ∧ x.zeroEnd = .endOf c ∧
    s.EnteredFrom x.blocks.join b c

def Branching.StandFrom (xs : List Branching) (s : Session) (r : FnRef) (n : Nat) : Prop :=
  ∀ k (x : Branching), xs[k]? = some x → x.StandsAt s r (n + 3 * k)

namespace Branching

variable {x : Branching} {xs ys : List Branching} {s t : Session} {r : FnRef} {n : Nat}

theorem StandFrom.append (hx : StandFrom xs s r n) (hy : StandFrom ys s r (n + 3 * xs.length)) :
    StandFrom (xs ++ ys) s r n := by
  intro k x h
  rcases Nat.lt_or_ge k xs.length with hk | hk
  · rw [List.getElem?_append_left hk] at h
    exact hx k x h
  · rw [List.getElem?_append_right hk] at h
    have hplace : n + 3 * k = n + 3 * xs.length + 3 * (k - xs.length) := by omega
    rw [hplace]
    exact hy _ x h

theorem StandFrom.cons (hx : x.StandsAt s r n) (hxs : StandFrom xs s r (n + 3)) :
    StandFrom (x :: xs) s r n := by
  rintro (_ | k) y h
  · obtain rfl : x = y := by simpa using h
    exact hx
  · have hplace : n + 3 * (k + 1) = n + 3 + 3 * k := by omega
    rw [hplace]
    exact hxs k y h

theorem StandFrom.of_entersAlike (h : StandFrom xs s r n)
    (ht : ∀ d, (s.body? d).isSome → n ≤ d.index → EntersAlike d s t) : StandFrom xs t r n := by
  intro k x hx
  obtain ⟨hone, hzero, hjoin, b, c, hb, hc, hentered⟩ := h k x hx
  have hplace : n ≤ x.blocks.join.index := by
    rw [hjoin]
    change n ≤ n + 3 * k + 2
    omega
  exact ⟨hone, hzero, hjoin, b, c, hb, hc,
    hentered.of_entersAlike (ht _ hentered.isSome_body? hplace)⟩

end Branching

namespace Builds

section Arms

variable {t u x y : Session} {b c d : BlockRef} {one zero : List Stmt} {xs ys : List Branching}
  {v : Value} {blocks : Fork}

theorem ends_ne (hf : Forked t b v blocks u)
    (h₁ : Builds (u.moveTo blocks.one) blocks.one one xs x c)
    (h₂ : Builds ((x.jump blocks.join).moveTo blocks.zero) blocks.zero zero ys y d) : c ≠ d := by
  rintro rfl
  rcases h₂.keeps.place with rfl | hnew
  · rcases h₁.keeps.place with heq | hnew
    · exact hf.ne.1 heq
    · have hnew : u.body? blocks.zero = none := hnew
      rw [hf.fresh _ (.inr (.inl rfl))] at hnew
      cases hnew
  · have hexist := (h₁.stands.1.append (.br blocks.join)).exist
    have hnew : (x.append (.br blocks.join)).body? c = none := hnew
    rw [hnew] at hexist
    cases hexist

theorem join_enteredFrom (ht : t.Stands b) (hlinked : t.Linked) (hf : Forked t b v blocks u)
    (h₁ : Builds (u.moveTo blocks.one) blocks.one one xs x c)
    (h₂ : Builds ((x.jump blocks.join).moveTo blocks.zero) blocks.zero zero ys y d) :
    ((y.jump blocks.join).moveTo blocks.join).EnteredFrom blocks.join c d := by
  have harms := arms hf h₁ h₂
  obtain ⟨hju, hjx, -⟩ := harms.joins
  obtain ⟨hsources, hleads⟩ := ht.join_fork hlinked hf.ok
  have hux : EntersAlike blocks.join u x :=
    ((EntersAlike.refl _ u).moveTo _).trans (h₁.entersAlike hju)
  have hexist := (Grows.append x (.br blocks.join)).isSome_body? hjx
  have hxy : EntersAlike blocks.join (x.jump blocks.join) y :=
    ((EntersAlike.refl _ _).moveTo _).trans (h₂.entersAlike hexist)
  constructor
  · exact ends_ne hf h₁ h₂
  · change (y.jump blocks.join).sources? blocks.join = _
    rw [harms.second.sources?_jump, hxy.sources, harms.first.sources?_jump, hux.sources, hsources]
    rfl
  · intro e
    change (y.jump blocks.join).Leads e blocks.join ↔ _
    rw [harms.second.leads_jump, hxy.leads, harms.first.leads_jump, hux.leads]
    simp [hleads]

/-- Each part of a conditional begins behind the blocks of the parts before it. -/
theorem sizes (hf : Forked t b v blocks u)
    (h₁ : Builds (u.moveTo blocks.one) blocks.one one xs x c)
    (h₂ : Builds ((x.jump blocks.join).moveTo blocks.zero) blocks.zero zero ys y d) :
    (u.moveTo blocks.one).size b.fn = t.size b.fn + 3 ∧
      ((x.jump blocks.join).moveTo blocks.zero).size b.fn = t.size b.fn + 3 + 3 * xs.length ∧
      ((y.jump blocks.join).moveTo blocks.join).size b.fn =
        t.size b.fn + 3 + 3 * xs.length + 3 * ys.length := by
  have harms := arms hf h₁ h₂
  have hone : (u.moveTo blocks.one).size b.fn = t.size b.fn + 3 := hf.size
  have hzero : ((x.jump blocks.join).moveTo blocks.zero).size b.fn =
      t.size b.fn + 3 + 3 * xs.length := by
    apply (size_append x _ b.fn).trans
    rw [← hone, ← harms.one, h₁.size]
  refine ⟨hone, hzero, ?_⟩
  apply (size_append y _ b.fn).trans
  rw [← hzero, ← harms.zero, h₂.size]

/-- The jumps at the ends of the branches enter a block that stands before those of the branches. So
these are entered alike from the end of their branch on. -/
theorem entersAlike_behind {z : Session} {e f : BlockRef} {p : List Stmt} {zs : List Branching}
    (hf : Forked t b v blocks u) (h₁ : Builds (u.moveTo blocks.one) blocks.one one xs x c)
    (h₂ : Builds ((x.jump blocks.join).moveTo blocks.zero) blocks.zero zero ys y d)
    (h₃ : Builds ((y.jump blocks.join).moveTo blocks.join) blocks.join p zs z e)
    (hplace : t.size b.fn + 3 ≤ f.index) :
    ((x.body? f).isSome → EntersAlike f x z) ∧ ((y.body? f).isSome → EntersAlike f y z) := by
  have harms := arms hf h₁ h₂
  have hne : f ≠ blocks.join := by
    rintro rfl
    rw [hf.join] at hplace
    change t.size b.fn + 3 ≤ t.size b.fn + 2 at hplace
    omega
  have hsecond : (y.body? f).isSome → EntersAlike f y z := by
    intro hy
    have hexist := (Grows.append y (.br blocks.join)).isSome_body? hy
    exact ((harms.second.entersAlike_jump hne).moveTo _).trans (h₃.entersAlike hexist)
  refine ⟨fun hx => ?_, hsecond⟩
  have hexist := (Grows.append x (.br blocks.join)).isSome_body? hx
  have hfirst := ((harms.first.entersAlike_jump hne).moveTo _).trans (h₂.entersAlike hexist)
  exact hfirst.trans (hsecond (harms.grows.2.2.isSome_body? hexist))

end Arms

theorem standFrom {s t : Session} {b c : BlockRef} {p : List Stmt} {xs : List Branching}
    (h : Builds s b p xs t c) (hlinked : s.Linked) :
    Branching.StandFrom xs t b.fn (s.size b.fn) := by
  induction h with
  | nil =>
    intro k x hx
    cases hx
  | advance hs hst _ ih =>
    rw [← hst.size_eq hs]
    exact ih (hst.linked hs hlinked)
  | @branch s t u x y z b c d e p one zero xs ys zs g v blocks hs hg hf h₁ h₂ h₃ ih₁ ih₂ ih₃ =>
    have harms := arms hf h₁ h₂
    obtain ⟨test, -, hadv⟩ := hg.advances
    obtain ⟨hone, hzero, hjoin⟩ := sizes hf h₁ h₂
    rw [harms.one, hone] at ih₁
    rw [harms.zero, hzero] at ih₂
    rw [harms.join, hjoin] at ih₃
    rw [← hadv.size_eq hs]
    have ht : t.Linked := hadv.linked hs hlinked
    obtain ⟨hu, hx, hy⟩ := linked_arms (hadv.stands hs) ht hf h₁ h₂ h₁.linked h₂.linked
    apply Branching.StandFrom.cons
    · have hentered := join_enteredFrom (hadv.stands hs) ht hf h₁ h₂
      exact ⟨hf.one, hf.zero, hf.join, c, d, rfl, rfl,
        hentered.of_entersAlike (h₃.entersAlike hentered.isSome_body?)⟩
    · apply Branching.StandFrom.append
      · apply Branching.StandFrom.append
        · apply (ih₁ hu).of_entersAlike
          intro f hexist hplace
          exact (entersAlike_behind hf h₁ h₂ h₃ hplace).1 hexist
        · apply (ih₂ hx).of_entersAlike
          intro f hexist hplace
          exact (entersAlike_behind hf h₁ h₂ h₃ (by omega)).2 hexist
      · rw [List.length_append, Nat.mul_add, ← Nat.add_assoc]
        exact ih₃ hy

end Builds

namespace Step

/-- In a function in which no block is called as those of a conditional are, a structured program
adds three blocks for each of its conditionals, in the order in which it comes to them. The blocks
of the first have no number, and those of each other one have the next three numbers. The last block
of each is entered from the two blocks in which its branches ended, and from no other. -/
theorem conditionals_laid {s : Session} {b : BlockRef} {f : Fn} {p : List Step} (hs : s.Reachable)
    (hb : s.position = .endOf b) (hf : s.fn? b.fn = some f)
    (hplain : ∀ blk ∈ f.blocks, ∀ stem ∈ ["then", "else", "continue"],
      ¬ Bytes.ofString stem <+: blk.name)
    (hp : structuredAll p) :
    (Stmt.completeAll (resolveAll p s) = true → (branchingsAll p s).length = conditionalsAll p) ∧
    (∃ g, (runAll p s).session.fn? b.fn = some g ∧
      g.blocks.map Block.name = f.blocks.map Block.name ++
        (List.range (branchingsAll p s).length).flatMap (Labels.ofFork f.nextBlock)) ∧
    ∀ k (x : Branching), (branchingsAll p s)[k]? = some x →
      x.blocks.one = ⟨b.fn, f.blocks.length + 3 * k⟩ ∧
      x.blocks.zero = ⟨b.fn, f.blocks.length + 3 * k + 1⟩ ∧
      x.blocks.join = ⟨b.fn, f.blocks.length + 3 * k + 2⟩ ∧
      ∃ d e, x.oneEnd = .endOf d ∧ x.zeroEnd = .endOf e ∧ d ≠ e ∧
        (runAll p s).session.sources? x.blocks.join = some [.block e, .block d] ∧
        ∀ c, (runAll p s).session.Leads c x.blocks.join ↔ c = d ∨ c = e := by
  obtain ⟨c, hbuild, -⟩ := builds_resolveAll p s b hp (hs.stands hb)
  have hplain : f.labels.Plain := by
    intro name hname
    obtain ⟨blk, hblk, rfl⟩ := List.mem_map.mp hname
    exact hplain blk hblk
  refine ⟨fun hcomplete => ?_, ?_, fun k x hx => ?_⟩
  · rw [hbuild.length_eq, (countsAll_resolveAll p s hcomplete).2]
  · have hlabels := hbuild.labels?
    rw [Session.labels?, Session.labels?, hf, Option.map_some, Option.map_some] at hlabels
    obtain ⟨g, hg, hnames⟩ := Option.map_eq_some_iff.mp hlabels
    refine ⟨g, hg, ?_⟩
    change g.labels.names = _
    rw [hnames, hplain.names_iterate_fork]
    rfl
  · have hstands := hbuild.standFrom hs.tidy.linked k x hx
    rw [size_eq hf] at hstands
    obtain ⟨d, e, hd, he, hentered⟩ := hstands.entered
    exact ⟨hstands.one, hstands.zero, hstands.join, d, e, hd, he, hentered.ne, hentered.sources,
      hentered.leads⟩

theorem conditionals_laid_nestedBranches :
    (branchingsAll nestedBranches oneParameter.run.session).length =
      conditionalsAll nestedBranches ∧
    ∃ t g, t = (runAll nestedBranches oneParameter.run.session).session ∧
      t.fn? ⟨0, 0⟩ = some g ∧
      g.blocks.map Block.name = ["entry", "then", "else", "continue", "then1", "else2",
        "continue3"].map Bytes.ofString ∧
      t.sources? ⟨⟨0, 0⟩, 3⟩ = some [.block ⟨⟨0, 0⟩, 2⟩, .block ⟨⟨0, 0⟩, 6⟩] ∧
      ∀ c, t.Leads c ⟨⟨0, 0⟩, 3⟩ ↔ c = ⟨⟨0, 0⟩, 6⟩ ∨ c = ⟨⟨0, 0⟩, 2⟩ := by
  have hb : oneParameter.run.session.position = .endOf ⟨⟨0, 0⟩, 0⟩ := by decide +kernel
  have hcode : oneParameter.run.session.code? ⟨0, 0⟩ =
      some ([{ name := Bytes.ofString "entry" }], 1) := by
    decide +kernel
  have hbranchings : branchingsAll nestedBranches oneParameter.run.session =
      [⟨⟨⟨⟨0, 0⟩, 1⟩, ⟨⟨0, 0⟩, 2⟩, ⟨⟨0, 0⟩, 3⟩⟩, .endOf ⟨⟨0, 0⟩, 6⟩, .endOf ⟨⟨0, 0⟩, 2⟩⟩,
        ⟨⟨⟨⟨0, 0⟩, 4⟩, ⟨⟨0, 0⟩, 5⟩, ⟨⟨0, 0⟩, 6⟩⟩, .endOf ⟨⟨0, 0⟩, 4⟩, .endOf ⟨⟨0, 0⟩, 5⟩⟩] := by
    decide +kernel
  obtain ⟨f, hf, hcode⟩ := Option.map_eq_some_iff.mp hcode
  obtain ⟨hblocks, hnext⟩ := Prod.mk.inj hcode
  obtain ⟨hcount, ⟨g, hg, hnames⟩, hplaces⟩ := conditionals_laid (p := nestedBranches)
    oneParameter.reachable_run hb hf (by rw [hblocks]; decide +kernel) (by decide)
  have hcomplete :
      Stmt.completeAll (resolveAll nestedBranches oneParameter.run.session) = true := by
    decide +kernel
  rw [hbranchings] at hnames hplaces
  obtain ⟨-, -, -, d, e, hd, he, -, hsources, hleads⟩ := hplaces 0 _ rfl
  obtain rfl := Position.endOf.inj hd
  obtain rfl := Position.endOf.inj he
  refine ⟨hcount hcomplete, _, g, rfl, hg, ?_, hsources, hleads⟩
  rw [hnames, hblocks, hnext]
  decide +kernel

end Step

end QuantumIR
