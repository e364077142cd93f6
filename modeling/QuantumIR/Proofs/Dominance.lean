import Mathlib.Data.Finset.Card
import Mathlib.Data.Finset.Range
import Mathlib.Logic.Relation
import QuantumIR.Dominance

/-! # Where control can come to

The search for the blocks to which control can come finds exactly those to which a path leads. So
what is added behind a block, and never leads back, changes nothing for the blocks before.
-/

namespace QuantumIR

open Relation

section Visit

variable {next : Nat → List Nat} {bound fuel : Nat} {stack seen : List Nat}

def unseen (bound : Nat) (seen : List Nat) : Nat := ((Finset.range bound).filter (· ∉ seen)).card

theorem unseen_cons_le (bound : Nat) (seen : List Nat) (b : Nat) :
    unseen bound (b :: seen) ≤ unseen bound seen := by
  refine Finset.card_le_card fun a ha => ?_
  simp only [Finset.mem_filter, List.mem_cons, not_or] at ha ⊢
  exact ⟨ha.1, ha.2.2⟩

theorem unseen_cons_lt {b : Nat} (hb : b < bound) (hs : b ∉ seen) :
    unseen bound (b :: seen) < unseen bound seen := by
  refine Finset.card_lt_card (Finset.ssubset_iff_of_subset (fun a ha => ?_) |>.mpr ⟨b, ?_, ?_⟩)
  · simp only [Finset.mem_filter, List.mem_cons, not_or] at ha ⊢
    exact ⟨ha.1, ha.2.2⟩
  · simpa using ⟨hb, hs⟩
  · simp

theorem reach_of_mem_visit {u : Nat} (h : u ∈ visit next fuel stack seen) :
    u ∈ seen ∨ ∃ v ∈ stack, ReflTransGen (fun a b => b ∈ next a) v u := by
  induction fuel generalizing stack seen with
  | zero => exact .inl h
  | succ fuel ih =>
    cases stack with
    | nil => exact .inl h
    | cons b stack =>
      unfold visit at h
      split at h
      · rcases ih h with h | ⟨v, hv, h⟩
        · exact .inl h
        · exact .inr ⟨v, List.mem_cons_of_mem _ hv, h⟩
      · rcases ih h with h | ⟨v, hv, h⟩
        · rcases List.mem_cons.mp h with rfl | h
          · exact .inr ⟨u, by simp, .refl⟩
          · exact .inl h
        · rcases List.mem_append.mp hv with hv | hv
          · exact .inr ⟨b, by simp, .head hv h⟩
          · exact .inr ⟨v, List.mem_cons_of_mem _ hv, h⟩

/-- With enough fuel, what is visited is closed under going on. Each thing below the bound is put on
the stack with at most two others, and the rest lead nowhere. -/
theorem visit_closed (htwo : ∀ b, (next b).length ≤ 2) (hend : ∀ b, bound ≤ b → next b = [])
    (hfuel : stack.length + 2 * unseen bound seen ≤ fuel)
    (hseen : ∀ a ∈ seen, ∀ b ∈ next a, b ∈ seen ∨ b ∈ stack) :
    (∀ a ∈ seen ++ stack, a ∈ visit next fuel stack seen) ∧
      ∀ a ∈ visit next fuel stack seen, ∀ b ∈ next a, b ∈ visit next fuel stack seen := by
  induction fuel generalizing stack seen with
  | zero =>
    obtain rfl : stack = [] := List.length_eq_zero_iff.mp (by omega)
    simpa [visit] using hseen
  | succ fuel ih =>
    cases stack with
    | nil => simpa [visit] using hseen
    | cons b stack =>
      unfold visit
      split
      next hb =>
        have hcl : ∀ a ∈ seen, ∀ c ∈ next a, c ∈ seen ∨ c ∈ stack := by
          intro a ha c hc
          rcases hseen a ha c hc with h | h
          · exact .inl h
          · rcases List.mem_cons.mp h with rfl | h
            · exact .inl hb
            · exact .inr h
        obtain ⟨hsub, hclosed⟩ := ih (by simp only [List.length_cons] at hfuel; omega) hcl
        refine ⟨fun a ha => hsub a ?_, hclosed⟩
        simp only [List.mem_append, List.mem_cons] at ha ⊢
        rcases ha with h | rfl | h
        · exact .inl h
        · exact .inl hb
        · exact .inr h
      next hb =>
        have hlen : (next b ++ stack).length + 2 * unseen bound (b :: seen) ≤ fuel := by
          simp only [List.length_append, List.length_cons] at hfuel ⊢
          by_cases hlt : b < bound
          · have h2 := htwo b
            have hu := unseen_cons_lt hlt hb
            omega
          · have hu := unseen_cons_le bound seen b
            rw [hend b (Nat.not_lt.mp hlt), List.length_nil]
            omega
        have hcl : ∀ a ∈ b :: seen, ∀ c ∈ next a, c ∈ b :: seen ∨ c ∈ next b ++ stack := by
          intro a ha c hc
          simp only [List.mem_cons, List.mem_append] at ha ⊢
          rcases ha with rfl | ha
          · exact .inr (.inl hc)
          · rcases hseen a ha c hc with h | h
            · exact .inl (.inr h)
            · rcases List.mem_cons.mp h with rfl | h
              · exact .inl (.inl rfl)
              · exact .inr (.inr h)
        obtain ⟨hsub, hclosed⟩ := ih hlen hcl
        refine ⟨fun a ha => hsub a ?_, hclosed⟩
        simp only [List.mem_append, List.mem_cons] at ha ⊢
        tauto

end Visit

namespace Fn

variable {r : FnRef} {f g : Fn} {closed : List Nat}

theorem length_successors_le (r : FnRef) (f : Fn) (b : Nat) : (f.successors r b).length ≤ 2 := by
  unfold successors
  cases hb : f.blocks[b]? with
  | none => simp
  | some blk =>
    have htargets : blk.successors.length ≤ 2 := by
      unfold Block.successors
      cases blk.body.getLast? with
      | none => simp
      | some i => cases i <;> simp [Instr.targets]
    simp only [Option.map_some, Option.getD_some, List.length_map]
    exact Nat.le_trans (List.length_filter_le _ _) htargets

def Follows (r : FnRef) (f : Fn) (closed : List Nat) (a b : Nat) : Prop :=
  b ∈ f.successors r a ∧ b ∉ closed

/-- Control comes to the blocks to which a path leads. -/
theorem mem_entered_iff {u : Nat} :
    u ∈ f.entered r closed ↔ 0 ∉ closed ∧ ReflTransGen (f.Follows r closed) 0 u := by
  unfold entered
  constructor
  · intro h
    rcases reach_of_mem_visit h with h | ⟨v, hv, h⟩
    · cases h
    · obtain ⟨hv, h0⟩ := List.mem_filter.mp hv
      obtain rfl := List.mem_singleton.mp hv
      refine ⟨by simpa using h0, h.lift id fun a b hb => ?_⟩
      simpa [Follows] using hb
  · rintro ⟨h0, h⟩
    have hstack : [0].filter (fun b => decide (b ∉ closed)) = [0] := by simp [h0]
    have htwo : ∀ b, ((f.successors r b).filter (· ∉ closed)).length ≤ 2 := fun b =>
      Nat.le_trans (List.length_filter_le _ _) (f.length_successors_le r b)
    have hend : ∀ b, f.blocks.length ≤ b → (f.successors r b).filter (· ∉ closed) = [] := by
      intro b hb
      simp [successors, List.getElem?_eq_none hb]
    rw [hstack]
    have hfuel : [0].length + 2 * unseen f.blocks.length [] ≤ 2 * f.blocks.length + 1 := by
      simp [unseen]
      omega
    obtain ⟨hsub, hclosed⟩ := visit_closed htwo hend hfuel nofun
    induction h with
    | refl => exact hsub 0 (by simp)
    | tail _ hb ih => exact hclosed _ ih _ (by simpa [Follows] using hb)

/-- The second function goes on behind block `b` of the first: new blocks stand from `n` on, and
none of them leads back. -/
structure Prolongs (r : FnRef) (b n : Nat) (f g : Fn) : Prop where
  old : ∀ a, a < n → a ≠ b → g.successors r a = f.successors r a
  inside : ∀ a c, c ∈ f.successors r a → a < n ∧ a ≠ b ∧ c < n
  leave : ∀ c ∈ g.successors r b, n ≤ c
  new : ∀ a, n ≤ a → ∀ c ∈ g.successors r a, n ≤ c

namespace Prolongs

variable {b n : Nat}

theorem mem_entered_iff (h : Prolongs r b n f g) {u : Nat} (hu : u < n) :
    u ∈ g.entered r closed ↔ u ∈ f.entered r closed := by
  simp only [Fn.mem_entered_iff]
  refine and_congr_right fun _ => ⟨fun hp => ?_, fun hp => ?_⟩
  · -- a path to an old block has only old blocks on it
    induction hp with
    | refl => exact .refl
    | @tail a c hp hstep ih =>
      have ha : a < n := by
        by_contra hn
        exact absurd (h.new a (Nat.not_lt.mp hn) c hstep.1) (Nat.not_le.mpr hu)
      have hb : a ≠ b := by
        rintro rfl
        exact absurd (h.leave c hstep.1) (Nat.not_le.mpr hu)
      exact (ih ha).tail ⟨h.old a ha hb ▸ hstep.1, hstep.2⟩
  · refine hp.lift id fun a c hstep => ?_
    obtain ⟨ha, hb, -⟩ := h.inside a c hstep.1
    exact ⟨h.old a ha hb ▸ hstep.1, hstep.2⟩

theorem lt_of_mem_entered (h : Prolongs r b n f g) (hn : 0 < n) {u : Nat}
    (hu : u ∈ f.entered r closed) : u < n := by
  obtain ⟨-, hp⟩ := Fn.mem_entered_iff.mp hu
  cases hp with
  | refl => exact hn
  | tail _ hstep => exact (h.inside _ _ hstep.1).2.2

/-- What was available in an old block still is. -/
theorem available (h : Prolongs r b n f g) {a i : Nat} {site : Site} (ha : a < n)
    (hav : f.available r a i site) : g.available r a i site := by
  cases site with
  | stray k =>
    simp only [Fn.available, decide_eq_true_eq] at hav ⊢
    rwa [h.mem_entered_iff ha]
  | placed ref =>
    obtain ⟨⟨owner, d⟩, j⟩ := ref
    simp only [Fn.available, Bool.or_eq_true, Bool.and_eq_true, decide_eq_true_eq, dominates]
      at hav ⊢
    rcases hav with (hav | hav) | ⟨⟨⟨ho, hne⟩, hd⟩, hdom⟩
    · exact .inl (.inl hav)
    · exact .inl (.inr (by rwa [h.mem_entered_iff ha]))
    · have hdn := h.lt_of_mem_entered (Nat.zero_lt_of_lt ha) hd
      exact .inr ⟨⟨⟨ho, hne⟩, (h.mem_entered_iff hdn).mpr hd⟩, by rwa [h.mem_entered_iff ha]⟩

end Prolongs

end Fn

end QuantumIR
