import QuantumIR.Proofs.Effect

/-! # Computations on two sessions

Two computations on two sessions end in the same way: both with the same result, or both with an
error. What is known of the sessions on the way is a parameter, as long as it composes.
-/

namespace QuantumIR

/-- What is known of two sessions that have become others. -/
structure Session.Comparison where
  Holds (s t s' t' : Session) : Prop
  stay {s t s' t' : Session} : Holds s t s' t' → Holds s' t' s' t'
  trans {s t s' t' s'' t'' : Session} :
    Holds s t s' t' → Holds s' t' s'' t'' → Holds s t s'' t''

open Session

namespace Attempt

variable {α β : Type} {C : Comparison} {s t s' t' : Session} {P : Session → α → Prop}
  {Q : Session → β → Prop} {x y : Attempt α} {k l : α → Attempt β}

/-- Both computations give the same result, of which `P` is true, or both are stopped. -/
def Couples (C : Comparison) (P : Session → α → Prop) (x y : Attempt α) (s t : Session) : Prop :=
  match x s, y t with
  | .ok a s', .ok b t' => b = a ∧ C.Holds s t s' t' ∧ P t' a
  | .error _ s', .error _ t' => C.Holds s t s' t'
  | _, _ => False

namespace Couples

theorem pure {a : α} (h : C.Holds s t s t) (ha : P t a) :
    Couples C P (Pure.pure a) (Pure.pure a) s t :=
  ⟨rfl, h, ha⟩

theorem reject (h : C.Holds s t s t) (d e : Defect) :
    Couples C P (Attempt.reject d) (Attempt.reject e) s t :=
  h

theorem require {a : Option α} (h : C.Holds s t s t) (ha : ∀ b, a = some b → P t b)
    (d e : Defect) : Couples C P (Attempt.require d a) (Attempt.require e a) s t := by
  cases a with
  | none => exact reject h d e
  | some b => exact pure h (ha b rfl)

theorem guarded {a : Except Panic α} (h : C.Holds s t s t) (ha : ∀ b, a = .ok b → P t b) :
    Couples C P (Attempt.guarded a) (Attempt.guarded a) s t := by
  cases a with
  | error p => exact h
  | ok b => exact pure h (ha b rfl)

theorem cases {R : Prop} (hx : Couples C P x y s t)
    (hok : ∀ a s' t', x s = .ok a s' → y t = .ok a t' → C.Holds s t s' t' → P t' a → R)
    (herror : ∀ e f s' t', x s = .error e s' → y t = .error f t' → C.Holds s t s' t' → R) :
    R := by
  unfold Couples at hx
  split at hx
  next hs ht =>
    obtain ⟨rfl, h, ha⟩ := hx
    exact hok _ _ _ hs ht h ha
  next hs ht => exact herror _ _ _ _ hs ht hx
  · exact hx.elim

theorem ok {a : α} (hx : Couples C P x y s t) (hs : x s = .ok a s') :
    ∃ t', y t = .ok a t' ∧ C.Holds s t s' t' := by
  apply hx.cases
  · intro b s₁ t₁ hs₁ ht h _
    cases hs.symm.trans hs₁
    exact ⟨t₁, ht, h⟩
  · intro e f s₁ t₁ hs₁
    cases hs.symm.trans hs₁

theorem error {e : Fault} (hx : Couples C P x y s t) (hs : x s = .error e s') :
    ∃ f t', y t = .error f t' ∧ C.Holds s t s' t' := by
  apply hx.cases
  · intro a s₁ t₁ hs₁
    cases hs.symm.trans hs₁
  · intro d f s₁ t₁ hs₁ ht h
    cases hs.symm.trans hs₁
    exact ⟨f, t₁, ht, h⟩

theorem leaves (hx : Couples C P x y s t) : C.Holds s t (x.leaves s) (y.leaves t) := by
  apply hx.cases
  · intro a s' t' hs ht h _
    rwa [leaves_ok hs, leaves_ok ht]
  · intro e f s' t' hs ht h
    rwa [leaves_error hs, leaves_error ht]

/-- Computations that have come some way go on from there. -/
theorem of_holds {x y z w : Attempt β} (hs : z s = x s') (ht : w t = y t')
    (h : C.Holds s t s' t') (hx : Couples C Q x y s' t') : Couples C Q z w s t := by
  unfold Couples at hx ⊢
  rw [hs, ht]
  split at hx
  · exact ⟨hx.1, C.trans h hx.2.1, hx.2.2⟩
  · exact C.trans h hx
  · exact hx

theorem bind (hx : Couples C P x y s t)
    (hk : ∀ a s' t', C.Holds s t s' t' → P t' a → Couples C Q (k a) (l a) s' t') :
    Couples C Q (x >>= k) (y >>= l) s t := by
  apply hx.cases
  · intro a s' t' hs ht h ha
    exact of_holds (bind_of_ok hs) (bind_of_ok ht) h (hk a s' t' h ha)
  · intro e f s' t' hs ht h
    unfold Couples
    rwa [bind_of_error hs, bind_of_error ht]

theorem cons {xs ys : Attempt (List α)} {R R' : Session → List α → Prop}
    (hx : Couples C P x y s t)
    (hxs : ∀ s' t', C.Holds s t s' t' → Couples C R xs ys s' t')
    (hcons : ∀ a as s' t' s'' t'', P t' a → C.Holds s' t' s'' t'' → R t'' as → R' t'' (a :: as)) :
    Couples C R' (do let a ← x; let as ← xs; return a :: as)
      (do let a ← y; let as ← ys; return a :: as) s t := by
  refine hx.bind fun a s' t' h ha => (hxs s' t' h).bind fun as s'' t'' h' has => ?_
  exact pure (C.stay h') (hcons a as s' t' s'' t'' ha h' has)

theorem leaves_bind {R : Session → Session → Prop} (hx : Couples C P x y s t)
    (herror : ∀ s' t', C.Holds s t s' t' → R s' t')
    (hk : ∀ a s' t', C.Holds s t s' t' → P t' a → R ((k a).leaves s') ((l a).leaves t')) :
    R ((x >>= k).leaves s) ((y >>= l).leaves t) := by
  rw [Attempt.leaves_bind, Attempt.leaves_bind]
  apply hx.cases
  · intro a s' t' hs ht h ha
    rw [hs, ht]
    exact hk a s' t' h ha
  · intro e f s' t' hs ht h
    rw [hs, ht]
    exact herror s' t' h

theorem get_bind {k l : Session → Attempt β} (h : Couples C Q (k s) (l t) s t) :
    Couples C Q (get >>= k) (get >>= l) s t :=
  h

theorem modify_bind {f : Session → Session} {k l : Unit → Attempt β}
    (h : C.Holds s t (f s) (f t)) (hk : Couples C Q (k ()) (l ()) (f s) (f t)) :
    Couples C Q (modify f >>= k) (modify f >>= l) s t := by
  have hs : (modify f >>= k) s = k () (f s) := rfl
  have ht : (modify f >>= l) t = l () (f t) := rfl
  exact of_holds hs ht h hk

theorem updateGuarded_error {f : Session → Except Panic (α × Session)} {p q : Panic}
    (h : C.Holds s t s t) (hs : f s = .error p) (ht : f t = .error q) :
    Couples C P (updateGuarded f) (updateGuarded f) s t := by
  unfold Couples updateGuarded
  rw [hs, ht]
  exact h

theorem updateGuarded_ok {f : Session → Except Panic (α × Session)} {a : α}
    (hs : f s = .ok (a, s')) (ht : f t = .ok (a, t')) (h : C.Holds s t s' t') (ha : P t' a) :
    Couples C P (updateGuarded f) (updateGuarded f) s t := by
  unfold Couples updateGuarded
  rw [hs, ht]
  exact ⟨rfl, h, ha⟩

end Couples

end Attempt

end QuantumIR
