import Mathlib.Data.List.Basic
import Mathlib.Order.Basic
import Mathlib.Order.OrderDual
import Mathlib.Order.PropInstances

/-!
# Partial-correctness triples for stateful code that can fail

A computation of type `EStateM ε σ α` reads and writes a state `σ` and either returns or stops with
an error `ε`; the state reached so far is kept in both cases. `Triple P x Q E` says what is true
after running `x` from a state satisfying `P`: `Q` of the result and the state when `x` returns,
`E` of the error when it stops. One rule per way of composing computations, and one for each of
the two list loops.
-/

namespace Hoare

variable {ε σ τ α β : Type}

/-- From `P`, `x` returns with `Q` or stops with an error in `E`. -/
def Triple (P : σ → Prop) (x : EStateM ε σ α) (Q : α → σ → Prop) (E : ε → Prop) : Prop :=
  ∀ s, P s → match x s with
    | .ok a s' => Q a s'
    | .error e _ => E e

/-! ### Running composed computations -/

theorem bind_apply (x : EStateM ε σ α) (f : α → EStateM ε σ β) (s : σ) :
    (x >>= f) s = match x s with
      | .ok a s' => f a s'
      | .error e s' => .error e s' := by
  show EStateM.bind x f s = _
  unfold EStateM.bind
  cases x s <;> rfl

@[simp] theorem pure_apply (a : α) (s : σ) : (pure a : EStateM ε σ α) s = .ok a s := rfl

@[simp] theorem throw_apply (e : ε) (s : σ) : (throw e : EStateM ε σ α) s = .error e s := rfl

@[simp] theorem get_apply (s : σ) : (get : EStateM ε σ σ) s = .ok s s := rfl

@[simp] theorem modify_apply (f : σ → σ) (s : σ) :
    (modify f : EStateM ε σ PUnit) s = .ok .unit (f s) := rfl

/-- A sequence returns iff both halves do. -/
theorem bind_ok {x : EStateM ε σ α} {f : α → EStateM ε σ β} {s s'' : σ} {b : β} :
    (x >>= f) s = .ok b s'' ↔ ∃ a s', x s = .ok a s' ∧ f a s' = .ok b s'' := by
  rw [bind_apply]
  cases x s with
  | ok a s' => simp
  | error e s' => simp

/-- A sequence stops in its first half or, the first half having returned, in its second. -/
theorem bind_error {x : EStateM ε σ α} {f : α → EStateM ε σ β} {s s'' : σ} {e : ε} :
    (x >>= f) s = .error e s'' ↔
      x s = .error e s'' ∨ ∃ a s', x s = .ok a s' ∧ f a s' = .error e s'' := by
  rw [bind_apply]
  cases x s with
  | ok a s' => simp
  | error e s' => simp

/-! ### The rules -/

section rules
variable {P P' : σ → Prop} {Q Q' : α → σ → Prop} {R : β → σ → Prop} {E E' : ε → Prop}

theorem Triple.of_ok {x : EStateM ε σ α} {s s' : σ} {a : α} (h : Triple P x Q E) (hP : P s)
    (hx : x s = .ok a s') : Q a s' := by
  have := h s hP; rw [hx] at this; exact this

theorem Triple.of_error {x : EStateM ε σ α} {s s' : σ} {e : ε} (h : Triple P x Q E) (hP : P s)
    (hx : x s = .error e s') : E e := by
  have := h s hP; rw [hx] at this; exact this

/-- Without an error to stop with, `x` returns. -/
theorem Triple.returns {x : EStateM ε σ α} {s : σ} (h : Triple P x Q fun _ => False) (hP : P s) :
    ∃ a s', x s = .ok a s' ∧ Q a s' := by
  have := h s hP
  cases hx : x s with
  | ok a s' => rw [hx] at this; exact ⟨a, s', rfl, this⟩
  | error e s' => rw [hx] at this; exact this.elim

theorem Triple.conseq {x : EStateM ε σ α} (h : Triple P x Q E) (hP : ∀ s, P' s → P s)
    (hQ : ∀ a s, Q a s → Q' a s) (hE : ∀ e, E e → E' e) : Triple P' x Q' E' := by
  intro s hs
  have := h s (hP s hs)
  cases hx : x s with
  | ok a s' => rw [hx] at this; exact hQ a s' this
  | error e s' => rw [hx] at this; exact hE e this

theorem Triple.pre {x : EStateM ε σ α} (h : Triple P x Q E) (hP : ∀ s, P' s → P s) :
    Triple P' x Q E :=
  h.conseq hP (fun _ _ => id) fun _ => id

theorem Triple.post {x : EStateM ε σ α} (h : Triple P x Q E) (hQ : ∀ a s, Q a s → Q' a s) :
    Triple P x Q' E :=
  h.conseq (fun _ => id) hQ fun _ => id

theorem Triple.pure {a : α} (h : ∀ s, P s → Q a s) : Triple P (pure a : EStateM ε σ α) Q E :=
  fun s hs => h s hs

theorem Triple.throw {e : ε} (h : E e) : Triple P (throw e : EStateM ε σ α) Q E :=
  fun _ _ => h

theorem Triple.bind {x : EStateM ε σ β} {f : β → EStateM ε σ α} (hx : Triple P x R E)
    (hf : ∀ b, Triple (R b) (f b) Q E) : Triple P (x >>= f) Q E := by
  intro s hs
  rw [bind_apply]
  have := hx s hs
  cases h : x s with
  | ok b s' => rw [h] at this; exact hf b s' this
  | error e s' => rw [h] at this; exact this

/-- After reading the state, the rest runs from exactly that state. -/
theorem Triple.get_bind {f : σ → EStateM ε σ α} (h : ∀ s, P s → Triple (· = s) (f s) Q E) :
    Triple P (get >>= f) Q E := by
  intro s hs
  rw [bind_apply]
  exact h s hs s rfl

theorem Triple.modify {f : σ → σ} {Q : PUnit → σ → Prop} (h : ∀ s, P s → Q .unit (f s)) :
    Triple P (modify f : EStateM ε σ PUnit) Q E :=
  fun s hs => h s hs

theorem Triple.ite {c : Prop} [Decidable c] {x y : EStateM ε σ α}
    (hx : c → Triple P x Q E) (hy : ¬ c → Triple P y Q E) :
    Triple P (if c then x else y) Q E := by
  split
  · exact hx ‹_›
  · exact hy ‹_›

end rules

/-! ### Loops over a list -/

/-- `mapM` with an invariant over the items still to come and the results so far. -/
theorem Triple.mapM {f : α → EStateM ε σ β} {E : ε → Prop} (I : List α → List β → σ → Prop)
    (hf : ∀ a l r, Triple (I (a :: l) r) (f a) (fun b s => I l (r ++ [b]) s) E) (l : List α)
    (r : List β) : Triple (I l r) (l.mapM f) (fun bs s => I [] (r ++ bs) s) E := by
  induction l generalizing r with
  | nil =>
    rw [List.mapM_nil]
    exact Triple.pure fun s hs => by simpa using hs
  | cons a l ih =>
    rw [List.mapM_cons]
    refine Triple.bind (hf a l r) fun b => Triple.bind (ih (r ++ [b])) fun bs => ?_
    exact Triple.pure fun s hs => by simpa using hs

/-- `forM` with an invariant over the items still to come. -/
theorem Triple.forM {f : α → EStateM ε σ PUnit} {E : ε → Prop} (I : List α → σ → Prop)
    (hf : ∀ a l, Triple (I (a :: l)) (f a) (fun _ s => I l s) E) (l : List α) :
    Triple (I l) (forM l f) (fun _ s => I [] s) E := by
  induction l with
  | nil => exact Triple.pure fun s hs => hs
  | cons a l ih =>
    rw [List.forM_cons]
    exact Triple.bind (hf a l) fun _ => ih

/-- `forM` with an invariant that every item keeps. -/
theorem triple_forM_mem {f : α → EStateM ε σ PUnit} {P : σ → Prop} {E : ε → Prop} {l : List α}
    (hf : ∀ a ∈ l, Triple P (f a) (fun _ => P) E) : Triple P (forM l f) (fun _ => P) E := by
  induction l with
  | nil => exact Triple.pure fun s hs => hs
  | cons a l ih =>
    rw [List.forM_cons]
    exact Triple.bind (hf a (by simp)) fun _ => ih fun b hb => hf b (by simp [hb])

/-! ### Frames -/

/-- The part `f` of the state is the same before and after `x`, however it ends. -/
def Keeps {γ : Type} (f : σ → γ) (x : EStateM ε σ α) : Prop :=
  ∀ s, match x s with
    | .ok _ s' => f s' = f s
    | .error _ s' => f s' = f s

section frames
variable {γ : Type} {f : σ → γ}

theorem Keeps.of_ok {x : EStateM ε σ α} {s s' : σ} {a : α} (h : Keeps f x) (hx : x s = .ok a s') :
    f s' = f s := by
  have := h s; rw [hx] at this; exact this

theorem Keeps.of_error {x : EStateM ε σ α} {s s' : σ} {e : ε} (h : Keeps f x)
    (hx : x s = .error e s') : f s' = f s := by
  have := h s; rw [hx] at this; exact this

theorem Keeps.part {δ : Type} {x : EStateM ε σ α} (h : Keeps f x) (g : γ → δ) :
    Keeps (fun s => g (f s)) x := by
  intro s
  have := h s
  cases hx : x s with
  | ok a s' => rw [hx] at this; exact congrArg g this
  | error e s' => rw [hx] at this; exact congrArg g this

theorem Keeps.pure (a : α) : Keeps f (pure a : EStateM ε σ α) := fun _ => rfl

theorem Keeps.throw (e : ε) : Keeps f (throw e : EStateM ε σ α) := fun _ => rfl

theorem Keeps.get : Keeps f (get : EStateM ε σ σ) := fun _ => rfl

theorem Keeps.modify {g : σ → σ} (h : ∀ s, f (g s) = f s) :
    Keeps f (modify g : EStateM ε σ PUnit) := h

theorem Keeps.bind {x : EStateM ε σ α} {g : α → EStateM ε σ β} (hx : Keeps f x)
    (hg : ∀ a, Keeps f (g a)) : Keeps f (x >>= g) := by
  intro s
  rw [bind_apply]
  have := hx s
  cases h : x s with
  | ok a s' =>
    rw [h] at this
    have h2 := hg a s'
    dsimp only at this ⊢
    cases h' : g a s' with
    | ok b s'' => rw [h'] at h2; exact h2.trans this
    | error e s'' => rw [h'] at h2; exact h2.trans this
  | error e s' => rw [h] at this; exact this

theorem Keeps.ite {c : Prop} [Decidable c] {x y : EStateM ε σ α} (hx : Keeps f x)
    (hy : Keeps f y) : Keeps f (if c then x else y) := by
  split
  · exact hx
  · exact hy

theorem Keeps.forM {g : α → EStateM ε σ PUnit} (h : ∀ a, Keeps f (g a)) (l : List α) :
    Keeps f (forM l g) := by
  induction l with
  | nil => exact Keeps.pure _
  | cons a l ih => rw [List.forM_cons]; exact (h a).bind fun _ => ih

theorem Keeps.mapM {g : α → EStateM ε σ β} (h : ∀ a, Keeps f (g a)) (l : List α) :
    Keeps f (l.mapM g) := by
  induction l with
  | nil => rw [List.mapM_nil]; exact Keeps.pure _
  | cons a l ih =>
    rw [List.mapM_cons]
    exact (h a).bind fun _ => ih.bind fun _ => Keeps.pure _

/-- What holds of the kept part stays true. -/
theorem Triple.frame {x : EStateM ε σ α} {P : σ → Prop} {Q : α → σ → Prop} {E : ε → Prop}
    (h : Triple P x Q E) (hk : Keeps f x) (F : γ → Prop) :
    Triple (fun s => P s ∧ F (f s)) x (fun a s => Q a s ∧ F (f s)) E := by
  intro s ⟨hP, hF⟩
  have h1 := h s hP
  have h2 := hk s
  cases hx : x s with
  | ok a s' => rw [hx] at h1 h2; exact ⟨h1, by rw [h2]; exact hF⟩
  | error e s' => rw [hx] at h1; exact h1

end frames

/-! ### Running on a component of the state -/

/-- Run `x` on the component `get t` of a larger state and write the component back with `put`. -/
def zoom (get : τ → σ) (put : σ → τ → τ) (x : EStateM ε σ α) : EStateM ε τ α := fun t =>
  match x (get t) with
  | .ok a s => .ok a (put s t)
  | .error e s => .error e (put s t)

theorem zoom_ok {get : τ → σ} {put : σ → τ → τ} {x : EStateM ε σ α} {t t' : τ} {a : α} :
    zoom get put x t = .ok a t' ↔ ∃ s, x (get t) = .ok a s ∧ t' = put s t := by
  unfold zoom
  cases x (get t) with
  | ok b s => simp only [EStateM.Result.ok.injEq]; constructor
              · rintro ⟨rfl, rfl⟩; exact ⟨s, ⟨rfl, rfl⟩, rfl⟩
              · rintro ⟨_, ⟨rfl, rfl⟩, rfl⟩; exact ⟨rfl, rfl⟩
  | error e s => simp

theorem zoom_error {get : τ → σ} {put : σ → τ → τ} {x : EStateM ε σ α} {t t' : τ} {e : ε} :
    zoom get put x t = .error e t' ↔ ∃ s, x (get t) = .error e s ∧ t' = put s t := by
  unfold zoom
  cases x (get t) with
  | ok b s => simp
  | error e' s => simp only [EStateM.Result.error.injEq]; constructor
                  · rintro ⟨rfl, rfl⟩; exact ⟨s, ⟨rfl, rfl⟩, rfl⟩
                  · rintro ⟨_, ⟨rfl, rfl⟩, rfl⟩; exact ⟨rfl, rfl⟩

theorem Keeps.zoom {γ : Type} {get : τ → σ} {put : σ → τ → τ} {f : τ → γ} {x : EStateM ε σ α}
    (h : ∀ s t, f (put s t) = f t) : Keeps f (zoom get put x) := by
  intro t
  unfold Hoare.zoom
  cases x (get t) with
  | ok a s => exact h s t
  | error e s => exact h s t

/-- What is said of the whole may depend on the part. -/
theorem Keeps.inside {γ δ : Type} {get : τ → σ} {put : σ → τ → τ} {f : σ → γ} {g : τ → δ} {x : EStateM ε σ α}
    (hx : Keeps f x) (h : ∀ s t, f s = f (get t) → g (put s t) = g t) : Keeps g (Hoare.zoom get put x) := by
  intro t
  have hrun := hx (get t)
  unfold Hoare.zoom
  cases hr : x (get t) with
  | ok a s => rw [hr] at hrun; exact h s t hrun
  | error e s => rw [hr] at hrun; exact h s t hrun

theorem Triple.zoom {get : τ → σ} {put : σ → τ → τ} {x : EStateM ε σ α} {P : τ → Prop}
    {Q : α → τ → Prop} {E : ε → Prop}
    (h : ∀ t, P t → Triple (· = get t) x (fun a s => Q a (put s t)) E) :
    Triple P (zoom get put x) Q E := by
  intro t ht
  have := h t ht (get t) rfl
  unfold Hoare.zoom
  cases hx : x (get t) with
  | ok a s => rw [hx] at this; exact this
  | error e s => rw [hx] at this; exact this

/-! ### Monotone changes -/

/-- However `x` ends, the part `f` of the state is no larger than before. -/
def Lowers {γ : Type} [Preorder γ] (f : σ → γ) (x : EStateM ε σ α) : Prop :=
  ∀ s, match x s with
    | .ok _ s' => f s' ≤ f s
    | .error _ s' => f s' ≤ f s

section lowers
variable {γ : Type} [Preorder γ] {f : σ → γ}

theorem Keeps.lowers {δ : Type} {g : σ → δ} {x : EStateM ε σ α} (h : Keeps g x)
    (hg : ∀ s s', g s' = g s → f s' ≤ f s) : Lowers f x := by
  intro s
  have := h s
  cases hx : x s with
  | ok a s' => rw [hx] at this; exact hg _ _ this
  | error e s' => rw [hx] at this; exact hg _ _ this

theorem Lowers.of_ok {x : EStateM ε σ α} {s s' : σ} {a : α} (h : Lowers f x) (hx : x s = .ok a s') :
    f s' ≤ f s := by
  have := h s; rw [hx] at this; exact this

theorem Lowers.of_error {x : EStateM ε σ α} {s s' : σ} {e : ε} (h : Lowers f x)
    (hx : x s = .error e s') : f s' ≤ f s := by
  have := h s; rw [hx] at this; exact this

theorem Lowers.pure (a : α) : Lowers f (pure a : EStateM ε σ α) := fun _ => le_refl _

theorem Lowers.throw (e : ε) : Lowers f (throw e : EStateM ε σ α) := fun _ => le_refl _

theorem Lowers.get : Lowers f (get : EStateM ε σ σ) := fun _ => le_refl _

theorem Lowers.modify {g : σ → σ} (h : ∀ s, f (g s) ≤ f s) :
    Lowers f (modify g : EStateM ε σ PUnit) := h

theorem Lowers.bind {x : EStateM ε σ α} {g : α → EStateM ε σ β} (hx : Lowers f x)
    (hg : ∀ a, Lowers f (g a)) : Lowers f (x >>= g) := by
  intro s
  rw [bind_apply]
  have := hx s
  cases h : x s with
  | ok a s' =>
    rw [h] at this
    have h2 := hg a s'
    dsimp only at this ⊢
    cases h' : g a s' with
    | ok b s'' => rw [h'] at h2; exact le_trans h2 this
    | error e s'' => rw [h'] at h2; exact le_trans h2 this
  | error e s' => rw [h] at this; exact this

theorem Lowers.get_bind {g : σ → EStateM ε σ α} (h : ∀ s, match g s s with
    | .ok _ s' => f s' ≤ f s
    | .error _ s' => f s' ≤ f s) : Lowers f (MonadState.get >>= g) := by
  intro s
  rw [bind_apply]
  exact h s

theorem Lowers.ite {c : Prop} [Decidable c] {x y : EStateM ε σ α} (hx : Lowers f x)
    (hy : Lowers f y) : Lowers f (if c then x else y) := by
  split
  · exact hx
  · exact hy

theorem Lowers.forM {g : α → EStateM ε σ PUnit} {l : List α} (h : ∀ a ∈ l, Lowers f (g a)) :
    Lowers f (forM l g) := by
  induction l with
  | nil => exact Lowers.pure _
  | cons a l ih =>
    rw [List.forM_cons]
    exact (h a (by simp)).bind fun _ => ih fun b hb => h b (by simp [hb])

theorem Lowers.mapM {g : α → EStateM ε σ β} {l : List α} (h : ∀ a ∈ l, Lowers f (g a)) :
    Lowers f (l.mapM g) := by
  induction l with
  | nil => rw [List.mapM_nil]; exact Lowers.pure _
  | cons a l ih =>
    rw [List.mapM_cons]
    exact (h a (by simp)).bind fun _ => (ih fun b hb => h b (by simp [hb])).bind fun _ => Lowers.pure _

theorem Lowers.zoom {get : τ → σ} {put : σ → τ → τ} {δ : Type} [Preorder δ] {h : τ → δ}
    {x : EStateM ε σ α} (hx : Lowers f x) (hput : ∀ s t, f s ≤ f (get t) → h (put s t) ≤ h t) :
    Lowers h (zoom get put x) := by
  intro t
  have := hx (get t)
  unfold Hoare.zoom
  cases hrun : x (get t) with
  | ok a s => rw [hrun] at this; exact hput _ _ this
  | error e s => rw [hrun] at this; exact hput _ _ this

end lowers

/-! ### Both endings -/

/-- From `s`, `x` returns with `Q` or stops with `F`; both may speak of the state reached. -/
def Ends (x : EStateM ε σ α) (s : σ) (Q : α → σ → Prop) (F : ε → σ → Prop) : Prop :=
  match x s with
  | .ok a s' => Q a s'
  | .error e s' => F e s'

section ends
variable {Q Q' : α → σ → Prop} {R : β → σ → Prop} {F F' : ε → σ → Prop} {s s' : σ}

theorem Ends.of_ok {x : EStateM ε σ α} {a : α} (h : Ends x s Q F) (hx : x s = .ok a s') : Q a s' := by
  unfold Ends at h; rw [hx] at h; exact h

theorem Ends.of_error {x : EStateM ε σ α} {e : ε} (h : Ends x s Q F) (hx : x s = .error e s') :
    F e s' := by
  unfold Ends at h; rw [hx] at h; exact h

theorem Ends.run_ok {x : EStateM ε σ α} {a : α} (hx : x s = .ok a s') (h : Q a s') : Ends x s Q F := by
  unfold Ends; rw [hx]; exact h

theorem Ends.run_error {x : EStateM ε σ α} {e : ε} (hx : x s = .error e s') (h : F e s') : Ends x s Q F := by
  unfold Ends; rw [hx]; exact h

theorem Ends.conseq {x : EStateM ε σ α} (h : Ends x s Q F) (hQ : ∀ a s, Q a s → Q' a s)
    (hF : ∀ e s, F e s → F' e s) : Ends x s Q' F' := by
  unfold Ends at h ⊢
  cases hx : x s with
  | ok a s' => rw [hx] at h; exact hQ a s' h
  | error e s' => rw [hx] at h; exact hF e s' h

theorem Keeps.ends {γ : Type} {f : σ → γ} {x : EStateM ε σ α} (h : Keeps f x) (s : σ) :
    Ends x s (fun _ s' => f s' = f s) (fun _ s' => f s' = f s) := h s

theorem Ends.pure {a : α} (h : Q a s) : Ends (pure a : EStateM ε σ α) s Q F := h

theorem Ends.throw {e : ε} (h : F e s) : Ends (throw e : EStateM ε σ α) s Q F := h

theorem Ends.bind {x : EStateM ε σ β} {f : β → EStateM ε σ α} (hx : Ends x s R F)
    (hf : ∀ b s', R b s' → Ends (f b) s' Q F) : Ends (x >>= f) s Q F := by
  unfold Ends at hx
  show Ends (x >>= f) s Q F
  unfold Ends
  rw [bind_apply]
  cases h : x s with
  | ok b s' => rw [h] at hx; exact hf b s' hx
  | error e s' => rw [h] at hx; exact hx

theorem Ends.get_bind {f : σ → EStateM ε σ α} (h : Ends (f s) s Q F) :
    Ends (MonadState.get >>= f) s Q F :=
  Ends.bind (R := fun t s' => t = s ∧ s' = s) ⟨rfl, rfl⟩ fun t s' ⟨ht, hs⟩ => by rw [ht, hs]; exact h

theorem Ends.modify_bind {g : σ → σ} {f : PUnit → EStateM ε σ α} (h : Ends (f .unit) (g s) Q F) :
    Ends (modify g >>= f) s Q F :=
  Ends.bind (R := fun _ s' => s' = g s) rfl fun _ s' hs => by rw [hs]; exact h

theorem Ends.modify {g : σ → σ} {Q : PUnit → σ → Prop} (h : Q .unit (g s)) :
    Ends (modify g : EStateM ε σ PUnit) s Q F := h

theorem Ends.ite {c : Prop} [Decidable c] {x y : EStateM ε σ α} (hx : c → Ends x s Q F)
    (hy : ¬ c → Ends y s Q F) : Ends (if c then x else y) s Q F := by
  split
  · exact hx ‹_›
  · exact hy ‹_›

theorem Ends.zoom {get : τ → σ} {put : σ → τ → τ} {x : EStateM ε σ α} {t : τ} {Q : α → τ → Prop}
    {F : ε → τ → Prop} (h : Ends x (get t) (fun a s => Q a (put s t)) fun e s => F e (put s t)) :
    Ends (zoom get put x) t Q F := by
  unfold Ends at h
  show Ends (Hoare.zoom get put x) t Q F
  unfold Ends Hoare.zoom
  cases hx : x (get t) with
  | ok a s => rw [hx] at h; exact h
  | error e s => rw [hx] at h; exact h

end ends

/-! ### Invariants that errors keep -/

/-- However `x` ends, `I` holds afterwards if it held before. -/
abbrev Preserves (I : σ → Prop) (x : EStateM ε σ α) : Prop := Lowers (fun s => OrderDual.toDual (I s)) x

section preserves
variable {I : σ → Prop}

theorem Preserves.ends {x : EStateM ε σ α} (h : Preserves I x) {s : σ} (hs : I s) :
    Ends x s (fun _ => I) (fun _ => I) := by
  have := h s
  unfold Ends
  cases hx : x s with
  | ok a s' => rw [hx] at this; exact this hs
  | error e s' => rw [hx] at this; exact this hs

theorem Preserves.of_ends {x : EStateM ε σ α} (h : ∀ s, I s → Ends x s (fun _ => I) (fun _ => I)) :
    Preserves I x := by
  intro s
  have := h s
  unfold Ends at this
  cases hx : x s with
  | ok a s' => rw [hx] at this; exact this
  | error e s' => rw [hx] at this; exact this

theorem Preserves.modify {g : σ → σ} (h : ∀ s, I s → I (g s)) :
    Preserves I (modify g : EStateM ε σ PUnit) := Lowers.modify h

theorem Keeps.preserves {γ : Type} {g : σ → γ} {x : EStateM ε σ α} (h : Keeps g x)
    (hI : ∀ s s', g s' = g s → I s → I s') : Preserves I x := h.lowers hI

theorem Preserves.of_forall {x : EStateM ε σ α} (h : ∀ s, I s) : Preserves I x :=
  Preserves.of_ends fun s _ => by
    unfold Ends
    cases x s <;> exact h _

theorem Preserves.imp {x : EStateM ε σ α} (h : Preserves I x) (q : Prop) : Preserves (fun s => q → I s) x := by
  intro s
  have := h s
  cases hx : x s with
  | ok a s' => rw [hx] at this; exact fun hs hq => this (hs hq)
  | error e s' => rw [hx] at this; exact fun hs hq => this (hs hq)

end preserves

/-- A triple says what holds when `x` returns, an invariant what holds when it stops. -/
theorem Triple.ends_preserves {P : σ → Prop} {Q : α → σ → Prop} {E : ε → Prop} {I : σ → Prop} {x : EStateM ε σ α}
    {s : σ} (h : Triple P x Q E) (hI : Preserves I x) (hP : P s) (hs : I s) : Ends x s Q fun _ => I := by
  have hok := h s hP
  have herr := hI s
  unfold Ends
  cases hx : x s with
  | ok a s' => rw [hx] at hok; exact hok
  | error e s' => rw [hx] at herr; exact herr hs

theorem Triple.ends {P : σ → Prop} {Q : α → σ → Prop} {F : ε → σ → Prop} {x : EStateM ε σ α} {s : σ}
    (h : Triple P x Q fun _ => False) (hP : P s) : Ends x s Q F := by
  obtain ⟨a, s', hrun, hQ⟩ := h.returns hP
  exact Ends.run_ok hrun hQ

/-! ### Errors alone -/

/-- `x` stops with errors in `E` only, whatever the state. -/
def Stops (E : ε → Prop) (x : EStateM ε σ α) : Prop := ∀ s e s', x s = .error e s' → E e

section stops
variable {E : ε → Prop}

theorem Stops.get_bind {f : σ → EStateM ε σ α} (h : ∀ s e s', f s s = .error e s' → E e) :
    Stops E (get >>= f) := by
  intro s e s' hrun
  rcases bind_error.1 hrun with hget | ⟨t, t', hget, hrun⟩
  · cases hget
  · cases hget; exact h _ _ _ hrun

theorem Stops.mono {E' : ε → Prop} {x : EStateM ε σ α} (h : Stops E x) (hE : ∀ e, E e → E' e) :
    Stops E' x := fun s e s' hx => hE e (h s e s' hx)

theorem Stops.triple {x : EStateM ε σ α} (h : Stops E x) :
    Triple (fun _ => True) x (fun _ _ => True) E := by
  intro s _
  cases hx : x s with
  | ok a s' => trivial
  | error e s' => exact h _ _ _ hx

theorem Stops.pure (a : α) : Stops E (pure a : EStateM ε σ α) := by
  intro s e s' h; cases h

theorem Stops.throw {e : ε} (he : E e) : Stops E (throw e : EStateM ε σ α) := by
  intro s e' s' h; cases h; exact he

theorem Stops.get : Stops E (get : EStateM ε σ σ) := by
  intro s e s' h; cases h

theorem Stops.modify (f : σ → σ) : Stops E (modify f : EStateM ε σ PUnit) := by
  intro s e s' h; cases h

theorem Stops.bind {x : EStateM ε σ α} {f : α → EStateM ε σ β} (hx : Stops E x)
    (hf : ∀ a, Stops E (f a)) : Stops E (x >>= f) := by
  intro s e s'' h
  rcases bind_error.1 h with h | ⟨a, s', -, h⟩
  · exact hx _ _ _ h
  · exact hf a _ _ _ h

theorem Stops.ite {c : Prop} [Decidable c] {x y : EStateM ε σ α} (hx : Stops E x)
    (hy : Stops E y) : Stops E (if c then x else y) := by
  split
  · exact hx
  · exact hy

theorem Stops.forM {f : α → EStateM ε σ PUnit} (h : ∀ a, Stops E (f a)) (l : List α) :
    Stops E (forM l f) := by
  induction l with
  | nil => exact Stops.pure _
  | cons a l ih => rw [List.forM_cons]; exact (h a).bind fun _ => ih

theorem Stops.mapM {f : α → EStateM ε σ β} (h : ∀ a, Stops E (f a)) (l : List α) :
    Stops E (l.mapM f) := by
  induction l with
  | nil => rw [List.mapM_nil]; exact Stops.pure _
  | cons a l ih =>
    rw [List.mapM_cons]
    exact (h a).bind fun _ => ih.bind fun _ => Stops.pure _

theorem Stops.zoom {get : τ → σ} {put : σ → τ → τ} {x : EStateM ε σ α} (h : Stops E x) :
    Stops E (zoom get put x) := by
  intro t e t' hrun
  obtain ⟨s, hs, -⟩ := zoom_error.1 hrun
  exact h _ _ _ hs

end stops

/-! ### Stopping early -/

/-- `y` does what `x` does, except that it may stop with the error `e`. -/
def Guarded (e : ε) (y x : EStateM ε σ α) : Prop := ∀ s, y s = x s ∨ ∃ s', y s = .error e s'

section guarded
variable {e : ε}

theorem Guarded.refl (x : EStateM ε σ α) : Guarded e x x := fun _ => .inl rfl

theorem Guarded.bind {x y : EStateM ε σ α} {f g : α → EStateM ε σ β} (h : Guarded e y x)
    (hg : ∀ a, Guarded e (g a) (f a)) : Guarded e (y >>= g) (x >>= f) := by
  intro s
  rw [bind_apply, bind_apply]
  rcases h s with heq | ⟨s', herr⟩
  · rw [heq]
    cases x s with
    | ok a s' => exact hg a s'
    | error e' s' => exact .inl rfl
  · rw [herr]; exact .inr ⟨s', rfl⟩

theorem Guarded.ite {c : Prop} [Decidable c] {x x' y y' : EStateM ε σ α} (h : Guarded e y x)
    (h' : Guarded e y' x') : Guarded e (if c then y else y') (if c then x else x') := by
  split
  · exact h
  · exact h'

theorem Guarded.zoom {get : τ → σ} {put : σ → τ → τ} {x y : EStateM ε σ α} (h : Guarded e y x) :
    Guarded e (zoom get put y) (zoom get put x) := by
  intro t
  unfold Hoare.zoom
  rcases h (get t) with heq | ⟨s', herr⟩
  · rw [heq]; exact .inl rfl
  · rw [herr]; exact .inr ⟨put s' t, rfl⟩

/-- A run of `x` from a state where `y` does not stop early is a run of `y`. -/
theorem Guarded.ok {x y : EStateM ε σ α} {s s' : σ} {a : α} (h : Guarded e y x)
    (hy : ∀ t, y s ≠ .error e t) (hx : x s = .ok a s') : y s = .ok a s' := by
  rcases h s with heq | ⟨t, herr⟩
  · rw [heq]; exact hx
  · exact absurd herr (hy t)

/-- A run of `y` that returns is a run of `x`. -/
theorem Guarded.of_ok {x y : EStateM ε σ α} {s s' : σ} {a : α} (h : Guarded e y x) (hy : y s = .ok a s') :
    x s = .ok a s' := by
  rcases h s with heq | ⟨t, herr⟩
  · rw [← heq, hy]
  · rw [hy] at herr
    cases herr

end guarded

end Hoare
