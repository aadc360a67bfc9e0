import Mathlib.Data.List.Nodup
import Mathlib.Data.List.Perm.Basic

/-!
# A store shared out among owners

The items of a list own disjoint parts of a store `ι → β`. What is known of an item (an `Assertion`)
speaks of its own part of the store, and stays true when that part changes as `R` allows. `Split` says
that every listed item has its assertion and owns places in `B` only, and that `G` holds of everything
nobody owns. An operation on one item that leaves the parts of the others alone changes one entry of
the list.
-/

namespace Ownership

variable {ι β α : Type}

/-- A property of an item and of its part of the store, kept by changes that `R` allows. -/
structure Assertion (own : α → List ι) (R : β → β → Prop) where
  holds : α → (ι → β) → Prop
  stable : ∀ {a : α} {f f' : ι → β}, (∀ i ∈ own a, f' i = f i ∨ R (f i) (f' i)) → holds a f →
    holds a f'

section
variable {own : α → List ι} {R : β → β → Prop}

theorem Assertion.frame (P : Assertion own R) {a : α} {f f' : ι → β} (h : P.holds a f)
    (hf : ∀ i ∈ own a, f' i = f i) : P.holds a f' :=
  P.stable (fun i hi => .inl (hf i hi)) h

/-- All items of a list, with the same assertion. -/
def tag (P : Assertion own R) (l : List α) : List (Assertion own R × α) := l.map (P, ·)

@[simp] theorem tag_nil (P : Assertion own R) : tag P [] = [] := rfl

@[simp] theorem tag_cons (P : Assertion own R) (a : α) (l : List α) :
    tag P (a :: l) = (P, a) :: tag P l := rfl

@[simp] theorem tag_append (P : Assertion own R) (l l' : List α) :
    tag P (l ++ l') = tag P l ++ tag P l' := List.map_append

theorem tag_perm (P : Assertion own R) {l l' : List α} (h : l.Perm l') : (tag P l).Perm (tag P l') :=
  h.map _

theorem mem_tag {P Q : Assertion own R} {a : α} {l : List α} :
    (Q, a) ∈ tag P l ↔ Q = P ∧ a ∈ l := by
  simp only [tag, List.mem_map, Prod.mk.injEq]
  constructor
  · rintro ⟨b, hb, rfl, rfl⟩; exact ⟨rfl, hb⟩
  · rintro ⟨rfl, ha⟩; exact ⟨a, ha, rfl, rfl⟩

/-- A list of items parted by a test, each part with an assertion of its own. -/
theorem tag_partition (P Q : Assertion own R) (p : α → Bool) (l : List α) :
    (l.map fun a => (if p a then P else Q, a)).Perm (tag Q (l.filter (!p ·)) ++ tag P (l.filter p)) := by
  induction l with
  | nil => exact List.Perm.refl _
  | cons a l ih =>
    rw [List.map_cons]
    cases hp : p a with
    | true =>
      rw [List.filter_cons_of_pos (p := p) hp, List.filter_cons_of_neg (by simp [hp]), tag_cons]
      exact (ih.cons _).trans List.perm_middle.symm
    | false =>
      rw [List.filter_cons_of_neg (p := p) (by simp [hp]), List.filter_cons_of_pos (by simp [hp]), tag_cons]
      exact ih.cons _

/-- See the module doc. -/
structure Split (B : ι → Prop) (G : ι → β → Prop) (l : List (Assertion own R × α)) (f : ι → β) :
    Prop where
  nodup : (l.flatMap fun p => own p.2).Nodup
  inside : ∀ p ∈ l, ∀ i ∈ own p.2, B i
  holds : ∀ p ∈ l, p.1.holds p.2 f
  rest : ∀ i, (∀ p ∈ l, i ∉ own p.2) → G i (f i)

variable {B B' : ι → Prop} {G G' : ι → β → Prop} {l l' : List (Assertion own R × α)} {f f' : ι → β}
  {P Q : Assertion own R} {a a' : α}

theorem Split.perm (h : Split B G l f) (hl : l'.Perm l) : Split B G l' f where
  nodup := (hl.flatMap_right _).nodup_iff.2 h.nodup
  inside := fun p hp => h.inside p (hl.mem_iff.1 hp)
  holds := fun p hp => h.holds p (hl.mem_iff.1 hp)
  rest := fun i hi => h.rest i fun p hp => hi p (hl.mem_iff.2 hp)

theorem Split.disjoint (h : Split B G ((P, a) :: l) f) {p : Assertion own R × α} (hp : p ∈ l) {i : ι}
    (hi : i ∈ own a) : i ∉ own p.2 := by
  intro hip
  have hnd := h.nodup
  rw [List.flatMap_cons, List.nodup_append] at hnd
  exact hnd.2.2 i hi i (List.mem_flatMap.2 ⟨p, hp, hip⟩) rfl

theorem Split.head (h : Split B G ((P, a) :: l) f) : P.holds a f := h.holds _ (List.mem_cons_self ..)

theorem Split.head_nodup (h : Split B G ((P, a) :: l) f) : (own a).Nodup := by
  have hnd := h.nodup
  rw [List.flatMap_cons, List.nodup_append] at hnd
  exact hnd.1

/-- An operation on one item. -/
theorem Split.change (h : Split B G ((P, a) :: l) f) (hown : own a' = own a)
    (hf : ∀ i, i ∉ own a → f' i = f i) (hQ : Q.holds a' f') : Split B G ((Q, a') :: l) f' where
  nodup := by
    have := h.nodup
    rw [List.flatMap_cons] at this ⊢
    rwa [hown]
  inside := fun p hp => by
    rcases List.mem_cons.1 hp with rfl | hp
    · exact fun i hi => h.inside (P, a) (List.mem_cons_self ..) i (by rw [← hown]; exact hi)
    · exact h.inside p (List.mem_cons_of_mem _ hp)
  holds := fun p hp => by
    rcases List.mem_cons.1 hp with rfl | hp
    · exact hQ
    · refine p.1.frame (h.holds p (List.mem_cons_of_mem _ hp)) fun i hi => hf i fun hia => ?_
      exact h.disjoint hp hia hi
  rest := fun i hi => by
    have hia : i ∉ own a := by rw [← hown]; exact hi (Q, a') (List.mem_cons_self ..)
    rw [hf i hia]
    refine h.rest i fun p hp => ?_
    rcases List.mem_cons.1 hp with rfl | hp
    · exact hia
    · exact hi p (List.mem_cons_of_mem _ hp)

/-- Nothing happens, and another assertion is known to hold of an item. -/
theorem Split.weaken (h : Split B G ((P, a) :: l) f) (hQ : P.holds a f → Q.holds a f) :
    Split B G ((Q, a) :: l) f :=
  h.change rfl (fun _ _ => rfl) (hQ h.head)

/-- The items of a list change, each in its own way, and the store does not. -/
theorem Split.map_all {as : List α} {Q : α → Assertion own R} {g : α → α}
    (h : Split B G (tag P as ++ l) f) (hown : ∀ a, own (g a) = own a)
    (hQ : ∀ a ∈ as, P.holds a f → (Q a).holds (g a) f) :
    Split B G (as.map (fun a => (Q a, g a)) ++ l) f := by
  have hsame : (as.map fun a => (Q a, g a)).flatMap (fun p => own p.2) =
      (tag P as).flatMap fun p => own p.2 := by
    simp [tag, List.flatMap_map, hown]
  have hold : ∀ a ∈ as, (P, a) ∈ tag P as ++ l := fun a ha =>
    List.mem_append_left _ (mem_tag.2 ⟨rfl, ha⟩)
  refine ⟨?_, fun p hp => ?_, fun p hp => ?_, fun i hi => h.rest i fun p hp => ?_⟩
  · have := h.nodup
    rw [List.flatMap_append] at this ⊢
    rwa [hsame]
  · rcases List.mem_append.1 hp with hp | hp
    · obtain ⟨a, ha, rfl⟩ := List.mem_map.1 hp
      dsimp only
      rw [hown]; exact h.inside _ (hold a ha)
    · exact h.inside p (List.mem_append_right _ hp)
  · rcases List.mem_append.1 hp with hp | hp
    · obtain ⟨a, ha, rfl⟩ := List.mem_map.1 hp
      exact hQ a ha (h.holds _ (hold a ha))
    · exact h.holds p (List.mem_append_right _ hp)
  · rcases List.mem_append.1 hp with hp | hp
    · obtain ⟨-, ha⟩ := mem_tag.1 (show (p.1, p.2) ∈ tag P as from hp)
      rw [← hown]
      exact hi (Q p.2, g p.2) (List.mem_append_left _ (List.mem_map.2 ⟨p.2, ha, rfl⟩))
    · exact hi p (List.mem_append_right _ hp)

theorem Split.weaken_all {as : List α} (h : Split B G (tag P as ++ l) f)
    (hQ : ∀ a, P.holds a f → Q.holds a f) : Split B G (tag Q as ++ l) f :=
  h.map_all (fun _ => rfl) fun a _ => hQ a

/-- An item is given up, its part of the store being left as `G` says. -/
theorem Split.drop (h : Split B G ((P, a) :: l) f) (hf : ∀ i, i ∉ own a → f' i = f i)
    (hG : ∀ i ∈ own a, B i → G i (f' i)) : Split B G l f' where
  nodup := by
    have := h.nodup
    rw [List.flatMap_cons, List.nodup_append] at this
    exact this.2.1
  inside := fun p hp => h.inside p (List.mem_cons_of_mem _ hp)
  holds := fun p hp => p.1.frame (h.holds p (List.mem_cons_of_mem _ hp)) fun i hi =>
    hf i fun hia => h.disjoint hp hia hi
  rest := fun i hi => by
    by_cases hia : i ∈ own a
    · exact hG i hia (h.inside (P, a) (List.mem_cons_self ..) i hia)
    · rw [hf i hia]
      refine h.rest i fun p hp => ?_
      rcases List.mem_cons.1 hp with rfl | hp
      · exact hia
      · exact hi p hp

/-- A new item takes a part of the store that nobody owns. -/
theorem Split.add (h : Split B G l f) (hnd : (own a).Nodup) (hB : ∀ i ∈ own a, B i)
    (hnew : ∀ i ∈ own a, ∀ p ∈ l, i ∉ own p.2) (hf : ∀ i, i ∉ own a → f' i = f i)
    (hP : P.holds a f') : Split B G ((P, a) :: l) f' where
  nodup := by
    rw [List.flatMap_cons, List.nodup_append]
    refine ⟨hnd, h.nodup, fun i hi j hj hij => ?_⟩
    obtain ⟨p, hp, hjp⟩ := List.mem_flatMap.1 hj
    exact hnew i hi p hp (hij ▸ hjp)
  inside := fun p hp => by
    rcases List.mem_cons.1 hp with rfl | hp
    · exact hB
    · exact h.inside p hp
  holds := fun p hp => by
    rcases List.mem_cons.1 hp with rfl | hp
    · exact hP
    · exact p.1.frame (h.holds p hp) fun i hi => hf i fun hia => hnew i hia p hp hi
  rest := fun i hi => by
    rw [hf i (hi (P, a) (List.mem_cons_self ..))]
    exact h.rest i fun p hp => hi p (List.mem_cons_of_mem _ hp)

/-- Changes that `R` allows. -/
theorem Split.rely (h : Split B G l f) (hR : ∀ i, f' i = f i ∨ R (f i) (f' i))
    (hG : ∀ i, R (f i) (f' i) → G i (f i) → G i (f' i)) : Split B G l f' where
  nodup := h.nodup
  inside := h.inside
  holds := fun p hp => p.1.stable (fun i _ => hR i) (h.holds p hp)
  rest := fun i hi => by
    rcases hR i with heq | hr
    · rw [heq]; exact h.rest i hi
    · exact hG i hr (h.rest i hi)

theorem Split.mono (h : Split B G l f) (hB : ∀ i, B i → B' i) (hG : ∀ i b, G i b → G' i b) :
    Split B' G' l f :=
  ⟨h.nodup, fun p hp i hi => hB i (h.inside p hp i hi), h.holds, fun i hi => hG i _ (h.rest i hi)⟩

end

end Ownership
