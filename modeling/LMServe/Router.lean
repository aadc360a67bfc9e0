import LMServe.Lib.Rotation
import LMServe.Lib.Hoare

/-!
# Round-robin routing (`router.rs`, `RoundRobinNodeScheduler`)

The nodes are in a deque behind a mutex, so the calls of `select` and `add_node` come one after the
other. `select` rotates the deque and takes its front, which is the entry that was last; `add_node`
puts a node at the end, where it is selected next. A node is the `Arc` that `add_node` has made of it:
two nodes may have all their fields in common. The request is not looked at.
-/

namespace LMServe

/-- Clones of an `Arc` have its address, `Arc::new` takes a new one. -/
structure Arc (α : Type) where
  addr : Nat
  val : α
deriving DecidableEq, Repr

/-- `Arc::ptr_eq` -/
def Arc.ptr_eq {α : Type} (a b : Arc α) : Bool := a.addr == b.addr

@[simp] theorem Arc.ptr_eq_iff {α : Type} {a b : Arc α} : a.ptr_eq b = true ↔ a.addr = b.addr :=
  beq_iff_eq

/-- `VecDeque::rotate_right`: the last `n` entries come first. It asserts `n <= self.len()`. -/
def rotate_right {α : Type} (n : Nat) (deque : List α) : Option (List α) :=
  if n ≤ deque.length then
    some (deque.drop (deque.length - n) ++ deque.take (deque.length - n))
  else none

/-- How a call of `select` fails. -/
inductive RouteError where
  /-- the assertion of `rotate_right`, a panic -/
  | rotate
  /-- "Routing failed: no available nodes" -/
  | noAvailableNodes
deriving DecidableEq, Repr

structure RoundRobinNodeScheduler (Node : Type) where
  nodes : List (Arc Node)

namespace RoundRobinNodeScheduler
variable {Node : Type}

def new : RoundRobinNodeScheduler Node := ⟨[]⟩

/-- The argument is the `Arc` made of the node. -/
def add_node (node : Arc Node) (s : RoundRobinNodeScheduler Node) : RoundRobinNodeScheduler Node :=
  ⟨s.nodes ++ [node]⟩

def select : EStateM RouteError (RoundRobinNodeScheduler Node) (Arc Node) := fun s =>
  match rotate_right 1 s.nodes with
  | none => .error .rotate s
  | some nodes =>
    match nodes.head? with
    | none => .error .noAvailableNodes ⟨nodes⟩
    | some node => .ok node ⟨nodes⟩

def get_nodes (s : RoundRobinNodeScheduler Node) : List (Arc Node) := s.nodes

def get_num_nodes (s : RoundRobinNodeScheduler Node) : Nat := s.nodes.length

variable {s s' : RoundRobinNodeScheduler Node} {node : Arc Node}

/-- The assertion fails before the error for an empty deque is reached. -/
theorem select_nil (h : s.nodes = []) : select s = .error .rotate s := by
  simp [select, rotate_right, h]

theorem select_concat {nodes : List (Arc Node)} (h : s.nodes = nodes ++ [node]) :
    select s = .ok node ⟨node :: nodes⟩ := by
  simp [select, rotate_right, h]

theorem select_ok (h : select s = .ok node s') : ∃ nodes, s.nodes = nodes ++ [node] ∧ s'.nodes = node :: nodes := by
  rcases List.eq_nil_or_concat' s.nodes with hnil | ⟨nodes, last, hlast⟩
  · rw [select_nil hnil] at h; cases h
  · rw [select_concat hlast] at h; cases h
    exact ⟨nodes, hlast, rfl⟩

end RoundRobinNodeScheduler

/-! ### Interleavings -/

/-- A scheduler with the number of `Arc`s made so far, which is the address of the next. -/
structure Routing (Node : Type) where
  scheduler : RoundRobinNodeScheduler Node
  arcs : Nat

namespace Routing
variable {Node : Type}

def new : Routing Node := ⟨.new, 0⟩

/-- A call that returns, with the node it returns. -/
inductive Call (Node : Type) where
  | select (node : Arc Node)
  | add_node (node : Node)

def Step (t : Routing Node) : Call Node → Routing Node → Prop
  | .select node, t' => t.scheduler.select = .ok node t'.scheduler ∧ t'.arcs = t.arcs
  | .add_node node, t' => t' = ⟨t.scheduler.add_node ⟨t.arcs, node⟩, t.arcs + 1⟩

def Call.selected? : Call Node → Option (Arc Node)
  | .select node => some node
  | .add_node _ => none

/-- The nodes selected, in order. -/
def selections (calls : List (Call Node)) : List (Arc Node) := calls.filterMap Call.selected?

@[simp] theorem selections_append (calls calls' : List (Call Node)) :
    selections (calls ++ calls') = selections calls ++ selections calls' :=
  List.filterMap_append

/-! ### The deque as a queue served in turn -/

/-- The nodes as they stand in the deque. -/
def queue (t : Routing Node) : List Nat := t.scheduler.nodes.map Arc.addr

variable {t t' t₁ t₂ t₃ : Routing Node} {c : Call Node} {calls : List (Call Node)} {x x' y : Arc Node}

/-- The addresses in the deque have been given out. -/
def Allotted (t : Routing Node) : Prop := ∀ a ∈ t.queue, a < t.arcs

theorem Step.rotation (ht : t.Allotted) (h : Step t c t') :
    ∃ e, Rotation.Step t.queue e t'.queue ∧ Rotation.served [e] = (selections [c]).map Arc.addr := by
  cases c with
  | select node =>
    obtain ⟨nodes, hnodes, hnodes'⟩ := RoundRobinNodeScheduler.select_ok h.1
    refine ⟨.served node.addr, ?_, rfl⟩
    simp only [queue, hnodes, hnodes', List.map_append, List.map_cons, List.map_nil]
    exact .served _ _
  | add_node node =>
    obtain rfl := h
    refine ⟨.joined t.arcs, ?_, rfl⟩
    simp only [queue, RoundRobinNodeScheduler.add_node, List.map_append, List.map_cons, List.map_nil]
    exact .joined _ _ fun hmem => Nat.lt_irrefl _ (ht _ hmem)

theorem Step.allotted (ht : t.Allotted) (h : Step t c t') : t'.Allotted := by
  cases c with
  | select node =>
    obtain ⟨nodes, hnodes, hnodes'⟩ := RoundRobinNodeScheduler.select_ok h.1
    intro a ha
    rw [h.2]
    refine ht a ?_
    simp only [queue, hnodes, hnodes', List.map_append, List.map_cons, List.mem_cons] at ha ⊢
    simpa [or_comm] using ha
  | add_node node =>
    obtain rfl := h
    intro a ha
    simp only [queue, RoundRobinNodeScheduler.add_node, List.map_append, List.map_cons, List.map_nil,
      List.mem_append, List.mem_singleton] at ha
    rcases ha with ha | rfl
    · exact Nat.lt_succ_of_lt (ht a ha)
    · exact Nat.lt_succ_self _

theorem allotted_of_run (ht : t.Allotted) (h : Run Step t calls t') : t'.Allotted :=
  h.invariant ht fun _ _ _ ht hs => hs.allotted ht

theorem rotation_of_run (ht : t.Allotted) (h : Run Step t calls t') :
    ∃ es, Run Rotation.Step t.queue es t'.queue ∧ es.length = calls.length ∧
      Rotation.served es = (selections calls).map Arc.addr := by
  induction h with
  | nil => exact ⟨[], .nil, rfl, rfl⟩
  | snoc hrun hs ih =>
    obtain ⟨es, hes, hlen, hserved⟩ := ih
    obtain ⟨e, he, hserved'⟩ := hs.rotation (allotted_of_run ht hrun)
    exact ⟨es ++ [e], hes.snoc he, by simp [hlen], by simp [hserved, hserved']⟩

theorem allotted_of_new (h : Run Step new calls t) : t.Allotted :=
  allotted_of_run (fun a ha => by cases ha) h

theorem queue_nodup (h : Run Step new calls t) : t.queue.Nodup := by
  obtain ⟨es, hes, -⟩ := rotation_of_run (t := new) (fun a ha => by cases ha) h
  exact Rotation.nodup_of_run hes List.nodup_nil

theorem Step.select_queue (h : Step t (.select x) t') :
    ∃ q, t.queue = q ++ [x.addr] ∧ t'.queue = x.addr :: q := by
  obtain ⟨nodes, hnodes, hnodes'⟩ := RoundRobinNodeScheduler.select_ok h.1
  exact ⟨nodes.map Arc.addr, by simp [queue, hnodes], by simp [queue, hnodes']⟩

theorem countP_selections (y : Arc Node) (calls : List (Call Node)) :
    (selections calls).countP y.ptr_eq = ((selections calls).map Arc.addr).count y.addr := by
  rw [List.count, List.countP_map]
  refine List.countP_congr fun z _ => ?_
  rw [Arc.ptr_eq_iff, Function.comp_apply, beq_iff_eq]
  exact eq_comm

/-- Between two selections of one node, with no other of it in between, every other node that is there
throughout is selected once. -/
theorem selected_once (h : Run Step new calls t) (hx : Step t (.select x) t₁) {between : List (Call Node)}
    (hrun : Run Step t₁ between t₂) (hx' : Step t₂ (.select x') t₃) (hxx' : x'.ptr_eq x)
    (hbetween : ∀ z ∈ selections between, ¬ z.ptr_eq x) (hy : y ∈ t₁.scheduler.get_nodes)
    (hyx : ¬ y.ptr_eq x) : (selections between).countP y.ptr_eq = 1 := by
  have h₁ := h.snoc hx
  obtain ⟨q, -, hq₁⟩ := hx.select_queue
  obtain ⟨q', hq₂, -⟩ := hx'.select_queue
  obtain ⟨es, hes, -, hserved⟩ := rotation_of_run (allotted_of_new h₁) hrun
  have hmem := Rotation.mem_of_run hes (List.mem_map_of_mem (f := Arc.addr) hy)
  rw [hq₁, hq₂, Arc.ptr_eq_iff.1 hxx'] at hes
  rw [hq₂, Arc.ptr_eq_iff.1 hxx'] at hmem
  rw [countP_selections, ← hserved]
  refine Rotation.served_once hes (hq₁ ▸ queue_nodup h₁) ?_ hmem fun heq => hyx (Arc.ptr_eq_iff.2 heq)
  rw [hserved, List.mem_map]
  rintro ⟨z, hz, hzx⟩
  exact hbetween z hz (Arc.ptr_eq_iff.2 hzx)

/-- While no node is added, `k` times as many selections as there are nodes select each `k` times. -/
theorem selected_rounds (h : Run Step new calls t) {k : Nat} {turns : List (Call Node)}
    (hrun : Run Step t turns t') (hturns : ∀ c ∈ turns, ∃ x, c = .select x)
    (hk : turns.length = k * t.scheduler.get_num_nodes) (hy : y ∈ t.scheduler.get_nodes) :
    (selections turns).countP y.ptr_eq = k := by
  obtain ⟨es, hes, hlen, hserved⟩ := rotation_of_run (allotted_of_new h) hrun
  have hselected : (selections turns).length = turns.length := by
    refine List.filterMap_length_eq_length.2 fun c hc => ?_
    obtain ⟨x, rfl⟩ := hturns c hc
    rfl
  have hall : (Rotation.served es).length = es.length := by
    rw [hserved, List.length_map, hselected, hlen]
  rw [countP_selections, ← hserved]
  refine Rotation.served_rounds hes (queue_nodup h) (Rotation.length_served_iff.1 hall) ?_
    (List.mem_map_of_mem hy)
  rw [hlen, hk]
  simp [queue, RoundRobinNodeScheduler.get_num_nodes]

theorem select_returns (h : t.scheduler.get_num_nodes ≠ 0) : ∃ x t', Step t (.select x) t' := by
  rcases List.eq_nil_or_concat' t.scheduler.nodes with hnil | ⟨nodes, x, hx⟩
  · exact absurd (by simp [RoundRobinNodeScheduler.get_num_nodes, hnil]) h
  · exact ⟨x, ⟨⟨x :: nodes⟩, t.arcs⟩, RoundRobinNodeScheduler.select_concat hx, rfl⟩

/-- At any point of any interleaving: `select` returns a node if there is one, the nodes take turns
however many join meanwhile, and while none joins they do so in rounds. -/
theorem select_fair (h : Run Step new calls t) :
    (t.scheduler.get_num_nodes ≠ 0 → ∃ x t', Step t (.select x) t') ∧
    (∀ (x x' y : Arc Node) (between : List (Call Node)) (t₁ t₂ t₃ : Routing Node),
      Step t (.select x) t₁ → Run Step t₁ between t₂ → Step t₂ (.select x') t₃ → x'.ptr_eq x →
      (∀ z ∈ selections between, ¬ z.ptr_eq x) → y ∈ t₁.scheduler.get_nodes → ¬ y.ptr_eq x →
      (selections between).countP y.ptr_eq = 1) ∧
    (∀ (k : Nat) (y : Arc Node) (turns : List (Call Node)) (t' : Routing Node),
      Run Step t turns t' → (∀ c ∈ turns, ∃ x, c = .select x) →
      turns.length = k * t.scheduler.get_num_nodes → y ∈ t.scheduler.get_nodes →
      (selections turns).countP y.ptr_eq = k) := by
  refine ⟨select_returns, ?_, ?_⟩
  · intro x x' y between t₁ t₂ t₃ hx hrun hx' hxx' hbetween hy hyx
    exact selected_once h hx hrun hx' hxx' hbetween hy hyx
  · intro k y turns t' hrun hturns hk hy
    exact selected_rounds h hrun hturns hk hy

/-- `c` joins between two selections of `b`, and `a` is still selected once in between; then two rounds of
three nodes, the one that joined among them. -/
theorem select_fair_three :
    let a : Arc String := ⟨0, "a"⟩
    let b : Arc String := ⟨1, "b"⟩
    let c : Arc String := ⟨2, "c"⟩
    ∃ t t₁ t₂ t₃ t₄ : Routing String, Run Step new [.add_node "a", .add_node "b"] t ∧ Step t (.select b) t₁ ∧
      Run Step t₁ [.add_node "c", .select c, .select a] t₂ ∧ Step t₂ (.select b) t₃ ∧
      (selections [.add_node "c", .select c, .select a]).countP a.ptr_eq = 1 ∧
      Run Step t₃ [.select c, .select a, .select b, .select c, .select a, .select b] t₄ ∧
      (selections [.select c, .select a, .select b, .select c, .select a, .select b]).countP c.ptr_eq = 2 := by
  intro a b c
  have hstart : Run Step new [.add_node "a", .add_node "b"] ⟨⟨[a, b]⟩, 2⟩ := by
    have h1 : Step new (.add_node "a") ⟨⟨[a]⟩, 1⟩ := rfl
    have h2 : Step ⟨⟨[a]⟩, 1⟩ (.add_node "b") ⟨⟨[a, b]⟩, 2⟩ := rfl
    exact .cons h1 (.cons h2 .nil)
  have hb : Step ⟨⟨[a, b]⟩, 2⟩ (.select b) ⟨⟨[b, a]⟩, 2⟩ := ⟨rfl, rfl⟩
  have hbetween : Run Step ⟨⟨[b, a]⟩, 2⟩ [.add_node "c", .select c, .select a] ⟨⟨[a, c, b]⟩, 3⟩ := by
    have h1 : Step ⟨⟨[b, a]⟩, 2⟩ (.add_node "c") ⟨⟨[b, a, c]⟩, 3⟩ := rfl
    have h2 : Step ⟨⟨[b, a, c]⟩, 3⟩ (.select c) ⟨⟨[c, b, a]⟩, 3⟩ := ⟨rfl, rfl⟩
    have h3 : Step ⟨⟨[c, b, a]⟩, 3⟩ (.select a) ⟨⟨[a, c, b]⟩, 3⟩ := ⟨rfl, rfl⟩
    exact .cons h1 (.cons h2 (.cons h3 .nil))
  have hb' : Step ⟨⟨[a, c, b]⟩, 3⟩ (.select b) ⟨⟨[b, a, c]⟩, 3⟩ := ⟨rfl, rfl⟩
  have hround : Run Step ⟨⟨[b, a, c]⟩, 3⟩ [.select c, .select a, .select b] ⟨⟨[b, a, c]⟩, 3⟩ := by
    have h1 : Step ⟨⟨[b, a, c]⟩, 3⟩ (.select c) ⟨⟨[c, b, a]⟩, 3⟩ := ⟨rfl, rfl⟩
    have h2 : Step ⟨⟨[c, b, a]⟩, 3⟩ (.select a) ⟨⟨[a, c, b]⟩, 3⟩ := ⟨rfl, rfl⟩
    exact .cons h1 (.cons h2 (.cons hb' .nil))
  have hturns := hround.append hround
  have hjoined := ((hstart.snoc hb).append hbetween).snoc hb'
  refine ⟨_, _, _, _, _, hstart, hb, hbetween, hb', ?_, hturns, ?_⟩
  · exact (select_fair hstart).2.1 b b a _ _ _ _ hb hbetween hb' rfl (by decide) (by decide) (by decide)
  · exact (select_fair hjoined).2.2 2 c _ _ hturns (by simp) rfl (by decide)

end Routing

end LMServe
