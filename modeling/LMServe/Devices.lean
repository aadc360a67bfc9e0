import LMServe.Pages
import LMServe.Reservations

/-!
# What a step does to a device

A step of the system works on the manager of a device through a few of its operations, on sequences
and regions the step is about (`Does`). So what these operations keep a step keeps, and the managers
of a system that can be reached are managers that can be reached.
-/

namespace LMServe
open Hoare BlockManager

namespace BlockManager

section
variable [Hasher] {C C' : BmOp → Prop} {m₀ m m' : BlockManager}

/-- Operations out of `C`, one after the other, lead from `m` to `m'`. -/
def Done (C : BmOp → Prop) (m m' : BlockManager) : Prop :=
  ∃ ops, Run (fun m op m' => C op ∧ op.Step m m') m ops m'

theorem Done.refl (C : BmOp → Prop) (m : BlockManager) : Done C m m := ⟨[], .nil⟩

theorem Done.snoc (h : Done C m₀ m) {op : BmOp} (hop : C op) (hs : op.Step m m') : Done C m₀ m' :=
  let ⟨ops, hops⟩ := h; ⟨ops ++ [op], hops.snoc ⟨hop, hs⟩⟩

theorem Done.invariant (h : Done C m m') {I : BlockManager → Prop} (h0 : I m)
    (hstep : ∀ t op t', I t → C op → op.Step t t' → I t') : I m' :=
  let ⟨_, hops⟩ := h; hops.invariant h0 fun t op t' ht hs => hstep t op t' ht hs.1 hs.2

theorem Done.triple {α : Type} {x : BM α} {op : BmOp} (hop : C op) (hfresh : ∀ m, op.Fresh m)
    (hx : ∀ m a m', x m = .ok a m' → op.exec m = .ok .unit m') :
    Triple (Done C m₀) x (fun _ => Done C m₀) AnyError := by
  intro m hm
  cases hrun : x m with
  | ok a m' => exact hm.snoc hop ⟨hfresh m, hx m a m' hrun⟩
  | error e m' => trivial

/-- No region has been added yet. -/
def Unreserved (C : BmOp → Prop) (m₀ m : BlockManager) : Prop :=
  Done C m₀ m ∧ m.reserved_blocks_table = m₀.reserved_blocks_table

theorem init_prefix_unreserved {seq : Sequence} (hop : C (.init_prefix_cache_blocks seq)) :
    Triple (Unreserved C m₀) (init_prefix_cache_blocks seq) (fun _ => Unreserved C m₀) AnyError := by
  intro m hm
  cases hrun : init_prefix_cache_blocks seq m with
  | ok a m' =>
    exact ⟨hm.1.snoc hop ⟨trivial, bind_ok.2 ⟨a, m', hrun, rfl⟩⟩,
      ((init_prefix_cache_blocks_regions seq).of_ok hrun).trans hm.2⟩
  | error e m' => trivial

theorem reserve_done {r : Nat} {T : List Nat} {start : Nat} (hop : C (.reserve_blocks r T start))
    (hr : m₀.reserved_blocks_table.lookup r = none) :
    Triple (Unreserved C m₀) (reserve_blocks r T start) (fun _ => Done C m₀) AnyError := by
  intro m hm
  cases hrun : reserve_blocks r T start m with
  | ok a m' =>
    have hfresh : m.reserved_blocks_table.lookup r = none := by rw [hm.2]; exact hr
    exact hm.1.snoc hop ⟨hfresh, bind_ok.2 ⟨a, m', hrun, rfl⟩⟩
  | error e m' => trivial

theorem pin_done {r : Nat} {hash_values : List Nat} (hop : C (.pin_blocks_by_hashes r hash_values))
    (hr : m₀.reserved_blocks_table.lookup r = none) :
    Triple (Unreserved C m₀) (pin_blocks_by_hashes r hash_values) (fun _ => Done C m₀) AnyError := by
  intro m hm
  cases hrun : pin_blocks_by_hashes r hash_values m with
  | ok a m' =>
    have hfresh : m.reserved_blocks_table.lookup r = none := by rw [hm.2]; exact hr
    exact hm.1.snoc hop ⟨hfresh, bind_ok.2 ⟨a, m', hrun, rfl⟩⟩
  | error e m' => trivial

end

end BlockManager

namespace Op

/-- The operation of a manager is one that the step, from `s`, may do on the device. -/
inductive Does (s : System) : Op → Device → BmOp → Prop
  | look_up {request arrival seq} (d : Device)
      (hseq : seq ∈ (request.to_task s.next_seq_id arrival).seqs) :
      Does s (.add_request request arrival) d (.init_prefix_cache_blocks seq)
  | stage {request arrival seq} (hseq : seq ∈ (request.to_task s.next_seq_id arrival).seqs)
      (k start : Nat) : Does s (.add_request request arrival) .Host
        (.reserve_blocks s.next_region_id (seq.token_ids.take k) start)
  | reserve {request arrival seq} (hseq : seq ∈ (request.to_task s.next_seq_id arrival).seqs)
      (start : Nat) : Does s (.reserve_request request arrival) .Host
        (.reserve_blocks s.next_region_id seq.token_ids start)
  | activate (session_id r : Nat) (hash_values : List Nat) :
      Does s (.trigger session_id (some r) hash_values) .Host (.activate_reserved_blocks r hash_values)
  | triggered {session_id t seq} (region_id : Option Nat) (hash_values : List Nat)
      (ht : s.scheduler.pending.lookup session_id = some t) (hseq : seq ∈ t.seqs) :
      Does s (.trigger session_id region_id hash_values) .Host (.update_prefix_cache_blocks seq)
  | schedule {op : BmOp} (d : Device)
      (hop : op.Schedules (keys (s.scheduler.waiting ++ s.scheduler.allocated))) :
      Does s .schedule d op
  | backup {i t seq} (ht : s.finished[i]? = some t) (hseq : seq ∈ t.seqs) (k start : Nat) :
      Does s (.backup i) .Disk (.reserve_blocks s.next_region_id (seq.token_ids.take k) start)
  | free {i t seq} (d : Device) (ht : s.finished[i]? = some t) (hseq : seq ∈ t.seqs) :
      Does s (.remove_task i) d (.free seq.seq_id)
  | free_and_drop_cache {i t seq} (d : Device) (ht : s.finished[i]? = some t) (hseq : seq ∈ t.seqs) :
      Does s (.remove_task i) d (.free_and_drop_cache seq.seq_id)
  | commit (region : DeviceBlockRegion) : Does s (.commit region) region.device
      (.activate_reserved_blocks region.block_region.id region.block_region.hashes)
  | pin (hash_values : List Nat) :
      Does s (.pin hash_values) .Host (.pin_blocks_by_hashes s.next_region_id hash_values)
  | unpin (region : DeviceBlockRegion) :
      Does s (.unpin region) region.device (.unpin_blocks region.block_region.id)
  | clear_cache (d : Device) : Does s .clear_cache d .clear_cache

section
variable [Hasher] {s s' : System}

/-- The managers of `σ` have been reached from those of `s` by what the step may do. -/
abbrev Doing (s : System) (op : Op) (σ : Scheduler) : Prop :=
  Scheduler.OnDevices (fun d => Done (op.Does s d) (s.scheduler.get_block_manager d)) σ

theorem Doing.start (s : System) (op : Op) : Doing s op s.scheduler := fun _ => Done.refl _ _

theorem Doing.congr {op : Op} {σ σ' : Scheduler} (h : Doing s op σ)
    (hσ : ∀ d, σ'.get_block_manager d = σ.get_block_manager d) : Doing s op σ' :=
  fun d => by rw [hσ d]; exact h d

omit [Hasher] in
theorem exec_discard {α : Type} {x : BM α} {m m' : BlockManager} {a : α} (h : x m = .ok a m') :
    (do let _ ← x : BM PUnit) m = .ok .unit m' :=
  bind_ok.2 ⟨a, m', h, rfl⟩

/-- No device has a region yet with the id that is drawn next. -/
def NextFree (s : System) : Prop :=
  ∀ d, (s.scheduler.get_block_manager d).reserved_blocks_table.lookup s.next_region_id = none

/-- `Doing`, before the region is reserved. -/
abbrev Preparing (s : System) (op : Op) (σ : Scheduler) : Prop :=
  Scheduler.OnDevices (fun d => Unreserved (op.Does s d) (s.scheduler.get_block_manager d)) σ

theorem Preparing.start (s : System) (op : Op) : Preparing s op s.scheduler :=
  fun _ => ⟨Done.refl _ _, rfl⟩

theorem Doing.add_request {request : GenerateRequest} {arrival : Nat} (hfree : NextFree s)
    {plan : Option (DeviceBlockRegion × BlockMapping)}
    (hrun : System.add_request request arrival s = .ok plan s') :
    Doing s (.add_request request arrival) s'.scheduler := by
  obtain ⟨σ, σ₁, σ₂, plan', hσ, hσ₁, rfl, hdev, -⟩ := System.add_request_ok hrun
  have hlook : ∀ seq ∈ (request.to_task s.next_seq_id arrival).seqs, ∀ d, Triple
      (Unreserved (Does s (.add_request request arrival) d) (s.scheduler.get_block_manager d))
      (init_prefix_cache_blocks seq)
      (fun _ => Unreserved (Does s (.add_request request arrival) d) (s.scheduler.get_block_manager d))
      AnyError := fun seq hseq d => init_prefix_unreserved (.look_up d hseq)
  have h := (Scheduler.init_prefix_cache_blocks_triple hlook).of_ok (Preparing.start s _) hσ
  have h₁ := (Scheduler.plan_stage_triple (J := fun d => Done (Does s (.add_request request arrival) d)
    (s.scheduler.get_block_manager d)) hlook (fun seq hseq k start =>
    reserve_done (.stage hseq k start) (hfree _)) fun _ _ hm => hm.1).of_ok h hσ₁
  exact Doing.congr h₁ hdev

theorem Doing.reserve_request {request : GenerateRequest} {arrival : Nat} (hfree : NextFree s)
    {region : Option DeviceBlockRegion}
    (hrun : System.reserve_request request arrival s = .ok region s') :
    Doing s (.reserve_request request arrival) s'.scheduler := by
  obtain ⟨t, s₁, hcreate, hrun⟩ := bind_ok.1 hrun
  obtain ⟨rfl, rfl⟩ := System.create_task_ok hcreate
  obtain ⟨r, s₂, hid, hrun⟩ := bind_ok.1 hrun
  obtain ⟨rfl, rfl⟩ := System.generate_id_ok hid
  obtain ⟨reg, s₃, hsch, hrun⟩ := bind_ok.1 hrun
  obtain ⟨σ, hσ, rfl⟩ := System.on_scheduler_ok hsch
  obtain ⟨-, rfl⟩ : _ ∧ _ = s' := by simpa using modify_ok hrun
  have hreserve : Triple (Preparing s (.reserve_request request arrival))
      (Scheduler.reserve_blocks s.next_region_id (request.to_task s.next_seq_id arrival) .Host)
      (fun _ => Doing s (.reserve_request request arrival)) AnyError := by
    unfold Scheduler.reserve_blocks
    split
    · exact Triple.throw trivial
    · rename_i head hhead
      have hseq := (List.mem_filter.1 (List.mem_of_mem_head? hhead)).1
      refine Triple.get_bind fun σ₀ hσ₀ => Triple.bind (Triple.pre (Scheduler.on_device_triple_of
        (reserve_done (.reserve hseq _) (hfree _)) fun _ _ hm => hm.1) fun σ₁ hσ₁ => hσ₁ ▸ hσ₀) fun _ => ?_
      exact Triple.pure fun _ hm => hm
  exact hreserve.of_ok (Preparing.start s _) hσ

theorem Doing.trigger {session_id : Nat} {region_id : Option Nat} {hash_values : List Nat}
    {σ : Scheduler}
    (hrun : Scheduler.trigger_pend_task session_id region_id hash_values s.scheduler = .ok .unit σ) :
    Doing s (.trigger session_id region_id hash_values) σ := by
  obtain ⟨t, ht, -⟩ := Scheduler.trigger_pend_task_ok hrun
  replace hrun := get_ok hrun
  simp only [ht] at hrun
  obtain ⟨_, σ₂, hact, hrun⟩ := bind_ok.1 (modify_ok hrun)
  have hactivate : Triple (Doing s (.trigger session_id region_id hash_values))
      (Scheduler.activate_region region_id hash_values)
      (fun _ => Doing s (.trigger session_id region_id hash_values)) AnyError := by
    cases region_id with
    | none => exact Triple.pure fun _ h => h
    | some r =>
      exact Scheduler.on_device_triple (Done.triple (.activate session_id r hash_values) (fun _ => trivial)
        fun _ _ _ h => h)
  have h₂ := hactivate.of_ok ((Doing.start s _).congr fun d => by cases d <;> rfl) hact
  cases hhead : t.get_head_seq with
  | none => simp only [hhead] at hrun; simp at hrun
  | some head =>
    simp only [hhead] at hrun
    obtain ⟨_, σ₃, hupd, hrun⟩ := bind_ok.1 hrun
    obtain rfl : { σ₃ with waiting := insert_sorted σ₃.waiting t } = σ := by simpa using hrun
    have hseq : head ∈ t.seqs := (List.mem_filter.1 (List.mem_of_mem_head? hhead)).1
    have h₃ := (Scheduler.on_device_triple (I := fun d => Done
      (Does s (.trigger session_id region_id hash_values) d) (s.scheduler.get_block_manager d))
      (Done.triple (.triggered region_id hash_values ht hseq) (fun _ => trivial) fun _ _ _ h => h)).of_ok h₂ hupd
    exact Doing.congr h₃ fun d => by cases d <;> rfl

theorem Doing.schedule [Watch] {batch : Scheduler.Batch} {σ : Scheduler}
    (hrun : Scheduler.schedule s.scheduler = .ok batch σ) : Doing s .schedule σ := by
  intro d
  obtain ⟨ops, hops⟩ := schedule_touched hrun d
  exact ⟨ops, hops.mono fun _ _ _ hs => ⟨.schedule d hs.1, hs.2⟩⟩

theorem Doing.backup {i : Nat} (hfree : NextFree s) {plan : Option (DeviceBlockRegion × BlockMapping)}
    (hrun : System.backup i s = .ok plan s') : Doing s (.backup i) s'.scheduler := by
  replace hrun := get_ok hrun
  cases hi : s.finished[i]? with
  | none =>
    simp only [hi] at hrun
    obtain ⟨-, rfl⟩ : _ ∧ s = s' := by simpa using hrun
    exact Doing.start s _
  | some t =>
    simp only [hi] at hrun
    obtain ⟨r, s₁, hid, hrun⟩ := bind_ok.1 hrun
    obtain ⟨rfl, rfl⟩ := System.generate_id_ok hid
    obtain ⟨σ, hσ, rfl⟩ := System.on_scheduler_ok hrun
    have hbackup : Triple (Preparing s (.backup i)) (Scheduler.backup s.next_region_id t)
        (fun _ => Doing s (.backup i)) AnyError := by
      unfold Scheduler.backup
      split
      · exact Triple.throw trivial
      · rename_i head hhead
        have hseq := (List.mem_filter.1 (List.mem_of_mem_head? hhead)).1
        exact Scheduler.reserve_copy_blocks_triple (fun k start =>
          reserve_done (.backup hi hseq k start) (hfree _)) fun _ _ hm => hm.1
    exact hbackup.of_ok (Preparing.start s _) hσ

theorem Doing.remove_task {i : Nat} (hrun : System.remove_task i s = .ok .unit s') :
    Doing s (.remove_task i) s'.scheduler := by
  replace hrun := get_ok hrun
  cases hi : s.finished[i]? with
  | none =>
    simp only [hi] at hrun
    obtain rfl : s = s' := by simpa using hrun
    exact Doing.start s _
  | some t =>
    simp only [hi] at hrun
    obtain ⟨_, s₁, hsch, hrun⟩ := bind_ok.1 hrun
    obtain ⟨σ, hσ, rfl⟩ := System.on_scheduler_ok hsch
    obtain rfl : _ = s' := by simpa using hrun
    exact (Scheduler.remove_task_triple (I := fun d => Done (Does s (.remove_task i) d)
      (s.scheduler.get_block_manager d))
      (fun seq hseq d => Done.triple (.free d hi hseq) (fun _ => trivial) fun _ _ _ h => h)
      fun seq hseq d => Done.triple (.free_and_drop_cache d hi hseq) (fun _ => trivial)
        fun _ _ _ h => h).of_ok (Doing.start s _) hσ

theorem Doing.step [Watch] {op : Op} (hfree : NextFree s) (hs : op.Step s s') : Doing s op s'.scheduler := by
  cases op with
  | add_request request arrival =>
    obtain ⟨plan, s₁, hrun, hs⟩ := bind_ok.1 hs
    obtain rfl : s₁ = s' := by simpa using hs
    exact Doing.add_request hfree hrun
  | reserve_request request arrival =>
    obtain ⟨region, s₁, hrun, hs⟩ := bind_ok.1 hs
    obtain rfl : s₁ = s' := by simpa using hs
    exact Doing.reserve_request hfree hrun
  | pend_reserved i =>
    replace hs := get_ok hs
    cases hi : s.reserving[i]? with
    | none =>
      simp only [hi] at hs
      obtain rfl : s = s' := by simpa using hs
      exact Doing.start s _
    | some t =>
      simp only [hi] at hs
      obtain ⟨σ, hσ, rfl⟩ := System.on_scheduler_ok (modify_ok hs)
      obtain ⟨-, rfl⟩ := Scheduler.pend_ok hσ
      exact (Doing.start s _).congr fun d => by cases d <;> rfl
  | trigger session_id region_id hash_values =>
    obtain ⟨σ, hσ, rfl⟩ := System.on_scheduler_ok hs
    exact Doing.trigger hσ
  | schedule =>
    obtain ⟨batch, s₁, hrun, hs⟩ := bind_ok.1 hs
    obtain rfl : s₁ = s' := by simpa using hs
    obtain ⟨σ, hσ, rfl⟩ := System.on_scheduler_ok hrun
    exact Doing.schedule hσ
  | update infer_outputs now =>
    obtain ⟨finished, s₁, hrun, hs⟩ := bind_ok.1 hs
    obtain rfl : s₁ = s' := by simpa using hs
    obtain ⟨fin, s₂, hupd, hrun⟩ := bind_ok.1 hrun
    obtain ⟨σ, hσ, rfl⟩ := System.on_scheduler_ok hupd
    obtain ⟨-, rfl⟩ : _ ∧ _ = σ := by simpa using modify_ok (get_ok hσ)
    obtain ⟨-, rfl⟩ : _ ∧ _ = s₁ := by simpa using modify_ok hrun
    exact (Doing.start s _).congr fun d => by cases d <;> rfl
  | backup i =>
    obtain ⟨plan, s₁, hrun, hs⟩ := bind_ok.1 hs
    obtain rfl : s₁ = s' := by simpa using hs
    exact Doing.backup hfree hrun
  | remove_task i => exact Doing.remove_task hs
  | commit region =>
    obtain ⟨k, s₁, hrun, hs⟩ := bind_ok.1 hs
    obtain rfl : s₁ = s' := by simpa using hs
    obtain ⟨σ, hσ, rfl⟩ := System.on_scheduler_ok hrun
    exact (Scheduler.on_device_triple (I := fun d => Done (Does s (.commit region) d)
      (s.scheduler.get_block_manager d)) (Done.triple (.commit region) (fun _ => trivial) fun _ _ _ => exec_discard)).of_ok
        (Doing.start s _) hσ
  | pin hash_values =>
    obtain ⟨region, s₁, hrun, hs⟩ := bind_ok.1 hs
    obtain rfl : s₁ = s' := by simpa using hs
    obtain ⟨r, s₂, hid, hrun⟩ := bind_ok.1 hrun
    obtain ⟨rfl, rfl⟩ := System.generate_id_ok hid
    obtain ⟨σ, hσ, rfl⟩ := System.on_scheduler_ok hrun
    have hpin : Triple (Preparing s (.pin hash_values))
        (Scheduler.pin_blocks s.next_region_id hash_values .Host)
        (fun _ => Doing s (.pin hash_values)) AnyError :=
      Triple.bind (Scheduler.on_device_triple_of (pin_done (.pin hash_values) (hfree _)) fun _ _ hm => hm.1)
        fun _ => Triple.pure fun _ h => h
    exact hpin.of_ok (Preparing.start s _) hσ
  | unpin region =>
    obtain ⟨σ, hσ, rfl⟩ := System.on_scheduler_ok hs
    exact (Scheduler.on_device_triple (I := fun d => Done (Does s (.unpin region) d)
      (s.scheduler.get_block_manager d)) (Done.triple (.unpin region) (fun _ => trivial) fun _ _ _ h => h)).of_ok
        (Doing.start s _) hσ
  | clear_cache =>
    obtain ⟨σ, hσ, rfl⟩ := System.on_scheduler_ok hs
    exact (triple_forM_mem (P := Doing s .clear_cache) fun d _ => Scheduler.on_device_triple
      (Done.triple (.clear_cache d) (fun _ => trivial) fun _ _ _ h => h)).of_ok (Doing.start s _) hσ

/-! ### Region ids -/

/-- The step draws a region id. -/
def draws (s : System) : Op → Bool
  | add_request _ _ | reserve_request _ _ | pin _ => true
  | backup i => s.finished[i]?.isSome
  | _ => false

omit [Hasher] in
theorem Does.draws {op : Op} {d : Device} {o : BmOp} (h : op.Does s d o) {r : Nat}
    (ho : (∃ T start, o = .reserve_blocks r T start) ∨ ∃ hash_values, o = .pin_blocks_by_hashes r hash_values) :
    r = s.next_region_id ∧ op.draws s = true := by
  rcases ho with ⟨T, start, rfl⟩ | ⟨hash_values, rfl⟩
  · cases h with
    | stage | reserve => exact ⟨rfl, rfl⟩
    | backup ht => exact ⟨rfl, by simp [Op.draws, ht]⟩
    | schedule d hop => exact hop.elim
  · cases h with
    | pin => exact ⟨rfl, rfl⟩
    | schedule d hop => exact hop.elim

theorem next_region_of_step [Watch] {op : Op} (hs : op.Step s s') :
    s'.next_region_id = if op.draws s then s.next_region_id + 1 else s.next_region_id := by
  cases op with
  | add_request request arrival =>
    obtain ⟨plan, s₁, hrun, hs⟩ := bind_ok.1 hs
    obtain rfl : s₁ = s' := by simpa using hs
    obtain ⟨_, _, _, _, -, -, rfl, -⟩ := System.add_request_ok hrun
    rfl
  | reserve_request request arrival =>
    obtain ⟨region, s₁, hrun, hs⟩ := bind_ok.1 hs
    obtain rfl : s₁ = s' := by simpa using hs
    obtain ⟨t, s₁, hcreate, hrun⟩ := bind_ok.1 hrun
    obtain ⟨-, rfl⟩ := System.create_task_ok hcreate
    obtain ⟨r, s₂, hid, hrun⟩ := bind_ok.1 hrun
    obtain ⟨-, rfl⟩ := System.generate_id_ok hid
    obtain ⟨reg, s₃, hsch, hrun⟩ := bind_ok.1 hrun
    obtain ⟨σ, -, rfl⟩ := System.on_scheduler_ok hsch
    obtain ⟨-, rfl⟩ : _ ∧ _ = _ := by simpa using modify_ok hrun
    rfl
  | pend_reserved i =>
    replace hs := get_ok hs
    cases hi : s.reserving[i]? with
    | none =>
      simp only [hi] at hs
      obtain rfl : s = s' := by simpa using hs
      rfl
    | some t =>
      simp only [hi] at hs
      obtain ⟨σ, -, rfl⟩ := System.on_scheduler_ok (modify_ok hs)
      rfl
  | update infer_outputs now =>
    obtain ⟨finished, s₁, hrun, hs⟩ := bind_ok.1 hs
    obtain rfl : s₁ = s' := by simpa using hs
    obtain ⟨fin, s₂, hupd, hrun⟩ := bind_ok.1 hrun
    obtain ⟨σ, -, rfl⟩ := System.on_scheduler_ok hupd
    obtain ⟨-, rfl⟩ : _ ∧ _ = s₁ := by simpa using modify_ok hrun
    rfl
  | backup i =>
    obtain ⟨plan, s₁, hrun, hs⟩ := bind_ok.1 hs
    obtain rfl : s₁ = s' := by simpa using hs
    replace hrun := get_ok hrun
    cases hi : s.finished[i]? with
    | none =>
      simp only [hi] at hrun
      obtain ⟨-, rfl⟩ : _ ∧ s = s₁ := by simpa using hrun
      simp [draws, hi]
    | some t =>
      simp only [hi] at hrun
      obtain ⟨r, s₂, hid, hrun⟩ := bind_ok.1 hrun
      obtain ⟨-, rfl⟩ := System.generate_id_ok hid
      obtain ⟨σ, -, rfl⟩ := System.on_scheduler_ok hrun
      simp [draws, hi]
  | remove_task i =>
    replace hs := get_ok hs
    cases hi : s.finished[i]? with
    | none =>
      simp only [hi] at hs
      obtain rfl : s = s' := by simpa using hs
      rfl
    | some t =>
      simp only [hi] at hs
      obtain ⟨_, s₁, hsch, hs⟩ := bind_ok.1 hs
      obtain ⟨σ, -, rfl⟩ := System.on_scheduler_ok hsch
      obtain rfl : _ = s' := by simpa using hs
      rfl
  | pin hash_values =>
    obtain ⟨region, s₁, hrun, hs⟩ := bind_ok.1 hs
    obtain rfl : s₁ = s' := by simpa using hs
    obtain ⟨r, s₂, hid, hrun⟩ := bind_ok.1 hrun
    obtain ⟨-, rfl⟩ := System.generate_id_ok hid
    obtain ⟨σ, -, rfl⟩ := System.on_scheduler_ok hrun
    rfl
  | trigger | unpin | clear_cache =>
    obtain ⟨σ, -, rfl⟩ := System.on_scheduler_ok hs
    rfl
  | schedule =>
    obtain ⟨batch, s₁, hrun, hs⟩ := bind_ok.1 hs
    obtain rfl : s₁ = s' := by simpa using hs
    obtain ⟨σ, -, rfl⟩ := System.on_scheduler_ok hrun
    rfl
  | commit region =>
    obtain ⟨k, s₁, hrun, hs⟩ := bind_ok.1 hs
    obtain rfl : s₁ = s' := by simpa using hs
    obtain ⟨σ, -, rfl⟩ := System.on_scheduler_ok hrun
    rfl

/-- The regions outstanding have ids below the next one. -/
def RegionsBelow (s : System) : Prop :=
  ∀ d r ids, (s.scheduler.get_block_manager d).reserved_blocks_table.lookup r = some ids →
    r < s.next_region_id

omit [Hasher] in
theorem RegionsBelow.nextFree (h : RegionsBelow s) : NextFree s := fun d => by
  cases hr : (s.scheduler.get_block_manager d).reserved_blocks_table.lookup s.next_region_id with
  | none => rfl
  | some ids => exact absurd (h d _ ids hr) (Nat.lt_irrefl _)

theorem RegionsBelow.step [Watch] {op : Op} (h : RegionsBelow s) (hs : op.Step s s') : RegionsBelow s' := by
  intro d r ids hr
  have hinv : ∀ r ids, (s'.scheduler.get_block_manager d).reserved_blocks_table.lookup r = some ids →
      r < s.next_region_id ∨ r = s.next_region_id ∧ op.draws s = true := by
    refine (Doing.step h.nextFree hs d).invariant (I := fun m => ∀ r ids,
      m.reserved_blocks_table.lookup r = some ids →
        r < s.next_region_id ∨ r = s.next_region_id ∧ op.draws s = true)
      (fun r ids hr => .inl (h d r ids hr)) fun m o m' ih ho hstep r ids hr => ?_
    rcases BmOp.exec_regions hstep.2 hr with ⟨-, hold⟩ | hnew
    · exact ih r ids hold
    · exact .inr (ho.draws hnew)
  rw [next_region_of_step hs]
  rcases hinv r ids hr with hlt | ⟨rfl, hd⟩
  · split <;> omega
  · rw [if_pos hd]; exact Nat.lt_succ_self _

end

end Op

namespace System

/-! ### Settings -/

/-- What `Scheduler::new` fixed. -/
def settings (s : System) : Nat × Nat × Nat × Bool × Watermark := s.scheduler.settings

theorem on_scheduler_settings {α : Type} {x : SM α} (hx : Keeps Scheduler.settings x) :
    Keeps settings (on_scheduler x) :=
  hx.inside fun _ _ hσ => hσ

theorem on_scheduler_control {α : Type} {x : SM α} (hx : Keeps Scheduler.control x) :
    Keeps settings (on_scheduler x) :=
  on_scheduler_settings (hx.part Prod.snd)

theorem create_task_settings (request : GenerateRequest) (arrival : Nat) :
    Keeps settings (create_task request arrival) :=
  Keeps.bind Keeps.get fun _ => Keeps.bind (Keeps.modify fun _ => rfl) fun _ => Keeps.pure _

theorem generate_id_settings : Keeps settings generate_id :=
  Keeps.bind Keeps.get fun _ => Keeps.bind (Keeps.modify fun _ => rfl) fun _ => Keeps.pure _

theorem pend_settings (t : InferTask) : Keeps settings (on_scheduler (Scheduler.pend t)) :=
  on_scheduler_settings (Scheduler.pend_keeps (fun _ _ => rfl) t)

variable [Hasher] {c : SchedulerConfig} {s s' : System}

theorem trigger_settings (session_id : Nat) (region_id : Option Nat) (hash_values : List Nat) :
    Keeps settings (on_scheduler (Scheduler.trigger_pend_task session_id region_id hash_values)) := by
  refine on_scheduler_settings (Keeps.get.bind fun s => ?_)
  split
  · exact Keeps.throw _
  · refine Keeps.bind (Keeps.modify fun _ => rfl) fun _ => ?_
    refine ((Scheduler.activate_region_keeps _ _).part Prod.snd).bind fun _ => ?_
    split
    · exact Keeps.throw _
    · exact ((Scheduler.on_device_keeps _ _).part Prod.snd).bind fun _ => Keeps.modify fun _ => rfl

theorem settings_of_step [Watch] {op : Op} (hs : op.Step s s') : s'.settings = s.settings := by
  have hdone : ∀ {α : Type} {x : SysM α}, Keeps settings x → Keeps settings (do let _ ← x) :=
    fun hx => hx.bind fun _ => Keeps.pure _
  cases op with
  | add_request request arrival =>
    refine (hdone ?_).of_ok hs
    refine (create_task_settings _ _).bind fun t => ?_
    refine (on_scheduler_control (Scheduler.init_prefix_cache_blocks_keeps _ _)).bind fun _ => ?_
    refine generate_id_settings.bind fun r =>
      (on_scheduler_control (Scheduler.plan_stage_keeps _ _)).bind fun plan => ?_
    split
    · exact (pend_settings _).bind fun _ => Keeps.pure _
    · refine Keeps.bind (on_scheduler_settings (Keeps.modify fun _ => rfl)) fun _ => Keeps.pure _
  | reserve_request request arrival =>
    refine (hdone ?_).of_ok hs
    refine (create_task_settings _ _).bind fun t => generate_id_settings.bind fun r => ?_
    refine (on_scheduler_control (Scheduler.reserve_blocks_keeps _ _ _)).bind fun _ => ?_
    exact Keeps.bind (Keeps.modify fun _ => rfl) fun _ => Keeps.pure _
  | pend_reserved i =>
    refine Keeps.of_ok (Keeps.get.bind fun _ => ?_) hs
    split
    · exact Keeps.pure _
    · exact Keeps.bind (Keeps.modify fun _ => rfl) fun _ => pend_settings _
  | trigger session_id region_id hash_values => exact (trigger_settings _ _ _).of_ok hs
  | schedule =>
    obtain ⟨batch, s₁, hrun, hs⟩ := bind_ok.1 hs
    obtain rfl : s₁ = s' := by simpa using hs
    obtain ⟨σ, hσ, rfl⟩ := System.on_scheduler_ok hrun
    exact (Scheduler.schedule_tally hσ).2.1
  | update infer_outputs now =>
    refine (hdone ?_).of_ok hs
    refine Keeps.bind (on_scheduler_settings ?_) fun _ => Keeps.bind (Keeps.modify fun _ => rfl) fun _ => Keeps.pure _
    exact Keeps.get.bind fun _ => Keeps.bind (Keeps.modify fun _ => rfl) fun _ => Keeps.pure _
  | backup i =>
    refine (hdone (Keeps.get.bind fun _ => ?_)).of_ok hs
    split
    · exact Keeps.pure _
    · exact generate_id_settings.bind fun _ => on_scheduler_control (Scheduler.backup_keeps _ _)
  | remove_task i =>
    refine Keeps.of_ok (Keeps.get.bind fun _ => ?_) hs
    split
    · exact Keeps.pure _
    · exact (on_scheduler_control (Scheduler.remove_task_keeps _)).bind fun _ => Keeps.modify fun _ => rfl
  | commit region => exact (hdone (on_scheduler_control (Scheduler.on_device_keeps _ _))).of_ok hs
  | pin hash_values =>
    refine (hdone (generate_id_settings.bind fun _ => ?_)).of_ok hs
    exact on_scheduler_control (Scheduler.pin_blocks_keeps _ _ _)
  | unpin region => exact (on_scheduler_control (Scheduler.on_device_keeps _ _)).of_ok hs
  | clear_cache => exact (on_scheduler_control Scheduler.clear_cache_keeps).of_ok hs

theorem settings_of_run {ops : List Op} [Watch] (h : Run Op.Step (new c) ops s) :
    s.settings = (new c).settings :=
  h.invariant (I := fun s => s.settings = (new c).settings) rfl fun _ _ _ hi hs => (settings_of_step hs).trans hi

/-! ### Managers -/

theorem regionsBelow {ops : List Op} [Watch] (h : Run Op.Step (System.new c) ops s) : Op.RegionsBelow s :=
  h.invariant (I := Op.RegionsBelow) (fun d r ids hr => by cases d <;> cases hr) fun _ _ _ => Op.RegionsBelow.step

/-- The manager of each device is one that manager operations can reach. -/
theorem manager_reached {ops : List Op} [Watch] (h : Run Op.Step (System.new c) ops s) (d : Device) :
    ∃ bm_ops, Run BmOp.Step (BlockManager.new c.block_size c.block_size_pos (c.num_blocks d)) bm_ops
      (s.scheduler.get_block_manager d) := by
  induction h with
  | nil => exact ⟨[], by cases d <;> exact .nil⟩
  | snoc hprev hs ih =>
    refine (Op.Doing.step (regionsBelow hprev).nextFree hs d).invariant (I := fun m => ∃ bm_ops,
      Run BmOp.Step (BlockManager.new c.block_size c.block_size_pos (c.num_blocks d)) bm_ops m) ih ?_
    rintro m op m' ⟨bm_ops, hm⟩ - hstep
    exact ⟨bm_ops ++ [op], hm.snoc hstep⟩

end System

end LMServe
