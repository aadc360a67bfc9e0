import LMServe.Content
import LMServe.InFlight

/-!
# Blocks of copies under way

A copy runs while the scheduler lock is free. Its blocks belong to somebody all the same: what a batch fetches,
computes on and writes through is listed by the maps of its sequences, which only the engine loop frees; a
swap-in reads from the map of a task that is parked until its callback, and every region belongs to the one
party that is to give it back. So these blocks are in use until the copy is done, whatever other requests do
meanwhile. The blocks that a swap-out reads are the exception: the section that plans it frees them.
-/

namespace LMServe
open Hoare
open Scheduler (Batch)

/-! ### Who is to give which region back -/

/-- The region that the callback of the entry releases. -/
def Entry.region : Entry → Option DeviceBlockRegion
  | swap_in _ region _ | swap_out region _ => some region
  | sync => none

/-- The blocks of the copy are in the region and, for a swap-in, in the map of a parked sequence. -/
def Entry.Copying (e : Engine) : Entry → Prop
  | swap_in session_id region mapping =>
    region.device = .Host ∧ (∀ entry ∈ mapping, entry.dst_block_id ∈ region.block_region.block_ids) ∧
      ∃ i, e.Parked session_id i ∧ ∀ entry ∈ mapping, e.system.scheduler.Lists .Disk i entry.src_block_id
  | swap_out region mapping =>
    region.device = .Disk ∧ ∀ entry ∈ mapping, entry.dst_block_id ∈ region.block_region.block_ids
  | sync => True

theorem eraseIdx_perm {α : Type} {l : List α} {k : Nat} {a : α} (h : l[k]? = some a) : (a :: l.eraseIdx k).Perm l := by
  obtain ⟨hlt, rfl⟩ := List.getElem?_eq_some_iff.1 h
  exact List.getElem_cons_eraseIdx_perm hlt

namespace Engine

/-- The regions of copies and transfers, and those that reservations have returned or are about to return. -/
def claims (e : Engine) : List DeviceBlockRegion :=
  e.queue.filterMap Entry.region ++ e.pushing ++ (e.reserved ++ e.remote).filterMap (·.2)

theorem claims_congr {e e' : Engine} (hq : e'.queue = e.queue) (hp : e'.pushing = e.pushing)
    (hr : e'.reserved = e.reserved) (hm : e'.remote = e.remote) : e'.claims = e.claims := by
  unfold claims; rw [hq, hp, hr, hm]

theorem claims_submit (entry : Entry) (e : Engine) : (e.submit entry).claims.Subperm (entry.region.toList ++ e.claims) := by
  unfold submit
  split
  · refine List.Perm.subperm ?_
    unfold claims
    have hentry : [entry].filterMap Entry.region = entry.region.toList := by cases entry <;> rfl
    rw [List.filterMap_append, hentry, List.append_assoc, List.append_assoc, List.append_assoc]
    exact List.perm_append_comm_assoc _ _ _
  · exact (List.sublist_append_right _ _).subperm

theorem mem_queue_submit {entry entry' : Entry} {e : Engine} (h : entry ∈ (e.submit entry').queue) :
    entry ∈ e.queue ∨ entry = entry' := by
  unfold submit at h
  split at h
  · simpa using h
  · exact .inl h

end Engine

namespace EngineOp
open Engine

section
variable {e e' : Engine} {op : EngineOp}

/-- A step hands a region out, or takes one back, or neither. -/
inductive HandsOver (e : Engine) (op : EngineOp) (e' : Engine) : Prop
  | keeps : e'.claims.Subperm e.claims → op.gives_back e = none → HandsOver e op e'
  | takes (region : DeviceBlockRegion) : e'.claims.Subperm (region :: e.claims) → op.gives_back e = none →
      region.block_region.id = e.system.next_region_id → e'.system.Grants region → HandsOver e op e'
  | gives (region : DeviceBlockRegion) (d : Device) : (region :: e'.claims).Subperm e.claims →
      op.gives_back e = some (d, region.block_region.id) → HandsOver e op e'

/-- What a step does to regions, copies and the batch under way. -/
structure Deals (e : Engine) (op : EngineOp) (e' : Engine) : Prop where
  claims : HandsOver e op e'
  entries : ∀ entry ∈ e'.queue, entry ∈ e.queue ∨ entry.Copying e'
  batch : ∀ batch, e'.loop = .executing batch →
    e.loop = .executing batch ∧ op ≠ .schedule ∧ op ≠ .finish ∨ batch.Listed e'.system.scheduler

theorem Deals.aside (hq : e'.queue = e.queue) (hp : e'.pushing = e.pushing) (hr : e'.reserved = e.reserved)
    (hm : e'.remote = e.remote) (hback : op.gives_back e = none)
    (hbatch : ∀ batch, e'.loop = .executing batch →
      e.loop = .executing batch ∧ op ≠ .schedule ∧ op ≠ .finish ∨ batch.Listed e'.system.scheduler) :
    Deals e op e' :=
  ⟨.keeps (by rw [claims_congr hq hp hr hm]) hback, fun entry h => .inl (hq ▸ h), hbatch⟩

end

section
variable [Hasher] {e e' : Engine} {op : EngineOp}

theorem add_request_deals (request : GenerateRequest) (arrival : Nat) (e : Engine) :
    Deals e (.add_request request arrival) (e.add_request request arrival) := by
  have hloop : ∀ e' : Engine, e'.loop = e.loop → ∀ batch, e'.loop = .executing batch →
      e.loop = .executing batch ∧ add_request request arrival ≠ .schedule ∧ add_request request arrival ≠ .finish ∨
        batch.Listed e'.system.scheduler := fun e' heq batch h => .inl ⟨heq.symm.trans h, by simp, by simp⟩
  unfold Engine.add_request attempt
  cases hx : System.add_request request arrival e.system with
  | error err s => exact .aside rfl rfl rfl rfl rfl (hloop _ rfl)
  | ok plan s =>
    cases plan with
    | none => exact .aside rfl rfl rfl rfl rfl (hloop _ rfl)
    | some plan =>
      obtain ⟨region, mapping⟩ := plan
      obtain ⟨hid, i, hi, hsecured⟩ := System.add_request_secured hx
      obtain ⟨n, σ, rfl, -, rfl, -, hstages⟩ := (System.add_request_holdings request arrival e.system).of_ok hx
      have hgrants : (e.system.after request.num_samples 1 σ).Grants region := by
        refine ⟨by rw [hid]; exact Nat.lt_succ_self _, ?_⟩
        rw [hsecured.device]; exact hsecured.lookup
      refine ⟨.takes region (claims_submit _ _) rfl hid (by rw [submit_system]; exact hgrants), fun entry hentry => ?_,
        hloop _ (submit_loop _ _)⟩
      rcases mem_queue_submit hentry with hold | rfl
      · exact .inl hold
      · refine .inr ⟨hsecured.device, hsecured.targets, i, ⟨?_, .inr ⟨_, ?_, hi⟩⟩, by rw [submit_system]; exact hsecured.sources⟩
        · rw [submit_system]
          exact ((ids_of_request request e.system.next_seq_id arrival).2 i (by simpa using hi)).2
        · have hpending : σ.pending = e.pending.insert request.session_id (request.to_task e.system.next_seq_id arrival) :=
            hstages.pending
          unfold pending
          rw [submit_system]
          show σ.pending.lookup request.session_id = _
          rw [hpending, AList.lookup_insert]

theorem reserve_request_deals (request : GenerateRequest) (arrival : Nat) (e : Engine) :
    Deals e (.reserve_request request arrival) (e.reserve_request request arrival) := by
  unfold Engine.reserve_request attempt
  cases hx : System.reserve_request request arrival e.system with
  | error err s => exact .aside rfl rfl rfl rfl rfl fun batch h => .inl ⟨h, by simp, by simp⟩
  | ok output s =>
    refine ⟨?_, fun entry h => .inl h, fun batch h => .inl ⟨h, by simp, by simp⟩⟩
    have hclaims : ∀ s, (claims { e with system := s, reserved := e.reserved ++ [(request.session_id, output)] }).Perm
        (output.toList ++ e.claims) := by
      intro s
      unfold claims
      have houtput : [(request.session_id, output)].filterMap (·.2) = output.toList := by cases output <;> rfl
      simp only [List.filterMap_append, houtput, List.append_assoc]
      have hswap := fun l : List DeviceBlockRegion => List.perm_append_comm_assoc l output.toList
      refine ((hswap _ _).append_left _ |>.append_left _).trans ?_
      exact ((hswap _ _).append_left _).trans (hswap _ _)
    cases output with
    | none => exact .keeps (hclaims _).subperm rfl
    | some region =>
      obtain ⟨hdevice, hid, hlookup⟩ := System.reserve_request_granted hx
      obtain ⟨σ, -, rfl⟩ := (System.reserve_request_holdings request arrival e.system).of_ok hx
      refine .takes region (hclaims _).subperm rfl hid ⟨?_, ?_⟩
      · rw [hid]; exact Nat.lt_succ_self _
      · rw [hid, hdevice]; exact hlookup

omit [Hasher] in
theorem pend_reserved_deals {i : Nat} (h : e.pend_reserved i = some e') : Deals e (.pend_reserved i) e' := by
  unfold Engine.pend_reserved at h
  split at h
  · rename_i output hi
    have hclaims : ∀ l, (e.reserved.eraseIdx i ++ (e.remote ++ l)).Subperm (e.reserved ++ e.remote) →
        ((e.queue.filterMap Entry.region ++ e.pushing) ++ (e.reserved.eraseIdx i ++ (e.remote ++ l)).filterMap (·.2)).Subperm
          e.claims := fun l ⟨k, hk, hsub⟩ =>
      List.Subperm.append (List.Subperm.refl _) ⟨k.filterMap (·.2), hk.filterMap _, hsub.filterMap _⟩
    have hperm := eraseIdx_perm hi
    split at h
    · obtain rfl := Option.some.inj h
      refine ⟨.keeps (hclaims [output] ?_) rfl, fun entry h => .inl h, fun batch h => .inl ⟨h, by simp, by simp⟩⟩
      refine List.Perm.subperm ?_
      refine List.Perm.trans ?_ (hperm.append_right e.remote)
      rw [← List.append_assoc]
      exact List.perm_append_singleton _ _
    · obtain rfl := Option.some.inj h
      refine ⟨.keeps ?_ rfl, fun entry h => .inl h, fun batch h => .inl ⟨h, by simp, by simp⟩⟩
      have hsub := hclaims [] (by simpa using ((List.eraseIdx_sublist e.reserved i).append_right e.remote).subperm)
      rw [List.append_nil] at hsub
      exact hsub
  · cases h

theorem trigger_request_deals {k : Nat} {hash_values : List Nat} (h : e.trigger_request k hash_values = some e') :
    Deals e (.trigger_request k hash_values) e' := by
  unfold Engine.trigger_request at h
  split at h
  · rename_i session_id region hk
    obtain rfl := Option.some.inj h
    refine ⟨?_, fun entry h => .inl h, fun batch h => .inl ⟨h, by simp, by simp⟩⟩
    have hperm := (eraseIdx_perm hk).filterMap (·.2)
    cases region with
    | none =>
      refine .keeps ?_ (by simp [gives_back, hk])
      refine List.Subperm.append (List.Subperm.refl _) ?_
      rw [List.filterMap_append, List.filterMap_append]
      exact List.Subperm.append (List.Subperm.refl _) (List.Sublist.filterMap _ (List.eraseIdx_sublist _ _)).subperm
    | some region =>
      refine .gives region .Host (List.Perm.subperm ?_) (by simp [gives_back, hk])
      unfold claims
      simp only [List.filterMap_append] at hperm ⊢
      refine List.perm_middle.symm.trans ?_
      exact (List.perm_middle.symm.trans (hperm.append_left _)).append_left _
  · cases h

omit [Hasher] in
theorem push_kv_deals (hash_values : List Nat) (e : Engine) : Deals e (.push_kv hash_values) (e.push_kv hash_values) := by
  unfold Engine.push_kv attempt
  cases hx : System.pin_blocks hash_values e.system with
  | error err s => exact .aside rfl rfl rfl rfl rfl fun batch h => .inl ⟨h, by simp, by simp⟩
  | ok region s =>
    obtain ⟨hdevice, hid, hlookup⟩ := System.pin_blocks_granted hx
    obtain ⟨σ, -, rfl⟩ := (System.pin_blocks_holdings hash_values e.system).of_ok hx
    refine ⟨.takes region (List.Perm.subperm ?_) rfl hid ⟨?_, ?_⟩, fun entry h => .inl h,
      fun batch h => .inl ⟨h, by simp, by simp⟩⟩
    · unfold claims
      rw [← List.append_assoc]
      exact (List.perm_append_singleton region _).append_right _
    · rw [hid]; exact Nat.lt_succ_self _
    · rw [hid, hdevice]; exact hlookup

omit [Hasher] in
theorem push_done_deals {i : Nat} (h : e.push_done i = some e') : Deals e (.push_done i) e' := by
  unfold Engine.push_done at h
  split at h
  · rename_i region hi
    obtain rfl := Option.some.inj h
    refine ⟨.gives region region.device (List.Perm.subperm ?_) (by simp [gives_back, hi]),
      fun entry h => .inl h, fun batch h => .inl ⟨h, by simp, by simp⟩⟩
    exact (List.perm_middle.symm.trans ((eraseIdx_perm hi).append_left _)).append_right _
  · cases h

theorem schedule_deals (h : e.schedule = some e') : Deals e .schedule e' := by
  unfold Engine.schedule at h
  split at h
  · rename_i hloop
    split at h
    · obtain rfl := Option.some.inj h
      exact .aside rfl rfl rfl rfl rfl fun batch hbatch => by rw [hloop] at hbatch; cases hbatch
    · unfold attempt at h
      cases hx : System.on_scheduler Scheduler.schedule e.system with
      | error err s =>
        rw [hx] at h
        obtain rfl := Option.some.inj h
        exact .aside rfl rfl rfl rfl rfl fun batch hbatch => by cases hbatch
      | ok batch s =>
        rw [hx] at h
        obtain rfl := Option.some.inj h
        obtain ⟨σ, hσ, rfl⟩ := System.on_scheduler_ok hx
        refine .aside rfl rfl rfl rfl rfl fun batch' hbatch => .inr ?_
        dsimp only at hbatch
        split at hbatch
        · cases hbatch
        · obtain rfl := LoopState.executing.inj hbatch
          exact Scheduler.schedule_listed hσ
  · cases h

omit [Hasher] in
theorem next_finished_loop (e : Engine) (batch : Batch) : e.next_finished.loop ≠ .executing batch := by
  unfold next_finished
  dsimp only
  split <;> nofun

omit [Hasher] in
theorem update_deals {infer_outputs : Table InferOutput} {now : Nat} (h : e.update infer_outputs now = some e') :
    Deals e (.update infer_outputs now) e' := by
  unfold Engine.update at h
  split at h
  · split at h
    · obtain rfl := Option.some.inj h
      exact .aside rfl rfl rfl rfl rfl fun batch hbatch => absurd hbatch (next_finished_loop _ _)
    · obtain rfl := Option.some.inj h
      exact .aside rfl rfl rfl rfl rfl fun batch hbatch => by cases hbatch
  · cases h

/-- A swap-out that is planned keeps its region when the task is removed. -/
theorem backup_copying {s s' : System} {region : DeviceBlockRegion} {mapping : BlockMapping} {r : Option PUnit}
    (hx : System.backup 0 e.system = .ok (some (region, mapping)) s)
    (hremove : attempt (System.remove_task 0) s = (r, s')) : region.block_region.id = e.system.next_region_id ∧
      s'.Grants region ∧ (Entry.swap_out region mapping).Copying e' := by
  obtain ⟨hid, i, hsecured⟩ := System.backup_secured hx
  obtain ⟨n, σ, rfl, -, hn⟩ := (System.backup_holdings 0 e.system).of_ok hx
  have hbefore : (e.system.after 0 n σ).Grants region := by
    refine ⟨by rw [hid, hn rfl]; exact Nat.lt_succ_self _, ?_⟩
    rw [hsecured.device]; exact hsecured.lookup
  refine ⟨hid, ?_, hsecured.device, hsecured.targets⟩
  have hatt := attempt_preserves (System.grants_of_custody (System.remove_task_custody 0)) hbefore
  rw [hremove] at hatt
  exact hatt

theorem finish_deals (h : e.finish = some e') : Deals e .finish e' := by
  unfold Engine.finish at h
  split at h
  · -- the swap-out is submitted whether or not the removal that follows panics
    unfold submit_swap_out at h
    cases hx : System.backup 0 e.system with
    | error err s =>
      rw [show attempt (System.backup 0) e.system = (none, s) by rw [attempt, hx]] at h
      obtain rfl := Option.some.inj h
      exact .aside rfl rfl rfl rfl rfl fun batch hbatch => by cases hbatch
    | ok plan s =>
      rw [show attempt (System.backup 0) e.system = (some plan, s) by rw [attempt, hx]] at h
      cases plan with
      | none =>
        dsimp only at h
        split at h
        · obtain rfl := Option.some.inj h
          exact .aside rfl rfl rfl rfl rfl fun batch hbatch => absurd hbatch (next_finished_loop _ _)
        · obtain rfl := Option.some.inj h
          exact .aside rfl rfl rfl rfl rfl fun batch hbatch => by cases hbatch
      | some plan =>
        obtain ⟨region, mapping⟩ := plan
        dsimp only at h
        rw [submit_system] at h
        have hqueue : ∀ {entry : Entry} {e₁ : Engine}, e₁.queue = (submit (.swap_out region mapping) { e with system := s }).queue →
            entry ∈ e₁.queue → entry ∈ e.queue ∨ entry = .swap_out region mapping := fun hq hentry =>
          mem_queue_submit (e := { e with system := s }) (hq ▸ hentry)
        split at h
        · rename_i heq
          obtain rfl := Option.some.inj h
          obtain ⟨hid, hregion, hentry⟩ := backup_copying hx heq
          refine ⟨.takes region (claims_submit _ { e with system := s }) rfl hid hregion, fun entry h => ?_,
            fun batch hbatch => absurd hbatch (next_finished_loop _ _)⟩
          rcases hqueue rfl h with hold | rfl
          · exact .inl hold
          · exact .inr hentry
        · rename_i heq
          obtain rfl := Option.some.inj h
          obtain ⟨hid, hregion, hentry⟩ := backup_copying hx heq
          refine ⟨.takes region (claims_submit _ { e with system := s }) rfl hid hregion, fun entry h => ?_,
            fun batch hbatch => by cases hbatch⟩
          rcases hqueue rfl h with hold | rfl
          · exact .inl hold
          · exact .inr hentry
  · cases h

omit [Hasher] in
theorem claims_next {entry : Entry} {rest : List Entry} (hq : e.queue = entry :: rest) (hq' : e'.queue.Sublist rest)
    (hp : e'.pushing = e.pushing) (hr : e'.reserved = e.reserved) (hm : e'.remote = e.remote) :
    (entry.region.toList ++ e'.claims).Subperm e.claims := by
  have hentry : (entry :: rest).filterMap Entry.region = entry.region.toList ++ rest.filterMap Entry.region := by
    cases entry <;> rfl
  unfold claims
  rw [hq, hp, hr, hm, hentry, List.append_assoc, List.append_assoc, List.append_assoc]
  exact (((hq'.filterMap _).append_right _).append_left _).subperm

omit [Hasher] in
theorem drop_deals (hback : op.gives_back e = none) (hq : e'.queue.Sublist e.queue.tail) (hp : e'.pushing = e.pushing)
    (hr : e'.reserved = e.reserved) (hm : e'.remote = e.remote) (hsched : op ≠ .schedule) (hfinish : op ≠ .finish)
    (hl : e'.loop = e.loop) : Deals e op e' := by
  refine ⟨.keeps ?_ hback, fun entry h => .inl (List.mem_of_mem_tail (hq.subset h)),
    fun batch h => .inl ⟨hl.symm.trans h, hsched, hfinish⟩⟩
  cases hqueue : e.queue with
  | nil =>
    have hempty : e'.queue = [] := List.sublist_nil.1 (by rw [hqueue] at hq; exact hq)
    rw [claims_congr (hempty.trans hqueue.symm) hp hr hm]
  | cons entry rest =>
    have hsub := claims_next hqueue (by rw [hqueue] at hq; exact hq) hp hr hm
    exact (List.sublist_append_right _ _).subperm.trans hsub

theorem callback_deals (h : e.callback = some e') : Deals e .callback e' := by
  have hcomplete : ∀ {α : Type} (x : SysM α) {entry : Entry} {rest : List Entry} {region : DeviceBlockRegion} {d : Device},
      e.queue = entry :: rest → entry.region = some region → entry.releases = some (d, region.block_region.id) →
      Deals e .callback (complete x e) := by
    intro α x entry rest region d hq hregion hreleases
    have hback : callback.gives_back e = some (d, region.block_region.id) := by
      simp [gives_back, hq, hreleases]
    have hdeal : ∀ e' : Engine, e'.queue.Sublist rest → e'.pushing = e.pushing → e'.reserved = e.reserved →
        e'.remote = e.remote → e'.loop = e.loop → Deals e .callback e' := by
      intro e' hq' hp hr hm hl
      have hsub := claims_next hq hq' hp hr hm
      rw [hregion] at hsub
      refine ⟨.gives region d hsub hback, fun entry' h => .inl ?_, fun batch h => .inl ⟨hl.symm.trans h, by simp, by simp⟩⟩
      rw [hq]; exact List.mem_cons_of_mem _ (hq'.subset h)
    unfold complete
    split
    · exact hdeal _ (by simp [next_entry, hq]) rfl rfl rfl rfl
    · exact hdeal _ (List.nil_sublist _) rfl rfl rfl rfl
  unfold Engine.callback at h
  split at h
  · split at h
    · rename_i session_id region mapping rest hq
      obtain rfl := Option.some.inj h
      exact hcomplete _ hq rfl rfl
    · rename_i region mapping rest hq
      obtain rfl := Option.some.inj h
      exact hcomplete _ hq rfl rfl
    · cases h
  · cases h

theorem deals_of_step (hs : Step e op e') : Deals e op e' := by
  obtain ⟨-, hs⟩ := next_eq hs
  cases op with
  | add_request request arrival => obtain rfl := Option.some.inj hs; exact add_request_deals _ _ _
  | reserve_request request arrival => obtain rfl := Option.some.inj hs; exact reserve_request_deals _ _ _
  | pend_reserved i => exact pend_reserved_deals hs
  | trigger_request k hash_values => exact trigger_request_deals hs
  | push_kv hash_values => obtain rfl := Option.some.inj hs; exact push_kv_deals _ _
  | push_done i => exact push_done_deals hs
  | schedule => exact schedule_deals hs
  | execute_failed =>
    simp only [exec, Engine.execute_failed] at hs
    split at hs
    · obtain rfl := Option.some.inj hs
      exact .aside rfl rfl rfl rfl rfl fun batch hbatch => by cases hbatch
    · cases hs
  | update infer_outputs now => exact update_deals hs
  | finish => exact finish_deals hs
  | copy_done =>
    simp only [exec, Engine.copy_done] at hs
    split at hs
    · obtain rfl := Option.some.inj hs
      exact .aside rfl rfl rfl rfl rfl fun batch hbatch => .inl ⟨hbatch, by simp, by simp⟩
    · cases hs
  | copy_failed =>
    simp only [exec, Engine.copy_failed] at hs
    split at hs
    · obtain rfl := Option.some.inj hs
      exact drop_deals rfl (List.Sublist.refl _) rfl rfl rfl (by simp) (by simp) rfl
    · cases hs
  | copy_panicked =>
    simp only [exec, Engine.copy_panicked] at hs
    split at hs
    · obtain rfl := Option.some.inj hs
      exact drop_deals rfl (List.nil_sublist _) rfl rfl rfl (by simp) (by simp) rfl
    · cases hs
  | callback => exact callback_deals hs
  | notify =>
    simp only [exec, Engine.notify] at hs
    split at hs
    · obtain rfl := Option.some.inj hs
      exact drop_deals rfl (List.Sublist.refl _) rfl rfl rfl (by simp) (by simp) rfl
    · cases hs
  | clear_cache =>
    obtain rfl := Option.some.inj hs
    exact .aside rfl rfl rfl rfl rfl fun batch hbatch => .inl ⟨hbatch, by simp, by simp⟩
  | clear_try =>
    simp only [exec, Engine.clear_try] at hs
    split at hs
    · cases hs
    · split at hs
      · obtain rfl := Option.some.inj hs
        refine ⟨.keeps (claims_submit .sync _) rfl, fun entry h => ?_, fun batch hbatch =>
          .inl ⟨by rw [submit_loop] at hbatch; exact hbatch, by simp, by simp⟩⟩
        rcases mem_queue_submit h with hold | rfl
        · exact .inl hold
        · exact .inr trivial
      · obtain rfl := Option.some.inj hs
        exact .aside rfl rfl rfl rfl rfl fun batch hbatch => .inl ⟨hbatch, by simp, by simp⟩
  | clear_done =>
    simp only [exec, Engine.clear_done] at hs
    split at hs
    · obtain rfl := Option.some.inj hs
      exact .aside rfl rfl rfl rfl rfl fun batch hbatch => .inl ⟨hbatch, by simp, by simp⟩
    · cases hs

end

end EngineOp

/-! ### The invariant -/

namespace EngineOp
open Engine

section
variable [Hasher] {e e' : Engine} {op : EngineOp} {i b : Nat}

theorem lists_of_step (hs : Step e op e') (hschedule : op ≠ .schedule) (hfinish : op ≠ .finish) {d : Device}
    (h : e.system.scheduler.Lists d i b) : e'.system.scheduler.Lists d i b := by
  have hmanagers : e'.system.OnManagers fun d' m => d' = d → b ∈ m.blocks_of i :=
    step_preserves (fun hrun => hrun.handler_lasts hschedule hfinish fun _ =>
      (BlockManager.handlerLasting_lists i b).imp _) hs (Scheduler.onManagers_lists.2 h)
  exact Scheduler.onManagers_lists.1 hmanagers

/-- On the disk a sequence that is not finished keeps its blocks throughout. -/
theorem disk_lists_of_step (hs : Step e op e') (hi : ∀ t ∈ e.system.finished, i ∉ t.ids)
    (h : e.system.scheduler.Lists .Disk i b) : e'.system.scheduler.Lists .Disk i b := by
  by_cases hschedule : op = .schedule
  · subst hschedule
    refine step_preserves (I := fun s => s.scheduler.Lists .Disk i b) (fun hrun => ?_) hs h
    cases hrun with
    | schedule => exact Lowers.zoom Scheduler.schedule_lists fun _ _ h => h
  by_cases hfinish : op = .finish
  · subst hfinish
    refine (step_preserves (I := fun s => s.scheduler.Lists .Disk i b ∧ ∀ t ∈ s.finished, i ∉ t.ids) (fun hrun => ?_)
      hs ⟨h, hi⟩).1
    cases hrun with
    | backup =>
      refine Preserves.of_ends fun s hs => Ends.get_bind ?_
      split
      · exact Ends.pure hs
      · rename_i t _
        refine Ends.bind (R := fun _ s' => s'.scheduler.Lists .Disk i b ∧ ∀ t ∈ s'.finished, i ∉ t.ids)
          (Ends.get_bind (Ends.modify_bind (Ends.pure hs))) fun r s₁ h₁ => Ends.zoom ?_
        have hbackup : Preserves (Scheduler.Lists .Disk i b) (Scheduler.backup r t) :=
          Scheduler.lists_of_handler fun hP => Scheduler.backup_lasts hP r t
        exact (hbackup.ends h₁.1).conseq (fun _ _ h => ⟨h, h₁.2⟩) fun _ _ h => ⟨h, h₁.2⟩
    | remove_task =>
      refine Preserves.of_ends fun s hs => Ends.get_bind ?_
      cases ht : s.finished[0]? with
      | none => exact Ends.pure hs
      | some t =>
        have hremove := Scheduler.remove_task_lists (d := .Disk) (b := b) (hs.2 t (List.mem_of_getElem? ht))
        refine Ends.bind (R := fun _ s' => s'.scheduler.Lists .Disk i b ∧ ∀ t ∈ s'.finished, i ∉ t.ids)
          (Ends.zoom ((hremove.ends hs.1).conseq (fun _ _ h => ⟨h, hs.2⟩) fun _ _ h => ⟨h, hs.2⟩)) fun _ s' h => ?_
        exact Ends.modify ⟨h.1, fun t ht => h.2 t (List.mem_of_mem_eraseIdx ht)⟩
  · exact lists_of_step hs hschedule hfinish h

/-- Everybody who is at work on blocks outside the lock has somebody who holds them. -/
structure Owning (e : Engine) : Prop where
  claimed : e.Claimed
  distinct : e.Distinct
  batch : ∀ batch, e.loop = .executing batch → batch.Listed e.system.scheduler
  nodup : (e.claims.map (·.block_region.id)).Nodup
  grants : ∀ region ∈ e.claims, e.system.Grants region
  copying : ∀ entry ∈ e.queue, entry.Copying e

omit [Hasher] in
theorem Owning.new (c : SchedulerConfig) : Owning (Engine.new c) where
  claimed := .new c
  distinct := ⟨List.nodup_nil, fun _ h => nomatch h⟩
  batch _ h := nomatch h
  nodup := List.nodup_nil
  grants _ h := nomatch h
  copying _ h := nomatch h

omit [Hasher] in
theorem mem_sessions {session_id : Nat} {region : DeviceBlockRegion} {mapping : BlockMapping}
    (h : Entry.swap_in session_id region mapping ∈ e.queue) : session_id ∈ e.copies.filterMap Entry.session :=
  List.mem_filterMap.2 ⟨_, List.mem_filter.2 ⟨h, rfl⟩, rfl⟩

theorem copying_step (h : Owning e) (hs : Step e op e') {entry : Entry} (hin : entry ∈ e.queue) (hin' : entry ∈ e'.queue) :
    entry.Copying e' := by
  have hold := h.copying entry hin
  cases entry with
  | swap_in session_id region mapping =>
    obtain ⟨hdevice, htargets, i, hparked, hsources⟩ := hold
    have hparked' := parked_step hparked h.distinct h.claimed hs (mem_sessions hin) (mem_sessions hin')
    have hdisk := fun b => disk_lists_of_step (b := b) hs (hparked.not_finished h.distinct)
    exact ⟨hdevice, htargets, i, hparked', fun entry hentry => hdisk _ (hsources entry hentry)⟩
  | swap_out region mapping => exact hold
  | sync => trivial

omit [Hasher] in
theorem ids_nodup {l l' : List DeviceBlockRegion} (hsub : l'.Subperm l) (h : (l.map (·.block_region.id)).Nodup) :
    (l'.map (·.block_region.id)).Nodup := by
  obtain ⟨k, hk, hsub⟩ := hsub
  exact (hk.map _).nodup_iff.1 (h.sublist (hsub.map _))

theorem claims_step (h : Owning e) (hs : Step e op e') : (e'.claims.map (·.block_region.id)).Nodup ∧
    ∀ region ∈ e'.claims, e'.system.Grants region := by
  have hkeep : ∀ region ∈ e.claims, (∀ d, op.gives_back e ≠ some (d, region.block_region.id)) → e'.system.Grants region :=
    fun region hmem hne => grants_of_step hs (hne _) (h.grants region hmem)
  cases (deals_of_step hs).claims with
  | keeps hsub hback =>
    refine ⟨ids_nodup hsub h.nodup, fun region hmem => hkeep region (hsub.subset hmem) fun d => ?_⟩
    rw [hback]; nofun
  | takes new hsub hback hid hnew =>
    refine ⟨ids_nodup hsub ?_, fun region hmem => ?_⟩
    · rw [List.map_cons, List.nodup_cons]
      refine ⟨fun hmem => ?_, h.nodup⟩
      obtain ⟨region, hregion, heq⟩ := List.mem_map.1 hmem
      have hlt := (h.grants region hregion).lt
      omega
    · rcases List.mem_cons.1 (hsub.subset hmem) with rfl | hmem
      · exact hnew
      · exact hkeep region hmem fun d => by rw [hback]; nofun
  | gives old d hsub hback =>
    have hnodup := ids_nodup hsub h.nodup
    rw [List.map_cons, List.nodup_cons] at hnodup
    refine ⟨hnodup.2, fun region hmem => hkeep region (hsub.subset (List.mem_cons_of_mem _ hmem)) fun d' heq => ?_⟩
    rw [hback] at heq
    obtain ⟨-, hid⟩ := Prod.mk.inj (Option.some.inj heq)
    exact hnodup.1 (hid ▸ List.mem_map_of_mem hmem)

theorem Owning.step (h : Owning e) (hs : Step e op e') : Owning e' := by
  have hdeals := deals_of_step hs
  obtain ⟨hnodup, hgrants⟩ := claims_step h hs
  refine ⟨(claimed_step h.claimed hs).1, Distinct.step h.distinct h.claimed.parallel hs, fun batch hbatch => ?_, hnodup, hgrants,
    fun entry hentry => ?_⟩
  · rcases hdeals.batch batch hbatch with ⟨hold, hschedule, hfinish⟩ | hnew
    · exact (h.batch batch hold).mono fun d i b hb => lists_of_step hs hschedule hfinish hb
    · exact hnew
  · rcases hdeals.entries entry hentry with hold | hnew
    · exact copying_step h hs hold hentry
    · exact hnew

end

end EngineOp

/-! ### The blocks at work -/

/-- The blocks that a batch copies, computes on and copies back. -/
def Scheduler.Batch.blocks (batch : Batch) : Device → List Nat
  | .Gpu => batch.fetch_block_mappings.flatten.map (·.dst_block_id) ++
      batch.write_through_block_mappings.flatten.map (·.src_block_id) ++ batch.infer_inputs.flatMap (·.block_ids)
  | .Host => batch.fetch_block_mappings.flatten.map (·.src_block_id) ++
      batch.write_through_block_mappings.flatten.map (·.dst_block_id)
  | .Disk => []

/-- The blocks that a copy reads and writes, apart from those that a swap-out reads. -/
def Entry.blocks : Entry → Device → List Nat
  | swap_in _ _ mapping, .Disk => mapping.map (·.src_block_id)
  | swap_in _ _ mapping, .Host => mapping.map (·.dst_block_id)
  | swap_out _ mapping, .Disk => mapping.map (·.dst_block_id)
  | _, _ => []

namespace Engine

/-- The blocks of the batch that the workers have. -/
def batch_blocks (e : Engine) (d : Device) : List Nat :=
  match e.loop with
  | .executing batch => batch.blocks d
  | _ => []

/-- The regions that `push_kv` sends and that peers may write. -/
def region_blocks (e : Engine) (d : Device) : List Nat :=
  ((e.pushing ++ (e.reserved ++ e.remote).filterMap (·.2)).filter (·.device = d)).flatMap (·.block_region.block_ids)

/-- The blocks that somebody may read or write without the scheduler lock. -/
def in_flight (e : Engine) (d : Device) : List Nat :=
  e.batch_blocks d ++ e.queue.flatMap (·.blocks d) ++ e.region_blocks d

end Engine

namespace EngineOp
open Engine BlockManager

section
variable {e : Engine} {d : Device} {b : Nat}

theorem refs_of_lists {i : Nat} (h : e.system.scheduler.Lists d i b) :
    0 < (e.system.scheduler.get_block_manager d).refs b := refs_pos_of_blocks_of h

theorem refs_of_grants {region : DeviceBlockRegion} (h : e.system.Grants region) (hb : b ∈ region.block_region.block_ids) :
    0 < (e.system.scheduler.get_block_manager region.device).refs b := refs_pos_of_region h.lookup hb

theorem refs_of_batch {batch : Batch} (h : batch.Listed e.system.scheduler) (hb : b ∈ batch.blocks d) :
    0 < (e.system.scheduler.get_block_manager d).refs b := by
  have hsrc : ∀ {src dst : Device} {mappings : List BlockMapping}, (∀ m ∈ mappings, e.system.scheduler.Listed src dst m) →
      b ∈ mappings.flatten.map (·.src_block_id) → 0 < (e.system.scheduler.get_block_manager src).refs b := by
    intro src dst mappings hm hb
    obtain ⟨entry, hentry, rfl⟩ := List.mem_map.1 hb
    obtain ⟨mapping, hmapping, hentry⟩ := List.mem_flatten.1 hentry
    obtain ⟨i, hsrc, -⟩ := hm mapping hmapping entry hentry
    exact refs_of_lists hsrc
  have hdst : ∀ {src dst : Device} {mappings : List BlockMapping}, (∀ m ∈ mappings, e.system.scheduler.Listed src dst m) →
      b ∈ mappings.flatten.map (·.dst_block_id) → 0 < (e.system.scheduler.get_block_manager dst).refs b := by
    intro src dst mappings hm hb
    obtain ⟨entry, hentry, rfl⟩ := List.mem_map.1 hb
    obtain ⟨mapping, hmapping, hentry⟩ := List.mem_flatten.1 hentry
    obtain ⟨i, -, hdst⟩ := hm mapping hmapping entry hentry
    exact refs_of_lists hdst
  cases d with
  | Gpu =>
    rcases List.mem_append.1 hb with hb | hb
    · rcases List.mem_append.1 hb with hb | hb
      · exact hdst h.fetched hb
      · exact hsrc h.written hb
    · obtain ⟨input, hinput, hb⟩ := List.mem_flatMap.1 hb
      exact refs_of_lists (h.inputs input hinput b hb)
  | Host =>
    rcases List.mem_append.1 hb with hb | hb
    · exact hsrc h.fetched hb
    · exact hdst h.written hb
  | Disk => cases hb

theorem refs_of_entry {entry : Entry} (h : entry.Copying e) (hgrants : ∀ region, entry.region = some region → e.system.Grants region)
    (hb : b ∈ entry.blocks d) : 0 < (e.system.scheduler.get_block_manager d).refs b := by
  cases entry with
  | swap_in session_id region mapping =>
    obtain ⟨hdevice, htargets, i, -, hsources⟩ := h
    cases d with
    | Gpu => cases hb
    | Host =>
      obtain ⟨x, hx, rfl⟩ := List.mem_map.1 hb
      have hrefs := refs_of_grants (hgrants region rfl) (htargets x hx)
      rwa [hdevice] at hrefs
    | Disk =>
      obtain ⟨x, hx, rfl⟩ := List.mem_map.1 hb
      exact refs_of_lists (hsources x hx)
  | swap_out region mapping =>
    obtain ⟨hdevice, htargets⟩ := h
    cases d with
    | Gpu | Host => cases hb
    | Disk =>
      obtain ⟨x, hx, rfl⟩ := List.mem_map.1 hb
      have hrefs := refs_of_grants (hgrants region rfl) (htargets x hx)
      rwa [hdevice] at hrefs
  | sync => cases d <;> cases hb

theorem Owning.refs (h : Owning e) (hb : b ∈ e.in_flight d) : 0 < (e.system.scheduler.get_block_manager d).refs b := by
  rcases List.mem_append.1 hb with hb | hb
  · rcases List.mem_append.1 hb with hb | hb
    · unfold batch_blocks at hb
      cases hloop : e.loop with
      | executing batch => rw [hloop] at hb; exact refs_of_batch (h.batch batch hloop) hb
      | idle | finishing | dead => rw [hloop] at hb; cases hb
    · obtain ⟨entry, hentry, hb⟩ := List.mem_flatMap.1 hb
      refine refs_of_entry (h.copying entry hentry) (fun region hregion => h.grants region ?_) hb
      exact List.mem_append_left _ (List.mem_append_left _ (List.mem_filterMap.2 ⟨entry, hentry, hregion⟩))
  · obtain ⟨region, hregion, hmem_ids⟩ := List.mem_flatMap.1 hb
    obtain ⟨hmem, hdevice⟩ := List.mem_filter.1 hregion
    obtain rfl : region.device = d := of_decide_eq_true hdevice
    refine refs_of_grants (h.grants region ?_) hmem_ids
    unfold claims
    rw [List.append_assoc]
    exact List.mem_append_right _ hmem

end

section
variable [Hasher] {c : SchedulerConfig} {ops : List EngineOp} {e : Engine}

theorem run_owning (h : Run Step (Engine.new c) ops e) : Owning e :=
  h.invariant (.new c) fun _ _ _ howning hs => howning.step hs

/-- In every run of the engine, whatever fails or panics: a block that the batch under way, a copy, a transfer or a
peer may read or write is a block of the pool with a reference, so nobody else can be given it meanwhile. -/
theorem in_flight_in_use (h : Run Step (Engine.new c) ops e) : ∀ d, ∀ b ∈ e.in_flight d,
    b < c.num_blocks d ∧ 0 < ((e.system.scheduler.get_block_manager d).get_block b).ref_cnt ∧
      b ∉ (e.system.scheduler.get_block_manager d).block_allocator.free_block_ids := by
  intro d b hb
  have hcounted := run_counted h d
  have hrefs := (run_owning h).refs hb
  have hlt := hcounted.lt_of_refs hrefs
  have hpos := hcounted.ref_cnt_pos hrefs
  refine ⟨hlt, hpos, fun hmem => ?_⟩
  have hzero := (hcounted.mem_free_iff hlt).1 hmem
  omega

end

/-- A swap-out is in the queue, another request is with the workers, and blocks are reserved for a third one. -/
theorem in_flight_in_use_devices :
    let _ := decimalHasher
    ∃ e, Run Step (Engine.new diskConfig) (finishedRun ++ [add_request ⟨1, [3, 4], 1, none, false, false⟩ 1, schedule,
        reserve_request ⟨2, [5], 1, none, false, false⟩ 2]) e ∧
      (∀ d, e.in_flight d ≠ []) ∧ ∀ d, ∀ b ∈ e.in_flight d,
        0 < ((e.system.scheduler.get_block_manager d).get_block b).ref_cnt := by
  let _ := decimalHasher
  have hfollow : (Run.follow next (Engine.new diskConfig) (finishedRun ++ [add_request ⟨1, [3, 4], 1, none, false, false⟩ 1,
      schedule, reserve_request ⟨2, [5], 1, none, false, false⟩ 2])).any (fun e =>
        [Device.Gpu, .Host, .Disk].all fun d => !(e.in_flight d).isEmpty) = true := by decide +kernel
  obtain ⟨e, hrun, he⟩ := Run.exists_of_follow (fun _ _ _ h => h) hfollow
  refine ⟨e, hrun, fun d hnil => ?_, fun d b hb => (in_flight_in_use hrun d b hb).2.1⟩
  have hd : d ∈ [Device.Gpu, .Host, .Disk] := by cases d <;> simp
  have hne := List.all_eq_true.1 he d hd
  rw [hnil] at hne
  cases hne

end EngineOp

end LMServe
