import LMServe.Listings

/-!
# What stays while the lock is free

A region that has been handed out stays in the table of its device until the step that gives it back
(`grants_of_step`), and a sequence whose task is pending for the sake of a copy is in no other task and never
finishes before the copy's callback (`parked_step`).
-/

namespace LMServe
open Hoare
open Scheduler (Batch)

namespace System

section
variable [Hasher] {s s' : System} {region : DeviceBlockRegion} {mapping : BlockMapping}

theorem add_request_secured {request : GenerateRequest} {arrival : Nat}
    (h : add_request request arrival s = .ok (some (region, mapping)) s') :
    region.block_region.id = s.next_region_id ∧
      ∃ i ∈ (request.to_task s.next_seq_id arrival).ids, s'.scheduler.Secured .Disk .Host i region mapping := by
  obtain ⟨t, s₁, hcreate, h⟩ := bind_ok.1 h
  obtain ⟨rfl, rfl⟩ := create_task_ok hcreate
  obtain ⟨_, s₂, hinit, h⟩ := bind_ok.1 h
  obtain ⟨σ, hσ, rfl⟩ := on_scheduler_ok hinit
  obtain ⟨r, s₃, hid, h⟩ := bind_ok.1 h
  obtain ⟨rfl, rfl⟩ := generate_id_ok hid
  obtain ⟨plan, s₄, hplan, h⟩ := bind_ok.1 h
  obtain ⟨σ₁, hσ₁, rfl⟩ := on_scheduler_ok hplan
  cases plan with
  | none =>
    obtain ⟨_, s₅, -, h⟩ := bind_ok.1 h
    cases h
  | some plan =>
    obtain ⟨_, s₅, hpend, h⟩ := bind_ok.1 h
    obtain ⟨rfl, rfl⟩ : plan = (region, mapping) ∧ s₅ = s' := by simpa using h
    obtain ⟨σ₂, hσ₂, rfl⟩ := on_scheduler_ok hpend
    obtain ⟨-, rfl⟩ := (pend_ends _ _).of_ok hσ₂
    obtain ⟨hid, i, hi, hsecured⟩ := Scheduler.plan_stage_secured hσ₁
    exact ⟨hid, i, hi, hsecured.device, hsecured.lookup, hsecured.sources, hsecured.targets⟩

theorem backup_secured {i : Nat} (h : backup i s = .ok (some (region, mapping)) s') :
    region.block_region.id = s.next_region_id ∧ ∃ i, s'.scheduler.Secured .Host .Disk i region mapping := by
  replace h := BlockManager.get_ok h
  cases hi : s.finished[i]? with
  | none => simp only [hi] at h; cases h
  | some task =>
    simp only [hi] at h
    obtain ⟨r, s₁, hid, h⟩ := bind_ok.1 h
    obtain ⟨rfl, rfl⟩ := generate_id_ok hid
    obtain ⟨σ, hσ, rfl⟩ := on_scheduler_ok h
    exact Scheduler.backup_secured hσ

theorem reserve_request_granted {request : GenerateRequest} {arrival : Nat}
    (h : reserve_request request arrival s = .ok (some region) s') :
    region.device = .Host ∧ region.block_region.id = s.next_region_id ∧
      (s'.scheduler.regions .Host).lookup s.next_region_id = some region.block_region.block_ids := by
  obtain ⟨t, s₁, hcreate, h⟩ := bind_ok.1 h
  obtain ⟨rfl, rfl⟩ := create_task_ok hcreate
  obtain ⟨r, s₂, hid, h⟩ := bind_ok.1 h
  obtain ⟨rfl, rfl⟩ := generate_id_ok hid
  obtain ⟨region', s₃, hreserve, h⟩ := bind_ok.1 h
  obtain ⟨σ, hσ, rfl⟩ := on_scheduler_ok hreserve
  obtain ⟨rfl, rfl⟩ : region' = some region ∧ _ = s' := by simpa using BlockManager.modify_ok h
  exact Scheduler.reserve_blocks_granted hσ

omit [Hasher] in
theorem pin_blocks_granted {hash_values : List Nat} (h : pin_blocks hash_values s = .ok region s') :
    region.device = .Host ∧ region.block_region.id = s.next_region_id ∧
      (s'.scheduler.regions .Host).lookup s.next_region_id = some region.block_region.block_ids := by
  obtain ⟨r, s₁, hid, h⟩ := bind_ok.1 h
  obtain ⟨rfl, rfl⟩ := generate_id_ok hid
  obtain ⟨σ, hσ, rfl⟩ := on_scheduler_ok h
  exact Scheduler.pin_blocks_granted hσ

end

end System

/-! ### Regions that have been handed out -/

namespace System

/-- The region table knows the region. -/
structure Grants (region : DeviceBlockRegion) (s : System) : Prop where
  lt : region.block_region.id < s.next_region_id
  lookup : (s.scheduler.regions region.device).lookup region.block_region.id = some region.block_region.block_ids

variable {region : DeviceBlockRegion} {s s' : System}

theorem Grants.congr (h : s.Grants region) (hle : s.next_region_id ≤ s'.next_region_id)
    (hregions : s'.scheduler.regions = s.scheduler.regions) : s'.Grants region :=
  ⟨Nat.lt_of_lt_of_le h.lt hle, by rw [hregions]; exact h.lookup⟩

theorem Grants.reserved (h : s.Grants region) (hle : s.next_region_id ≤ s'.next_region_id) {d : Device}
    (hres : ∃ ids, s'.scheduler.regions =
      Function.update s.scheduler.regions d ((s.scheduler.regions d).insert s.next_region_id ids)) :
    s'.Grants region := by
  refine ⟨Nat.lt_of_lt_of_le h.lt hle, ?_⟩
  obtain ⟨ids, hres⟩ := hres
  rw [hres, Function.update_apply]
  split
  · rename_i hd
    rw [Table.lookup_insert_eq, if_neg (Nat.ne_of_lt h.lt), ← hd]
    exact h.lookup
  · exact h.lookup

theorem Grants.planned (h : s.Grants region) {d : Device} {plan : Option DeviceBlockRegion} {σ : Scheduler} {k n : Nat}
    (hplan : Scheduler.Plans d s.next_region_id s.scheduler plan σ) : (s.after k n σ).Grants region := by
  cases plan with
  | none => exact h.congr (Nat.le_add_right _ _) (Scheduler.holdings_eq hplan).2
  | some plan => exact h.reserved (Nat.le_add_right _ _) hplan.2.2.regions

theorem Grants.released (h : s.Grants region) (hle : s.next_region_id ≤ s'.next_region_id) {d : Device} {r : Nat}
    (hr : ¬ (region.device = d ∧ region.block_region.id = r)) (hrel : Scheduler.Releases d r s.scheduler s'.scheduler) :
    s'.Grants region := by
  refine ⟨Nat.lt_of_lt_of_le h.lt hle, ?_⟩
  rw [hrel.regions, Function.update_apply]
  split
  · rename_i hd
    rw [Table.lookup_erase_eq, if_neg fun hid => hr ⟨hd, hid⟩, ← hd]
    exact h.lookup
  · exact h.lookup

theorem grants_of_custody {α : Type} {x : SysM α} (h : Keeps custody x) : Preserves (Grants region) x :=
  h.preserves fun s s' heq hs => by
    simp only [custody, Prod.mk.injEq] at heq
    exact hs.congr heq.2.2.1.ge (Scheduler.holdings_eq heq.1).2

end System

namespace EngineOp

/-- The region that the step gives back. -/
def gives_back (e : Engine) : EngineOp → Option (Device × Nat)
  | trigger_request k _ => ((e.remote[k]?).bind (·.2)).map fun region => (.Host, region.block_region.id)
  | push_done i => (e.pushing[i]?).map fun region => (region.device, region.block_region.id)
  | callback => e.queue.head?.bind Entry.releases
  | _ => none

section
variable [Hasher] {e e' : Engine} {op : EngineOp} {region : DeviceBlockRegion}

/-- Only triggers, commits and the end of a transfer take regions away. -/
theorem Runs.grants {α : Type} {x : SysM α} (h : Runs op x) (htrigger : ∀ k hash_values, op ≠ .trigger_request k hash_values)
    (hpush : ∀ i, op ≠ .push_done i) (hcallback : op ≠ .callback) : Preserves (System.Grants region) x := by
  have hscheduler : ∀ {α : Type} {x : SM α}, Keeps Scheduler.holdings x →
      Preserves (System.Grants region) (System.on_scheduler x) := fun hx =>
    System.grants_of_custody (System.on_scheduler_custody hx)
  cases h with
  | add_request request arrival =>
    refine Preserves.of_ends fun s hs => (System.add_request_holdings request arrival s).conseq ?_ ?_
    · rintro plan s' ⟨n, σ, rfl, hplan⟩
      cases plan with
      | none => exact hs.congr (Nat.le_add_right _ _) (Scheduler.holdings_eq hplan).2
      | some plan => exact hs.reserved (Nat.le_add_right _ _) hplan.2.2.2.regions
    · rintro err s' ⟨n, σ, rfl, ⟨-, -, -, hstages⟩ | hσ⟩
      · exact hs.reserved (Nat.le_add_right _ _) hstages.regions
      · exact hs.congr (Nat.le_add_right _ _) (Scheduler.holdings_eq hσ).2
  | reserve_request request arrival =>
    refine Preserves.of_ends fun s hs => (System.reserve_request_holdings request arrival s).conseq ?_ ?_
    · rintro plan s' ⟨σ, hplan, rfl⟩
      have hgrants : (s.after request.num_samples 1 σ).Grants region := hs.planned hplan
      exact ⟨hgrants.lt, hgrants.lookup⟩
    · rintro err s' ⟨n, σ, rfl, hσ⟩
      exact hs.congr (Nat.le_add_right _ _) (Scheduler.holdings_eq hσ).2
  | pend_reserved i =>
    refine Preserves.of_ends fun s hs => ?_
    cases hi : s.reserving[i]? with
    | none =>
      refine Ends.get_bind ?_
      rw [hi]
      exact Ends.pure hs
    | some task =>
      refine (System.pend_reserved_holdings hi).conseq ?_ ?_
      · rintro _ s' ⟨-, rfl⟩; exact ⟨hs.lt, hs.lookup⟩
      · rintro _ s' ⟨-, rfl⟩; exact ⟨hs.lt, hs.lookup⟩
  | trigger k => exact absurd rfl (htrigger _ _)
  | schedule => exact hscheduler Scheduler.schedule_holdings
  | update infer_outputs now => exact System.grants_of_custody (System.update_custody _ _)
  | backup =>
    refine Preserves.of_ends fun s hs => (System.backup_holdings 0 s).conseq ?_ ?_
    · rintro plan s' ⟨n, σ, rfl, hplan, -⟩; exact hs.planned hplan
    · rintro err s' ⟨n, σ, rfl, hσ⟩; exact hs.congr (Nat.le_add_right _ _) (Scheduler.holdings_eq hσ).2
  | remove_task => exact System.grants_of_custody (System.remove_task_custody 0)
  | swap_in => exact absurd rfl hcallback
  | commit => exact absurd rfl hcallback
  | pin hash_values =>
    refine Preserves.of_ends fun s hs => (System.pin_blocks_holdings hash_values s).conseq ?_ ?_
    · rintro plan s' ⟨σ, hplan, rfl⟩; exact hs.planned hplan
    · rintro err s' ⟨σ, rfl, hσ⟩; exact hs.congr (Nat.le_add_right _ _) (Scheduler.holdings_eq hσ).2
  | unpin i => exact absurd rfl (hpush _)
  | clear_cache => exact hscheduler Scheduler.clear_cache_holdings

theorem trigger_pend_task_grants {session_id : Nat} {region_id : Option Nat} {hash_values : List Nat}
    (hr : ¬ (region.device = .Host ∧ region_id = some region.block_region.id)) :
    Preserves (System.Grants region)
      (System.on_scheduler (Scheduler.trigger_pend_task session_id region_id hash_values)) := by
  refine Preserves.of_ends fun s hs => Ends.zoom ?_
  exact ((Scheduler.trigger_pend_task_region hr).ends hs.lookup).conseq (fun _ _ h => ⟨hs.lt, h⟩) fun _ _ h => ⟨hs.lt, h⟩

omit [Hasher] in
theorem release_grants {α : Type} {x : SM α} {d : Device} {r : Nat}
    (hx : ∀ s, Ends x s (fun _ => Scheduler.Releases d r s) fun _ => Scheduler.Releases d r s)
    (hr : ¬ (region.device = d ∧ region.block_region.id = r)) :
    Preserves (System.Grants region) (System.on_scheduler x) := by
  refine Preserves.of_ends fun s hs => Ends.zoom ((hx s.scheduler).conseq ?_ ?_)
  · exact fun _ _ h => hs.released (Nat.le_refl _) hr h
  · exact fun _ _ h => hs.released (Nat.le_refl _) hr h

/-- A region stays where it is until the step that gives it back. -/
theorem grants_of_step (hs : Step e op e') (hr : op.gives_back e ≠ some (region.device, region.block_region.id))
    (h : e.system.Grants region) : e'.system.Grants region := by
  by_cases hop : (∀ k hash_values, op ≠ .trigger_request k hash_values) ∧ (∀ i, op ≠ .push_done i) ∧ op ≠ .callback
  · exact step_preserves (fun hrun => hrun.grants hop.1 hop.2.1 hop.2.2) hs h
  obtain ⟨-, hs⟩ := next_eq hs
  cases op with
  | trigger_request k hash_values =>
    simp only [exec, Engine.trigger_request] at hs
    split at hs
    · rename_i session_id output hk
      obtain rfl := Option.some.inj hs
      refine attempt_preserves (trigger_pend_task_grants fun hd => hr ?_) h
      obtain ⟨region', rfl, hid⟩ := Option.map_eq_some_iff.1 hd.2
      simp [gives_back, hk, hd.1, hid]
    · cases hs
  | push_done i =>
    simp only [exec, Engine.push_done] at hs
    split at hs
    · rename_i region' hi
      obtain rfl := Option.some.inj hs
      refine attempt_preserves (release_grants (Scheduler.unpin_blocks_holdings region') fun hd => hr ?_) h
      simp [gives_back, hi, hd.1, hd.2]
    · cases hs
  | callback =>
    have hcomplete : ∀ {α : Type} {x : SysM α}, Preserves (System.Grants region) x →
        (Engine.complete x e).system.Grants region := by
      intro α x hx
      have hatt := attempt_preserves hx h
      unfold Engine.complete
      split
      · rename_i heq; rw [heq] at hatt; exact hatt
      · rename_i heq; rw [heq] at hatt; exact hatt
    simp only [exec, Engine.callback] at hs
    split at hs
    · split at hs
      · rename_i session_id region' mapping rest hq
        obtain rfl := Option.some.inj hs
        refine hcomplete (trigger_pend_task_grants fun hd => hr ?_)
        simp [gives_back, hq, Entry.releases, hd.1, Option.some.inj hd.2]
      · rename_i region' mapping rest hq
        obtain rfl := Option.some.inj hs
        refine hcomplete (release_grants (Scheduler.commit_reserved_blocks_holdings region') fun hd => hr ?_)
        simp [gives_back, hq, Entry.releases, hd.1, hd.2]
      · cases hs
    · cases hs
  | _ => exact absurd ⟨by simp, by simp, by simp⟩ hop

end

end EngineOp

/-! ### Parked sequences -/

namespace System

/-- A request whose session is pending already has changed no queue when it panics. -/
theorem add_request_waiting [Hasher] (request : GenerateRequest) (arrival : Nat) (s : System) :
    Ends (add_request request arrival) s (fun _ _ => True) fun _ s' =>
      s'.scheduler.waiting = s.scheduler.waiting ∧ s'.reserving = s.reserving := by
  have hkeep : ∀ {α : Type} {x : SM α} {s₁ : System}, Keeps Scheduler.control x →
      s₁.scheduler.waiting = s.scheduler.waiting ∧ s₁.reserving = s.reserving →
      Ends (on_scheduler x) s₁ (fun _ s' => s'.scheduler.waiting = s.scheduler.waiting ∧ s'.reserving = s.reserving)
        fun _ s' => s'.scheduler.waiting = s.scheduler.waiting ∧ s'.reserving = s.reserving := fun hx h =>
    Ends.zoom ((hx.ends _).conseq (fun _ _ heq => ⟨(Scheduler.control_eq heq).1.trans h.1, h.2⟩)
      fun _ _ heq => ⟨(Scheduler.control_eq heq).1.trans h.1, h.2⟩)
  refine Ends.bind (create_task_ends (Q := fun _ s' => s'.scheduler.waiting = s.scheduler.waiting ∧
    s'.reserving = s.reserving) ⟨rfl, rfl⟩) fun t s₁ h₁ => ?_
  refine Ends.bind (hkeep (Scheduler.init_prefix_cache_blocks_keeps _ _) h₁) fun _ s₂ h₂ => ?_
  refine Ends.bind (R := fun _ s' => s'.scheduler.waiting = s.scheduler.waiting ∧ s'.reserving = s.reserving)
    (Ends.get_bind (Ends.modify_bind (Ends.pure h₂))) fun r s₃ h₃ => ?_
  refine Ends.bind (hkeep (Scheduler.plan_stage_keeps r t) h₃) fun plan s₄ h₄ => ?_
  split
  · refine Ends.bind (R := fun _ _ => True) (Ends.zoom ((pend_ends t s₄.scheduler).conseq (fun _ _ _ => trivial) ?_))
      fun _ _ _ => Ends.pure trivial
    rintro _ _ ⟨-, -, rfl⟩
    exact h₄
  · refine Ends.bind (R := fun _ _ => True) (Ends.zoom ?_) fun _ _ _ => Ends.pure trivial
    exact Ends.modify trivial

end System

namespace Engine

/-- The task of the sequence is pending under the session; or it was, and another one has taken its place. -/
def Parked (e : Engine) (session_id i : Nat) : Prop :=
  i < e.system.next_seq_id ∧ (i ∉ e.ids ∨ ∃ t, e.pending.lookup session_id = some t ∧ i ∈ t.ids)

section
variable {e e' : Engine} {session_id i : Nat}

theorem mem_ids_of_pending {t : InferTask} (ht : e.pending.lookup session_id = some t) (hi : i ∈ t.ids) : i ∈ e.ids := by
  refine List.mem_flatMap.2 ⟨t, ?_, hi⟩
  have hmem : t ∈ e.system.scheduler.pending_tasks := Scheduler.mem_pending_tasks ht
  unfold live
  simp [hmem]

theorem Distinct.pending_elsewhere (hd : e.Distinct) {t u : InferTask} (ht : e.pending.lookup session_id = some t)
    (hi : i ∈ t.ids) (hu : u ∈ (if e.dead then [] else e.system.scheduler.waiting ++ e.system.scheduler.allocated) ++
      Table.values (e.pending.erase session_id) ++ e.system.reserving ++ e.system.finished) : i ∉ u.ids := by
  intro hmem
  have hperm : (e.live ++ e.system.finished).Perm (t :: ((if e.dead then [] else e.system.scheduler.waiting ++
      e.system.scheduler.allocated) ++ Table.values (e.pending.erase session_id) ++ e.system.reserving ++
      e.system.finished)) := by
    have hvalues : e.system.scheduler.pending_tasks.Perm (t :: Table.values (e.pending.erase session_id)) :=
      (Table.values_erase_perm ht).symm
    unfold live
    refine (((hvalues.append_left _).append_right _).append_right _).trans ?_
    simp only [List.append_assoc, List.cons_append]
    exact List.perm_middle
  have hnodup := (hperm.flatMap_right InferTask.ids).nodup_iff.1 hd.nodup
  rw [List.flatMap_cons, List.nodup_append'] at hnodup
  exact hnodup.2.2 hi (List.mem_flatMap.2 ⟨u, hu, hmem⟩)

theorem Parked.not_finished (h : e.Parked session_id i) (hd : e.Distinct) : ∀ t ∈ e.system.finished, i ∉ t.ids := by
  intro u hu hmem
  rcases h.2 with hids | ⟨t, ht, hi⟩
  · exact hids (List.mem_flatMap.2 ⟨u, by simp [hu], hmem⟩)
  · exact hd.pending_elsewhere ht hi (by simp [hu]) hmem

/-- Another task takes the place of the pending one, which is in the engine no longer. -/
theorem Distinct.not_listed (hd : e.Distinct) {t u : InferTask} (ht : e.pending.lookup session_id = some t)
    (hi : i ∈ t.ids) (hu : i ∉ u.ids) (hpending : e'.pending = e.pending.insert session_id u) (hdead : e'.dead = e.dead)
    (hwaiting : e'.system.scheduler.waiting = e.system.scheduler.waiting)
    (hallocated : e'.system.scheduler.allocated = e.system.scheduler.allocated)
    (hreserving : ∀ v ∈ e'.system.reserving, v ∈ e.system.reserving)
    (hfinished : ∀ v ∈ e'.system.finished, v ∈ e.system.finished) : i ∉ e'.ids := by
  intro hmem
  obtain ⟨v, hv, hiv⟩ := List.mem_flatMap.1 hmem
  have helse := fun hv => hd.pending_elsewhere (u := v) ht hi hv hiv
  have hentries : e'.system.scheduler.pending_tasks = u :: Table.values (e.pending.erase session_id) := by
    show Table.values e'.pending = _
    rw [hpending]
    unfold Table.values
    rw [AList.entries_insert]
    rfl
  simp only [live, hentries, hdead, hwaiting, hallocated, List.mem_append, List.mem_cons] at hv
  simp only [List.mem_append] at helse
  rcases hv with ((hv | rfl | hv) | hv) | hv
  · exact helse (.inl (.inl (.inl hv)))
  · exact hu hiv
  · exact helse (.inl (.inl (.inr hv)))
  · exact helse (.inl (.inr (hreserving v hv)))
  · exact helse (.inr (hfinished v hv))

end

end Engine

namespace EngineOp
open Engine

section
variable [Hasher] {e e' : Engine} {op : EngineOp} {session_id i : Nat}

theorem ids_of_step (hs : Step e op e') (hi : i ∈ e'.ids) : i ∈ e.ids ∨ e.system.next_seq_id ≤ i := by
  obtain ⟨born, hborn, hle⟩ := traced_of_step hs
  have hlive : ((e'.live ++ op.returned e e').flatMap InferTask.ids).Subperm ((born ++ e.live).flatMap InferTask.ids) :=
    subperm_ids fun a => by rw [Ledger.listed_append, Ledger.listed_append]; exact hle a
  have hold : ∀ t ∈ e'.live ++ op.returned e e', i ∈ t.ids → i ∈ e.ids ∨ e.system.next_seq_id ≤ i := by
    intro t ht hi
    have hmem := hlive.subset (List.mem_flatMap.2 ⟨t, ht, hi⟩)
    rw [List.flatMap_append, List.mem_append] at hmem
    rcases hmem with hmem | hmem
    · right
      cases hborn with
      | nobody => cases hmem
      | added => exact ((ids_of_request _ _ _).2 i hmem).1
      | reserved => exact ((ids_of_request _ _ _).2 i hmem).1
    · left
      unfold Engine.ids
      rw [List.flatMap_append]
      exact List.mem_append_left _ hmem
  obtain ⟨t, ht, hit⟩ := List.mem_flatMap.1 hi
  rcases List.mem_append.1 ht with ht | ht
  · exact hold t (List.mem_append_left _ ht) hit
  · rcases List.mem_append.1 ((finished_of_step hs).subset ht) with ht | ht
    · exact .inl (List.mem_flatMap.2 ⟨t, List.mem_append_right _ ht, hit⟩)
    · exact hold t (List.mem_append_right _ ht) hit

theorem add_request_not_listed {request : GenerateRequest} {arrival : Nat} {t : InferTask} (hd : e.Distinct)
    (hs : Step e (.add_request request arrival) e') {s : System}
    (herr : System.add_request request arrival e.system = .error .duplicatePending s)
    (hpending : e'.pending = e.pending.insert request.session_id (request.to_task e.system.next_seq_id arrival))
    (ht : e.pending.lookup request.session_id = some t) (hi : i ∈ t.ids) : i ∉ e'.ids := by
  have hfrozen := frozen_of_step hs (by simp) (by simp)
  have hfinished := finished_of_step hs
  obtain ⟨hwaiting, hreserving⟩ := (System.add_request_waiting request arrival e.system).of_error herr
  have he' : e' = { e with system := s } := by
    obtain ⟨-, hs⟩ := next_eq hs
    obtain rfl := Option.some.inj hs
    have hatt : attempt (System.add_request request arrival) e.system = (none, s) := by rw [attempt, herr]
    rw [Engine.add_request, hatt]
  subst he'
  simp only [System.frozen, Scheduler.frozen, Prod.mk.injEq] at hfrozen
  refine hd.not_listed ht hi (fun hu => ?_) hpending rfl hwaiting hfrozen.1 (fun v hv => hreserving ▸ hv) fun v hv => ?_
  · have hnew := ((ids_of_request request e.system.next_seq_id arrival).2 i (by simpa using hu)).1
    have hlt := hd.lt i (mem_ids_of_pending ht hi)
    omega
  · simpa [returned] using hfinished.subset hv

theorem pend_reserved_not_listed {k : Nat} {t u : InferTask} (hd : e.Distinct) (hs : Step e (.pend_reserved k) e')
    (hk : e.system.reserving[k]? = some u) (ht : e.pending.lookup u.session_id = some t) (hi : i ∈ t.ids) :
    i ∉ e'.ids := by
  have hmem := List.mem_of_getElem? hk
  have hu : i ∉ u.ids := hd.pending_elsewhere ht hi (by simp [hmem])
  have hsystem : e'.dead = e.dead ∧ e'.system = { e.system with
      reserving := e.system.reserving.eraseIdx k
      scheduler := { e.system.scheduler with
        pending := e.system.scheduler.pending.insert u.session_id u } } := by
    obtain ⟨-, hs⟩ := next_eq hs
    simp only [exec, Engine.pend_reserved] at hs
    split at hs
    · rcases attempt_ends (System.pend_reserved_holdings hk) with ⟨_, s, hatt, -, rfl⟩ | ⟨_, s, hatt, -, -, rfl⟩
      · rw [hatt] at hs; obtain rfl := Option.some.inj hs; exact ⟨rfl, rfl⟩
      · rw [hatt] at hs; obtain rfl := Option.some.inj hs; exact ⟨rfl, rfl⟩
    · cases hs
  have hpending : e'.pending = e.pending.insert u.session_id u := by unfold pending; rw [hsystem.2]
  refine hd.not_listed ht hi hu hpending hsystem.1 (by rw [hsystem.2]) (by rw [hsystem.2]) (fun v hv => ?_) fun v hv => ?_
  · rw [hsystem.2] at hv; exact List.mem_of_mem_eraseIdx hv
  · rw [hsystem.2] at hv; exact hv

/-- As long as its copy is in the queue, a sequence stays parked: only the callback triggers the session. -/
theorem parked_step (h : e.Parked session_id i) (hd : e.Distinct) (hc : e.Claimed) (hs : Step e op e')
    (hin : session_id ∈ e.copies.filterMap Entry.session) (hin' : session_id ∈ e'.copies.filterMap Entry.session) :
    e'.Parked session_id i := by
  obtain ⟨hcounts, heff⟩ := effect_of_step hc.parallel hs
  have hlt : i < e'.system.next_seq_id := by
    rw [hcounts.next_seq_id]; exact Nat.lt_of_lt_of_le h.1 (Nat.le_add_right _ _)
  have hsome := hc.pending session_id (List.mem_append_left _ hin)
  rcases h.2 with hids | ⟨t, ht, hi⟩
  · refine ⟨hlt, .inl fun hmem => ?_⟩
    rcases ids_of_step hs hmem with hmem | hle
    · exact hids hmem
    · exact absurd h.1 (Nat.not_lt.2 hle)
  have hkeep : e'.pending.lookup session_id = e.pending.lookup session_id → e'.Parked session_id i :=
    fun heq => ⟨hlt, .inr ⟨t, heq.trans ht, hi⟩⟩
  have hnodup := hc.nodup
  unfold sessions at hnodup
  cases heff with
  | idle hholdings => exact hkeep (by rw [pending, (Scheduler.holdings_eq hholdings).1]; rfl)
  | @stages request arrival _ _ _ hnone _ _ hstages =>
    have hne : session_id ≠ request.session_id := fun heq => hsome (heq ▸ hnone)
    have hpending : e'.pending = e.pending.insert request.session_id (request.to_task e.system.next_seq_id arrival) :=
      hstages.pending
    exact hkeep (by rw [hpending, Table.lookup_insert_eq, if_neg hne])
  | @clashes request arrival _ _ herr _ _ hstages =>
    have hpending : e'.pending = e.pending.insert request.session_id (request.to_task e.system.next_seq_id arrival) :=
      hstages.pending
    by_cases heq : session_id = request.session_id
    · subst heq
      exact ⟨hlt, .inl (add_request_not_listed hd hs herr hpending ht hi)⟩
    · exact hkeep (by rw [hpending, Table.lookup_insert_eq, if_neg heq])
  | backs_up _ _ _ hres => exact hkeep (by rw [pending, hres.pending]; rfl)
  | reserves _ _ hres => exact hkeep (by rw [pending, hres.pending]; rfl)
  | @pends _ _ task hk hpending =>
    by_cases heq : session_id = task.session_id
    · subst heq
      exact ⟨hlt, .inl (pend_reserved_not_listed hd hs hk ht hi)⟩
    · exact hkeep (by rw [hpending, Table.lookup_insert_eq, if_neg heq])
  | @triggers _ _ _ output hk hpending =>
    have hne : session_id ≠ output.1 := fun heq => (List.nodup_append'.1 hnodup).2.2 hin
      (heq ▸ List.mem_map_of_mem (List.mem_of_getElem? hk))
    exact hkeep (by rw [hpending, Table.lookup_erase_eq, if_neg hne])
  | gives_up hpending => exact hkeep (by rw [hpending])
  | drops _ _ hholdings => exact hkeep (by rw [pending, (Scheduler.holdings_eq hholdings).1]; rfl)
  | @calls_back _ entry _ hcopies hcopies' hpending =>
    cases hentry : entry.session with
    | none => rw [hentry] at hpending; exact hkeep (by rw [hpending])
    | some first =>
      rw [hentry] at hpending
      rw [hcopies, List.filterMap_cons_some hentry, List.cons_append, List.nodup_cons] at hnodup
      have hne : session_id ≠ first := fun heq => hnodup.1 (List.mem_append_left _ (by rw [← heq, ← hcopies']; exact hin'))
      exact hkeep (by rw [hpending, Table.lookup_erase_eq, if_neg hne])
  | dies _ hcopies' => rw [hcopies'] at hin'; cases hin'

end

end EngineOp

end LMServe
