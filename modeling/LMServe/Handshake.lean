import LMServe.Lib.Channel
import LMServe.Lib.Run
import LMServe.Sequence
import Mathlib.Logic.Function.Basic

/-!
# The layer-wise hand-shake of the model worker with the KV worker

In one iteration the model worker runs its attention layers while the KV worker's coroutines load and save
the blocks, layer by layer. They share CUDA events, one before and one after each layer, and two queues of
tokens. A token says neither its layer nor its iteration: that it stands for the right event is a matter of
counting, `Fetching` and `Writing`, and of the queues being empty whenever an iteration ends.
-/

namespace LMServe
namespace Handshake

/-- What `schedule` gives one iteration to copy. -/
structure Work where
  fetch_block_mappings : List BlockMapping
  write_through_block_mappings : List BlockMapping
deriving DecidableEq

/-- The flags of `iter`. -/
def Work.wait_before_execute (w : Work) : Bool := !w.fetch_block_mappings.isEmpty
def Work.record_after_execute (w : Work) : Bool := !w.write_through_block_mappings.isEmpty

/-- Where `execute` is: `layer i` is the pre-hook of the `i`-th attention layer, and `returned` is reached
after the last one. -/
inductive ModelPc where
  | layer (i : Nat)
  | wait_for_event (i : Nat)
  | forward (i : Nat)
  | post_hook (i : Nat)
  | put (i : Nat)
  | returned
deriving DecidableEq

/-- Where `load_kv_blocks_from_host` is. -/
inductive LoadPc where
  | layer (i : Nat)
  | copy (i k : Nat)
  | record (i : Nat)
  | put (i : Nat)
  | synchronize
  | returned
deriving DecidableEq

/-- Where `save_kv_blocks_to_host` is. -/
inductive SavePc where
  | layer (i : Nat)
  | poll (i : Nat)
  | get (i : Nat)
  | wait_for_event (i : Nat)
  | copy (i k : Nat)
  | synchronize
  | returned
deriving DecidableEq

/-- The calls whose order matters: each names its iteration and its layer. A wait also tells in which
iteration the event it waits for was last recorded. -/
inductive Event where
  | load (n i k : Nat)
  | pre_record (n i copies : Nat)
  | pre_wait (n i : Nat) (recorded : Option Nat)
  | attention (n i : Nat) (wait : Bool)
  | post_record (n i : Nat)
  | post_wait (n i : Nat) (recorded : Option Nat)
  | save (n i k : Nat)
deriving DecidableEq

/-- The two workers of one rank. The log has the newest call first. -/
structure State where
  iteration : Nat
  work : Work
  enable_wait_before_execute : Bool
  enable_record_after_execute : Bool
  model : ModelPc
  load : LoadPc
  save : SavePc
  /-- For each layer, the iteration in which its event was last recorded. -/
  pre_events : Nat → Option Nat
  post_events : Nat → Option Nat
  model_queue : Channel Unit
  kv_queue : Channel Unit
  log : List Event

def State.init : State where
  iteration := 0
  work := ⟨[], []⟩
  enable_wait_before_execute := false
  enable_record_after_execute := false
  model := .returned
  load := .returned
  save := .returned
  pre_events _ := none
  post_events _ := none
  model_queue := .empty
  kv_queue := .empty
  log := []

/-- What `join!` waits for. -/
def State.Joined (s : State) : Prop :=
  s.model = .returned ∧ s.load = .returned ∧ s.save = .returned

instance (s : State) : Decidable s.Joined := inferInstanceAs (Decidable (_ ∧ _ ∧ _))

/-- `iter` issues the inference and, if there is something to copy, the copies; `execute` sets its flags. -/
def State.iter (s : State) (work : Work) : Option State :=
  if s.Joined then
    some { s with
      iteration := s.iteration + 1
      work := work
      enable_wait_before_execute := work.wait_before_execute
      enable_record_after_execute := work.record_after_execute
      model := .layer 0
      load := if work.fetch_block_mappings.isEmpty then .returned else .layer 0
      save := if work.write_through_block_mappings.isEmpty then .returned else .layer 0 }
  else none

/-- The model worker: the hooks of the `L` attention layers and what is between them. -/
def State.execute (L : Nat) (s : State) : Option State :=
  match s.model with
  | .layer i =>
    if i < L then
      if s.enable_wait_before_execute then
        s.model_queue.get.map fun (_, q) => { s with model_queue := q, model := .wait_for_event i }
      else
        some { s with model := .forward i }
    else
      some { s with model := .returned }
  | .wait_for_event i =>
    some { s with model := .forward i, log := .pre_wait s.iteration i (s.pre_events i) :: s.log }
  | .forward i =>
    some { s with
      model := .post_hook i, log := .attention s.iteration i s.enable_wait_before_execute :: s.log }
  | .post_hook i =>
    if s.enable_record_after_execute then
      some { s with
        post_events := Function.update s.post_events i (some s.iteration)
        model := .put i
        log := .post_record s.iteration i :: s.log }
    else
      some { s with model := .layer (i + 1) }
  | .put i => some { s with kv_queue := s.kv_queue.put (), model := .layer (i + 1) }
  | .returned => none

def State.load_kv_blocks_from_host (L : Nat) (s : State) : Option State :=
  let block_mappings := s.work.fetch_block_mappings
  match s.load with
  | .layer i =>
    if i < L then
      if block_mappings.length > 0 then
        some { s with load := .copy i 0 }
      else
        some { s with load := .layer (i + 1) }
    else
      some { s with load := .synchronize }
  | .copy i k =>
    if k < block_mappings.length then
      some { s with load := .copy i (k + 1), log := .load s.iteration i k :: s.log }
    else
      some { s with load := .record i }
  | .record i =>
    some { s with
      pre_events := Function.update s.pre_events i (some s.iteration)
      load := .put i
      log := .pre_record s.iteration i block_mappings.length :: s.log }
  | .put i => some { s with model_queue := s.model_queue.put (), load := .layer (i + 1) }
  | .synchronize => some { s with load := .returned }
  | .returned => none

def State.save_kv_blocks_to_host (L : Nat) (s : State) : Option State :=
  let block_mappings := s.work.write_through_block_mappings
  match s.save with
  | .layer i =>
    if i < L then
      if block_mappings.length > 0 then
        some { s with save := .poll i }
      else
        some { s with save := .layer (i + 1) }
    else
      some { s with save := .synchronize }
  | .poll i =>
    -- while the queue is empty the coroutine sleeps and looks again
    if s.kv_queue.pipe.isEmpty then
      some s
    else
      some { s with save := .get i }
  | .get i => s.kv_queue.get.map fun (_, q) => { s with kv_queue := q, save := .wait_for_event i }
  | .wait_for_event i =>
    some { s with save := .copy i 0, log := .post_wait s.iteration i (s.post_events i) :: s.log }
  | .copy i k =>
    if k < block_mappings.length then
      some { s with save := .copy i (k + 1), log := .save s.iteration i k :: s.log }
    else
      some { s with save := .layer (i + 1) }
  | .synchronize => some { s with save := .returned }
  | .returned => none

/-- Who goes on. -/
inductive Move where
  | iter (work : Work)
  | model
  | load
  | save
  | feed_model_queue
  | feed_kv_queue

def State.next (L : Nat) (s : State) : Move → Option State
  | .iter work => s.iter work
  | .model => s.execute L
  | .load => s.load_kv_blocks_from_host L
  | .save => s.save_kv_blocks_to_host L
  | .feed_model_queue => s.model_queue.feed.map fun q => { s with model_queue := q }
  | .feed_kv_queue => s.kv_queue.feed.map fun q => { s with kv_queue := q }

def Step (L : Nat) (s : State) (m : Move) (s' : State) : Prop := s.next L m = some s'

/-! ### Counting -/

/-- Tokens taken from the model queue in this iteration, if it waits. -/
def ModelPc.gets (L : Nat) : ModelPc → Nat
  | .layer i => i
  | .wait_for_event i | .forward i | .post_hook i | .put i => i + 1
  | .returned => L

/-- Tokens put into the KV queue in this iteration, if it records. -/
def ModelPc.puts (L : Nat) : ModelPc → Nat
  | .layer i | .wait_for_event i | .forward i | .post_hook i | .put i => i
  | .returned => L

/-- Post events recorded in this iteration, if it records. -/
def ModelPc.records (L : Nat) : ModelPc → Nat
  | .put i => i + 1
  | pc => pc.puts L

def ModelPc.Within (L : Nat) : ModelPc → Prop
  | .layer i => i ≤ L
  | .wait_for_event i | .forward i | .post_hook i | .put i => i < L
  | .returned => True

def LoadPc.puts (L : Nat) : LoadPc → Nat
  | .layer i | .copy i _ | .record i | .put i => i
  | .synchronize | .returned => L

def LoadPc.records (L : Nat) : LoadPc → Nat
  | .put i => i + 1
  | pc => pc.puts L

/-- The layer and the number of its mappings that have been copied. -/
def LoadPc.copied (m : Nat) : LoadPc → Option (Nat × Nat)
  | .copy i k => some (i, k)
  | .record i => some (i, m)
  | _ => none

def LoadPc.Within (L m : Nat) : LoadPc → Prop
  | .layer i => i ≤ L
  | .copy i k => i < L ∧ k ≤ m
  | .record i | .put i => i < L
  | .synchronize | .returned => True

def SavePc.gets (L : Nat) : SavePc → Nat
  | .layer i | .poll i | .get i => i
  | .wait_for_event i | .copy i _ => i + 1
  | .synchronize | .returned => L

def SavePc.Within (L : Nat) : SavePc → Prop
  | .layer i => i ≤ L
  | .poll i | .get i | .wait_for_event i | .copy i _ => i < L
  | .synchronize | .returned => True

/-- What a call needs to have come before it. -/
def Event.Needs : Event → List Event → Prop
  | .pre_record n i copies, log => ∀ k < copies, .load n i k ∈ log
  | .attention n i true, log => (∃ copies, .pre_record n i copies ∈ log) ∧ .pre_wait n i (some n) ∈ log
  | .post_record n i, log => ∃ wait, .attention n i wait ∈ log
  | .save n i _, log => .post_record n i ∈ log ∧ .post_wait n i (some n) ∈ log
  | _, _ => True

/-- The next state is in the same iteration, and has only more calls in its log. -/
structure Continues (s s' : State) : Prop where
  iteration : s'.iteration = s.iteration
  work : s'.work = s.work
  wait : s'.enable_wait_before_execute = s.enable_wait_before_execute
  record : s'.enable_record_after_execute = s.enable_record_after_execute
  log : s.log ⊆ s'.log

/-- The load coroutine has recorded the events of the layers it is past, each after its copies. -/
structure Loading (L : Nat) (s : State) : Prop where
  within : s.load.Within L s.work.fetch_block_mappings.length
  idle : s.enable_wait_before_execute = false → s.load = .returned
  recorded : s.enable_wait_before_execute = true → ∀ i < s.load.records L,
    s.pre_events i = some s.iteration ∧ ∃ copies, .pre_record s.iteration i copies ∈ s.log
  copied : ∀ i k, s.load.copied s.work.fetch_block_mappings.length = some (i, k) →
    ∀ j < k, .load s.iteration i j ∈ s.log

/-- The model worker has recorded the events of the layers it is past, each after its attention. -/
structure Executing (L : Nat) (s : State) : Prop where
  within : s.model.Within L
  waited : s.enable_wait_before_execute = true → ∀ i, s.model = .forward i →
    .pre_wait s.iteration i (some s.iteration) ∈ s.log
  ran : ∀ i, s.model = .post_hook i → ∃ wait, .attention s.iteration i wait ∈ s.log
  putting : ∀ i, s.model = .put i → s.enable_record_after_execute = true
  recorded : s.enable_record_after_execute = true → ∀ i < s.model.records L,
    s.post_events i = some s.iteration ∧ .post_record s.iteration i ∈ s.log

/-- The save coroutine copies a layer after it has waited for its event. -/
structure Saving (L : Nat) (s : State) : Prop where
  within : s.save.Within L
  idle : s.enable_record_after_execute = false → s.save = .returned
  waited : ∀ i k, s.save = .copy i k →
    .post_record s.iteration i ∈ s.log ∧ .post_wait s.iteration i (some s.iteration) ∈ s.log

/-- As many tokens are in a queue as its sender is ahead of its receiver, if it is used at all. -/
def Tokens (used : Bool) (q : Channel Unit) (puts gets : Nat) : Prop :=
  if used then q.Balanced puts gets else q.contents = []

structure Inv (L : Nat) (s : State) : Prop where
  wait : s.enable_wait_before_execute = s.work.wait_before_execute
  record : s.enable_record_after_execute = s.work.record_after_execute
  loading : Loading L s
  executing : Executing L s
  saving : Saving L s
  model_queue : Tokens s.enable_wait_before_execute s.model_queue (s.load.puts L) (s.model.gets L)
  kv_queue : Tokens s.enable_record_after_execute s.kv_queue (s.model.puts L) (s.save.gets L)
  log : Justified Event.Needs s.log

section
variable {used : Bool} {q q' : Channel Unit} {puts gets : Nat}

theorem Tokens.put (h : Tokens used q puts gets) (hu : used = true) : Tokens used (q.put ()) (puts + 1) gets := by
  subst hu
  exact Channel.Balanced.put h

theorem Tokens.get {x : Unit} (h : Tokens used q puts gets) (hq : q.get = some (x, q')) :
    Tokens used q' puts (gets + 1) := by
  cases used with
  | true => exact Channel.Balanced.get h hq
  | false =>
    have hnil : q.contents = [] := h
    exact absurd ((Channel.contents_of_get hq).symm.trans hnil) (List.cons_ne_nil _ _)

theorem Tokens.feed (h : Tokens used q puts gets) (hq : q.feed = some q') : Tokens used q' puts gets := by
  cases used with
  | true => exact Channel.Balanced.feed h hq
  | false => exact (Channel.contents_of_feed hq).trans h

theorem Tokens.unused {puts' gets' : Nat} (h : Tokens used q puts gets) (hu : used = false) :
    Tokens used q puts' gets' := by
  subst hu
  exact h

theorem Tokens.contents_eq_nil (h : Tokens used q puts puts) : q.contents = [] := by
  cases used with
  | true => exact Channel.Balanced.contents_eq_nil h
  | false => exact h

end

section
variable {L : Nat} {s s' : State}

theorem Continues.of_eq (hi : s'.iteration = s.iteration) (hw : s'.work = s.work)
    (hwait : s'.enable_wait_before_execute = s.enable_wait_before_execute)
    (hrecord : s'.enable_record_after_execute = s.enable_record_after_execute) (hlog : s'.log = s.log) :
    Continues s s' :=
  ⟨hi, hw, hwait, hrecord, hlog ▸ fun _ h => h⟩

theorem Loading.congr (h : Loading L s) (hc : Continues s s') (hload : s'.load = s.load)
    (hev : s'.pre_events = s.pre_events) : Loading L s' where
  within := by rw [hload, hc.work]; exact h.within
  idle := by rw [hload, hc.wait]; exact h.idle
  recorded := by
    rw [hload, hc.wait, hev, hc.iteration]
    intro hw i hi
    obtain ⟨he, copies, hl⟩ := h.recorded hw i hi
    exact ⟨he, copies, hc.log hl⟩
  copied := by
    rw [hload, hc.work, hc.iteration]
    exact fun i k hk j hj => hc.log (h.copied i k hk j hj)

theorem Executing.congr (h : Executing L s) (hc : Continues s s') (hmodel : s'.model = s.model)
    (hev : s'.post_events = s.post_events) : Executing L s' where
  within := by rw [hmodel]; exact h.within
  waited := by
    rw [hmodel, hc.wait, hc.iteration]
    exact fun hw i hi => hc.log (h.waited hw i hi)
  ran := by
    rw [hmodel, hc.iteration]
    intro i hi
    obtain ⟨wait, hl⟩ := h.ran i hi
    exact ⟨wait, hc.log hl⟩
  putting := by rw [hmodel, hc.record]; exact h.putting
  recorded := by
    rw [hmodel, hc.record, hev, hc.iteration]
    exact fun hr i hi => (h.recorded hr i hi).imp id fun hl => hc.log hl

theorem Saving.congr (h : Saving L s) (hc : Continues s s') (hsave : s'.save = s.save) : Saving L s' where
  within := by rw [hsave]; exact h.within
  idle := by rw [hsave, hc.record]; exact h.idle
  waited := by
    rw [hsave, hc.iteration]
    exact fun i k hk => (h.waited i k hk).imp (fun hl => hc.log hl) fun hl => hc.log hl

theorem Inv.of_continues (h : Inv L s) (hc : Continues s s') (hloading : Loading L s')
    (hexecuting : Executing L s') (hsaving : Saving L s')
    (hmodel : Tokens s.enable_wait_before_execute s'.model_queue (s'.load.puts L) (s'.model.gets L))
    (hkv : Tokens s.enable_record_after_execute s'.kv_queue (s'.model.puts L) (s'.save.gets L))
    (hlog : Justified Event.Needs s'.log) : Inv L s' where
  wait := by rw [hc.wait, hc.work]; exact h.wait
  record := by rw [hc.record, hc.work]; exact h.record
  loading := hloading
  executing := hexecuting
  saving := hsaving
  model_queue := by rw [hc.wait]; exact hmodel
  kv_queue := by rw [hc.record]; exact hkv
  log := hlog

/-! ### What the counts give -/

/-- Behind the pre-hook of a layer, its event has been recorded in this iteration. -/
theorem Inv.pre_recorded (h : Inv L s) (hw : s.enable_wait_before_execute = true) {i : Nat}
    (hi : i < s.model.gets L) :
    s.pre_events i = some s.iteration ∧ ∃ copies, .pre_record s.iteration i copies ∈ s.log := by
  have hbal : s.model_queue.Balanced (s.load.puts L) (s.model.gets L) := by
    have htok := h.model_queue
    rwa [hw] at htok
  have hle : s.load.puts L ≤ s.load.records L := by
    cases s.load with
    | put i => exact Nat.le_succ i
    | _ => exact Nat.le_refl _
  exact h.loading.recorded hw i (Nat.lt_of_lt_of_le hi (hbal.le.trans hle))

/-- Behind the token of a layer, its post event has been recorded in this iteration. -/
theorem Inv.post_recorded (h : Inv L s) (hr : s.enable_record_after_execute = true) {i : Nat}
    (hi : i < s.save.gets L) :
    s.post_events i = some s.iteration ∧ .post_record s.iteration i ∈ s.log := by
  have hbal : s.kv_queue.Balanced (s.model.puts L) (s.save.gets L) := by
    have htok := h.kv_queue
    rwa [hr] at htok
  have hle : s.model.puts L ≤ s.model.records L := by
    cases s.model with
    | put i => exact Nat.le_succ i
    | _ => exact Nat.le_refl _
  exact h.executing.recorded hr i (Nat.lt_of_lt_of_le hi (hbal.le.trans hle))

/-! ### One step -/

theorem Executing.move (h : Executing L s) (hc : Continues s s') (hev : s'.post_events = s.post_events)
    (hrecords : s.enable_record_after_execute = true → s'.model.records L = s.model.records L)
    (hwithin : s'.model.Within L)
    (hwaited : s.enable_wait_before_execute = true → ∀ i, s'.model = .forward i →
      .pre_wait s.iteration i (some s.iteration) ∈ s'.log)
    (hran : ∀ i, s'.model = .post_hook i → ∃ wait, .attention s.iteration i wait ∈ s'.log)
    (hput : ∀ i, s'.model ≠ .put i) : Executing L s' where
  within := hwithin
  waited := by rw [hc.wait, hc.iteration]; exact hwaited
  ran := by rw [hc.iteration]; exact hran
  putting i hi := absurd hi (hput i)
  recorded := by
    rw [hc.record, hc.iteration, hev]
    intro hr i hi
    rw [hrecords hr] at hi
    exact (h.recorded hr i hi).imp id fun hl => hc.log hl

theorem Inv.execute (h : Inv L s) (hs : s.execute L = some s') : Inv L s' := by
  have hwithin := h.executing.within
  have hmodel := h.model_queue
  have hkv := h.kv_queue
  cases hm : s.model with
  | layer i =>
    rw [hm] at hwithin hmodel hkv
    simp only [State.execute, hm] at hs
    split at hs
    · next hi =>
      split at hs
      · -- the pre-hook takes a token
        obtain ⟨⟨_, q⟩, hq, rfl⟩ := Option.map_eq_some_iff.1 hs
        have hc : Continues s { s with model_queue := q, model := .wait_for_event i } := .of_eq rfl rfl rfl rfl rfl
        refine h.of_continues hc (h.loading.congr hc rfl rfl) ?_ (h.saving.congr hc rfl) (hmodel.get hq) hkv h.log
        exact h.executing.move hc rfl (fun _ => by rw [hm]; rfl) hi nofun nofun nofun
      · next hw =>
        obtain rfl := Option.some.inj hs
        have hw : s.enable_wait_before_execute = false := by simpa using hw
        have hc : Continues s { s with model := .forward i } := .of_eq rfl rfl rfl rfl rfl
        refine h.of_continues hc (h.loading.congr hc rfl rfl) ?_ (h.saving.congr hc rfl) (hmodel.unused hw) hkv h.log
        refine h.executing.move hc rfl (fun _ => by rw [hm]; rfl) hi (fun hw' => ?_) nofun nofun
        rw [hw] at hw'
        cases hw'
    · next hi =>
      -- all layers are done
      obtain rfl := Option.some.inj hs
      obtain rfl : i = L := Nat.le_antisymm hwithin (Nat.le_of_not_lt hi)
      have hc : Continues s { s with model := .returned } := .of_eq rfl rfl rfl rfl rfl
      refine h.of_continues hc (h.loading.congr hc rfl rfl) ?_ (h.saving.congr hc rfl) hmodel hkv h.log
      exact h.executing.move hc rfl (fun _ => by rw [hm]; rfl) trivial nofun nofun nofun
  | wait_for_event i =>
    rw [hm] at hwithin hmodel hkv
    simp only [State.execute, hm] at hs
    obtain rfl := Option.some.inj hs
    have hc : Continues s { s with
        model := .forward i, log := .pre_wait s.iteration i (s.pre_events i) :: s.log } :=
      ⟨rfl, rfl, rfl, rfl, fun _ hl => .tail _ hl⟩
    refine h.of_continues hc (h.loading.congr hc rfl rfl) ?_ (h.saving.congr hc rfl) hmodel hkv ⟨trivial, h.log⟩
    refine h.executing.move hc rfl (fun _ => by rw [hm]; rfl) hwithin (fun hw j hj => ?_) nofun nofun
    obtain rfl := ModelPc.forward.inj hj
    -- the token that the pre-hook has taken is that of layer `i`
    have hev := (h.pre_recorded hw (by rw [hm]; exact Nat.lt_succ_self i)).1
    exact List.mem_cons.2 (.inl (by rw [hev]))
  | forward i =>
    rw [hm] at hwithin hmodel hkv
    simp only [State.execute, hm] at hs
    obtain rfl := Option.some.inj hs
    have hc : Continues s { s with
        model := .post_hook i, log := .attention s.iteration i s.enable_wait_before_execute :: s.log } :=
      ⟨rfl, rfl, rfl, rfl, fun _ hl => .tail _ hl⟩
    refine h.of_continues hc (h.loading.congr hc rfl rfl) ?_ (h.saving.congr hc rfl) hmodel hkv ⟨?_, h.log⟩
    · refine h.executing.move hc rfl (fun _ => by rw [hm]; rfl) hwithin nofun (fun j hj => ?_) nofun
      obtain rfl := ModelPc.post_hook.inj hj
      exact ⟨_, List.mem_cons_self⟩
    · cases hw : s.enable_wait_before_execute with
      | false => trivial
      | true => exact ⟨(h.pre_recorded hw (by rw [hm]; exact Nat.lt_succ_self i)).2, h.executing.waited hw i hm⟩
  | post_hook i =>
    rw [hm] at hwithin hmodel hkv
    simp only [State.execute, hm] at hs
    split at hs
    · next hr =>
      obtain rfl := Option.some.inj hs
      have hc : Continues s { s with
          post_events := Function.update s.post_events i (some s.iteration)
          model := .put i
          log := .post_record s.iteration i :: s.log } :=
        ⟨rfl, rfl, rfl, rfl, fun _ hl => .tail _ hl⟩
      refine h.of_continues hc (h.loading.congr hc rfl rfl) ?_ (h.saving.congr hc rfl) hmodel hkv
        ⟨h.executing.ran i hm, h.log⟩
      refine ⟨hwithin, nofun, nofun, fun _ _ => hr, fun _ j hj => ?_⟩
      rcases Nat.lt_succ_iff_lt_or_eq.1 hj with hj | rfl
      · have hold := h.executing.recorded hr j (by rw [hm]; exact hj)
        exact ⟨(Function.update_of_ne hj.ne _ _).trans hold.1, .tail _ hold.2⟩
      · exact ⟨Function.update_self .., List.mem_cons_self⟩
    · next hr =>
      obtain rfl := Option.some.inj hs
      have hr : s.enable_record_after_execute = false := by simpa using hr
      have hc : Continues s { s with model := .layer (i + 1) } := .of_eq rfl rfl rfl rfl rfl
      refine h.of_continues hc (h.loading.congr hc rfl rfl) ?_ (h.saving.congr hc rfl) hmodel (hkv.unused hr) h.log
      refine h.executing.move hc rfl (fun hr' => ?_) hwithin nofun nofun nofun
      rw [hr] at hr'
      cases hr'
  | put i =>
    rw [hm] at hwithin hmodel hkv
    simp only [State.execute, hm] at hs
    obtain rfl := Option.some.inj hs
    have hc : Continues s { s with kv_queue := s.kv_queue.put (), model := .layer (i + 1) } :=
      .of_eq rfl rfl rfl rfl rfl
    refine h.of_continues hc (h.loading.congr hc rfl rfl) ?_ (h.saving.congr hc rfl) hmodel
      (hkv.put (h.executing.putting i hm)) h.log
    exact h.executing.move hc rfl (fun _ => by rw [hm]; rfl) hwithin nofun nofun nofun
  | returned =>
    simp only [State.execute, hm] at hs
    cases hs

theorem Loading.awaited (h : Loading L s) (hne : s.load ≠ .returned) :
    s.enable_wait_before_execute = true := by
  by_contra hw
  exact hne (h.idle (by simpa using hw))

theorem Loading.move (h : Loading L s) (hc : Continues s s') (hw : s.enable_wait_before_execute = true)
    (hev : s'.pre_events = s.pre_events) (hrecords : s'.load.records L = s.load.records L)
    (hwithin : s'.load.Within L s.work.fetch_block_mappings.length)
    (hcopied : ∀ i k, s'.load.copied s.work.fetch_block_mappings.length = some (i, k) →
      ∀ j < k, .load s.iteration i j ∈ s'.log) : Loading L s' where
  within := by rw [hc.work]; exact hwithin
  idle hw' := by rw [hc.wait, hw] at hw'; cases hw'
  recorded := by
    rw [hc.wait, hc.iteration, hev, hrecords]
    intro hw i hi
    obtain ⟨he, copies, hl⟩ := h.recorded hw i hi
    exact ⟨he, copies, hc.log hl⟩
  copied := by rw [hc.work, hc.iteration]; exact hcopied

theorem Inv.load_kv_blocks_from_host (h : Inv L s) (hs : s.load_kv_blocks_from_host L = some s') : Inv L s' := by
  have hwithin := h.loading.within
  have hmodel := h.model_queue
  have hkv := h.kv_queue
  cases hl : s.load with
  | layer i =>
    rw [hl] at hwithin hmodel
    have hw := h.loading.awaited (by rw [hl]; nofun)
    simp only [State.load_kv_blocks_from_host, hl] at hs
    split at hs
    · next hi =>
      split at hs
      · obtain rfl := Option.some.inj hs
        have hc : Continues s { s with load := .copy i 0 } := .of_eq rfl rfl rfl rfl rfl
        refine h.of_continues hc ?_ (h.executing.congr hc rfl rfl) (h.saving.congr hc rfl) hmodel hkv h.log
        refine h.loading.move hc hw rfl (by rw [hl]; rfl) ⟨hi, Nat.zero_le _⟩ fun j k hk j' hj' => ?_
        obtain ⟨rfl, rfl⟩ := Prod.mk.inj (Option.some.inj hk)
        exact absurd hj' (Nat.not_lt_zero _)
      · next hempty =>
        -- nothing to copy: the coroutine has not been started
        have hnil := List.eq_nil_of_length_eq_zero (Nat.eq_zero_of_not_pos hempty)
        rw [h.wait, Work.wait_before_execute, hnil] at hw
        cases hw
    · next hi =>
      obtain rfl := Option.some.inj hs
      obtain rfl : i = L := Nat.le_antisymm hwithin (Nat.le_of_not_lt hi)
      have hc : Continues s { s with load := .synchronize } := .of_eq rfl rfl rfl rfl rfl
      refine h.of_continues hc ?_ (h.executing.congr hc rfl rfl) (h.saving.congr hc rfl) hmodel hkv h.log
      exact h.loading.move hc hw rfl (by rw [hl]; rfl) trivial nofun
  | copy i k =>
    rw [hl] at hwithin hmodel
    have hw := h.loading.awaited (by rw [hl]; nofun)
    have hcopied := h.loading.copied i k (by rw [hl]; rfl)
    simp only [State.load_kv_blocks_from_host, hl] at hs
    split at hs
    · next hk =>
      obtain rfl := Option.some.inj hs
      have hc : Continues s { s with load := .copy i (k + 1), log := .load s.iteration i k :: s.log } :=
        ⟨rfl, rfl, rfl, rfl, fun _ hl => .tail _ hl⟩
      refine h.of_continues hc ?_ (h.executing.congr hc rfl rfl) (h.saving.congr hc rfl) hmodel hkv ⟨trivial, h.log⟩
      refine h.loading.move hc hw rfl (by rw [hl]; rfl) ⟨hwithin.1, hk⟩ fun i' k' hk' j hj => ?_
      obtain ⟨rfl, rfl⟩ := Prod.mk.inj (Option.some.inj hk')
      rcases Nat.lt_succ_iff_lt_or_eq.1 hj with hj | rfl
      · exact .tail _ (hcopied j hj)
      · exact List.mem_cons_self
    · next hk =>
      obtain rfl := Option.some.inj hs
      have hc : Continues s { s with load := .record i } := .of_eq rfl rfl rfl rfl rfl
      refine h.of_continues hc ?_ (h.executing.congr hc rfl rfl) (h.saving.congr hc rfl) hmodel hkv h.log
      refine h.loading.move hc hw rfl (by rw [hl]; rfl) hwithin.1 fun i' k' hk' j hj => ?_
      obtain ⟨rfl, rfl⟩ := Prod.mk.inj (Option.some.inj hk')
      exact hcopied j (Nat.lt_of_lt_of_le hj (Nat.le_of_not_lt hk))
  | record i =>
    rw [hl] at hwithin hmodel
    have hw := h.loading.awaited (by rw [hl]; nofun)
    simp only [State.load_kv_blocks_from_host, hl] at hs
    obtain rfl := Option.some.inj hs
    have hc : Continues s { s with
        pre_events := Function.update s.pre_events i (some s.iteration)
        load := .put i
        log := .pre_record s.iteration i s.work.fetch_block_mappings.length :: s.log } :=
      ⟨rfl, rfl, rfl, rfl, fun _ hl => .tail _ hl⟩
    refine h.of_continues hc ?_ (h.executing.congr hc rfl rfl) (h.saving.congr hc rfl) hmodel hkv
      ⟨h.loading.copied i _ (by rw [hl]; rfl), h.log⟩
    refine ⟨hwithin, fun hw' => ?_, fun _ j hj => ?_, nofun⟩
    · exact absurd (hw.symm.trans hw') Bool.noConfusion
    · rcases Nat.lt_succ_iff_lt_or_eq.1 hj with hj | rfl
      · obtain ⟨he, copies, hmem⟩ := h.loading.recorded hw j (by rw [hl]; exact hj)
        exact ⟨(Function.update_of_ne hj.ne _ _).trans he, copies, .tail _ hmem⟩
      · exact ⟨Function.update_self .., _, List.mem_cons_self⟩
  | put i =>
    rw [hl] at hwithin hmodel
    have hw := h.loading.awaited (by rw [hl]; nofun)
    simp only [State.load_kv_blocks_from_host, hl] at hs
    obtain rfl := Option.some.inj hs
    have hc : Continues s { s with model_queue := s.model_queue.put (), load := .layer (i + 1) } :=
      .of_eq rfl rfl rfl rfl rfl
    refine h.of_continues hc ?_ (h.executing.congr hc rfl rfl) (h.saving.congr hc rfl) (hmodel.put hw) hkv h.log
    exact h.loading.move hc hw rfl (by rw [hl]; rfl) hwithin nofun
  | synchronize =>
    rw [hl] at hmodel
    have hw := h.loading.awaited (by rw [hl]; nofun)
    simp only [State.load_kv_blocks_from_host, hl] at hs
    obtain rfl := Option.some.inj hs
    have hc : Continues s { s with load := .returned } := .of_eq rfl rfl rfl rfl rfl
    refine h.of_continues hc ?_ (h.executing.congr hc rfl rfl) (h.saving.congr hc rfl) hmodel hkv h.log
    exact h.loading.move hc hw rfl (by rw [hl]; rfl) trivial nofun
  | returned =>
    simp only [State.load_kv_blocks_from_host, hl] at hs
    cases hs

theorem Saving.recorded (h : Saving L s) (hne : s.save ≠ .returned) :
    s.enable_record_after_execute = true := by
  by_contra hr
  exact hne (h.idle (by simpa using hr))

theorem Saving.move (hc : Continues s s') (hr : s.enable_record_after_execute = true) (hwithin : s'.save.Within L)
    (hwaited : ∀ i k, s'.save = .copy i k →
      .post_record s.iteration i ∈ s'.log ∧ .post_wait s.iteration i (some s.iteration) ∈ s'.log) :
    Saving L s' where
  within := hwithin
  idle hr' := by rw [hc.record, hr] at hr'; cases hr'
  waited := by rw [hc.iteration]; exact hwaited

theorem Inv.save_kv_blocks_to_host (h : Inv L s) (hs : s.save_kv_blocks_to_host L = some s') : Inv L s' := by
  have hwithin := h.saving.within
  have hmodel := h.model_queue
  have hkv := h.kv_queue
  cases hv : s.save with
  | layer i =>
    rw [hv] at hwithin hkv
    have hr := h.saving.recorded (by rw [hv]; nofun)
    simp only [State.save_kv_blocks_to_host, hv] at hs
    split at hs
    · next hi =>
      split at hs
      · obtain rfl := Option.some.inj hs
        have hc : Continues s { s with save := .poll i } := .of_eq rfl rfl rfl rfl rfl
        exact h.of_continues hc (h.loading.congr hc rfl rfl) (h.executing.congr hc rfl rfl)
          (.move hc hr hi nofun) hmodel hkv h.log
      · next hempty =>
        have hnil := List.eq_nil_of_length_eq_zero (Nat.eq_zero_of_not_pos hempty)
        rw [h.record, Work.record_after_execute, hnil] at hr
        cases hr
    · next hi =>
      obtain rfl := Option.some.inj hs
      obtain rfl : i = L := Nat.le_antisymm hwithin (Nat.le_of_not_lt hi)
      have hc : Continues s { s with save := .synchronize } := .of_eq rfl rfl rfl rfl rfl
      exact h.of_continues hc (h.loading.congr hc rfl rfl) (h.executing.congr hc rfl rfl)
        (.move hc hr trivial nofun) hmodel hkv h.log
  | poll i =>
    rw [hv] at hwithin hkv
    have hr := h.saving.recorded (by rw [hv]; nofun)
    simp only [State.save_kv_blocks_to_host, hv] at hs
    split at hs
    · obtain rfl := Option.some.inj hs
      exact h
    · obtain rfl := Option.some.inj hs
      have hc : Continues s { s with save := .get i } := .of_eq rfl rfl rfl rfl rfl
      exact h.of_continues hc (h.loading.congr hc rfl rfl) (h.executing.congr hc rfl rfl)
        (.move hc hr hwithin nofun) hmodel hkv h.log
  | get i =>
    rw [hv] at hwithin hkv
    have hr := h.saving.recorded (by rw [hv]; nofun)
    simp only [State.save_kv_blocks_to_host, hv] at hs
    obtain ⟨⟨_, q⟩, hq, rfl⟩ := Option.map_eq_some_iff.1 hs
    have hc : Continues s { s with kv_queue := q, save := .wait_for_event i } := .of_eq rfl rfl rfl rfl rfl
    exact h.of_continues hc (h.loading.congr hc rfl rfl) (h.executing.congr hc rfl rfl)
      (.move hc hr hwithin nofun) hmodel (hkv.get hq) h.log
  | wait_for_event i =>
    rw [hv] at hwithin hkv
    have hr := h.saving.recorded (by rw [hv]; nofun)
    simp only [State.save_kv_blocks_to_host, hv] at hs
    obtain rfl := Option.some.inj hs
    have hc : Continues s { s with
        save := .copy i 0, log := .post_wait s.iteration i (s.post_events i) :: s.log } :=
      ⟨rfl, rfl, rfl, rfl, fun _ hl => .tail _ hl⟩
    refine h.of_continues hc (h.loading.congr hc rfl rfl) (h.executing.congr hc rfl rfl) ?_ hmodel hkv ⟨trivial, h.log⟩
    refine .move hc hr hwithin fun j k hj => ?_
    obtain ⟨rfl, rfl⟩ := SavePc.copy.inj hj
    -- the token that has just been taken is that of layer `i`
    obtain ⟨hev, hmem⟩ := h.post_recorded hr (i := i) (by rw [hv]; exact Nat.lt_succ_self i)
    exact ⟨.tail _ hmem, List.mem_cons.2 (.inl (by rw [hev]))⟩
  | copy i k =>
    rw [hv] at hwithin hkv
    have hr := h.saving.recorded (by rw [hv]; nofun)
    have hwaited := h.saving.waited i k hv
    simp only [State.save_kv_blocks_to_host, hv] at hs
    split at hs
    · obtain rfl := Option.some.inj hs
      have hc : Continues s { s with save := .copy i (k + 1), log := .save s.iteration i k :: s.log } :=
        ⟨rfl, rfl, rfl, rfl, fun _ hl => .tail _ hl⟩
      refine h.of_continues hc (h.loading.congr hc rfl rfl) (h.executing.congr hc rfl rfl) ?_ hmodel hkv
        ⟨hwaited, h.log⟩
      refine .move hc hr hwithin fun j k' hj => ?_
      obtain ⟨rfl, rfl⟩ := SavePc.copy.inj hj
      exact hwaited.imp (.tail _) (.tail _)
    · obtain rfl := Option.some.inj hs
      have hc : Continues s { s with save := .layer (i + 1) } := .of_eq rfl rfl rfl rfl rfl
      exact h.of_continues hc (h.loading.congr hc rfl rfl) (h.executing.congr hc rfl rfl)
        (.move hc hr hwithin nofun) hmodel hkv h.log
  | synchronize =>
    rw [hv] at hkv
    have hr := h.saving.recorded (by rw [hv]; nofun)
    simp only [State.save_kv_blocks_to_host, hv] at hs
    obtain rfl := Option.some.inj hs
    have hc : Continues s { s with save := .returned } := .of_eq rfl rfl rfl rfl rfl
    exact h.of_continues hc (h.loading.congr hc rfl rfl) (h.executing.congr hc rfl rfl)
      (.move hc hr trivial nofun) hmodel hkv h.log
  | returned =>
    simp only [State.save_kv_blocks_to_host, hv] at hs
    cases hs

theorem Inv.joined (h : Inv L s) (hj : s.Joined) : s.model_queue.contents = [] ∧ s.kv_queue.contents = [] := by
  obtain ⟨hm, hl, hv⟩ := hj
  have hmodel := h.model_queue
  have hkv := h.kv_queue
  rw [hm, hl] at hmodel
  rw [hm, hv] at hkv
  exact ⟨hmodel.contents_eq_nil, hkv.contents_eq_nil⟩

theorem Inv.iter (h : Inv L s) {work : Work} (hs : s.iter work = some s') : Inv L s' := by
  simp only [State.iter] at hs
  split at hs
  swap
  · cases hs
  next hj =>
  obtain ⟨hmodel, hkv⟩ := h.joined hj
  obtain rfl := Option.some.inj hs
  refine ⟨rfl, rfl, ?_, ⟨Nat.zero_le L, nofun, nofun, nofun, nofun⟩, ?_, ?_, ?_, h.log⟩
  · cases he : work.fetch_block_mappings.isEmpty with
    | true => exact ⟨trivial, fun _ => rfl, fun hw => by simp [Work.wait_before_execute, he] at hw, nofun⟩
    | false => exact ⟨Nat.zero_le L, fun hw => by simp [Work.wait_before_execute, he] at hw, nofun, nofun⟩
  · cases he : work.write_through_block_mappings.isEmpty with
    | true => exact ⟨trivial, fun _ => rfl, nofun⟩
    | false => exact ⟨Nat.zero_le L, fun hr => by simp [Work.record_after_execute, he] at hr, nofun⟩
  · cases he : work.fetch_block_mappings.isEmpty with
    | true => simpa [Tokens, Work.wait_before_execute, he] using hmodel
    | false => simp [Tokens, Work.wait_before_execute, he, Channel.Balanced, hmodel, LoadPc.puts, ModelPc.gets]
  · cases he : work.write_through_block_mappings.isEmpty with
    | true => simpa [Tokens, Work.record_after_execute, he] using hkv
    | false => simp [Tokens, Work.record_after_execute, he, Channel.Balanced, hkv, ModelPc.puts, SavePc.gets]

theorem Inv.init : Inv L .init where
  wait := rfl
  record := rfl
  loading := ⟨trivial, fun _ => rfl, nofun, nofun⟩
  executing := ⟨trivial, nofun, nofun, nofun, nofun⟩
  saving := ⟨trivial, fun _ => rfl, nofun⟩
  model_queue := rfl
  kv_queue := rfl
  log := trivial

theorem Inv.step {m : Move} (h : Inv L s) (hs : Step L s m s') : Inv L s' := by
  cases m with
  | iter work => exact h.iter hs
  | model => exact h.execute hs
  | load => exact h.load_kv_blocks_from_host hs
  | save => exact h.save_kv_blocks_to_host hs
  | feed_model_queue =>
    obtain ⟨q, hq, rfl⟩ := Option.map_eq_some_iff.1 hs
    have hc : Continues s { s with model_queue := q } := .of_eq rfl rfl rfl rfl rfl
    exact h.of_continues hc (h.loading.congr hc rfl rfl) (h.executing.congr hc rfl rfl) (h.saving.congr hc rfl)
      (h.model_queue.feed hq) h.kv_queue h.log
  | feed_kv_queue =>
    obtain ⟨q, hq, rfl⟩ := Option.map_eq_some_iff.1 hs
    have hc : Continues s { s with kv_queue := q } := .of_eq rfl rfl rfl rfl rfl
    exact h.of_continues hc (h.loading.congr hc rfl rfl) (h.executing.congr hc rfl rfl) (h.saving.congr hc rfl)
      h.model_queue (h.kv_queue.feed hq) h.log

theorem Inv.run {ms : List Move} (h : Run (Step L) .init ms s) : Inv L s :=
  h.invariant .init fun _ _ _ h hs => h.step hs

/-- Whatever the number of layers, the flags of the iterations and the order of the steps: an attention that
waits comes after the record of its layer's fetch in its own iteration, which its stream waits for; a save
comes after the record of its layer's post event in its own iteration, which its stream waits for; and when
an iteration ends no token is left. -/
theorem layerwise_handshake {ms : List Move} (h : Run (Step L) .init ms s) :
    (∀ n i later earlier, s.log = later ++ .attention n i true :: earlier →
      (∃ copies, .pre_record n i copies ∈ earlier) ∧ .pre_wait n i (some n) ∈ earlier) ∧
    (∀ n i k later earlier, s.log = later ++ .save n i k :: earlier →
      .post_record n i ∈ earlier ∧ .post_wait n i (some n) ∈ earlier) ∧
    (s.Joined → s.model_queue.contents = [] ∧ s.kv_queue.contents = []) := by
  have hinv := Inv.run h
  refine ⟨fun n i later earlier hlog => ?_, fun n i k later earlier hlog => ?_, hinv.joined⟩
  · have hj := hinv.log
    rw [hlog] at hj
    exact hj.of_append
  · have hj := hinv.log
    rw [hlog] at hj
    exact hj.of_append

end

/-- One layer, one iteration with a block to fetch and a block to write through. -/
def one_layer : List Move :=
  [.iter ⟨[[⟨3, 5⟩]], [[⟨5, 4⟩]]⟩, .load, .load, .load, .load, .load, .save, .save, .feed_model_queue, .model, .load,
    .model, .model, .model, .model, .save, .feed_kv_queue, .save, .save, .model, .save, .save, .save, .save, .load, .save]

theorem layerwise_handshake_one_layer : ∃ s, Run (Step 1) .init one_layer s ∧
    s.log = [.save 1 0 0, .post_wait 1 0 (some 1), .post_record 1 0, .attention 1 0 true, .pre_wait 1 0 (some 1),
      .pre_record 1 0 1, .load 1 0 0] ∧
    (∃ copies, Event.pre_record 1 0 copies ∈ [.pre_wait 1 0 (some 1), .pre_record 1 0 1, .load 1 0 0]) ∧
    s.model_queue.contents = [] ∧ s.kv_queue.contents = [] := by
  obtain ⟨s, hrun, hp⟩ := Run.exists_of_follow (fun _ _ _ h => h)
    (show (Run.follow (State.next 1) .init one_layer).any (fun s => decide (s.Joined ∧
      s.log = [.save 1 0 0, .post_wait 1 0 (some 1), .post_record 1 0, .attention 1 0 true, .pre_wait 1 0 (some 1),
        .pre_record 1 0 1, .load 1 0 0])) = true by decide)
  obtain ⟨hjoined, hlog⟩ := of_decide_eq_true hp
  obtain ⟨hattention, -, hend⟩ := layerwise_handshake hrun
  exact ⟨s, hrun, hlog, (hattention 1 0 [.save 1 0 0, .post_wait 1 0 (some 1), .post_record 1 0] _ hlog).1, hend hjoined⟩

end Handshake
end LMServe
