import Mathlib.Data.List.Basic

/-!
# A queue between two processes

What the sender puts waits in a buffer of its own, until its feeder writes it to the pipe; the receiver
sees the pipe alone. Nothing is lost or reordered: `contents` is a first-in first-out list. `Justified` is
for logs, newest entry first, in which what an entry needs has come before it.
-/

structure Channel (α : Type) where
  buffer : List α
  pipe : List α
deriving DecidableEq, Repr

namespace Channel
variable {α : Type} {q q' : Channel α} {x : α}

def empty : Channel α := ⟨[], []⟩

def put (q : Channel α) (x : α) : Channel α := { q with buffer := q.buffer ++ [x] }

/-- The feeder writes the oldest entry of the buffer to the pipe. -/
def feed (q : Channel α) : Option (Channel α) :=
  match q.buffer with
  | [] => none
  | x :: xs => some ⟨xs, q.pipe ++ [x]⟩

/-- `none`: the receiver has to wait. -/
def get (q : Channel α) : Option (α × Channel α) :=
  match q.pipe with
  | [] => none
  | x :: xs => some (x, { q with pipe := xs })

/-- What has been put and not yet been taken, in the order in which it will be. -/
def contents (q : Channel α) : List α := q.pipe ++ q.buffer

@[simp] theorem contents_empty : (empty : Channel α).contents = [] := rfl

@[simp] theorem contents_put : (q.put x).contents = q.contents ++ [x] :=
  (List.append_assoc ..).symm

theorem contents_of_feed (h : q.feed = some q') : q'.contents = q.contents := by
  obtain ⟨buffer, pipe⟩ := q
  cases buffer with
  | nil => cases h
  | cons x xs =>
    obtain rfl := Option.some.inj h
    exact List.append_assoc pipe [x] xs

theorem contents_of_get (h : q.get = some (x, q')) : q.contents = x :: q'.contents := by
  obtain ⟨buffer, pipe⟩ := q
  cases pipe with
  | nil => cases h
  | cons y ys =>
    obtain ⟨rfl, rfl⟩ := Prod.mk.inj (Option.some.inj h)
    rfl

/-- `puts` entries have been put, `gets` of them taken. -/
def Balanced (q : Channel α) (puts gets : Nat) : Prop := q.contents.length + gets = puts

variable {puts gets : Nat}

theorem Balanced.put (h : q.Balanced puts gets) : (q.put x).Balanced (puts + 1) gets := by
  simp only [Balanced, contents_put, List.length_append, List.length_singleton] at h ⊢
  omega

theorem Balanced.get (h : q.Balanced puts gets) (hq : q.get = some (x, q')) :
    q'.Balanced puts (gets + 1) := by
  simp only [Balanced, contents_of_get hq, List.length_cons] at h ⊢
  omega

theorem Balanced.feed (h : q.Balanced puts gets) (hq : q.feed = some q') : q'.Balanced puts gets := by
  simpa only [Balanced, contents_of_feed hq] using h

theorem Balanced.le (h : q.Balanced puts gets) : gets ≤ puts :=
  h ▸ Nat.le_add_left ..

theorem Balanced.contents_eq_nil (h : q.Balanced puts puts) : q.contents = [] :=
  List.eq_nil_of_length_eq_zero (Nat.add_eq_right.1 h)

end Channel

/-- Each entry of the log has what it needs in the entries before it. -/
def Justified {ε : Type} (needs : ε → List ε → Prop) : List ε → Prop
  | [] => True
  | e :: log => needs e log ∧ Justified needs log

theorem Justified.of_append {ε : Type} {needs : ε → List ε → Prop} {e : ε} {log : List ε} :
    ∀ {later : List ε}, Justified needs (later ++ e :: log) → needs e log
  | [], h => h.1
  | _ :: _, h => Justified.of_append h.2
