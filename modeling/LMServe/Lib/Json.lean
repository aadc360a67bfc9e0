import Mathlib.Data.List.Nodup
import Mathlib.Data.Rat.Defs

/-!
# Flat records as JSON objects

A codec for each kind of field. A floating-point number is a rational or not a number; JSON has no
spelling for the latter, the encoder writes `null` and the decoder wants a number.
-/

inductive JsonValue where
  | null
  | integer (n : Nat)
  | float (x : Rat)
deriving DecidableEq

abbrev JsonObject := List (String × JsonValue)

structure Codec (α : Type) where
  encode : α → JsonValue
  decode : JsonValue → Option α

namespace Codec

def usize : Codec Nat where
  encode n := .integer n
  decode
    | .integer n => some n
    | _ => none

def f32 : Codec (Option Rat) where
  encode
    | some x => .float x
    | none => .null
  decode
    | .float x => some (some x)
    | .integer n => some (some n)
    | .null => none

@[simp] theorem decode_usize (n : Nat) : usize.decode (usize.encode n) = some n := rfl

@[simp] theorem decode_f32_some (x : Rat) : f32.decode (f32.encode (some x)) = some (some x) := rfl

@[simp] theorem decode_f32_none : f32.decode (f32.encode none) = none := rfl

theorem isSome_of_decode_f32 {v : JsonValue} {x : Option Rat} (h : f32.decode v = some x) : x.isSome = true := by
  cases v with
  | null => cases h
  | integer n => obtain rfl := Option.some.inj h; rfl
  | float y => obtain rfl := Option.some.inj h; rfl

end Codec

/-- A field of a record: the decoder wants it to be there, and once. -/
def JsonObject.field {α : Type} (o : JsonObject) (name : String) (C : Codec α) : Option α :=
  match o.filter (·.1 = name) with
  | [(_, v)] => C.decode v
  | _ => none

theorem JsonObject.field_of_mem {α : Type} {o : JsonObject} {name : String} {v : JsonValue} {C : Codec α}
    (hnodup : (o.map Prod.fst).Nodup) (h : (name, v) ∈ o) : o.field name C = C.decode v := by
  have hfilter : o.filter (·.1 = name) = [(name, v)] := by
    induction o with
    | nil => cases h
    | cons p o ih =>
      rw [List.map_cons, List.nodup_cons] at hnodup
      rcases List.mem_cons.1 h with rfl | h
      · rw [List.filter_cons_of_pos (by simp), List.filter_eq_nil_iff.2]
        exact fun q hq heq => hnodup.1 (List.mem_map.2 ⟨q, hq, of_decide_eq_true heq⟩)
      · rw [List.filter_cons_of_neg, ih hnodup.2 h]
        exact fun heq => hnodup.1 (List.mem_map.2 ⟨_, h, (of_decide_eq_true heq).symm⟩)
  rw [field, hfilter]

theorem JsonObject.isSome_of_field_f32 {o : JsonObject} {name : String} {x : Option Rat}
    (h : o.field name Codec.f32 = some x) : x.isSome = true := by
  unfold field at h
  split at h
  · exact Codec.isSome_of_decode_f32 h
  · cases h
