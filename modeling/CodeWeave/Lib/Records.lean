import CodeWeave.Lib.Cuts
import Mathlib.Data.List.Basic

universe u

/-- What takes a record off the front of a stream, until there is none or it fails. -/
structure Records (A B E : Type u) where
  next : List A → Except E (Option (B × List A))
  shorter : next stream = .ok (some (b, rest)) → rest.length < stream.length

namespace Records

variable {A B C D E F : Type u} (records : Records A B E) (shown : B → Option C) (failed : E → C)

/-- What is shown of the records of a stream, and of the failure that ends it. -/
def events (stream : List A) : List C :=
  match _found : records.next stream with
  | .error e => [failed e]
  | .ok none => []
  | .ok (some (b, rest)) => (shown b).toList ++ events rest
termination_by stream.length
decreasing_by exact records.shorter ‹_›

variable {records shown failed} {stream rest : List A} {b : B}

theorem events_error {e : E} (found : records.next stream = .error e) :
    records.events shown failed stream = [failed e] := by
  rw [events]
  split
  · next found' => rw [Except.error.inj (found.symm.trans found')]
  · next found' => cases found.symm.trans found'
  · next found' => cases found.symm.trans found'

theorem events_none (found : records.next stream = .ok none) :
    records.events shown failed stream = [] := by
  rw [events]
  split
  · next found' => cases found.symm.trans found'
  · rfl
  · next found' => cases found.symm.trans found'

theorem events_some (found : records.next stream = .ok (some (b, rest))) :
    records.events shown failed stream = (shown b).toList ++ records.events shown failed rest := by
  rw [events]
  split
  · next found' => cases found.symm.trans found'
  · next found' => cases found.symm.trans found'
  · next found' =>
    cases found.symm.trans found'
    rfl

def Reads (records : Records A B E) (piece : List A) (b : B) : Prop :=
  ∀ rest, records.next (piece ++ rest) = .ok (some (b, rest))

variable {pieceOf : F → List A} {item : F → B} {pieces : List F}

theorem events_flatMap (reads : ∀ f ∈ pieces, records.Reads (pieceOf f) (item f))
    (rest : List A) : records.events shown failed (pieces.flatMap pieceOf ++ rest) =
      pieces.filterMap (fun f => shown (item f)) ++ records.events shown failed rest := by
  induction pieces with
  | nil => rfl
  | cons f more ih =>
    rw [List.flatMap_cons, List.append_assoc,
      events_some (reads f List.mem_cons_self _), ih fun g mem => reads g (List.mem_cons_of_mem f mem)]
    cases found : shown (item f) with
    | none => simp only [List.filterMap_cons, found]; rfl
    | some c => simp only [List.filterMap_cons, found]; rfl

theorem events_take (kind : C → Option D)
    (reads : ∀ f ∈ pieces, records.Reads (pieceOf f) (item f))
    (torn : ∀ f ∈ pieces, ∀ n < (pieceOf f).length,
      (records.events shown failed ((pieceOf f).take n)).filterMap kind = [])
    {last : List A} (ended : ∀ n, (records.events shown failed (last.take n)).filterMap kind = [])
    (n : Nat) :
    (records.events shown failed ((pieces.flatMap pieceOf ++ last).take n)).filterMap kind =
      (Cuts.fit (fun f => (pieceOf f).length) n pieces).filterMap
        fun f => (shown (item f)).bind kind := by
  induction pieces generalizing n with
  | nil => exact ended n
  | cons f more ih =>
    rw [List.flatMap_cons, List.append_assoc, List.take_append, Cuts.fit]
    split
    · next whole =>
      rw [List.take_of_length_le whole, events_some (reads f List.mem_cons_self _),
        List.filterMap_append, ih (fun g mem => reads g (List.mem_cons_of_mem f mem))
          (fun g mem => torn g (List.mem_cons_of_mem f mem))]
      cases found : shown (item f) with
      | none =>
        simp only [List.filterMap_cons, found, Option.bind_none]
        rfl
      | some c =>
        simp only [List.filterMap_cons, found, Option.bind_some, Option.toList_some,
          List.filterMap_nil]
        cases kind c with
        | none => rfl
        | some d => rfl
    · next part =>
      rw [Nat.sub_eq_zero_of_le (Nat.le_of_not_le part), List.take_zero, List.append_nil]
      exact torn f List.mem_cons_self n (Nat.lt_of_not_le part)

end Records
