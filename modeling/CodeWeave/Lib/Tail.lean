import Mathlib.Data.List.Induction

/-! The last items of a stream, by their places in the whole of it, and a reader who
asks for one page after another while the stream grows. -/

universe u

namespace Tail

variable {A : Type u} (limit : Nat) (stream : List A)

def dropped : Nat := stream.length - limit

def kept : List A := stream.drop (dropped limit stream)

def start (place : Nat) : Nat := min (max place (dropped limit stream)) stream.length

def page (place count : Nat) : List A × Option Nat :=
  ((stream.drop (start limit stream place)).take count,
    if start limit stream place + count < stream.length then
      some (start limit stream place + count) else none)

theorem dropped_le_length : dropped limit stream ≤ stream.length := Nat.sub_le _ _

theorem length_kept : (kept limit stream).length = min limit stream.length := by
  rw [kept, dropped, List.length_drop]
  omega

theorem dropped_add_length_kept : dropped limit stream + (kept limit stream).length =
    stream.length := by
  have bound := dropped_le_length limit stream
  rw [kept, List.length_drop]
  omega

theorem dropped_append (more : List A) : dropped limit (stream ++ more) =
    dropped limit stream + ((kept limit stream).length + more.length - limit) := by
  rw [length_kept, dropped, dropped, List.length_append]
  omega

theorem kept_append (more : List A) : kept limit (stream ++ more) =
    (kept limit stream ++ more).drop ((kept limit stream).length + more.length - limit) := by
  rw [kept, dropped_append, ← List.drop_drop, kept,
    List.drop_append_of_le_length (dropped_le_length limit stream)]

theorem page_items (place count : Nat) : (page limit stream place count).1 =
    (stream.drop (max place (dropped limit stream))).take count := by
  rw [page, start]
  by_cases inside : max place (dropped limit stream) ≤ stream.length
  · rw [Nat.min_eq_left inside]
  · have outside : stream.length ≤ max place (dropped limit stream) := by omega
    rw [Nat.min_eq_right outside, List.drop_length, List.drop_eq_nil_of_le outside]

theorem page_next (place count : Nat) : (page limit stream place count).2 =
    if max place (dropped limit stream) + count < stream.length then
      some (max place (dropped limit stream) + count) else none := by
  rw [page, start]
  by_cases inside : max place (dropped limit stream) ≤ stream.length
  · rw [Nat.min_eq_left inside]
  · rw [if_neg (by omega), if_neg (by omega)]

inductive Event (A : Type u)
  | push (items : List A)
  | read (count : Nat)

def Event.pushed : Event A → List A
  | .push items => items
  | .read _ => []

/-- A reader: where the next page starts if there is one, the place after the pages
received, and each item received with its place. -/
structure Reader (A : Type u) where
  stream : List A
  next : Option Nat
  passed : Nat
  received : List (A × Nat)

namespace Reader

def new (first : Nat) : Reader A := ⟨[], some first, first, []⟩

def step (reader : Reader A) : Event A → Reader A
  | .push items => { reader with stream := reader.stream ++ items }
  | .read count =>
    match reader.next with
    | none => reader
    | some place =>
      let (items, next) := page limit reader.stream place count
      let start := start limit reader.stream place
      ⟨reader.stream, next, start + items.length, reader.received ++ items.zipIdx start⟩

def run (first : Nat) (events : List (Event A)) : Reader A :=
  events.foldl (step limit) (new first)

/-- The reader has items of the stream, in order and none twice, and no item ahead. -/
structure Follows (first : Nat) (reader : Reader A) : Prop where
  onward : ∀ place ∈ reader.next, first ≤ place ∧ place = reader.passed
  ordered : (reader.received.map Prod.snd).Pairwise (· < ·)
  within : ∀ item ∈ reader.received, first ≤ item.2 ∧ item.2 < reader.passed
  genuine : ∀ item ∈ reader.received, reader.stream[item.2]? = some item.1

variable {limit} {first : Nat}

theorem mem_page {reader : Reader A} {place count : Nat} {item : A × Nat}
    (mem : item ∈ (page limit reader.stream place count).1.zipIdx (start limit reader.stream place)) :
    place ≤ item.2 ∧ start limit reader.stream place ≤ item.2 ∧
      item.2 < start limit reader.stream place + (page limit reader.stream place count).1.length ∧
      reader.stream[item.2]? = some item.1 := by
  obtain ⟨a, i⟩ := item
  obtain ⟨after, at_place⟩ := List.mk_mem_zipIdx_iff_le_and_getElem?_sub.mp mem
  have inside := (List.getElem?_eq_some_iff.mp at_place).1
  rw [page, List.getElem?_take] at at_place
  split at at_place
  · rw [List.getElem?_drop, Nat.add_sub_cancel' after] at at_place
    have bound := (List.getElem?_eq_some_iff.mp at_place).1
    refine ⟨?_, after, by simp only; omega, at_place⟩
    rw [start] at after
    simp only
    omega
  · cases at_place

theorem before_start {reader : Reader A} (follows : reader.Follows first) {place : Nat}
    (next : reader.next = some place) {item : A × Nat} (mem : item ∈ reader.received) :
    item.2 < start limit reader.stream place := by
  have here := (follows.onward place next).2
  have passed := (follows.within item mem).2
  have present := (List.getElem?_eq_some_iff.mp (follows.genuine item mem)).1
  rw [start]
  omega

theorem step_follows {reader : Reader A} (follows : reader.Follows first) (event : Event A) :
    (reader.step limit event).Follows first := by
  cases event with
  | push items =>
    refine ⟨follows.onward, follows.ordered, follows.within, fun item mem => ?_⟩
    have present := follows.genuine item mem
    rw [step, List.getElem?_append_left (List.getElem?_eq_some_iff.mp present).1, present]
  | read count =>
    rw [step]
    cases next : reader.next with
    | none => simpa only [next] using follows
    | some place =>
      have here := follows.onward place next
      refine ⟨?_, ?_, ?_, ?_⟩
      · intro further more
        simp only [page] at more ⊢
        split at more
        · next inside =>
          cases more
          rw [List.length_take, List.length_drop]
          rw [start] at inside ⊢
          omega
        · cases more
      · rw [List.map_append, List.pairwise_append, List.zipIdx_map_snd]
        refine ⟨follows.ordered, List.pairwise_lt_range', fun i old j new => ?_⟩
        obtain ⟨item, mem, rfl⟩ := List.mem_map.mp old
        have before : item.2 < start limit reader.stream place := before_start follows next mem
        have after := (List.mem_range'_1.mp new).1
        omega
      · intro item mem
        rcases List.mem_append.mp mem with old | new
        · exact ⟨(follows.within item old).1, Nat.lt_add_right _ (before_start follows next old)⟩
        · obtain ⟨beyond, -, inside, -⟩ := mem_page new
          exact ⟨Nat.le_trans here.1 beyond, inside⟩
      · intro item mem
        rcases List.mem_append.mp mem with old | new
        · exact follows.genuine item old
        · exact (mem_page new).2.2.2

theorem run_append (events : List (Event A)) (event : Event A) :
    run limit first (events ++ [event]) = (run limit first events).step limit event := by
  rw [run, List.foldl_append]
  rfl

theorem run_stream (events : List (Event A)) :
    (run limit first events).stream = events.flatMap Event.pushed := by
  induction events using List.reverseRecOn with
  | nil => rfl
  | append_singleton events event ih =>
    rw [run_append, List.flatMap_append, List.flatMap_singleton, ← ih]
    cases event with
    | push items => rfl
    | read count =>
      rw [step, Event.pushed, List.append_nil]
      cases (run limit first events).next <;> rfl

theorem follows (limit first : Nat) (events : List (Event A)) :
    (run limit first events).Follows first := by
  induction events using List.reverseRecOn with
  | nil =>
    refine ⟨fun place here => ?_, List.Pairwise.nil, nofun, nofun⟩
    cases here
    exact ⟨Nat.le_refl _, rfl⟩
  | append_singleton events event ih => rw [run_append]; exact step_follows ih event

theorem missed (events : List (Event A)) (place : Nat) (after : first ≤ place)
    (passed : place < (run limit first events).passed)
    (unread : place ∉ (run limit first events).received.map Prod.snd) :
    ∃ before later, events = before ++ later ∧
      (∃ next ∈ (run limit first before).next, next ≤ place) ∧
      place < dropped limit (run limit first before).stream := by
  induction events using List.reverseRecOn with
  | nil => exact absurd passed (Nat.not_lt.mpr after)
  | append_singleton events event ih =>
    have earlier (passed : place < (run limit first events).passed)
        (unread : place ∉ (run limit first events).received.map Prod.snd) : ∃ before later,
        events ++ [event] = before ++ later ∧
        (∃ next ∈ (run limit first before).next, next ≤ place) ∧
        place < dropped limit (run limit first before).stream := by
      obtain ⟨before, later, split, rest⟩ := ih passed unread
      exact ⟨before, later ++ [event], by rw [split, List.append_assoc], rest⟩
    rw [run_append] at passed unread
    cases event with
    | push items => exact earlier passed unread
    | read count =>
      rw [step] at passed unread
      cases next : (run limit first events).next with
      | none =>
        simp only [next] at passed unread
        exact earlier passed unread
      | some from_place =>
        simp only [next] at passed unread
        have here := ((follows limit first events).onward from_place next).2
        rw [List.map_append, List.mem_append, List.zipIdx_map_snd, List.mem_range'_1, not_or] at unread
        by_cases old : place < (run limit first events).passed
        · exact earlier old unread.1
        · refine ⟨events, _, rfl, ⟨from_place, next, by omega⟩, ?_⟩
          have skipped : place < start limit (run limit first events).stream from_place := by omega
          rw [start] at skipped
          omega

end Reader

end Tail
