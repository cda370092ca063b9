import CodeWeave.Defs.Bash.Output
import CodeWeave.Lib.Tail

namespace CodeWeave

theorem byteAtChar_eq (value : Text) (chars : Nat) :
    byteAtChar value chars = utf8Count (value.take chars) := by
  rw [byteAtChar, charIndices_getElem?]
  split
  · rw [Option.getD_some, Nat.zero_add]
  · next beyond => rw [Option.getD_none, List.take_of_length_le (by omega)]

theorem dropBytes_byteAtChar (value : Text) (chars : Nat) :
    dropBytes value (byteAtChar value chars) = value.drop chars := by
  rw [byteAtChar_eq]
  conv => lhs; arg 1; rw [← List.take_append_drop chars value]
  rw [dropBytes_append]

theorem takeBytes_byteAtChar (value : Text) (chars : Nat) :
    takeBytes value (byteAtChar value chars) = value.take chars := by
  rw [byteAtChar_eq]
  conv => lhs; arg 1; rw [← List.take_append_drop chars value]
  rw [takeBytes_append]

theorem byteAtChar_lt (value : Text) (chars : Nat) :
    byteAtChar value chars < utf8Count value ↔ chars < value.length := by
  rw [byteAtChar_eq]
  conv => lhs; rhs; rw [← List.take_append_drop chars value, utf8Count_append]
  have empty := @utf8Count_eq_zero (value.drop chars)
  rw [List.drop_eq_nil_iff] at empty
  omega

structure TailBuffer.Holds (buffer : TailBuffer) (stream : Text) : Prop where
  split : ∃ dead, buffer.text = dead ++ Tail.kept buffer.limit stream ∧
    buffer.start = utf8Count dead
  retained : buffer.retainedChars = (Tail.kept buffer.limit stream).length
  dropped : buffer.droppedChars = Tail.dropped buffer.limit stream

namespace TailBuffer

variable {buffer : TailBuffer} {stream : Text}

@[simp] theorem push_limit (text : Text) : (buffer.push text).limit = buffer.limit := by
  simp only [push]
  split
  · rfl
  · split <;> rfl

theorem holds_new (limit : Nat) : (new limit).Holds [] where
  split := ⟨[], by simp [new, Tail.kept], rfl⟩
  retained := by simp [new, Tail.kept]
  dropped := by simp [new, Tail.dropped]

theorem Holds.retained_eq (holds : buffer.Holds stream) :
    buffer.retained = Tail.kept buffer.limit stream := by
  obtain ⟨dead, text, start⟩ := holds.split
  rw [TailBuffer.retained, text, start, dropBytes_append]

theorem Holds.compact (holds : buffer.Holds stream) :
    { buffer with text := dropBytes buffer.text buffer.start, start := 0 : TailBuffer }.Holds
      stream where
  split := ⟨[], by rw [List.nil_append]; exact holds.retained_eq, rfl⟩
  retained := holds.retained
  dropped := holds.dropped

theorem advance_eq (dead live : Text) (excess : Nat) :
    utf8Count dead + ((charIndices 0 (dropBytes (dead ++ live) (utf8Count dead)))[excess]?).getD
      (utf8Count (dead ++ live) - utf8Count dead) = utf8Count (dead ++ live.take excess) := by
  rw [dropBytes_append, utf8Count_append, Nat.add_sub_cancel_left, utf8Count_append,
    ← byteAtChar_eq, byteAtChar]

theorem Holds.push (holds : buffer.Holds stream) (text : Text) :
    (buffer.push text).Holds (stream ++ text) := by
  obtain ⟨dead, held, start⟩ := holds.split
  have kept := Tail.kept_append buffer.limit stream text
  have dropped := Tail.dropped_append buffer.limit stream text
  have whole : buffer.text ++ text = dead ++ (Tail.kept buffer.limit stream ++ text) := by
    rw [held, List.append_assoc]
  rw [TailBuffer.push]
  simp only [holds.retained, start]
  by_cases fits : (Tail.kept buffer.limit stream).length + text.length ≤ buffer.limit
  · rw [if_pos fits]
    rw [Nat.sub_eq_zero_of_le fits] at kept dropped
    refine ⟨⟨dead, ?_, rfl⟩, ?_, ?_⟩
    · rw [kept, List.drop_zero, whole]
    · rw [kept, List.drop_zero, List.length_append]
    · rw [dropped, holds.dropped, Nat.add_zero]
  · rw [if_neg fits]
    simp only [whole, advance_eq]
    generalize (Tail.kept buffer.limit stream).length + text.length - buffer.limit = excess at *
    have advanced : TailBuffer.Holds ⟨dead ++ (Tail.kept buffer.limit stream ++ text),
        utf8Count (dead ++ (Tail.kept buffer.limit stream ++ text).take excess),
        (Tail.kept buffer.limit stream).length + text.length - excess,
        buffer.droppedChars + excess, buffer.limit⟩ (stream ++ text) := by
      refine ⟨⟨_, ?_, rfl⟩, ?_, ?_⟩
      · rw [kept, List.append_assoc, List.take_append_drop]
      · rw [kept, List.length_drop, List.length_append]
      · rw [dropped, holds.dropped]
    split
    · exact advanced.compact
    · exact advanced

theorem Holds.page (holds : buffer.Holds stream) (offset maxChars : Nat) :
    buffer.page offset maxChars = ⟨(Tail.page buffer.limit stream offset maxChars).1,
      (Tail.page buffer.limit stream offset maxChars).2⟩ := by
  have total := Tail.dropped_add_length_kept buffer.limit stream
  have skip : Tail.dropped buffer.limit stream + min (offset - Tail.dropped buffer.limit stream)
      (Tail.kept buffer.limit stream).length = Tail.start buffer.limit stream offset := by
    rw [Tail.start]
    omega
  have rest : (Tail.kept buffer.limit stream).drop (min (offset - Tail.dropped buffer.limit stream)
      (Tail.kept buffer.limit stream).length) =
      stream.drop (Tail.start buffer.limit stream offset) := by
    rw [Tail.kept, List.drop_drop, ← Tail.kept, skip]
  rw [TailBuffer.page, Tail.page]
  simp only [holds.retained_eq, holds.retained, holds.dropped, dropBytes_byteAtChar,
    takeBytes_byteAtChar, byteAtChar_lt, rest, skip, Page.mk.injEq, true_and, List.length_drop,
    Nat.lt_sub_iff_add_lt']
  by_cases more : Tail.start buffer.limit stream offset + maxChars < stream.length
  · rw [if_pos more, if_pos more, List.length_take, List.length_drop, Nat.min_eq_left (by omega)]
  · rw [if_neg more, if_neg more]

theorem new_pushed (limit : Nat) (texts : List Text) :
    (texts.foldl push (new limit)).limit = limit ∧
      (texts.foldl push (new limit)).Holds texts.flatten := by
  induction texts using List.reverseRecOn with
  | nil => exact ⟨rfl, holds_new limit⟩
  | append_singleton texts text ih =>
    rw [List.foldl_append, List.flatten_append, List.flatten_singleton]
    exact ⟨(push_limit text).trans ih.1, ih.2.push text⟩

end TailBuffer

/-- A client that reads the pages of a stream one after another while more is pushed:
the offset of the next page if there is one, the offset after the pages received, and
each character received with its offset. -/
structure Follower where
  buffer : TailBuffer
  next : Option Nat
  passed : Nat
  received : List (Char × Nat)

namespace Follower

def new (limit first : Nat) : Follower := ⟨.new limit, some first, first, []⟩

def step (follower : Follower) : Tail.Event Char → Follower
  | .push text => { follower with buffer := follower.buffer.push text }
  | .read maxChars =>
    match follower.next with
    | none => follower
    | some offset =>
      let page := follower.buffer.page offset maxChars
      let start := min (max offset follower.buffer.droppedChars) follower.buffer.totalChars
      ⟨follower.buffer, page.next, start + page.text.length,
        follower.received ++ page.text.zipIdx start⟩

def run (limit first : Nat) (events : List (Tail.Event Char)) : Follower :=
  events.foldl step (new limit first)

structure Follows (limit : Nat) (follower : Follower) (reader : Tail.Reader Char) : Prop where
  limited : follower.buffer.limit = limit
  holds : follower.buffer.Holds reader.stream
  next : follower.next = reader.next
  passed : follower.passed = reader.passed
  received : follower.received = reader.received

theorem Follows.step {limit : Nat} {follower : Follower} {reader : Tail.Reader Char}
    (follows : Follows limit follower reader) (event : Tail.Event Char) :
    Follows limit (follower.step event) (reader.step limit event) := by
  cases event with
  | push text =>
    exact ⟨(TailBuffer.push_limit text).trans follows.limited, follows.holds.push text,
      follows.next, follows.passed, follows.received⟩
  | read maxChars =>
    have total : follower.buffer.totalChars = reader.stream.length := by
      rw [TailBuffer.totalChars, follows.holds.dropped, follows.holds.retained,
        Tail.dropped_add_length_kept]
    rw [Follower.step, Tail.Reader.step, follows.next]
    cases reader.next with
    | none => exact follows
    | some offset =>
      simp only [follows.holds.page, total, follows.holds.dropped, follows.limited]
      exact ⟨follows.limited, follows.holds, rfl, rfl, by rw [follows.received]; rfl⟩

theorem run_follows (limit first : Nat) (events : List (Tail.Event Char)) :
    Follows limit (run limit first events) (Tail.Reader.run limit first events) := by
  induction events using List.reverseRecOn with
  | nil => exact ⟨rfl, TailBuffer.holds_new limit, rfl, rfl, rfl⟩
  | append_singleton events event ih =>
    rw [Tail.Reader.run_append, run, List.foldl_append]
    exact ih.step event

end Follower

end CodeWeave
