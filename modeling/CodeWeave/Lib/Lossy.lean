import Mathlib.Data.List.Basic

/-! Machines that read one input at a time and write any number of outputs for it, and one of
them: reading a stream by the words of a code, with a stand-in for each longest part that begins
a word and does not end one. -/

universe u v w

structure Transducer (S : Type u) (I : Type v) (O : Type w) where
  step : S → I → S × List O

namespace Transducer

variable {S : Type u} {I : Type v} {O : Type w} (m : Transducer S I O)

def run : S → List I → S × List O
  | s, [] => (s, [])
  | s, i :: rest =>
    let (t, out) := m.step s i
    let (u, more) := run t rest
    (u, out ++ more)

@[simp] theorem run_nil (s : S) : m.run s [] = (s, []) := rfl

theorem run_cons (s : S) (i : I) (rest : List I) : m.run s (i :: rest) =
    ((m.run (m.step s i).1 rest).1, (m.step s i).2 ++ (m.run (m.step s i).1 rest).2) := rfl

@[simp] theorem run_singleton (s : S) (i : I) : m.run s [i] = m.step s i := by
  rw [run_cons, run_nil, List.append_nil]

theorem run_append (s : S) (xs ys : List I) : m.run s (xs ++ ys) =
    ((m.run (m.run s xs).1 ys).1, (m.run s xs).2 ++ (m.run (m.run s xs).1 ys).2) := by
  induction xs generalizing s with
  | nil => rfl
  | cons x xs ih => rw [List.cons_append, run_cons, ih, run_cons, List.append_assoc]

theorem run_forall {P : O → Prop} (each : ∀ s i, ∀ o ∈ (m.step s i).2, P o) (s : S)
    (xs : List I) : ∀ o ∈ (m.run s xs).2, P o := by
  induction xs generalizing s with
  | nil => exact nofun
  | cons x xs ih =>
    intro o mem
    rcases List.mem_append.mp mem with here | later
    · exact each s x o here
    · exact ih _ o later

end Transducer

/-- A code: what a word stands for, which parts properly begin a word, and what stands
for a part that is none. -/
structure Words (B : Type u) (C : Type v) where
  word : List B → Option C
  opens : List B → Bool
  standIn : C

inductive Reading (C : Type v)
  | word (c : C) (length : Nat)
  | broken (length : Nat)
  | cut

namespace Words

variable {B : Type u} {C : Type v} (w : Words B C)

def read : List B → List B → Reading C
  | _, [] => .cut
  | seen, b :: rest =>
    match w.word (seen ++ [b]) with
    | some c => .word c (seen.length + 1)
    | none => if w.opens (seen ++ [b]) then read (seen ++ [b]) rest
      else .broken (max 1 seen.length)

def feed (seen : List B) (b : B) : List B × List C :=
  match w.word (seen ++ [b]) with
  | some c => ([], [c])
  | none =>
    if w.opens (seen ++ [b]) then (seen ++ [b], [])
    else
      match seen with
      | [] => ([], [w.standIn])
      | _ :: _ =>
        match w.word [b] with
        | some c => ([], [w.standIn, c])
        | none => if w.opens [b] then ([b], [w.standIn]) else ([], [w.standIn, w.standIn])

def machine : Transducer (List B) B C := ⟨w.feed⟩

def flush : List B → List C
  | [] => []
  | _ :: _ => [w.standIn]

/-- A part the machine is left with when it has read just that part. -/
def Settled (seen : List B) : Prop := w.machine.run [] seen = (seen, [])

variable {w}

theorem settled_nil : w.Settled [] := rfl

theorem settled_feed {seen : List B} (settled : w.Settled seen) (b : B) :
    w.Settled (w.feed seen b).1 := by
  have alone (seen : List B) (settled : w.Settled seen) (unread : w.word (seen ++ [b]) = none)
      (opens : w.opens (seen ++ [b]) = true) : w.Settled (seen ++ [b]) := by
    have step : w.machine.step seen b = (seen ++ [b], []) := by
      simp only [machine, feed, unread, opens, if_true]
    rw [Settled, Transducer.run_append, settled, Transducer.run_singleton, step]
    rfl
  unfold feed
  cases unread : w.word (seen ++ [b]) with
  | some c => exact settled_nil
  | none =>
    by_cases opens : w.opens (seen ++ [b]) = true
    · simp only [opens, if_true]
      exact alone seen settled unread opens
    · simp only [opens, Bool.false_eq_true, if_false]
      cases seen with
      | nil => exact settled_nil
      | cons a seen =>
        cases single : w.word [b] with
        | some c => exact settled_nil
        | none =>
          by_cases starts : w.opens [b] = true
          · simp only [starts, if_true]
            exact alone [] settled_nil single starts
          · simp only [starts, Bool.false_eq_true, if_false]
            exact settled_nil

theorem settled_run {seen : List B} (settled : w.Settled seen) (bs : List B) :
    w.Settled (w.machine.run seen bs).1 := by
  induction bs generalizing seen with
  | nil => exact settled
  | cons b bs ih => exact ih (settled_feed settled b)

theorem Settled.run_append {seen : List B} (settled : w.Settled seen) (bs : List B) :
    w.machine.run [] (seen ++ bs) = w.machine.run seen bs := by
  rw [Transducer.run_append, settled]
  rfl

def Begins (w : Words B C) (all : List B) (out : List C) (length : Nat) : Prop :=
  0 < length ∧ length ≤ all.length ∧
    w.machine.run [] all = ((w.machine.run [] (all.drop length)).1,
      out ++ (w.machine.run [] (all.drop length)).2)

theorem feed_broken {seen : List B} {b : B} (unread : w.word (seen ++ [b]) = none)
    (closed : w.opens (seen ++ [b]) = false) (pending : seen ≠ []) :
    w.feed seen b = ((w.feed [] b).1, w.standIn :: (w.feed [] b).2) := by
  cases seen with
  | nil => exact absurd rfl pending
  | cons a seen =>
    unfold feed
    simp only [unread, closed, Bool.false_eq_true, if_false, List.nil_append]
    cases w.word [b] with
    | some c => rfl
    | none => cases w.opens [b] <;> rfl

theorem read_spec {seen : List B} (settled : w.Settled seen) (bs : List B) :
    match w.read seen bs with
    | .word c n => w.Begins (seen ++ bs) [c] n
    | .broken n => w.Begins (seen ++ bs) [w.standIn] n
    | .cut => w.machine.run [] (seen ++ bs) = (seen ++ bs, []) := by
  induction bs generalizing seen with
  | nil => rw [read, List.append_nil]; exact settled
  | cons b rest ih =>
    have whole : seen ++ b :: rest = (seen ++ [b]) ++ rest := by simp
    have step := settled.run_append (b :: rest)
    rw [Transducer.run_cons] at step
    rw [read]
    cases unread : w.word (seen ++ [b]) with
    | some c =>
      have fed : w.machine.step seen b = ([], [c]) := by simp only [machine, feed, unread]
      refine ⟨Nat.succ_pos _, by simp, ?_⟩
      rw [step, fed, whole, List.drop_left' (by simp)]
    | none =>
      cases opens : w.opens (seen ++ [b]) with
      | true =>
        have later : w.Settled (seen ++ [b]) := by
          have fed : w.feed seen b = (seen ++ [b], []) := by
            simp only [feed, unread, opens, if_true]
          have kept := settled_feed settled b
          rwa [fed] at kept
        simp only [if_true]
        rw [whole]
        exact ih later
      | false =>
        simp only [Bool.false_eq_true, if_false]
        cases seen with
        | nil =>
          have fed : w.machine.step [] b = ([], [w.standIn]) := by
            simp only [machine, feed, unread, opens, Bool.false_eq_true, if_false]
          refine ⟨Nat.one_pos, by simp, ?_⟩
          rw [step, fed]
          rfl
        | cons a seen =>
          have fed := feed_broken unread opens (List.cons_ne_nil a seen)
          have count : max 1 (a :: seen).length = (a :: seen).length := by simp
          refine ⟨by simp, by simp, ?_⟩
          rw [step, count, List.drop_left, Transducer.run_cons]
          simp only [machine, fed, List.cons_append, List.nil_append]

theorem read_word {bs : List B} {c : C} {n : Nat} (read : w.read [] bs = .word c n) :
    w.Begins bs [c] n := by
  have spec := read_spec (@settled_nil _ _ w) bs
  rwa [read] at spec

theorem read_broken {bs : List B} {n : Nat} (read : w.read [] bs = .broken n) :
    w.Begins bs [w.standIn] n := by
  have spec := read_spec (@settled_nil _ _ w) bs
  rwa [read] at spec

theorem read_cut {bs : List B} (read : w.read [] bs = .cut) : w.machine.run [] bs = (bs, []) := by
  have spec := read_spec (@settled_nil _ _ w) bs
  rwa [read] at spec

theorem read_take {seen bs : List B} {c : C} {n : Nat} (read : w.read seen bs = .word c n) :
    seen.length < n ∧ ∀ k, n ≤ seen.length + k → w.read seen (bs.take k) = .word c n := by
  induction bs generalizing seen with
  | nil => exact absurd read nofun
  | cons b rest ih =>
    rw [Words.read] at read
    cases unread : w.word (seen ++ [b]) with
    | some d =>
      simp only [unread, Reading.word.injEq] at read
      obtain ⟨rfl, rfl⟩ := read
      refine ⟨Nat.lt_succ_self _, fun k far => ?_⟩
      obtain ⟨k, rfl⟩ := Nat.exists_eq_succ_of_ne_zero (n := k) (by omega)
      rw [List.take_succ_cons, Words.read]
      simp only [unread]
    | none =>
      cases opens : w.opens (seen ++ [b]) with
      | false => simp [unread, opens] at read
      | true =>
        simp only [unread, opens, if_true] at read
        obtain ⟨longer, later⟩ := ih read
        rw [List.length_append, List.length_singleton] at longer
        refine ⟨by omega, fun k far => ?_⟩
        obtain ⟨k, rfl⟩ := Nat.exists_eq_succ_of_ne_zero (n := k) (by omega)
        rw [List.take_succ_cons, Words.read]
        simp only [unread, opens, if_true]
        exact later k (by simp; omega)

theorem Begins.shorter {bs : List B} {out : List C} {n : Nat} (begins : w.Begins bs out n) :
    (bs.drop n).length < bs.length := by
  have pos := begins.1
  have bound := begins.2.1
  rw [List.length_drop]
  omega

variable (w)

/-- Where the reading of a text stops that does not consist of words alone: after how
much, and how long a part is none, unless the text ends in it. -/
structure Stop where
  validUpTo : Nat
  errorLen : Option {n : Nat // 0 < n}

def parse (bs : List B) : Except Stop (List C) :=
  match bs with
  | [] => .ok []
  | b :: rest =>
    match h : w.read [] (b :: rest) with
    | .word c n =>
      match parse ((b :: rest).drop n) with
      | .ok cs => .ok (c :: cs)
      | .error stop => .error { stop with validUpTo := n + stop.validUpTo }
    | .broken n => .error ⟨0, some ⟨n, (read_broken h).1⟩⟩
    | .cut => .error ⟨0, none⟩
termination_by bs.length
decreasing_by exact (read_word h).shorter

def decode (bs : List B) : List C :=
  match bs with
  | [] => []
  | b :: rest =>
    match _read : w.read [] (b :: rest) with
    | .word c n => c :: decode ((b :: rest).drop n)
    | .broken n => w.standIn :: decode ((b :: rest).drop n)
    | .cut => [w.standIn]
termination_by bs.length
decreasing_by
  · exact (read_word _read).shorter
  · exact (read_broken _read).shorter

variable {w}

theorem parse_of_word {bs : List B} {c : C} {n : Nat} (read : w.read [] bs = .word c n) :
    w.parse bs = match w.parse (bs.drop n) with
      | .ok cs => .ok (c :: cs)
      | .error stop => .error { stop with validUpTo := n + stop.validUpTo } := by
  cases bs with
  | nil => exact absurd read nofun
  | cons b rest => rw [parse]; split <;> simp_all

/-- What the machine does with a text: it writes the words there are before the reading
stops, and goes on after the part that is none. -/
def Parses (w : Words B C) (bs : List B) : Except Stop (List C) → Prop
  | .ok cs => w.machine.run [] bs = ([], cs)
  | .error ⟨k, errorLen⟩ => ∃ cs, w.parse (bs.take k) = .ok cs ∧
    match errorLen with
    | none => w.machine.run [] bs = (bs.drop k, cs)
    | some n => k + n ≤ bs.length ∧ w.machine.run [] bs =
      ((w.machine.run [] (bs.drop (k + n))).1,
        cs ++ w.standIn :: (w.machine.run [] (bs.drop (k + n))).2)

theorem parse_spec (bs : List B) : w.Parses bs (w.parse bs) := by
  induction bs using Words.parse.induct w with
  | case1 => rw [parse]; rfl
  | case2 b rest c n read cs parsed ih =>
    obtain ⟨-, bound, run⟩ := read_word read
    rw [parsed] at ih
    rw [parse_of_word read, parsed]
    rw [Parses] at ih ⊢
    rw [run, ih]
    rfl
  | case3 b rest c n read stop parsed ih =>
    obtain ⟨-, bound, run⟩ := read_word read
    obtain ⟨k, errorLen⟩ := stop
    rw [parsed] at ih
    rw [parse_of_word read, parsed]
    obtain ⟨cs, before, after⟩ := ih
    have front : w.read [] ((b :: rest).take (n + k)) = .word c n :=
      (read_take read).2 (n + k) (by simp)
    have upTo : ((b :: rest).take (n + k)).drop n = ((b :: rest).drop n).take k := by
      rw [List.drop_take, Nat.add_sub_cancel_left]
    refine ⟨c :: cs, ?_, ?_⟩
    · rw [parse_of_word front, upTo, before]
    · cases errorLen with
      | none =>
        simp only at after ⊢
        rw [run, after, List.drop_drop]
        rfl
      | some m =>
        obtain ⟨fits, ran⟩ := after
        simp only [List.length_drop] at fits
        rw [List.drop_drop, ← Nat.add_assoc] at ran
        refine ⟨by simp only; omega, ?_⟩
        rw [run, ran]
        rfl
  | case4 b rest n read =>
    obtain ⟨pos, bound, run⟩ := read_broken read
    have stops : w.parse (b :: rest) = .error ⟨0, some ⟨n, pos⟩⟩ := by
      rw [parse]; split <;> simp_all
    rw [stops]
    refine ⟨[], by rw [List.take_zero, parse], by simpa using bound, ?_⟩
    simpa using run
  | case5 b rest read =>
    have stops : w.parse (b :: rest) = .error ⟨0, none⟩ := by
      rw [parse]; split <;> simp_all
    rw [stops]
    exact ⟨[], by rw [List.take_zero, parse], read_cut read⟩

theorem decode_eq (bs : List B) :
    w.decode bs = (w.machine.run [] bs).2 ++ w.flush (w.machine.run [] bs).1 := by
  induction bs using Words.decode.induct w with
  | case1 => rw [decode]; rfl
  | case2 b rest c n read ih =>
    have step : w.decode (b :: rest) = c :: w.decode ((b :: rest).drop n) := by
      rw [decode]; split <;> simp_all
    rw [step, ih, (read_word read).2.2]
    rfl
  | case3 b rest n read ih =>
    have step : w.decode (b :: rest) = w.standIn :: w.decode ((b :: rest).drop n) := by
      rw [decode]; split <;> simp_all
    rw [step, ih, (read_broken read).2.2]
    rfl
  | case4 b rest read =>
    have step : w.decode (b :: rest) = [w.standIn] := by
      rw [decode]; split <;> simp_all
    rw [step, read_cut read]
    rfl

/-- What is pending reads as its stand-in. -/
theorem Settled.decode {seen : List B} (settled : w.Settled seen) : w.decode seen = w.flush seen := by
  rw [decode_eq, settled]
  rfl

end Words
