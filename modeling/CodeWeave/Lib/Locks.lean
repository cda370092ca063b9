import CodeWeave.Lib.Runs
import Mathlib.Algebra.BigOperators.Group.Finset.Basic
import Mathlib.Data.Set.Finite.Lemmas

/-! Calls that take ranked locks in nested blocks, run side by side. -/

universe u v w x

namespace Locks

open Runs

variable {L : Type u} {A : Type v} {N : Type w} {I : Type x}

inductive Mode
  | shared
  | exclusive
  deriving DecidableEq

/-- The locks a call takes and the actions it carries out under them. What it decides by
its data is left open: `leave` returns from the enclosing `call`, with every lock taken in
it given back. -/
inductive Program (L : Type u) (A : Type v) (N : Type w)
  | skip
  | act (a : A)
  | leave
  | hold (l : L) (m : Mode) (body : Program L A N)
  | seq (first second : Program L A N)
  | either (first second : Program L A N)
  | any (body : N → Program L A N)
  | many (body : Program L A N)
  | call (body : Program L A N)

inductive Op (L : Type u) (A : Type v)
  | acquire (l : L) (m : Mode)
  | release (l : L) (m : Mode)
  | act (a : A)

inductive Trace : Program L A N → List (Op L A) → Bool → Prop
  | skip : Trace .skip [] false
  | act {a} : Trace (.act a) [.act a] false
  | leave : Trace .leave [] true
  | hold {l m body ops left} : Trace body ops left →
      Trace (.hold l m body) (.acquire l m :: (ops ++ [.release l m])) left
  | seq {first second ops more left} : Trace first ops false → Trace second more left →
      Trace (.seq first second) (ops ++ more) left
  | seq_left {first second ops} : Trace first ops true → Trace (.seq first second) ops true
  | first {first second ops left} : Trace first ops left → Trace (.either first second) ops left
  | second {first second ops left} : Trace second ops left → Trace (.either first second) ops left
  | any {body : N → Program L A N} {ops left} (n : N) : Trace (body n) ops left →
      Trace (.any body) ops left
  | many_nil {body} : Trace (.many body) [] false
  | many_cons {body ops more left} : Trace body ops false → Trace (.many body) more left →
      Trace (.many body) (ops ++ more) left
  | many_left {body ops} : Trace body ops true → Trace (.many body) ops true
  | call {body ops left} : Trace body ops left → Trace (.call body) ops false

variable (level : L → ℕ) (needs : A → List (L × Mode))

def Orderly : List (L × Mode) → Program L A N → Prop
  | _, .skip => True
  | held, .act a => needs a ⊆ held
  | _, .leave => True
  | held, .hold l m body =>
    (∀ taken ∈ held, level taken.1 < level l) ∧ Orderly ((l, m) :: held) body
  | held, .seq first second => Orderly held first ∧ Orderly held second
  | held, .either first second => Orderly held first ∧ Orderly held second
  | held, .any body => ∀ n, Orderly held (body n)
  | held, .many body => Orderly held body
  | held, .call body => Orderly held body

def Disciplined : List (L × Mode) → List (Op L A) → Prop
  | held, [] => held = []
  | held, .acquire l m :: ops =>
    (∀ taken ∈ held, level taken.1 < level l) ∧ Disciplined ((l, m) :: held) ops
  | held, .release l m :: ops => ∃ rest, held = (l, m) :: rest ∧ Disciplined rest ops
  | held, .act a :: ops => needs a ⊆ held ∧ Disciplined held ops

variable {level needs}

theorem Trace.disciplined {p : Program L A N} {ops : List (Op L A)} {left : Bool}
    (trace : Trace p ops left) {held : List (L × Mode)} (orderly : Orderly level needs held p)
    {rest : List (Op L A)} (after : Disciplined level needs held rest) :
    Disciplined level needs held (ops ++ rest) := by
  induction trace generalizing held rest with
  | skip | leave | many_nil => exact after
  | act => exact ⟨orderly, after⟩
  | hold _ ih =>
    refine ⟨orderly.1, ?_⟩
    rw [List.append_eq, List.append_assoc]
    exact ih orderly.2 ⟨held, rfl, after⟩
  | seq _ _ ih ih' =>
    rw [List.append_assoc]
    exact ih orderly.1 (ih' orderly.2 after)
  | seq_left _ ih => exact ih orderly.1 after
  | first _ ih => exact ih orderly.1 after
  | second _ ih => exact ih orderly.2 after
  | any n _ ih => exact ih (orderly n) after
  | many_cons _ _ ih ih' =>
    rw [List.append_assoc]
    exact ih orderly (ih' orderly after)
  | many_left _ ih => exact ih orderly after
  | call _ ih => exact ih orderly after

/-- The calls in progress: what each still has to do and what it holds, and what has been done
by whom, the last first. -/
structure Config (I : Type x) (L : Type u) (A : Type v) where
  todo : I → List (Op L A)
  held : I → List (L × Mode)
  past : List (I × Op L A)

namespace Config

def start (todo : I → List (Op L A)) : Config I L A := ⟨todo, fun _ => [], []⟩

variable (c : Config I L A)

def Done : Prop := ∀ i, c.todo i = []

def Waits (i : I) (l : L) : Prop := ∃ m ops, c.todo i = .acquire l m :: ops

def Free (l : L) : Prop := ∀ i m, (l, m) ∉ c.held i

def Compatible (l : L) (m : Mode) : Prop :=
  ∀ i m', (l, m') ∈ c.held i → m = .shared ∧ m' = .shared

def Next (i : I) (a : A) : Prop := ∃ ops, c.todo i = .act a :: ops

end Config

structure Good (level : L → ℕ) (needs : A → List (L × Mode)) (c : Config I L A) : Prop where
  disciplined : ∀ i, Disciplined level needs (c.held i) (c.todo i)
  sorted : ∀ i, (c.held i).Pairwise fun last earlier => level earlier.1 < level last.1
  apart : ∀ i j l m m', i ≠ j → (l, m) ∈ c.held i → (l, m') ∈ c.held j →
    m = .shared ∧ m' = .shared

variable {c d : Config I L A} {i : I}

theorem good_start {todo : I → List (Op L A)}
    (disciplined : ∀ i, Disciplined level needs [] (todo i)) :
    Good level needs (Config.start todo) where
  disciplined := disciplined
  sorted _ := .nil
  apart _ _ _ _ _ _ mem := absurd mem List.not_mem_nil

theorem Good.unfinished (good : Good level needs c) {taken : L × Mode} (mem : taken ∈ c.held i) :
    c.todo i ≠ [] := by
  intro done
  have empty := good.disciplined i
  rw [done] at empty
  rw [Disciplined.eq_1] at empty
  rw [empty] at mem
  cases mem

def Config.awaits (level : L → ℕ) (c : Config I L A) (i : I) : ℕ :=
  match c.todo i with
  | .acquire l _ :: _ => level l
  | _ => 0

theorem Config.Waits.awaits {l : L} (waits : c.Waits i l) : c.awaits level i = level l := by
  obtain ⟨m, ops, next⟩ := waits
  rw [Config.awaits, next]

theorem Good.higher (good : Good level needs c) {l l' : L} {m : Mode} (mem : (l, m) ∈ c.held i)
    (waits : c.Waits i l') : level l < level l' := by
  obtain ⟨m', ops, next⟩ := waits
  have disciplined := good.disciplined i
  rw [next] at disciplined
  exact disciplined.1 _ mem

theorem Good.needed (good : Good level needs c) {a : A} (next : c.Next i a) :
    needs a ⊆ c.held i := by
  obtain ⟨ops, eq⟩ := next
  have disciplined := good.disciplined i
  rw [eq] at disciplined
  exact disciplined.1

theorem Good.excludes (good : Good level needs c) {j : I} {l : L} {m m' : Mode} {a : A}
    (mem : (l, m) ∈ c.held i) (needed : (l, m') ∈ needs a) (other : i ≠ j)
    (exclusive : m = .exclusive ∨ m' = .exclusive) : ¬c.Next j a := fun next => by
  have both := good.apart i j l m m' other mem (good.needed next needed)
  rcases exclusive with rfl | rfl
  · cases both.1
  · cases both.2

/-- Whom the locks let in: nobody beside an excluded holder, and somebody when nobody holds the
lock that is waited for. Which waiter, and after what, is left open. -/
structure Policy (I : Type x) (L : Type u) (A : Type v) where
  grants : Config I L A → I → Prop
  compatible {c : Config I L A} {i : I} {l : L} {m : Mode} {ops : List (Op L A)} :
    grants c i → c.todo i = .acquire l m :: ops → c.Compatible l m
  lively {c : Config I L A} {i : I} {l : L} :
    c.Waits i l → c.Free l → ∃ j, c.Waits j l ∧ grants c j

def Policy.eager : Policy I L A where
  grants c i := ∀ l m ops, c.todo i = .acquire l m :: ops → c.Compatible l m
  compatible granted next := granted _ _ _ next
  lively {c i l} waits free := ⟨i, waits, fun l' m ops next => by
    obtain ⟨m', ops', eq⟩ := waits
    rw [eq] at next
    cases next
    exact fun j taken mem => absurd mem (free j taken)⟩

/-- A reader also waits behind every writer that waits. -/
def Policy.writersFirst : Policy I L A where
  grants c i := ∀ l m ops, c.todo i = .acquire l m :: ops → c.Compatible l m ∧
    (m = .shared → ∀ j ops', c.todo j ≠ .acquire l .exclusive :: ops')
  compatible granted next := (granted _ _ _ next).1
  lively {c i l} waits free := by
    have compatible (m : Mode) : c.Compatible l m := fun j taken mem => absurd mem (free j taken)
    by_cases writer : ∃ j ops, c.todo j = .acquire l .exclusive :: ops
    · obtain ⟨j, ops, eq⟩ := writer
      refine ⟨j, ⟨_, _, eq⟩, fun l' m ops' next => ?_⟩
      rw [eq] at next
      cases next
      exact ⟨compatible _, fun shared => by cases shared⟩
    · refine ⟨i, waits, fun l' m ops next => ?_⟩
      obtain ⟨m', ops', eq⟩ := waits
      rw [eq] at next
      cases next
      exact ⟨compatible _, fun _ j ops' waiting => writer ⟨j, ops', waiting⟩⟩

def Op.after [DecidableEq L] : Op L A → List (L × Mode) → List (L × Mode)
  | .acquire l m, held => (l, m) :: held
  | .release l m, held => held.erase (l, m)
  | .act _, held => held

variable [DecidableEq I] [DecidableEq L]

def Config.advance (c : Config I L A) (i : I) (op : Op L A) (ops : List (Op L A)) : Config I L A :=
  ⟨Function.update c.todo i ops, Function.update c.held i (op.after (c.held i)), (i, op) :: c.past⟩

inductive Step (policy : Policy I L A) : Config I L A → I → Config I L A → Prop
  | step {c : Config I L A} {i : I} {op : Op L A} {ops : List (Op L A)}
      (next : c.todo i = op :: ops) (granted : ∀ l, c.Waits i l → policy.grants c i) :
      Step policy c i (c.advance i op ops)

variable {policy : Policy I L A}

theorem mem_after {op : Op L A} {held : List (L × Mode)} {taken : L × Mode}
    (mem : taken ∈ op.after held) : taken ∈ held ∨ op = .acquire taken.1 taken.2 := by
  cases op with
  | acquire l m =>
    rcases List.mem_cons.mp mem with rfl | mem
    · exact .inr rfl
    · exact .inl mem
  | release l m => exact .inl (List.mem_of_mem_erase mem)
  | act a => exact .inl mem

theorem Disciplined.after {op : Op L A} {ops : List (Op L A)} {held : List (L × Mode)}
    (disciplined : Disciplined level needs held (op :: ops)) :
    Disciplined level needs (op.after held) ops := by
  cases op with
  | acquire l m => exact disciplined.2
  | release l m =>
    obtain ⟨rest, rfl, after⟩ := disciplined
    rw [Op.after, List.erase_cons_head]
    exact after
  | act a => exact disciplined.2

theorem Disciplined.sorted {op : Op L A} {ops : List (Op L A)} {held : List (L × Mode)}
    (disciplined : Disciplined level needs held (op :: ops))
    (sorted : held.Pairwise fun last earlier => level earlier.1 < level last.1) :
    (op.after held).Pairwise fun last earlier => level earlier.1 < level last.1 := by
  cases op with
  | acquire l m => exact .cons disciplined.1 sorted
  | release l m => exact sorted.sublist List.erase_sublist
  | act a => exact sorted

theorem Good.step (good : Good level needs c) (step : Step policy c i d) :
    Good level needs d := by
  obtain ⟨next, granted⟩ := step
  rename_i op ops
  have fresh {j : I} {l : L} {m m' : Mode} (mem : (l, m) ∈ op.after (c.held i))
      (mem' : (l, m') ∈ c.held j) (other : i ≠ j) : m = .shared ∧ m' = .shared := by
    rcases mem_after mem with mem | rfl
    · exact good.apart i j l m m' other mem mem'
    · exact policy.compatible (granted l ⟨m, ops, next⟩) next j m' mem'
  constructor
  · intro j
    by_cases same : j = i
    · subst same
      simp only [Config.advance, Function.update_self]
      exact (next ▸ good.disciplined j).after
    · simp only [Config.advance, Function.update_of_ne same]
      exact good.disciplined j
  · intro j
    by_cases same : j = i
    · subst same
      simp only [Config.advance, Function.update_self]
      exact (next ▸ good.disciplined j).sorted (good.sorted j)
    · simp only [Config.advance, Function.update_of_ne same]
      exact good.sorted j
  · intro j k l m m' other mem mem'
    simp only [Config.advance] at mem mem'
    by_cases first : j = i
    · subst first
      rw [Function.update_self] at mem
      rw [Function.update_of_ne other.symm] at mem'
      exact fresh mem mem' other
    · rw [Function.update_of_ne first] at mem
      by_cases second : k = i
      · subst second
        rw [Function.update_self] at mem'
        exact (fresh mem' mem (Ne.symm first)).symm
      · rw [Function.update_of_ne second] at mem'
        exact good.apart j k l m m' other mem mem'

theorem Good.run {is : List I} (good : Good level needs c) (run : Run (Step policy) c is d) :
    Good level needs d :=
  run.invariant _ (fun _ _ _ good step => good.step step) good

theorem mem_after_of_ne {op : Op L A} {held : List (L × Mode)} {l : L} {m : Mode}
    (acquires : op ≠ .acquire l m) (releases : op ≠ .release l m) :
    (l, m) ∈ op.after held ↔ (l, m) ∈ held := by
  cases op with
  | acquire l' m' =>
    refine ⟨fun mem => ?_, .tail _⟩
    rcases List.mem_cons.mp mem with same | mem
    · cases same
      exact absurd rfl acquires
    · exact mem
  | release l' m' =>
    refine List.mem_erase_of_ne fun same => ?_
    cases same
    exact releases rfl
  | act a => exact Iff.rfl

variable (needs) in
/-- The operation takes the lock for its call alone, gives it back, or needs it so. -/
def Op.concerns (lock : L) : Op L A → Bool
  | .acquire l m | .release l m => (l, m) = (lock, .exclusive)
  | .act a => (lock, .exclusive) ∈ needs a

variable (needs) in
/-- Sections of the lock one after the other, the last first, and who is in one at the end. -/
inductive Serial (lock : L) : List (I × Op L A) → Option I → Prop
  | nil : Serial lock [] none
  | enter {past i} : Serial lock past none →
      Serial lock ((i, .acquire lock .exclusive) :: past) (some i)
  | act {past i a} : Serial lock past (some i) → (lock, .exclusive) ∈ needs a →
      Serial lock ((i, .act a) :: past) (some i)
  | exit {past i} : Serial lock past (some i) →
      Serial lock ((i, .release lock .exclusive) :: past) none

variable (needs) in
def Config.history (c : Config I L A) (lock : L) : List (I × Op L A) :=
  c.past.filter fun done => done.2.concerns needs lock

theorem Config.history_of_concerned {lock : L} {op : Op L A} {ops : List (Op L A)}
    (concerned : op.concerns needs lock = true) :
    (c.advance i op ops).history needs lock = (i, op) :: c.history needs lock :=
  List.filter_cons_of_pos (a := (i, op)) concerned

theorem Config.history_of_unconcerned {lock : L} {op : Op L A} {ops : List (Op L A)}
    (unconcerned : ¬op.concerns needs lock = true) :
    (c.advance i op ops).history needs lock = c.history needs lock :=
  List.filter_cons_of_neg (a := (i, op)) unconcerned

variable (needs) in
def Sections (lock : L) (c : Config I L A) (inside : Option I) : Prop :=
  Serial needs lock (c.history needs lock) inside ∧
    ∀ i, (lock, .exclusive) ∈ c.held i ↔ inside = some i

theorem Op.acts {lock : L} {op : Op L A} (acquires : op ≠ .acquire lock .exclusive)
    (releases : op ≠ .release lock .exclusive) (concerned : op.concerns needs lock = true) :
    ∃ a, op = .act a ∧ (lock, .exclusive) ∈ needs a := by
  cases op with
  | acquire l m =>
    cases of_decide_eq_true concerned
    exact absurd rfl acquires
  | release l m =>
    cases of_decide_eq_true concerned
    exact absurd rfl releases
  | act a => exact ⟨a, rfl, of_decide_eq_true concerned⟩

theorem Sections.step {lock : L} {inside : Option I} (good : Good level needs c)
    (step : Step policy c i d) (sections : Sections needs lock c inside) :
    ∃ inside', Sections needs lock d inside' := by
  obtain ⟨serial, holder⟩ := sections
  obtain ⟨next, granted⟩ := step
  rename_i op ops
  have elsewhere {j : I} (other : j ≠ i) : (c.advance i op ops).held j = c.held j :=
    Function.update_of_ne other _ _
  have here : (c.advance i op ops).held i = op.after (c.held i) := Function.update_self ..
  have disciplined := next ▸ good.disciplined i
  by_cases acquires : op = .acquire lock .exclusive
  · have nobody : inside = none := Option.eq_none_iff_forall_ne_some.mpr fun j inside => by
      have compatible := policy.compatible (granted lock ⟨_, _, acquires ▸ next⟩) (acquires ▸ next)
      cases (compatible j _ ((holder j).mpr inside)).1
    subst acquires nobody
    refine ⟨some i, ?_, fun j => ?_⟩
    · rw [Config.history_of_concerned (by simp [Op.concerns])]
      exact .enter serial
    · by_cases same : j = i
      · subst same
        rw [here, Op.after]
        exact iff_of_true List.mem_cons_self rfl
      · rw [elsewhere same, holder j]
        exact iff_of_false nofun fun eq => same (Option.some.inj eq).symm
  by_cases releases : op = .release lock .exclusive
  · subst releases
    obtain ⟨rest, held, -⟩ := disciplined
    have mine : inside = some i := (holder i).mp (held ▸ List.mem_cons_self)
    subst mine
    refine ⟨none, ?_, fun j => ?_⟩
    · rw [Config.history_of_concerned (by simp [Op.concerns])]
      exact .exit serial
    · by_cases same : j = i
      · subst same
        have sorted := held ▸ good.sorted j
        rw [here, Op.after, held, List.erase_cons_head]
        exact iff_of_false
          (fun mem => absurd ((List.pairwise_cons.mp sorted).1 _ mem) (Nat.lt_irrefl _)) nofun
      · rw [elsewhere same, holder j]
        exact iff_of_false (fun eq => same (Option.some.inj eq).symm) nofun
  refine ⟨inside, ?_, fun j => ?_⟩
  · by_cases concerned : op.concerns needs lock = true
    · rw [Config.history_of_concerned concerned]
      obtain ⟨a, rfl, needed⟩ := Op.acts acquires releases concerned
      have mine : inside = some i := (holder i).mp (disciplined.1 needed)
      subst mine
      exact .act serial needed
    · rw [Config.history_of_unconcerned concerned]
      exact serial
  · by_cases same : j = i
    · subst same
      rw [here, mem_after_of_ne acquires releases, holder j]
    · rw [elsewhere same, holder j]

theorem Good.sections {todo : I → List (Op L A)} {is : List I}
    (good : Good level needs (Config.start todo)) (run : Run (Step policy) (.start todo) is c)
    (lock : L) : ∃ inside, Sections needs lock c inside := by
  refine (run.invariant (fun c => Good level needs c ∧ ∃ inside, Sections needs lock c inside)
    (fun c i d inv step => ?_) ⟨good, none, .nil, fun i => ?_⟩).2
  · obtain ⟨inside, sections⟩ := inv.2
    exact ⟨inv.1.step step, sections.step inv.1 step⟩
  · exact iff_of_false List.not_mem_nil nofun

theorem Good.progress [Finite I] (policy : Policy I L A) (good : Good level needs c)
    (unfinished : ¬c.Done) :
    ∃ i d, Step policy c i d := by
  by_contra stuck
  have waits (i : I) (left : c.todo i ≠ []) : ∃ l, c.Waits i l := by
    cases next : c.todo i with
    | nil => exact absurd next left
    | cons op ops =>
      cases op with
      | acquire l m => exact ⟨l, m, ops, next⟩
      | release | act =>
        refine absurd ⟨i, _, .step next fun l waiting => ?_⟩ stuck
        obtain ⟨m, ops', eq⟩ := waiting
        rw [next] at eq
        cases eq
  have refused (i : I) (l : L) (waiting : c.Waits i l) : ¬policy.grants c i := fun granted => by
    obtain ⟨m, ops, next⟩ := waiting
    exact stuck ⟨i, _, .step next fun _ _ => granted⟩
  obtain ⟨i, left, highest⟩ := Set.exists_max_image {i | c.todo i ≠ []} (c.awaits level)
    (Set.toFinite _) (not_forall.mp unfinished)
  obtain ⟨l, waiting⟩ := waits i left
  have free : c.Free l := fun j m mem => by
    have busy := good.unfinished mem
    obtain ⟨l', waiting'⟩ := waits j busy
    have below := highest j busy
    rw [waiting.awaits, waiting'.awaits] at below
    exact absurd (good.higher mem waiting') (Nat.not_lt.mpr below)
  obtain ⟨j, waiting', granted⟩ := policy.lively waiting free
  exact refused j l waiting' granted

def Config.left [Fintype I] (c : Config I L A) : ℕ := ∑ i, (c.todo i).length

theorem Step.left [Fintype I] (step : Step policy c i d) : c.left = d.left + 1 := by
  obtain ⟨next, -⟩ := step
  rename_i op ops
  simp only [Config.left, Config.advance]
  rw [← Finset.add_sum_erase _ _ (Finset.mem_univ i),
    ← Finset.add_sum_erase _ (fun j => (Function.update c.todo i ops j).length)
      (Finset.mem_univ i),
    Function.update_self, next, List.length_cons]
  have others : ∀ j ∈ Finset.univ.erase i,
      (c.todo j).length = (Function.update c.todo i ops j).length := fun j mem => by
    rw [Function.update_of_ne (Finset.ne_of_mem_erase mem)]
  rw [Finset.sum_congr rfl others]
  omega

theorem left_of_run [Fintype I] {is : List I} (run : Run (Step policy) c is d) :
    c.left = d.left + is.length := by
  induction run with
  | nil => rfl
  | snoc _ step ih =>
    rw [ih, step.left, List.length_append, List.length_singleton]
    omega

theorem Good.completes [Fintype I] (policy : Policy I L A) (good : Good level needs c) :
    ∃ is d, Run (Step policy) c is d ∧ d.Done := by
  induction size : c.left using Nat.strong_induction_on generalizing c with
  | _ size ih =>
    by_cases done : c.Done
    · exact ⟨[], c, .nil c, done⟩
    · obtain ⟨i, next, step⟩ := good.progress policy done
      have fewer := step.left
      obtain ⟨is, d, run, done⟩ := ih next.left (by omega) (good.step step) rfl
      exact ⟨[i] ++ is, d, (Run.single step).trans run, done⟩

end Locks
