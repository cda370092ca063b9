import Mathlib.Data.List.Basic
import Mathlib.Data.List.Infix
import Mathlib.Data.List.Sort

/-! Replacing parts of a list: many replacements at once, and the same ones one
after another, each where the ones before it have moved its part. -/

universe u

namespace Splices

variable {A : Type u}

/-- Puts `text` in the place of the elements from `start` up to `stop`. An empty
part is an insertion. -/
structure Splice (A : Type u) where
  start : Nat
  stop : Nat
  text : List A
  ordered : start ≤ stop

/-- The two parts share an element, or one of them is an insertion inside the
other. -/
def Overlap (e f : Splice A) : Prop := e.start < f.stop ∧ f.start < e.stop

instance (e f : Splice A) : Decidable (Overlap e f) := inferInstanceAs (Decidable (_ ∧ _))

theorem beside_of_not_overlap {e f : Splice A} (apart : ¬Overlap e f) :
    f.stop ≤ e.start ∨ e.stop ≤ f.start := by
  simp only [Overlap, not_and_or] at apart
  omega

def isInsertion (i : Nat) (e : Splice A) : Bool := e.start = i && e.stop = i

def isReplacement (i : Nat) (e : Splice A) : Bool := e.start = i && i < e.stop

def covers (i : Nat) (e : Splice A) : Bool := e.start ≤ i && i < e.stop

def inserted (es : List (Splice A)) (i : Nat) : List A := (es.filter (isInsertion i)).flatMap Splice.text

def replacing (es : List (Splice A)) (i : Nat) : List A :=
  (es.filter (isReplacement i)).flatMap Splice.text

def piece (es : List (Splice A)) (i : Nat) (a : A) : List A :=
  replacing es i ++ if es.any (covers i) then [] else [a]

/-- What comes to stand for the elements of a list whose first one is at `i`. -/
def body (es : List (Splice A)) : Nat → List A → List A
  | _, [] => []
  | i, a :: as => inserted es i ++ piece es i a ++ body es (i + 1) as

/-- The list with every splice made at once. -/
def spliced (es : List (Splice A)) (as : List A) : List A := body es 0 as ++ inserted es as.length

def moved (es : List (Splice A)) (as : List A) (i : Nat) : Nat := (spliced es (as.take i)).length

def replaceAt (as : List A) (start width : Nat) (text : List A) : List A :=
  as.take start ++ text ++ as.drop (start + width)

theorem replaceAt_append (as bs cs text : List A) :
    replaceAt (as ++ bs ++ cs) as.length bs.length text = as ++ text ++ cs := by
  rw [replaceAt, ← List.length_append, List.drop_left, List.append_assoc as bs cs, List.take_left]

theorem body_append (es : List (Splice A)) (i : Nat) (as bs : List A) :
    body es i (as ++ bs) = body es i as ++ body es (i + as.length) bs := by
  induction as generalizing i with
  | nil => rfl
  | cons a as ih =>
    have next : i + 1 + as.length = i + (a :: as).length := by
      rw [List.length_cons]
      omega
    rw [List.cons_append, body, body, ih, next]
    simp only [List.append_assoc]

theorem body_congr {es fs : List (Splice A)} {i : Nat} {as : List A}
    (same : ∀ j a, i ≤ j → j < i + as.length →
      inserted es j = inserted fs j ∧ piece es j a = piece fs j a) :
    body es i as = body fs i as := by
  induction as generalizing i with
  | nil => rfl
  | cons a as ih =>
    have here := same i a (Nat.le_refl i) (by rw [List.length_cons]; omega)
    have there : body es (i + 1) as = body fs (i + 1) as := by
      apply ih
      intro j b low high
      apply same j b (by omega)
      rw [List.length_cons]
      omega
    rw [body, body, here.1, here.2, there]

theorem spliced_nil (as : List A) : spliced [] as = as := by
  have unchanged : ∀ i, body [] i as = as := by
    induction as with
    | nil => intro i; rfl
    | cons a as ih =>
      intro i
      rw [body, ih]
      rfl
  rw [spliced, unchanged]
  exact List.append_nil as

section

variable {es : List (Splice A)} {e f : Splice A} {i : Nat}

theorem inserted_concat : inserted (es ++ [f]) i =
    inserted es i ++ if isInsertion i f then f.text else [] := by
  rw [inserted, List.filter_append, List.flatMap_append, inserted]
  congr 1
  cases here : isInsertion i f <;> simp [here]

theorem replacing_concat : replacing (es ++ [f]) i =
    replacing es i ++ if isReplacement i f then f.text else [] := by
  rw [replacing, List.filter_append, List.flatMap_append, replacing]
  congr 1
  cases here : isReplacement i f <;> simp [here]

theorem inserted_eq_nil (away : ∀ e ∈ es, isInsertion i e = false) : inserted es i = [] := by
  rw [inserted, List.filter_eq_nil_iff.mpr (by simpa using away)]
  rfl

theorem replacing_eq_nil (away : ∀ e ∈ es, isReplacement i e = false) : replacing es i = [] := by
  rw [replacing, List.filter_eq_nil_iff.mpr (by simpa using away)]
  rfl

theorem inserted_concat_of_ne (other : ¬(f.start = i ∧ f.stop = i)) :
    inserted (es ++ [f]) i = inserted es i := by
  have insertion : isInsertion i f = false := by
    simpa [isInsertion] using other
  rw [inserted_concat, insertion]
  exact List.append_nil _

theorem piece_concat (a : A) (away : i < f.start ∨ f.stop ≤ i) :
    piece (es ++ [f]) i a = piece es i a := by
  have replacement : isReplacement i f = false := by
    simp only [isReplacement, Bool.and_eq_false_iff, decide_eq_false_iff_not]
    omega
  have cover : covers i f = false := by
    simp only [covers, Bool.and_eq_false_iff, decide_eq_false_iff_not]
    omega
  rw [piece, piece, replacing_concat, replacement]
  simp [cover]

theorem piece_concat_of_covers (a : A) (apart : ∀ e ∈ es, ¬Overlap e f) (low : f.start ≤ i)
    (high : i < f.stop) : piece es i a = [a] ∧
      piece (es ++ [f]) i a = if f.start = i then f.text else [] := by
  have replacement : replacing es i = [] := by
    apply replacing_eq_nil
    intro e mem
    have beside := beside_of_not_overlap (apart e mem)
    simp only [isReplacement, Bool.and_eq_false_iff, decide_eq_false_iff_not]
    omega
  have cover : es.any (covers i) = false := by
    rw [List.any_eq_false]
    intro e mem
    have beside := beside_of_not_overlap (apart e mem)
    simp only [covers, Bool.and_eq_true, decide_eq_true_eq]
    omega
  have mine : covers i f = true := by
    simp only [covers, Bool.and_eq_true, decide_eq_true_eq]
    omega
  constructor
  · rw [piece, replacement, cover]
    rfl
  · rw [piece, replacing_concat, replacement, List.any_append]
    simp [mine, isReplacement, high]

theorem inserted_of_inside (apart : ∀ e ∈ es, ¬Overlap e f) (low : f.start < i)
    (high : i < f.stop) : inserted es i = [] := by
  apply inserted_eq_nil
  intro e mem
  have beside := beside_of_not_overlap (apart e mem)
  simp only [isInsertion, Bool.and_eq_false_iff, decide_eq_false_iff_not]
  omega

end

section

variable {es : List (Splice A)} {f : Splice A} {as : List A}

theorem body_inside (apart : ∀ e ∈ es, ¬Overlap e f) {i : Nat} {bs : List A}
    (low : f.start < i) (high : i + bs.length ≤ f.stop) :
    body es i bs = bs ∧ body (es ++ [f]) i bs = [] := by
  induction bs generalizing i with
  | nil => exact ⟨rfl, rfl⟩
  | cons b bs ih =>
    rw [List.length_cons] at high
    have inside := inserted_of_inside apart low (by omega)
    have here := piece_concat_of_covers b apart (by omega) (by omega : i < f.stop)
    have there := ih (by omega : f.start < i + 1) (by omega)
    constructor
    · rw [body, inside, here.1, there.1]
      rfl
    · rw [body, inserted_concat_of_ne (by omega), inside, here.2, there.2, if_neg (by omega)]
      rfl

theorem body_before (bs : List A) {i : Nat} (before : i + bs.length ≤ f.start) :
    body (es ++ [f]) i bs = body es i bs := by
  apply body_congr
  intro j a low high
  exact ⟨inserted_concat_of_ne (by omega), piece_concat a (by omega)⟩

theorem body_after (bs : List A) {i : Nat} (after : f.stop ≤ i) (start : f.start < i) :
    body (es ++ [f]) i bs = body es i bs := by
  apply body_congr
  intro j a low high
  exact ⟨inserted_concat_of_ne (by omega), piece_concat a (by omega)⟩

theorem body_part (apart : ∀ e ∈ es, ¬Overlap e f) (part rest : List A)
    (width : part.length = f.stop - f.start) : ∃ tail,
    body es f.start (part ++ rest) ++ inserted es (f.start + (part ++ rest).length) =
        inserted es f.start ++ part ++ tail ∧
      body (es ++ [f]) f.start (part ++ rest) ++
          inserted (es ++ [f]) (f.start + (part ++ rest).length) =
        inserted es f.start ++ f.text ++ tail := by
  have ordered := f.ordered
  cases part with
  | nil =>
    have stop : f.stop = f.start := by
      rw [List.length_nil] at width
      omega
    have insertion : isInsertion f.start f = true := by simp [isInsertion, stop]
    cases rest with
    | nil =>
      refine ⟨[], ?_, ?_⟩
      · simp [body]
      · simp [body, inserted_concat, insertion]
    | cons a rest =>
      refine ⟨piece es f.start a ++ body es (f.start + 1) rest ++
        inserted es (f.start + (a :: rest).length), ?_, ?_⟩
      · simp [body]
      · rw [List.nil_append, body, body_after rest (by omega) (by omega),
          piece_concat a (by omega), inserted_concat, insertion, List.length_cons,
          inserted_concat_of_ne (by omega)]
        simp
  | cons a part =>
    rw [List.length_cons] at width
    have here := piece_concat_of_covers a apart (Nat.le_refl f.start) (by omega)
    have inside : body es (f.start + 1) part = part ∧ body (es ++ [f]) (f.start + 1) part = [] :=
      body_inside apart (Nat.lt_succ_self f.start) (by omega)
    have stop : f.start + 1 + part.length = f.stop := by omega
    refine ⟨body es f.stop rest ++ inserted es (f.start + (a :: part ++ rest).length), ?_, ?_⟩
    · rw [List.cons_append, body, body_append, here.1, inside.1, stop]
      simp
    · rw [List.cons_append, body, body_append, here.2, inside.2, stop,
        body_after rest (Nat.le_refl _) (by omega), inserted_concat_of_ne (by omega),
        inserted_concat_of_ne (by rw [List.length_cons]; omega), if_pos rfl]
      simp

theorem spliced_take (start : Nat) (bound : start ≤ as.length) :
    spliced es (as.take start) = body es 0 (as.take start) ++ inserted es start := by
  rw [spliced, List.length_take, Nat.min_eq_left bound]

theorem spliced_concat (apart : ∀ e ∈ es, ¬Overlap e f) (bound : f.stop ≤ as.length) :
    spliced (es ++ [f]) as =
      replaceAt (spliced es as) (moved es as f.start) (f.stop - f.start) f.text := by
  have ordered := f.ordered
  have cut : as = as.take f.start ++ ((as.drop f.start).take (f.stop - f.start) ++
      (as.drop f.start).drop (f.stop - f.start)) := by
    rw [List.take_append_drop, List.take_append_drop]
  have width : ((as.drop f.start).take (f.stop - f.start)).length = f.stop - f.start := by
    rw [List.length_take, List.length_drop]
    omega
  have before : (as.take f.start).length = f.start := by
    rw [List.length_take]
    omega
  obtain ⟨tail, without, made⟩ := body_part apart _ ((as.drop f.start).drop (f.stop - f.start)) width
  rw [moved, spliced_take f.start (by omega)]
  generalize as.take f.start = front at *
  generalize (as.drop f.start).take (f.stop - f.start) = part at *
  generalize (as.drop f.start).drop (f.stop - f.start) = rest at *
  subst cut
  have whole : spliced es (front ++ (part ++ rest)) =
      (body es 0 front ++ inserted es f.start) ++ part ++ tail := by
    rw [spliced, body_append, Nat.zero_add, before, List.length_append, before, List.append_assoc,
      without]
    simp only [List.append_assoc]
  have whole' : spliced (es ++ [f]) (front ++ (part ++ rest)) =
      (body es 0 front ++ inserted es f.start) ++ f.text ++ tail := by
    rw [spliced, body_append, body_before front (by omega), Nat.zero_add, before,
      List.length_append, before, List.append_assoc, made]
    simp only [List.append_assoc]
  rw [whole, whole', ← width, replaceAt_append]

theorem moved_append {fs : List (Splice A)} {i : Nat} (bound : i ≤ as.length)
    (beyond : ∀ f ∈ fs, i < f.start) : moved (es ++ fs) as i = moved es as i := by
  induction fs using List.reverseRecOn with
  | nil => rw [List.append_nil]
  | append_singleton fs f ih =>
    have last := beyond f (by simp)
    have rest := ih fun g mem => beyond g (List.mem_append_left _ mem)
    rw [moved] at rest
    rw [moved, spliced_take i bound, ← List.append_assoc, body_before _ (by simp; omega),
      inserted_concat_of_ne (by omega), ← spliced_take i bound, rest, moved]

/-- The splices of an increasing list are its replacements from the last to the
first. -/
theorem spliced_append_reverse {fs : List (Splice A)} (apart : ∀ e ∈ es, ∀ f ∈ fs, ¬Overlap e f)
    (increasing : fs.Pairwise fun f g => f.start < g.start ∧ ¬Overlap f g)
    (bound : ∀ f ∈ fs, f.stop ≤ as.length) :
    spliced (es ++ fs.reverse) as = fs.foldr
      (fun f bs => replaceAt bs (moved es as f.start) (f.stop - f.start) f.text) (spliced es as) := by
  induction fs with
  | nil => rw [List.reverse_nil, List.append_nil]; rfl
  | cons f fs ih =>
    obtain ⟨first, rest⟩ := List.pairwise_cons.mp increasing
    have ordered := f.ordered
    have inside := bound f List.mem_cons_self
    have later : ∀ g ∈ es ++ fs.reverse, ¬Overlap g f := by
      intro g mem
      cases List.mem_append.mp mem with
      | inl before => exact apart g before f List.mem_cons_self
      | inr after =>
        intro overlap
        exact (first g (List.mem_reverse.mp after)).2 ⟨overlap.2, overlap.1⟩
    have unmoved : moved (es ++ fs.reverse) as f.start = moved es as f.start :=
      moved_append (by omega) fun g mem => (first g (List.mem_reverse.mp mem)).1
    rw [List.reverse_cons, ← List.append_assoc, spliced_concat later inside, unmoved,
      ih (fun e mem g inside => apart e mem g (List.mem_cons_of_mem _ inside)) rest
        fun g mem => bound g (List.mem_cons_of_mem _ mem)]
    rfl

end

section

variable {fs : List (Splice A)} {f : Splice A} {i : Nat}

theorem inserted_cons :
    inserted (f :: fs) i = (if isInsertion i f then f.text else []) ++ inserted fs i := by
  rw [inserted, List.filter_cons]
  cases here : isInsertion i f <;> rfl

theorem inserted_cons_of_ne (other : ¬(f.start = i ∧ f.stop = i)) :
    inserted (f :: fs) i = inserted fs i := by
  have insertion : isInsertion i f = false := by
    simpa [isInsertion] using other
  rw [inserted_cons, insertion]
  rfl

theorem piece_cons (a : A) (away : i < f.start ∨ f.stop ≤ i) :
    piece (f :: fs) i a = piece fs i a := by
  have replacement : isReplacement i f = false := by
    simp only [isReplacement, Bool.and_eq_false_iff, decide_eq_false_iff_not]
    omega
  have cover : covers i f = false := by
    simp only [covers, Bool.and_eq_false_iff, decide_eq_false_iff_not]
    omega
  rw [piece, piece, replacing, replacing, List.filter_cons, replacement, List.any_cons, cover]
  rfl

theorem body_beyond {bs : List A} (beyond : ∀ g ∈ fs, i + bs.length ≤ g.start) :
    body fs i bs = bs := by
  induction bs generalizing i with
  | nil => rfl
  | cons b bs ih =>
    rw [List.length_cons] at beyond
    have none : inserted fs i = [] := by
      apply inserted_eq_nil
      intro g mem
      have far := beyond g mem
      simp only [isInsertion, Bool.and_eq_false_iff, decide_eq_false_iff_not]
      omega
    have same : piece fs i b = [b] := by
      have replacement : replacing fs i = [] := by
        apply replacing_eq_nil
        intro g mem
        have far := beyond g mem
        simp only [isReplacement, Bool.and_eq_false_iff, decide_eq_false_iff_not]
        omega
      have cover : fs.any (covers i) = false := by
        rw [List.any_eq_false]
        intro g mem
        have far := beyond g mem
        simp only [covers, Bool.and_eq_true, decide_eq_true_eq]
        omega
      rw [piece, replacement, cover]
      rfl
    have later : body fs (i + 1) bs = bs := by
      apply ih
      intro g mem
      have far := beyond g mem
      omega
    rw [body, none, same, later]
    rfl

variable (behind : ∀ g ∈ fs, f.stop ≤ g.start)

include behind

theorem body_covered {bs : List A} (low : f.start < i) (high : i + bs.length ≤ f.stop) :
    body (f :: fs) i bs = [] := by
  induction bs generalizing i with
  | nil => rfl
  | cons b bs ih =>
    rw [List.length_cons] at high
    have mine : covers i f = true := by
      simp only [covers, Bool.and_eq_true, decide_eq_true_eq]
      omega
    have none : inserted (f :: fs) i = [] := by
      rw [inserted_cons_of_ne (by omega)]
      apply inserted_eq_nil
      intro g mem
      have far := behind g mem
      simp only [isInsertion, Bool.and_eq_false_iff, decide_eq_false_iff_not]
      omega
    have gone : piece (f :: fs) i b = [] := by
      have replacement : replacing (f :: fs) i = [] := by
        apply replacing_eq_nil
        intro g mem
        simp only [isReplacement, Bool.and_eq_false_iff, decide_eq_false_iff_not]
        cases List.mem_cons.mp mem with
        | inl same => rw [same]; omega
        | inr later =>
          have far := behind g later
          omega
      rw [piece, replacement, List.any_cons, mine]
      rfl
    rw [body, none, gone, ih (by omega) (by omega)]
    rfl

theorem spliced_cons {front part rest : List A} (start : front.length = f.start)
    (stop : (front ++ part).length = f.stop) : ∃ tail,
    spliced fs (front ++ part ++ rest) = front ++ part ++ tail ∧
      spliced (f :: fs) (front ++ part ++ rest) = front ++ f.text ++ tail := by
  have ordered := f.ordered
  have untouched : body fs 0 (front ++ part) = front ++ part := by
    apply body_beyond
    intro g mem
    rw [Nat.zero_add, stop]
    exact behind g mem
  have above : body (f :: fs) 0 front = front := by
    apply body_beyond
    intro g mem
    rw [Nat.zero_add, start]
    cases List.mem_cons.mp mem with
    | inl same => rw [same]
    | inr later => exact ordered.trans (behind g later)
  have below (i : Nat) (bs : List A) (after : f.stop ≤ i) (past : f.start < i) :
      body (f :: fs) i bs = body fs i bs := by
    apply body_congr
    intro j a low high
    exact ⟨inserted_cons_of_ne (by omega), piece_cons a (by omega)⟩
  refine ⟨body fs f.stop rest ++ inserted fs (front ++ part ++ rest).length, ?_, ?_⟩
  · rw [spliced, body_append, untouched, Nat.zero_add, stop, List.append_assoc]
  · have along : body (f :: fs) f.start (part ++ rest) ++
        inserted (f :: fs) (front ++ part ++ rest).length =
        f.text ++ (body fs f.stop rest ++ inserted fs (front ++ part ++ rest).length) := by
      rw [List.length_append, stop]
      rw [List.length_append, start] at stop
      cases part with
      | nil =>
        have same : f.stop = f.start := by
          rw [← stop]
          rfl
        have insertion : isInsertion f.start f = true := by simp [isInsertion, same]
        rw [List.nil_append, same]
        cases rest with
        | nil => simp [body, inserted_cons, insertion]
        | cons a rest =>
          rw [List.length_cons, inserted_cons_of_ne (by omega), body, body,
            below _ rest (by omega) (Nat.lt_succ_self _), piece_cons a (by omega), inserted_cons,
            insertion, if_pos rfl]
          simp only [List.append_assoc]
      | cons a part =>
        rw [List.length_cons] at stop
        have wide : f.start < f.stop := by omega
        have none : inserted (f :: fs) f.start = [] := by
          rw [inserted_cons_of_ne (by omega)]
          apply inserted_eq_nil
          intro g mem
          have far := behind g mem
          simp only [isInsertion, Bool.and_eq_false_iff, decide_eq_false_iff_not]
          omega
        have here : piece (f :: fs) f.start a = f.text := by
          have others : fs.filter (isReplacement f.start) = [] := by
            rw [List.filter_eq_nil_iff]
            intro g mem
            have far := behind g mem
            simp only [isReplacement, Bool.and_eq_true, decide_eq_true_eq]
            omega
          have mine : isReplacement f.start f = true := by simp [isReplacement, wide]
          have cover : covers f.start f = true := by simp [covers, wide]
          rw [piece, replacing, List.filter_cons, mine, if_pos rfl, others, List.any_cons, cover]
          simp
        have inside : body (f :: fs) (f.start + 1) part = [] :=
          body_covered behind (Nat.lt_succ_self _) (by omega)
        have next : f.start + 1 + part.length = f.stop := by omega
        rw [List.cons_append, body, body_append, none, here, inside, next,
          below _ rest (Nat.le_refl _) (by omega), inserted_cons_of_ne (by omega)]
        simp only [List.nil_append, List.append_assoc]
    rw [List.append_assoc front part rest] at along ⊢
    rw [spliced, body_append, above, Nat.zero_add, start, List.append_assoc, along,
      List.append_assoc]

end

def Compatible (e f : Splice A) : Prop :=
  ¬Overlap e f ∧
    (e.start = f.start → e.stop = e.start → f.stop = f.start → e.text = [] ∨ f.text = [])

theorem flatMap_text_perm {es fs : List (Splice A)} (perm : es.Perm fs)
    (one : es.Pairwise fun e f => e.text = [] ∨ f.text = []) :
    es.flatMap Splice.text = fs.flatMap Splice.text := by
  induction perm with
  | nil => rfl
  | cons e perm ih =>
    rw [List.flatMap_cons, List.flatMap_cons, ih (List.pairwise_cons.mp one).2]
  | swap e f es =>
    have either := (List.pairwise_cons.mp one).1 e List.mem_cons_self
    simp only [List.flatMap_cons]
    cases either with
    | inl empty => simp [empty]
    | inr empty => simp [empty]
  | trans perm _ ih ih' =>
    have symmetric : ∀ {e f : Splice A}, e.text = [] ∨ f.text = [] → f.text = [] ∨ e.text = [] :=
      Or.symm
    exact (ih one).trans (ih' ((perm.pairwise_iff symmetric).mp one))

theorem inserted_perm {es fs : List (Splice A)} (perm : es.Perm fs)
    (compatible : es.Pairwise Compatible) (i : Nat) : inserted es i = inserted fs i := by
  apply flatMap_text_perm (perm.filter _)
  refine (compatible.filter _).imp_of_mem fun {e f} inE inF both => ?_
  have here := (List.mem_filter.mp inE).2
  have there := (List.mem_filter.mp inF).2
  simp only [isInsertion, Bool.and_eq_true, decide_eq_true_eq] at here there
  exact both.2 (by omega) (by omega) (by omega)

theorem replacing_perm {es fs : List (Splice A)} (perm : es.Perm fs)
    (compatible : es.Pairwise Compatible) (i : Nat) : replacing es i = replacing fs i := by
  apply flatMap_text_perm (perm.filter _)
  refine (compatible.filter _).imp_of_mem fun {e f} inE inF both => ?_
  have here := (List.mem_filter.mp inE).2
  have there := (List.mem_filter.mp inF).2
  simp only [isReplacement, Bool.and_eq_true, decide_eq_true_eq] at here there
  exact absurd (⟨by omega, by omega⟩ : Overlap e f) both.1

/-- Compatible splices give one list in every order. -/
theorem spliced_perm {es fs : List (Splice A)} (perm : es.Perm fs)
    (compatible : es.Pairwise Compatible) (as : List A) : spliced es as = spliced fs as := by
  have same : body es 0 as = body fs 0 as := by
    apply body_congr
    intro j a _ _
    refine ⟨inserted_perm perm compatible j, ?_⟩
    rw [piece, piece, replacing_perm perm compatible, perm.any_eq]
  rw [spliced, spliced, same, inserted_perm perm compatible]

section

universe v

variable {B : Type v} {r : B → B → Prop} [DecidableRel r] {l : List B}

theorem filter_insertionSort {p : B → Bool}
    (tied : ∀ b ∈ l, ∀ c ∈ l, p b = true → p c = true → r b c) :
    (l.insertionSort r).filter p = l.filter p := by
  have ordered : (l.filter p).Pairwise r := by
    apply List.pairwise_of_forall_mem_list
    intro b mem c mem'
    rw [List.mem_filter] at mem mem'
    exact tied b mem.1 c mem'.1 mem.2 mem'.2
  have kept := (List.sublist_insertionSort ordered List.filter_sublist).filter p
  rw [List.filter_filter] at kept
  simp only [Bool.and_self] at kept
  exact (kept.eq_of_length ((List.perm_insertionSort r l).filter p).length_eq.symm).symm

theorem spliced_insertionSort (f : B → Splice A)
    (tied : ∀ b ∈ l, ∀ c ∈ l, (f b).start = (f c).start → r b c) (as : List A) :
    spliced ((l.insertionSort r).map f) as = spliced (l.map f) as := by
  have insertions (i : Nat) :
      inserted ((l.insertionSort r).map f) i = inserted (l.map f) i := by
    rw [inserted, inserted, List.filter_map, List.filter_map, filter_insertionSort]
    intro b mem c mem' here there
    simp only [Function.comp, isInsertion, Bool.and_eq_true, decide_eq_true_eq] at here there
    exact tied b mem c mem' (here.1.trans there.1.symm)
  have replacements (i : Nat) :
      replacing ((l.insertionSort r).map f) i = replacing (l.map f) i := by
    rw [replacing, replacing, List.filter_map, List.filter_map, filter_insertionSort]
    intro b mem c mem' here there
    simp only [Function.comp, isReplacement, Bool.and_eq_true, decide_eq_true_eq] at here there
    exact tied b mem c mem' (here.1.trans there.1.symm)
  have same : body ((l.insertionSort r).map f) 0 as = body (l.map f) 0 as := by
    apply body_congr
    intro j a _ _
    refine ⟨insertions j, ?_⟩
    rw [piece, piece, replacements, ((List.perm_insertionSort r l).map f).any_eq]
  rw [spliced, spliced, same, insertions]

end

end Splices
