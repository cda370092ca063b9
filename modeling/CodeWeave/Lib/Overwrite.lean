import Mathlib.Data.Finset.Fold
import Mathlib.Data.List.Basic

/-! A keyed store under a sequence of overwrites: each overwrite either leaves a
key alone or decides its value, and the last one that decides wins.  Beside it a running total
over a finite set of keys, under an operation that undoes itself: adding a key's weight a second
time takes it out again. -/

universe u v

namespace Overwrite

variable {K : Type u} {V : Type v}

abbrev Patch (K : Type u) (V : Type v) := K → Option V

def Patch.apply (p : Patch K V) (store : K → V) : K → V := fun k => (p k).getD (store k)

def applyAll (ps : List (Patch K V)) (store : K → V) : K → V :=
  ps.foldl (fun store p => p.apply store) store

@[simp] theorem applyAll_nil (store : K → V) : applyAll [] store = store := rfl

@[simp] theorem applyAll_cons (p : Patch K V) (ps : List (Patch K V)) (store : K → V) :
    applyAll (p :: ps) store = applyAll ps (p.apply store) := rfl

theorem applyAll_append (ps qs : List (Patch K V)) (store : K → V) :
    applyAll (ps ++ qs) store = applyAll qs (applyAll ps store) := by
  simp [applyAll]

theorem Patch.apply_of_none {p : Patch K V} {k : K} (h : p k = none) (store : K → V) :
    p.apply store k = store k := by
  simp [Patch.apply, h]

theorem Patch.apply_of_some {p : Patch K V} {k : K} {v : V} (h : p k = some v) (store : K → V) :
    p.apply store k = v := by
  simp [Patch.apply, h]

theorem applyAll_untouched {ps : List (Patch K V)} {k : K} (h : ∀ p ∈ ps, p k = none)
    (store : K → V) : applyAll ps store k = store k := by
  induction ps generalizing store with
  | nil => rfl
  | cons p ps ih =>
    rw [applyAll_cons, ih (fun q hq => h q (List.mem_cons_of_mem _ hq))]
    exact Patch.apply_of_none (h p List.mem_cons_self) store

theorem applyAll_last {ps qs : List (Patch K V)} {p : Patch K V} {k : K} {v : V}
    (hp : p k = some v) (hqs : ∀ q ∈ qs, q k = none) (store : K → V) :
    applyAll (ps ++ p :: qs) store k = v := by
  rw [applyAll_append, applyAll_cons, applyAll_untouched hqs]
  exact Patch.apply_of_some hp _

theorem applyAll_cases (ps : List (Patch K V)) (k : K) (store : K → V) :
    (∀ p ∈ ps, p k = none) ∨
      ∃ pre p post, ps = pre ++ p :: post ∧ (∀ q ∈ post, q k = none) ∧
        p k = some (applyAll ps store k) := by
  induction ps generalizing store with
  | nil => exact .inl (by simp)
  | cons p ps ih =>
    rcases ih (p.apply store) with none_after | ⟨pre, q, post, rfl, after, hq⟩
    · cases hp : p k with
      | none =>
        refine .inl fun q hq => ?_
        rcases List.mem_cons.mp hq with rfl | hq
        · exact hp
        · exact none_after q hq
      | some v =>
        refine .inr ⟨[], p, ps, rfl, none_after, ?_⟩
        rw [applyAll_cons, applyAll_untouched none_after, Patch.apply_of_some hp, hp]
    · exact .inr ⟨p :: pre, q, post, rfl, after, hq⟩

theorem applyAll_settled {ps : List (Patch K V)} {k : K} {v : V}
    (agree : ∀ p ∈ ps, p k = none ∨ p k = some v) (touched : ∃ p ∈ ps, p k = some v)
    (store : K → V) : applyAll ps store k = v := by
  rcases applyAll_cases ps k store with untouched | ⟨pre, p, post, rfl, -, hp⟩
  · obtain ⟨p, hp, hv⟩ := touched
    rw [untouched p hp] at hv
    exact absurd hv (by simp)
  · have := agree p (by simp)
    rw [hp] at this
    simpa using this

def Agree (ps : List (Patch K V)) : Prop :=
  ∀ p ∈ ps, ∀ q ∈ ps, ∀ k v w, p k = some v → q k = some w → v = w

section Agree

variable {ps : List (Patch K V)} {p : Patch K V} {k : K} {v : V}

theorem Agree.applyAll (agree : Agree ps) (mem : p ∈ ps) (decides : p k = some v)
    (store : K → V) : applyAll ps store k = v := by
  refine applyAll_settled (fun q hq => ?_) ⟨p, mem, decides⟩ store
  cases other : q k with
  | none => exact .inl rfl
  | some w => exact .inr (by rw [agree p mem q hq k v w decides other])

theorem Agree.applyAll_prefix {pre : List (Patch K V)} (agree : Agree ps) (part : pre <+: ps)
    (mem : p ∈ ps) (decides : p k = some v) (store : K → V) :
    Overwrite.applyAll pre store k = store k ∨ Overwrite.applyAll pre store k = v := by
  by_cases untouched : ∀ q ∈ pre, q k = none
  · exact .inl (applyAll_untouched untouched store)
  · push Not at untouched
    obtain ⟨q, hq, touched⟩ := untouched
    obtain ⟨w, hw⟩ := Option.ne_none_iff_exists'.mp touched
    have within : Agree pre := fun a ha b hb => agree a (part.subset ha) b (part.subset hb)
    refine .inr ?_
    rw [within.applyAll hq hw, agree p mem q (part.subset hq) k v w decides hw]

theorem Agree.applyAll_perm {qs : List (Patch K V)} (agree : Agree ps) (perm : ps.Perm qs)
    (store : K → V) : Overwrite.applyAll ps store = Overwrite.applyAll qs store := by
  funext k
  rcases applyAll_cases ps k store with untouched | ⟨pre, p, post, rfl, -, decides⟩
  · have untouched' : ∀ q ∈ qs, q k = none := fun q hq => untouched q (perm.mem_iff.mpr hq)
    rw [applyAll_untouched untouched, applyAll_untouched untouched']
  · have within : Agree qs := fun a ha b hb =>
      agree a (perm.mem_iff.mpr ha) b (perm.mem_iff.mpr hb)
    exact (within.applyAll (perm.mem_iff.mp (by simp)) decides store).symm

end Agree

end Overwrite

namespace Tally

variable {K : Type u} {G : Type v} (op : G → G → G) [Std.Commutative op]
  [Std.Associative op] (zero : G)

def total (keys : Finset K) (weight : K → G) : G := keys.fold op zero weight

theorem total_congr {keys : Finset K} {first second : K → G}
    (h : ∀ key ∈ keys, first key = second key) :
    total op zero keys first = total op zero keys second :=
  Finset.fold_congr h

variable [DecidableEq K]

theorem total_insert {keys : Finset K} {key : K} (absent : key ∉ keys) (weight : K → G) :
    total op zero (insert key keys) weight = op (total op zero keys weight) (weight key) := by
  rw [total, Finset.fold_insert absent]
  exact Std.Commutative.comm _ _

theorem total_erase (undo : ∀ acc g, op (op acc g) g = acc) {keys : Finset K} {key : K}
    (present : key ∈ keys) (weight : K → G) :
    total op zero (keys.erase key) weight = op (total op zero keys weight) (weight key) := by
  calc
    total op zero (keys.erase key) weight =
        op (op (total op zero (keys.erase key) weight) (weight key)) (weight key) := (undo _ _).symm
    _ = op (total op zero (insert key (keys.erase key)) weight) (weight key) := by
      rw [total_insert op zero (Finset.notMem_erase key keys)]
    _ = op (total op zero keys weight) (weight key) := by rw [Finset.insert_erase present]

end Tally
