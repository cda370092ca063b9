import Mathlib.Data.List.Sort

universe u

namespace Oldest

variable {A : Type u} (le : A → A → Bool)

def sorted (items : List A) : List A := items.insertionSort fun first second => le first second

def oldest (count : Nat) (items : List A) : List A := (sorted le items).take count

theorem sorted_perm (items : List A) : (sorted le items).Perm items :=
  List.perm_insertionSort _ items

theorem oldest_subperm (count : Nat) (items : List A) : (oldest le count items).Subperm items :=
  (List.take_sublist count _).subperm.trans (sorted_perm le items).subperm

variable {le} {count : Nat} {items : List A}

theorem length_oldest (count : Nat) (items : List A) :
    (oldest le count items).length = min count items.length := by
  rw [oldest, List.length_take, (sorted_perm le items).length_eq]

theorem mem_oldest_of_length_le (few : items.length ≤ count) {item : A} (mem : item ∈ items) :
    item ∈ oldest le count items := by
  rw [oldest, List.take_of_length_le (by rwa [(sorted_perm le items).length_eq])]
  exact (sorted_perm le items).mem_iff.mpr mem

variable (trans : ∀ a b c, le a b = true → le b c = true → le a c = true)
  (total : ∀ a b, (le a b || le b a) = true)

include trans total

theorem pairwise_sorted (items : List A) :
    (sorted le items).Pairwise fun first second => le first second = true := by
  have : IsTrans A fun first second => le first second = true := ⟨trans⟩
  have : Std.Total fun first second => le first second = true :=
    ⟨fun first second => Bool.or_eq_true _ _ ▸ total first second⟩
  exact List.pairwise_insertionSort _ items

theorem le_of_not_mem_oldest {taken left : A} (mem : taken ∈ oldest le count items)
    (among : left ∈ items) (out : left ∉ oldest le count items) : le taken left = true := by
  have order := pairwise_sorted trans total items
  rw [← List.take_append_drop count (sorted le items), List.pairwise_append] at order
  have split : left ∈ oldest le count items ++ (sorted le items).drop count := by
    rw [oldest, List.take_append_drop]
    exact (sorted_perm le items).mem_iff.mpr among
  exact order.2.2 taken mem left ((List.mem_append.mp split).resolve_left out)

theorem length_before_lt {taken : A} (mem : taken ∈ oldest le count items) :
    (items.filter fun item => !le taken item).length < count := by
  have order := pairwise_sorted trans total items
  rw [← List.take_append_drop count (sorted le items), List.pairwise_append] at order
  have after : ((sorted le items).drop count).filter (fun item => !le taken item) = [] := by
    refine List.filter_eq_nil_iff.mpr fun item left => ?_
    simp [order.2.2 taken mem item left]
  have same : (items.filter fun item => !le taken item).length =
      ((oldest le count items).filter fun item => !le taken item).length := by
    rw [((sorted_perm le items).filter _).length_eq.symm,
      ← List.take_append_drop count (sorted le items), List.filter_append, after,
      List.append_nil]
    rfl
  have self : le taken taken = true := by simpa using total taken taken
  rw [same]
  calc
    ((oldest le count items).filter fun item => !le taken item).length
        < (oldest le count items).length :=
      List.length_filter_lt_length_iff_exists.mpr ⟨taken, mem, by simp [self]⟩
    _ ≤ count := List.length_take_le _ _

/-- Where no two items come before each other, any sort of them in any order gives the same. -/
theorem oldest_eq_take_mergeSort (antisymm : ∀ a b, le a b = true → le b a = true → a = b)
    (count : Nat) {other : List A} (perm : items.Perm other) :
    oldest le count items = (other.mergeSort le).take count := by
  have same : sorted le items = other.mergeSort le :=
    ((sorted_perm le items).trans (perm.trans (List.mergeSort_perm other le).symm)).eq_of_pairwise
      (fun first second _ _ => antisymm first second) (pairwise_sorted trans total items)
      (List.pairwise_mergeSort trans total other)
  rw [oldest, same]

end Oldest
