import CodeWeave.Defs.Workspace.LineEndingLaws
import CodeWeave.Defs.Workspace.SubstitutionLaws

namespace CodeWeave

open Substitution

section

variable {found replacement before after : Text} {count : Nat}

theorem allCrlf_substituted (substituted : Substituted found replacement count before after)
    (nonempty : found ≠ []) (all : AllCrlf before) (allFound : AllCrlf found)
    (allNew : AllCrlf replacement) : AllCrlf after := by
  induction substituted with
  | kept => exact all
  | @replaced count piece before after later ih =>
    rw [List.append_assoc] at all
    have other : (found ++ before).head? ≠ some '\n' := by
      rw [List.head?_append_of_ne_nil _ nonempty]
      exact allFound.head
    obtain ⟨here, rest⟩ := all.of_append
      (all.clear (List.append_ne_nil_of_left_ne_nil nonempty before) other)
    exact (here.append allNew).append (ih (rest.of_append allFound.last).2)

theorem allCrlf_substituted_plain (substituted : Substituted found replacement count before after)
    (newline : '\n' ∉ before) (carriage : '\r' ∉ before) (allNew : AllCrlf replacement) :
    AllCrlf after := by
  induction substituted with
  | kept => exact allCrlf_of_plain newline carriage
  | replaced piece later ih =>
    rw [List.mem_append, List.mem_append, not_or, not_or] at newline carriage
    exact ((allCrlf_of_plain newline.1.1 carriage.1.1).append allNew).append
      (ih newline.2 carriage.2)

theorem not_allCrlf_parted {front rest : Text} (nonempty : replacement ≠ [])
    (allNew : AllCrlf replacement) : ¬AllCrlf (front ++ ['\r'] ++ replacement ++ rest) := by
  intro all
  rw [List.append_assoc, List.append_assoc, List.singleton_append] at all
  obtain ⟨tail, eq⟩ := all.after_carriage
  have newline := congrArg List.head? eq
  rw [List.head?_append_of_ne_nil _ nonempty] at newline
  exact allNew.head newline

theorem not_allCrlf_substituted (substituted : Substituted found replacement (count + 1) before after)
    (all : AllCrlf before) (newline : found.head? = some '\n') (nonempty : replacement ≠ [])
    (allNew : AllCrlf replacement) : ¬AllCrlf after := by
  obtain ⟨more, rfl⟩ := List.head?_eq_some_iff.mp newline
  cases substituted with
  | replaced piece later =>
    rw [List.append_assoc, List.cons_append] at all
    obtain ⟨front, rfl⟩ := all.before_newline
    exact not_allCrlf_parted nonempty allNew

theorem allCrlf_removed {first second : Text} (all : AllCrlf (first ++ found ++ second))
    (newline : found.head? = some '\n') (carriage : found.getLast? = some '\r') :
    AllCrlf (first ++ second) := by
  obtain ⟨front, shape⟩ := List.getLast?_eq_some_iff.mp carriage
  cases front with
  | nil =>
    rw [shape] at newline
    cases newline
  | cons c middle =>
    rw [shape, List.cons_append, List.head?_cons, Option.some.injEq] at newline
    rw [shape, newline, List.append_assoc, List.cons_append, List.cons_append] at all
    obtain ⟨above, rfl⟩ := all.before_newline
    have parts : above ++ ['\r'] ++ '\n' :: (middle ++ ['\r'] ++ second) =
        (above ++ ['\r', '\n']) ++ (middle ++ '\r' :: second) := by simp
    rw [parts] at all
    obtain ⟨upTo, rest⟩ := all.of_append (by simp)
    obtain ⟨below, rfl⟩ := rest.after_carriage
    have parts' : middle ++ '\r' :: '\n' :: below = (middle ++ ['\r', '\n']) ++ below := by simp
    rw [parts'] at rest
    have joined : above ++ ['\r'] ++ '\n' :: below = (above ++ ['\r', '\n']) ++ below := by simp
    rw [joined]
    exact upTo.append (rest.of_append (by simp)).2

theorem allCrlf_deleted (substituted : Substituted found [] count before after)
    (newline : found.head? = some '\n') (carriage : found.getLast? = some '\r') {front : Text}
    (all : AllCrlf (front ++ before)) : AllCrlf (front ++ after) := by
  induction substituted generalizing front with
  | kept => exact all
  | replaced piece later ih =>
    have parts := all
    rw [← List.append_assoc, ← List.append_assoc] at parts
    have rest := ih (allCrlf_removed parts newline carriage)
    rw [List.append_nil, ← List.append_assoc]
    exact rest

end

theorem occurrences_extended {front text : Text} (all : AllCrlf text)
    (other : (front ++ ['\r']).head? ≠ some '\n') :
    occurrences text (front ++ ['\r', '\n']) = occurrences text (front ++ ['\r']) := by
  have longer : front ++ ['\r'] <+: front ++ ['\r', '\n'] := ⟨['\n'], by simp⟩
  have written : front ++ ['\r'] ≠ [] := List.append_ne_nil_of_right_ne_nil _ (List.cons_ne_nil _ _)
  have apart (rest : Text) : ¬front ++ ['\r'] <+: '\n' :: rest := by
    rintro ⟨later, eq⟩
    have newline := congrArg List.head? eq
    rw [List.head?_append_of_ne_nil _ written] at newline
    exact other newline
  generalize size : text.length = length
  induction length using Nat.strongRecOn generalizing text with
  | ind length ih =>
    subst size
    by_cases here : front ++ ['\r'] <+: text
    · obtain ⟨second, rfl⟩ := here
      rw [List.append_assoc, List.singleton_append] at all
      obtain ⟨rest, rfl⟩ := all.after_carriage
      have parts : front ++ ['\r'] ++ '\n' :: rest = front ++ ['\r', '\n'] ++ rest := by simp
      have parts' : front ++ '\r' :: '\n' :: rest = front ++ ['\r', '\n'] ++ rest := by simp
      have shorter : rest.length < (front ++ ['\r'] ++ '\n' :: rest).length := by
        rw [List.length_append, List.length_cons]
        omega
      rw [parts'] at all
      rw [occurrences_append written, occurrences_cons (apart rest), parts,
        occurrences_append (List.append_ne_nil_of_right_ne_nil _ (List.cons_ne_nil _ _)),
        ih _ shorter (all.of_append (by simp)).2 rfl]
    · have here' : ¬front ++ ['\r', '\n'] <+: text := fun whole => here (longer.trans whole)
      cases text with
      | nil =>
        rw [occurrences_nil written,
          occurrences_nil (List.append_ne_nil_of_right_ne_nil _ (List.cons_ne_nil _ _))]
      | cons c rest =>
        rw [occurrences_cons here, occurrences_cons here']
        rcases all.uncons with ⟨rfl, more, rfl, later⟩ | ⟨-, -, later⟩
        · rw [occurrences_cons (apart more),
            occurrences_cons fun whole => apart more (longer.trans whole)]
          exact ih _ (Nat.lt_succ_of_lt (Nat.lt_succ_self _)) later rfl
        · exact ih _ (Nat.lt_succ_self _) later rfl

theorem occurrences_preceded {more text : Text} (all : AllCrlf text)
    (clear : more.getLast? ≠ some '\r') :
    occurrences text ('\r' :: '\n' :: more) = occurrences text ('\n' :: more) := by
  have apart {c : Char} (other : c ≠ '\n') (rest : Text) : ¬('\n' :: more <+: c :: rest) :=
    fun prefixed => other (List.cons_prefix_cons.mp prefixed).1.symm
  generalize size : text.length = length
  induction length using Nat.strongRecOn generalizing text with
  | ind length ih =>
    subst size
    cases text with
    | nil => rw [occurrences_nil (List.cons_ne_nil _ _), occurrences_nil (List.cons_ne_nil _ _)]
    | cons c rest =>
      rcases all.uncons with ⟨rfl, behind, rfl, later⟩ | ⟨carriage, newline, later⟩
      · rw [occurrences_cons (apart (by decide) _)]
        by_cases here : more <+: behind
        · obtain ⟨rest, rfl⟩ := here
          have shorter : rest.length < ('\r' :: '\n' :: (more ++ rest)).length := by simp; omega
          have eq := ih _ shorter (later.of_append clear).2 rfl
          have found := @occurrences_append ('\r' :: '\n' :: more) (List.cons_ne_nil _ _) rest
          have found' := @occurrences_append ('\n' :: more) (List.cons_ne_nil _ _) rest
          exact found.trans ((congrArg (· + 1) eq).trans found'.symm)
        · have absent : ¬('\n' :: more <+: '\n' :: behind) :=
            fun prefixed => here (List.cons_prefix_cons.mp prefixed).2
          have absent' : ¬('\r' :: '\n' :: more <+: '\r' :: '\n' :: behind) :=
            fun prefixed => absent (List.cons_prefix_cons.mp prefixed).2
          rw [occurrences_cons absent, occurrences_cons absent',
            occurrences_cons fun prefixed => by cases (List.cons_prefix_cons.mp prefixed).1]
          exact ih _ (Nat.lt_succ_of_lt (Nat.lt_succ_self _)) later rfl
      · rw [occurrences_cons (apart newline rest),
          occurrences_cons fun prefixed => carriage (List.cons_prefix_cons.mp prefixed).1.symm]
        exact ih _ (Nat.lt_succ_self _) later rfl

theorem parted_of_occurrences_ne {old text : Text} (all : AllCrlf text) (occurs : old <:+: text)
    (differ : occurrences text (normalizeLineEndings old ['\r', '\n']) ≠ occurrences text old) :
    old.head? = some '\n' ∧ old.getLast? = some '\r' := by
  obtain ⟨front, rest, rfl⟩ := occurs
  have nonempty : old ≠ [] := by
    rintro rfl
    exact differ rfl
  by_cases newline : old.head? = some '\n'
  · refine ⟨newline, ?_⟩
    by_contra clear
    obtain ⟨more, rfl⟩ := List.head?_eq_some_iff.mp newline
    have clearMore : more.getLast? ≠ some '\r' := by
      intro carriage
      rw [List.getLast?_cons, carriage] at clear
      exact clear rfl
    have allMore : AllCrlf more := by
      have within := all
      rw [List.append_assoc, List.cons_append] at within
      obtain ⟨above, rfl⟩ := within.before_newline
      have parts : above ++ ['\r'] ++ '\n' :: (more ++ rest) =
          (above ++ ['\r', '\n']) ++ (more ++ rest) := by simp
      rw [parts] at within
      exact ((within.of_append (by simp)).2.of_append clearMore).1
    refine differ ?_
    rw [normalize_newline_cons, normalize_allCrlf allMore]
    exact occurrences_preceded all clearMore
  · exfalso
    have within := all
    rw [List.append_assoc] at within
    have other : (old ++ rest).head? ≠ some '\n' := by
      rwa [List.head?_append_of_ne_nil _ nonempty]
    obtain ⟨-, later⟩ := within.of_append
      (within.clear (List.append_ne_nil_of_left_ne_nil nonempty rest) other)
    by_cases carriage : old.getLast? = some '\r'
    · obtain ⟨init, rfl⟩ := List.getLast?_eq_some_iff.mp carriage
      rw [List.append_assoc, List.singleton_append] at later
      have clear := later.clear (List.cons_ne_nil _ _) (by simp)
      refine differ ?_
      rw [normalize_concat_carriage clear, normalize_allCrlf (later.of_append clear).1]
      exact occurrences_extended all newline
    · rw [normalize_allCrlf (later.of_append carriage).1] at differ
      exact differ rfl

end CodeWeave
