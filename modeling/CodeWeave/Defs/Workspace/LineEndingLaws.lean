import CodeWeave.Defs.LineLaws

namespace CodeWeave

open Pieces

/-- Every newline ends a CRLF, and every carriage return starts one. -/
def AllCrlf : Text → Prop
  | '\r' :: '\n' :: rest => AllCrlf rest
  | c :: rest => c ≠ '\r' ∧ c ≠ '\n' ∧ AllCrlf rest
  | [] => True

theorem allCrlf_cons {c : Char} {rest : Text}
    (other : ∀ tail, c = '\r' → rest = '\n' :: tail → False) :
    AllCrlf (c :: rest) ↔ c ≠ '\r' ∧ c ≠ '\n' ∧ AllCrlf rest := by
  rw [AllCrlf]
  exact other

theorem countCrlf_cons {c : Char} {rest : Text}
    (other : ∀ tail, c = '\r' → rest = '\n' :: tail → False) :
    countCrlf (c :: rest) = countCrlf rest := by
  rw [countCrlf]
  exact other

theorem countCrlf_le (text : Text) :
    countCrlf text ≤ text.count '\n' ∧ countCrlf text ≤ text.count '\r' := by
  induction text using countCrlf.induct with
  | case1 rest ih =>
    simp only [countCrlf, List.count_cons_self, List.count_cons_of_ne (by decide : '\r' ≠ '\n'),
      List.count_cons_of_ne (by decide : '\n' ≠ '\r')]
    omega
  | case2 c rest other ih =>
    rw [countCrlf_cons other, List.count_cons, List.count_cons]
    omega
  | case3 => exact ⟨Nat.le_refl 0, Nat.le_refl 0⟩

theorem allCrlf_iff (text : Text) :
    AllCrlf text ↔ countCrlf text = text.count '\n' ∧ countCrlf text = text.count '\r' := by
  induction text using countCrlf.induct with
  | case1 rest ih =>
    simp only [AllCrlf, countCrlf, List.count_cons_self,
      List.count_cons_of_ne (by decide : '\r' ≠ '\n'),
      List.count_cons_of_ne (by decide : '\n' ≠ '\r'), ih, Nat.add_right_cancel_iff]
  | case2 c rest other ih =>
    have few := countCrlf_le rest
    rw [allCrlf_cons other, countCrlf_cons other, ih, List.count_cons, List.count_cons]
    by_cases carriage : c = '\r'
    · simp [carriage]
      omega
    · by_cases newline : c = '\n'
      · simp [newline]
        omega
      · simp [carriage, newline]
  | case3 => exact iff_of_true trivial ⟨rfl, rfl⟩

theorem AllCrlf.append {first second : Text} (all : AllCrlf first) (all' : AllCrlf second) :
    AllCrlf (first ++ second) := by
  induction first using AllCrlf.induct with
  | case1 rest ih => exact ih all
  | case2 c rest other ih =>
    obtain ⟨carriage, newline, later⟩ := (allCrlf_cons other).mp all
    rw [List.cons_append, allCrlf_cons fun tail same _ => carriage same]
    exact ⟨carriage, newline, ih later⟩
  | case3 => exact all'

theorem AllCrlf.of_append {first second : Text} (clear : first.getLast? ≠ some '\r')
    (all : AllCrlf (first ++ second)) : AllCrlf first ∧ AllCrlf second := by
  have behind {c : Char} {rest : Text} (nonempty : rest ≠ [])
      (clear : (c :: rest).getLast? ≠ some '\r') : rest.getLast? ≠ some '\r' := by
    rwa [List.getLast?_cons_of_ne_nil nonempty] at clear
  induction first using AllCrlf.induct with
  | case1 rest ih =>
    by_cases empty : rest = []
    · rw [empty] at all ⊢
      exact ⟨trivial, all⟩
    · exact ih (behind empty (behind (List.cons_ne_nil _ _) clear)) all
  | case2 c rest other ih =>
    by_cases empty : rest = []
    · rw [empty] at all clear ⊢
      have carriage : c ≠ '\r' := fun same => clear (by rw [same]; rfl)
      rw [List.singleton_append, allCrlf_cons fun tail same _ => carriage same] at all
      exact ⟨(allCrlf_cons fun tail same _ => carriage same).mpr ⟨carriage, all.2.1, trivial⟩,
        all.2.2⟩
    · obtain ⟨d, more, shape⟩ := List.exists_cons_of_ne_nil empty
      have other' : ∀ tail, c = '\r' → rest ++ second = '\n' :: tail → False := by
        intro tail carriage eq
        rw [shape, List.cons_append, List.cons.injEq] at eq
        exact other more carriage (by rw [shape, eq.1])
      rw [List.cons_append, allCrlf_cons other'] at all
      rw [allCrlf_cons other]
      obtain ⟨left, right⟩ := ih (behind empty clear) all.2.2
      exact ⟨⟨all.1, all.2.1, left⟩, right⟩
  | case3 => exact ⟨trivial, all⟩

theorem AllCrlf.after_carriage {first second : Text} (all : AllCrlf (first ++ '\r' :: second)) :
    ∃ rest, second = '\n' :: rest := by
  induction first using AllCrlf.induct with
  | case1 rest ih => exact ih all
  | case2 c rest other ih =>
    have other' : ∀ tail, c = '\r' → rest ++ '\r' :: second = '\n' :: tail → False := by
      intro tail carriage eq
      cases rest with
      | nil => cases eq
      | cons d more =>
        obtain ⟨rfl, -⟩ := List.cons.inj eq
        exact other more carriage rfl
    rw [List.cons_append, allCrlf_cons other'] at all
    exact ih all.2.2
  | case3 =>
    by_contra other
    rw [List.nil_append, allCrlf_cons fun tail _ eq => other ⟨tail, eq⟩] at all
    exact all.1 rfl

theorem AllCrlf.head {text : Text} (all : AllCrlf text) : text.head? ≠ some '\n' := by
  intro newline
  obtain ⟨rest, rfl⟩ := List.head?_eq_some_iff.mp newline
  rw [allCrlf_cons (fun _ same _ => by cases same)] at all
  exact all.2.1 rfl

theorem AllCrlf.last {text : Text} (all : AllCrlf text) : text.getLast? ≠ some '\r' := by
  intro carriage
  obtain ⟨front, rfl⟩ := List.getLast?_eq_some_iff.mp carriage
  obtain ⟨rest, impossible⟩ := all.after_carriage
  cases impossible

theorem AllCrlf.uncons {c : Char} {rest : Text} (all : AllCrlf (c :: rest)) :
    (c = '\r' ∧ ∃ more, rest = '\n' :: more ∧ AllCrlf more) ∨
      (c ≠ '\r' ∧ c ≠ '\n' ∧ AllCrlf rest) := by
  by_cases carriage : c = '\r'
  · subst carriage
    obtain ⟨more, rfl⟩ := @AllCrlf.after_carriage [] rest all
    exact .inl ⟨rfl, more, rfl, all⟩
  · exact .inr ((allCrlf_cons fun _ same _ => carriage same).mp all)

theorem AllCrlf.before_newline {first second : Text} (all : AllCrlf (first ++ '\n' :: second)) :
    ∃ front, first = front ++ ['\r'] := by
  rw [← List.getLast?_eq_some_iff]
  by_contra clear
  exact (all.of_append clear).2.head rfl

theorem AllCrlf.clear {first second : Text} (all : AllCrlf (first ++ second))
    (nonempty : second ≠ []) (other : second.head? ≠ some '\n') : first.getLast? ≠ some '\r' := by
  intro carriage
  obtain ⟨front, rfl⟩ := List.getLast?_eq_some_iff.mp carriage
  rw [List.append_assoc, List.singleton_append] at all
  obtain ⟨rest, rfl⟩ := all.after_carriage
  exact other rfl

theorem allCrlf_of_plain {text : Text} (newline : '\n' ∉ text) (carriage : '\r' ∉ text) :
    AllCrlf text := by
  have few := countCrlf_le text
  rw [List.count_eq_zero.mpr newline] at few
  rw [allCrlf_iff, List.count_eq_zero.mpr newline, List.count_eq_zero.mpr carriage]
  omega

theorem lineEndingLabel_crlf {text : Text} :
    lineEndingLabel text = .crlf ↔ AllCrlf text ∧ '\n' ∈ text := by
  have few := countCrlf_le text
  rw [allCrlf_iff, ← List.count_pos_iff, lineEndingLabel]
  split_ifs <;> simp only [false_iff, true_iff] <;> omega

theorem lineEndingLabel_lf {text : Text} :
    lineEndingLabel text = .lf ↔ '\r' ∉ text ∧ '\n' ∈ text := by
  have few := countCrlf_le text
  rw [← List.count_eq_zero, ← List.count_pos_iff, lineEndingLabel]
  split_ifs <;> simp only [false_iff, true_iff] <;> omega

theorem lineEndingLabel_none {text : Text} :
    lineEndingLabel text = .none ↔ '\r' ∉ text ∧ '\n' ∉ text := by
  have few := countCrlf_le text
  rw [← List.count_eq_zero, ← List.count_eq_zero, lineEndingLabel]
  split_ifs <;> simp only [false_iff, true_iff] <;> omega

def toLf (text : Text) : Text := (crlfToLf text).map fun c => if c = '\r' then '\n' else c

def withEnding (ending text : Text) : Text := text.flatMap fun c => if c = '\n' then ending else [c]

theorem normalizeLineEndings_eq (text ending : Text) :
    normalizeLineEndings text ending = withEnding ending (toLf text) := rfl

theorem carriage_notMem_toLf (text : Text) : '\r' ∉ toLf text := by
  intro mem
  obtain ⟨c, -, eq⟩ := List.mem_map.mp mem
  split at eq
  · cases eq
  · next other => exact other eq

theorem withEnding_append (ending first second : Text) :
    withEnding ending (first ++ second) = withEnding ending first ++ withEnding ending second :=
  List.flatMap_append

theorem withEnding_unmarked (ending : Text) {text : Text} (unmarked : '\n' ∉ text) :
    withEnding ending text = text := by
  induction text with
  | nil => rfl
  | cons c rest ih =>
    rw [List.mem_cons, not_or] at unmarked
    rw [withEnding, List.flatMap_cons, if_neg (Ne.symm unmarked.1), ← withEnding, ih unmarked.2]
    rfl

theorem withEnding_lf (text : Text) : withEnding ['\n'] text = text := by
  induction text with
  | nil => rfl
  | cons c rest ih =>
    rw [withEnding, List.flatMap_cons, ← withEnding, ih]
    split
    · next newline => rw [newline]; rfl
    · rfl

theorem allCrlf_withEnding {text : Text} (plain : '\r' ∉ text) :
    AllCrlf (withEnding ['\r', '\n'] text) := by
  induction text with
  | nil => trivial
  | cons c rest ih =>
    rw [List.mem_cons, not_or] at plain
    rw [withEnding, List.flatMap_cons, ← withEnding]
    refine AllCrlf.append ?_ (ih plain.2)
    split
    · trivial
    · next newline =>
      rw [allCrlf_cons fun tail same _ => plain.1 same.symm]
      exact ⟨Ne.symm plain.1, newline, trivial⟩

theorem normalize_allCrlf {text : Text} (all : AllCrlf text) :
    normalizeLineEndings text ['\r', '\n'] = text := by
  induction text using AllCrlf.induct with
  | case1 rest ih =>
    have rest_eq : withEnding ['\r', '\n'] (toLf rest) = rest := ih all
    rw [normalizeLineEndings_eq, toLf, crlfToLf, List.map_cons, ← toLf, withEnding,
      List.flatMap_cons, ← withEnding, rest_eq]
    rfl
  | case2 c rest other ih =>
    obtain ⟨carriage, newline, later⟩ := (allCrlf_cons other).mp all
    have rest_eq : withEnding ['\r', '\n'] (toLf rest) = rest := ih later
    rw [normalizeLineEndings_eq, toLf, crlfToLf_cons other, List.map_cons, if_neg carriage, ← toLf,
      withEnding, List.flatMap_cons, if_neg newline, ← withEnding, rest_eq]
    rfl
  | case3 => rfl

theorem toLf_of_plain {text : Text} (plain : '\r' ∉ text) : toLf text = text := by
  induction text with
  | nil => rfl
  | cons c rest ih =>
    rw [List.mem_cons, not_or] at plain
    rw [toLf, crlfToLf_cons fun tail same _ => plain.1 same.symm, List.map_cons,
      if_neg (Ne.symm plain.1), ← toLf, ih plain.2]

theorem toLf_append {first : Text} (clear : first.getLast? ≠ some '\r') (second : Text) :
    toLf (first ++ second) = toLf first ++ toLf second := by
  rw [toLf, crlfToLf_append clear, List.map_append, ← toLf, ← toLf]

theorem normalize_newline_cons (text ending : Text) :
    normalizeLineEndings ('\n' :: text) ending = ending ++ normalizeLineEndings text ending := by
  rw [normalizeLineEndings_eq, toLf, crlfToLf_cons (fun _ same _ => by cases same), List.map_cons,
    ← toLf]
  rfl

theorem normalize_concat_carriage {text : Text} (clear : text.getLast? ≠ some '\r')
    (ending : Text) :
    normalizeLineEndings (text ++ ['\r']) ending = normalizeLineEndings text ending ++ ending := by
  rw [normalizeLineEndings_eq, toLf_append clear, withEnding_append, normalizeLineEndings_eq]
  simp [toLf, crlfToLf, withEnding]

theorem normalizeLineEndings_eq_nil {text ending : Text} (nonempty : ending ≠ []) :
    normalizeLineEndings text ending = [] ↔ text = [] := by
  constructor
  · intro none
    rw [normalizeLineEndings, List.flatMap_eq_nil_iff] at none
    cases text with
    | nil => rfl
    | cons c rest =>
      exfalso
      obtain ⟨d, mem⟩ : ∃ d, d ∈ toLf (c :: rest) := by
        by_cases crlf : ∃ tail, c = '\r' ∧ rest = '\n' :: tail
        · obtain ⟨tail, rfl, rfl⟩ := crlf
          exact ⟨_, List.mem_cons_self⟩
        · rw [toLf, crlfToLf_cons fun tail same eq => crlf ⟨tail, same, eq⟩]
          exact ⟨_, List.mem_cons_self⟩
      have empty := none d mem
      split at empty
      · exact nonempty empty
      · cases empty
  · rintro rfl
    rfl

theorem normalize_lf {text : Text} (plain : '\r' ∉ text) :
    normalizeLineEndings text ['\n'] = text := by
  rw [normalizeLineEndings_eq, withEnding_lf, toLf_of_plain plain]

def PlainLine (line : Text) : Prop := '\n' ∉ line ∧ '\r' ∉ line

def IsEnding (ending : Text) : Prop := ending = ['\n'] ∨ ending = ['\r', '\n']

def closeLines (ending : Text) (parts : List Text) : Text := parts.flatMap fun line => line ++ ending

def joinWith (ending : Text) (parts : List Text) : Text := ending.intercalate parts

theorem withEnding_closeLines (ending : Text) {parts : List Text}
    (plain : ∀ line ∈ parts, PlainLine line) :
    withEnding ending (closeLines ['\n'] parts) = closeLines ending parts := by
  induction parts with
  | nil => rfl
  | cons line rest ih =>
    have newline : withEnding ending ['\n'] = ending := by simp [withEnding]
    rw [closeLines, closeLines, List.flatMap_cons, List.flatMap_cons, ← closeLines, ← closeLines,
      withEnding_append, withEnding_append, newline,
      withEnding_unmarked ending (plain line List.mem_cons_self).1,
      ih fun other mem => plain other (List.mem_cons_of_mem _ mem)]

section

variable {ending : Text} (isEnding : IsEnding ending)

theorem joinWith_concat (ending last : Text) (init : List Text) :
    joinWith ending (init ++ [last]) = closeLines ending init ++ last := by
  induction init with
  | nil => simp [joinWith, closeLines, List.intercalate]
  | cons line rest ih =>
    obtain ⟨next, more, shape⟩ := List.exists_cons_of_ne_nil
      (List.append_ne_nil_of_right_ne_nil rest (List.cons_ne_nil last []))
    have later : joinWith ending (line :: (rest ++ [last])) =
        line ++ ending ++ joinWith ending (rest ++ [last]) := by
      rw [shape, joinWith, joinWith, List.intercalate_cons_cons]
    rw [List.cons_append, later, ih, closeLines, closeLines, List.flatMap_cons]
    simp

include isEnding

theorem ended_closeLines (parts : List Text) : Ended '\n' (closeLines ending parts) := by
  induction parts with
  | nil => exact ended_nil
  | cons line rest ih =>
    rw [closeLines, List.flatMap_cons, ← closeLines]
    refine Ended.append ?_ ih
    cases isEnding with
    | inl lf => rw [lf]; exact ended_concat line
    | inr crlf =>
      have parts : line ++ ['\r', '\n'] = line ++ ['\r'] ++ ['\n'] := by simp
      rw [crlf, parts]
      exact ended_concat _

theorem lines_closed {line : Text} (plain : PlainLine line) : lines (line ++ ending) = [line] := by
  cases isEnding with
  | inl lf =>
    have open_end : line.getLast? ≠ some '\r' := fun last =>
      plain.2 (List.mem_of_getLast? last)
    rw [lf, lines_body_append plain.1, lineBody_lf, if_neg open_end, lines_nil]
  | inr crlf =>
    have parts : line ++ ['\r', '\n'] = (line ++ ['\r']) ++ '\n' :: [] := by simp
    have unmarked : '\n' ∉ line ++ ['\r'] := by simp [plain.1]
    rw [crlf, parts, lines_body_append unmarked, lines_nil, lineBody_lf, List.getLast?_concat,
      if_pos rfl, List.dropLast_concat]

theorem lines_closeLines {parts : List Text} (plain : ∀ line ∈ parts, PlainLine line)
    (rest : Text) : lines (closeLines ending parts ++ rest) = parts ++ lines rest := by
  induction parts with
  | nil => rfl
  | cons line others ih =>
    have here := lines_closed isEnding (plain line List.mem_cons_self)
    have one : closeLines ending [line] = line ++ ending := by simp [closeLines]
    have ended : Ended '\n' (line ++ ending) := one ▸ ended_closeLines isEnding [line]
    rw [closeLines, List.flatMap_cons, ← closeLines, List.append_assoc, lines_append ended, here,
      ih fun other mem => plain other (List.mem_cons_of_mem _ mem)]
    rfl

theorem lines_joinWith {init : List Text} {last : Text}
    (plain : ∀ line ∈ init ++ [last], PlainLine line) :
    lines (joinWith ending (init ++ [last])) = if last = [] then init else init ++ [last] := by
  have plainInit : ∀ line ∈ init, PlainLine line :=
    fun line mem => plain line (List.mem_append_left _ mem)
  have plainLast : PlainLine last := plain last (by simp)
  rw [joinWith_concat, lines_closeLines isEnding plainInit]
  split
  · next blank => rw [blank, lines_nil, List.append_nil]
  · next written => rw [lines_unmarked plainLast.1 written]

theorem toLf_ending (rest : Text) : toLf (ending ++ rest) = '\n' :: toLf rest := by
  cases isEnding with
  | inl lf =>
    have other : ∀ tail, '\n' = '\r' → rest = '\n' :: tail → False := fun tail same _ => by
      cases same
    rw [lf, List.singleton_append, toLf, crlfToLf_cons other, List.map_cons, ← toLf]
    rfl
  | inr crlf => rw [crlf]; rfl

theorem toLf_closeLines {parts : List Text} (plain : ∀ line ∈ parts, PlainLine line)
    (rest : Text) :
    toLf (closeLines ending parts ++ rest) = closeLines ['\n'] parts ++ toLf rest := by
  induction parts with
  | nil => rfl
  | cons line others ih =>
    have here := plain line List.mem_cons_self
    have clear : line.getLast? ≠ some '\r' := fun last => here.2 (List.mem_of_getLast? last)
    rw [closeLines, List.flatMap_cons, ← closeLines, List.append_assoc, List.append_assoc,
      toLf_append clear, toLf_of_plain here.2, toLf_ending isEnding,
      ih fun other mem => plain other (List.mem_cons_of_mem _ mem), closeLines, closeLines,
      List.flatMap_cons]
    simp

theorem normalize_joinWith {parts : List Text} (plain : ∀ line ∈ parts, PlainLine line)
    (other : Text) :
    normalizeLineEndings (joinWith ending parts) other = joinWith other parts := by
  rcases parts.eq_nil_or_concat' with rfl | ⟨init, last, rfl⟩
  · rfl
  · have plainInit : ∀ line ∈ init, PlainLine line :=
      fun line mem => plain line (List.mem_append_left _ mem)
    have plainLast : PlainLine last := plain last (by simp)
    rw [normalizeLineEndings_eq, joinWith_concat, toLf_closeLines isEnding plainInit,
      toLf_of_plain plainLast.2, withEnding_append, withEnding_unmarked other plainLast.1,
      withEnding_closeLines other plainInit, joinWith_concat]

end

theorem carriage_notMem_of_allCrlf {text : Text} (all : AllCrlf text) (unmarked : '\n' ∉ text) :
    '\r' ∉ text := by
  have counts := (allCrlf_iff text).mp all
  rw [List.count_eq_zero.mpr unmarked] at counts
  exact List.count_eq_zero.mp (counts.2.symm.trans counts.1)

theorem line_of_allCrlf {body : Text} (all : AllCrlf (body ++ ['\n'])) (unmarked : '\n' ∉ body) :
    ∃ line, body = line ++ ['\r'] ∧ PlainLine line := by
  induction body with
  | nil => exact absurd rfl ((allCrlf_cons fun tail same _ => by cases same).mp all).2.1
  | cons c rest ih =>
    rw [List.mem_cons, not_or] at unmarked
    cases rest with
    | nil =>
      by_cases carriage : c = '\r'
      · exact ⟨[], by rw [carriage]; rfl, List.not_mem_nil, List.not_mem_nil⟩
      · rw [List.cons_append, allCrlf_cons fun tail same _ => carriage same] at all
        exact absurd rfl ((allCrlf_cons fun tail same _ => by cases same).mp all.2.2).2.1
    | cons d more =>
      have newline : d ≠ '\n' := fun same => unmarked.2 (by rw [same]; exact List.mem_cons_self)
      have other : ∀ tail, c = '\r' → d :: more ++ ['\n'] = '\n' :: tail → False :=
        fun tail _ eq => newline (List.cons.inj eq).1
      rw [List.cons_append, allCrlf_cons other] at all
      obtain ⟨line, shape, plain⟩ := ih all.2.2 unmarked.2
      refine ⟨c :: line, by rw [shape]; rfl, ?_, ?_⟩
      · simpa using ⟨unmarked.1, plain.1⟩
      · simpa using ⟨Ne.symm all.1, plain.2⟩

def Uses (ending text : Text) : Prop :=
  ∃ parts last, text = closeLines ending parts ++ last ∧ (∀ line ∈ parts, PlainLine line) ∧
    PlainLine last

theorem Uses.cons {ending line rest : Text} (plain : PlainLine line) (uses : Uses ending rest) :
    Uses ending (line ++ ending ++ rest) := by
  obtain ⟨parts, last, rfl, plainParts, plainLast⟩ := uses
  refine ⟨line :: parts, last, ?_, ?_, plainLast⟩
  · rw [closeLines, closeLines, List.flatMap_cons, List.append_assoc]
    simp
  · exact List.forall_mem_cons.mpr ⟨plain, plainParts⟩

theorem uses_crlf {text : Text} (all : AllCrlf text) : Uses ['\r', '\n'] text := by
  induction text using text_induction with
  | nil => exact ⟨[], [], rfl, nofun, List.not_mem_nil, List.not_mem_nil⟩
  | last body unmarked _ =>
    exact ⟨[], body, rfl, nofun, unmarked, carriage_notMem_of_allCrlf all unmarked⟩
  | piece body rest unmarked ih =>
    have parts : body ++ '\n' :: rest = (body ++ ['\n']) ++ rest := by simp
    have clear : (body ++ ['\n']).getLast? ≠ some '\r' := by
      rw [List.getLast?_concat]
      exact nofun
    rw [parts] at all ⊢
    obtain ⟨here, later⟩ := all.of_append clear
    obtain ⟨line, rfl, plain⟩ := line_of_allCrlf here unmarked
    have ending : line ++ ['\r'] ++ ['\n'] = line ++ ['\r', '\n'] := by simp
    rw [ending]
    exact (ih later).cons plain

theorem uses_lf {text : Text} (plain : '\r' ∉ text) : Uses ['\n'] text := by
  induction text using text_induction with
  | nil => exact ⟨[], [], rfl, nofun, List.not_mem_nil, List.not_mem_nil⟩
  | last body unmarked _ => exact ⟨[], body, rfl, nofun, unmarked, plain⟩
  | piece body rest unmarked ih =>
    have parts : body ++ '\n' :: rest = (body ++ ['\n']) ++ rest := by simp
    rw [parts] at plain ⊢
    rw [List.mem_append, List.mem_append, not_or, not_or] at plain
    exact (ih plain.2).cons ⟨unmarked, plain.1.1⟩

theorem Uses.eq_joinWith {ending text : Text} (isEnding : IsEnding ending) (uses : Uses ending text) :
    text = joinWith ending (lines text) ++ if ['\n'] <:+ text then ending else [] := by
  obtain ⟨parts, last, rfl, plain, plainLast⟩ := uses
  have suffix_ending : ['\n'] <:+ ending := by
    cases isEnding with
    | inl lf => exact lf ▸ List.suffix_rfl
    | inr crlf => exact crlf ▸ ⟨['\r'], rfl⟩
  rw [lines_closeLines isEnding plain]
  by_cases blank : last = []
  · rw [blank, lines_nil, List.append_nil, List.append_nil]
    rcases parts.eq_nil_or_concat' with rfl | ⟨init, final, rfl⟩
    · rfl
    · have whole : closeLines ending (init ++ [final]) = joinWith ending (init ++ [final]) ++ ending := by
        rw [joinWith_concat, closeLines, List.flatMap_append]
        simp [closeLines]
      have ended : ['\n'] <:+ closeLines ending (init ++ [final]) := by
        rw [whole]
        exact suffix_ending.trans (List.suffix_append ..)
      rw [if_pos ended, whole]
  · have open_end : ¬['\n'] <:+ closeLines ending parts ++ last := by
      rintro ⟨front, eq⟩
      have final := congrArg List.getLast? eq
      rw [List.getLast?_concat, List.getLast?_append_of_ne_nil _ blank] at final
      exact plainLast.1 (List.mem_of_getLast? final.symm)
    rw [if_neg open_end, lines_unmarked plainLast.1 blank, joinWith_concat, List.append_nil]

theorem ended_clear {text : Text} (ended : Ended '\n' text) : text.getLast? ≠ some '\r' :=
  fun last => absurd (ended '\r' last) (by decide)

theorem AllCrlf.linesBetween {content : Text} (all : AllCrlf content) {first last : Nat}
    (order : first ≤ last) : AllCrlf (linesBetween content first last) := by
  have upTo : AllCrlf (CodeWeave.linesBetween content 0 last) := by
    by_cases within : last < (lines content).length
    · rw [← linesBetween_all content (Nat.le_refl _),
        ← linesBetween_append content (Nat.zero_le last) within.le] at all
      exact (all.of_append (ended_clear (ended_linesBetween content within))).1
    · rw [linesBetween_all content (Nat.le_of_not_lt within)]
      exact all
  by_cases within : first < (lines content).length
  · rw [← linesBetween_append content (Nat.zero_le first) order] at upTo
    exact (upTo.of_append (ended_clear (ended_linesBetween content within))).2
  · have none : lines (CodeWeave.linesBetween content first last) = [] := by
      rw [lines_linesBetween]
      exact List.drop_eq_nil_of_le ((List.length_take_le' last _).trans (Nat.le_of_not_lt within))
    rw [lines_eq, List.map_eq_nil_iff, cut_eq_nil] at none
    rw [none]
    trivial

end CodeWeave
