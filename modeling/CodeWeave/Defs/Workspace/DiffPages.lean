import CodeWeave.Defs.Workspace.GitDiff
import CodeWeave.Lib.Codes

namespace CodeWeave

def hunkBytes (hunk : DiffHunk) : Nat := utf8Count hunk.text

def hunkTexts (hunks : List DiffHunk) : Text := hunks.flatMap DiffHunk.text

theorem hunkTexts_flatten (chunks : List (List DiffHunk)) :
    hunkTexts chunks.flatten = (chunks.map hunkTexts).flatten := by
  induction chunks with
  | nil => rfl
  | cons chunk rest ih =>
    rw [List.map_cons, List.flatten_cons, List.flatten_cons, ← ih, hunkTexts, List.flatMap_append]
    rfl

theorem fillPage_eq (appliedChars count index : Nat) (left : List DiffHunk) (output : Text)
    (selected : List DiffHunk) (inside : left ≠ [] → index + left.length = count) :
    fillPage appliedChars count index left output selected =
      (output ++ hunkTexts (Paging.fill hunkBytes appliedChars (utf8Count output) left).1,
        selected ++ (Paging.fill hunkBytes appliedChars (utf8Count output) left).1,
        if (Paging.fill hunkBytes appliedChars (utf8Count output) left).2.isEmpty then none
        else some (index +
          (Paging.fill hunkBytes appliedChars (utf8Count output) left).1.length)) := by
  induction left generalizing index output selected with
  | nil => simp [fillPage, Paging.fill, hunkTexts]
  | cons hunk rest ih =>
    have total := inside (List.cons_ne_nil _ _)
    rw [List.length_cons] at total
    have full : (output ≠ [] ∧ appliedChars < utf8Count output + utf8Count hunk.text) ↔
        (utf8Count output ≠ 0 ∧ appliedChars < utf8Count output + hunkBytes hunk) :=
      and_congr (not_congr utf8Count_eq_zero.symm) Iff.rfl
    rw [fillPage, Paging.fill]
    simp only [full]
    split
    · simp [hunkTexts]
    · have oversized : appliedChars < utf8Count hunk.text ↔ appliedChars < hunkBytes hunk := Iff.rfl
      simp only [oversized]
      split
      · cases rest with
        | nil => simp [hunkTexts] at total ⊢; omega
        | cons next later => simp [hunkTexts] at total ⊢; omega
      · rw [ih (index + 1) (output ++ hunk.text) (selected ++ [hunk]) (by omega),
          utf8Count_append]
        simp [hunkTexts, hunkBytes, Nat.add_assoc, Nat.add_comm 1]

def GitPolicy.applied (policy : GitPolicy) (maxChars : Option Nat) : Nat :=
  min (maxChars.getD policy.maxContextChars) policy.maxContextChars

namespace Workspace

variable (ws : Workspace) (policy : GitPolicy) (repo : Repository) (world : World)

def pageAt (scope : GitDiffScope) (hunks : List DiffHunk) (offset : Nat) (maxChars : Option Nat) :
    GitDiffPage :=
  let snapshot := world.state.shared.snapshotId
  let (taken, left) := Paging.page hunkBytes (policy.applied maxChars) (hunks.drop offset)
  let next := if left.isEmpty then none else some (offset + taken.length)
  let continuation := next.map fun index =>
    encodeGitDiffContinuation policy.codec ⟨snapshot, index, scope⟩
  ⟨hunkTexts taken, taken, continuation.isSome, continuation, scope,
    maxChars.getD policy.maxContextChars, policy.applied maxChars, policy.maxContextChars,
    world.state.shared.generation, snapshot⟩

theorem gitDiff_eq {request : GitDiffRequest} {scope : GitDiffScope} {hunks : List DiffHunk}
    {offset : Nat} (valid : (validatePaths (request.paths.getD [])).isOk = true)
    (requested : Workspace.requestedScope policy world request = .ok (scope, offset))
    (selected : ws.selectedHunks repo world (some policy.maxContextChars) scope = .ok hunks) :
    ws.gitDiff policy repo world request =
      .ok (pageAt policy world scope hunks offset request.maxChars) := by
  cases paths : validatePaths (request.paths.getD []) with
  | error error => rw [paths] at valid; cases valid
  | ok paths =>
    have total : hunks.drop offset ≠ [] → offset + (hunks.drop offset).length = hunks.length := by
      intro unfinished
      have left := List.length_pos_iff.mpr unfinished
      rw [List.length_drop] at left ⊢
      omega
    have page := fillPage_eq (policy.applied request.maxChars) hunks.length offset
      (hunks.drop offset) [] [] total
    rw [show utf8Count [] = 0 from rfl, GitPolicy.applied] at page
    simp only [gitDiff, paths, requested, selected, page, bind, Except.bind, pageAt, Paging.page,
      GitPolicy.applied, List.nil_append]
    rfl

theorem requestedScope_following (offset : Nat) (scope : GitDiffScope) (maxChars : Option Nat) :
    requestedScope policy world (.following
      (encodeGitDiffContinuation policy.codec ⟨world.state.shared.snapshotId, offset, scope⟩)
        maxChars) = .ok (scope, offset) := by
  simp [requestedScope, GitDiffRequest.following, decode_encodeGitDiffContinuation, bind,
    Except.bind, GitDiffRequest.hasScope]

theorem requestedScope_fresh {request : GitDiffRequest} (fresh : request.continuation = none) :
    requestedScope policy world request = .ok (.fromRequest request, 0) := by
  rw [requestedScope, fresh]

theorem gitDiff_inv {request : GitDiffRequest} {page : GitDiffPage}
    (h : ws.gitDiff policy repo world request = .ok page) :
    ∃ scope offset hunks, (validatePaths (request.paths.getD [])).isOk = true ∧
      requestedScope policy world request = .ok (scope, offset) ∧
      ws.selectedHunks repo world (some policy.maxContextChars) scope = .ok hunks ∧
      page = pageAt policy world scope hunks offset request.maxChars := by
  have computed := h
  simp only [gitDiff, bind_eq_ok] at computed
  obtain ⟨paths, valid, ⟨scope, offset⟩, requested, hunks, selected, -⟩ := computed
  have ok : (validatePaths (request.paths.getD [])).isOk = true := by rw [valid]; rfl
  have answered := ws.gitDiff_eq policy repo world ok requested selected
  exact ⟨scope, offset, hunks, ok, requested, selected, Except.ok.inj (h.symm.trans answered)⟩

theorem gitDiff_truncated {request : GitDiffRequest} {page : GitDiffPage}
    (h : ws.gitDiff policy repo world request = .ok page) :
    page.truncated = page.continuation.isSome := by
  obtain ⟨scope, offset, hunks, -, -, -, rfl⟩ := ws.gitDiff_inv policy repo world h
  rfl

end Workspace

/-- The pages that `ask` answers with, each following page asked for with its own
size. -/
inductive Follows (ask : GitDiffRequest → AppResult GitDiffPage) (sizes : Nat → Option Nat) :
    Nat → GitDiffRequest → List GitDiffPage → Prop
  | last {n : Nat} {request : GitDiffRequest} {page : GitDiffPage} (asked : ask request = .ok page)
      (done : page.continuation = none) : Follows ask sizes n request [page]
  | next {n : Nat} {request : GitDiffRequest} {page : GitDiffPage} {token : Text}
      {pages : List GitDiffPage} (asked : ask request = .ok page)
      (more : page.continuation = some token)
      (rest : Follows ask sizes (n + 1) (.following token (sizes (n + 1))) pages) :
      Follows ask sizes n request (page :: pages)

/-- The pages show these hunks, complete, each once and in order, and only the page that
ends them is not truncated. -/
structure Shows (whole : List DiffHunk) (pages : List GitDiffPage) : Prop where
  hunks : pages.flatMap GitDiffPage.hunks = whole
  output : pages.flatMap GitDiffPage.output = hunkTexts whole
  truncated : ∀ shown page later, pages = shown ++ page :: later → page.truncated = false →
    (shown ++ [page]).flatMap GitDiffPage.hunks = whole

namespace Follows

variable {ask : GitDiffRequest → AppResult GitDiffPage} {sizes : Nat → Option Nat} {n : Nat}
  {request : GitDiffRequest}

theorem unique {pages others : List GitDiffPage} (h : Follows ask sizes n request pages)
    (k : Follows ask sizes n request others) : pages = others := by
  induction h generalizing others with
  | last asked done =>
    cases k with
    | last asked' _ => rw [Except.ok.inj (asked.symm.trans asked')]
    | next asked' more _ =>
      rw [← Except.ok.inj (asked.symm.trans asked'), done] at more
      cases more
  | next asked more _ ih =>
    cases k with
    | last asked' done =>
      rw [← Except.ok.inj (asked.symm.trans asked'), more] at done
      cases done
    | next asked' more' rest' =>
      have same := Except.ok.inj (asked.symm.trans asked')
      rw [← same, more] at more'
      cases more'
      rw [same, ih rest']

theorem eq_nil_of_not_truncated {pages : List GitDiffPage} (h : Follows ask sizes n request pages)
    (flags : ∀ request page, ask request = .ok page →
      page.truncated = page.continuation.isSome) :
    ∀ shown page later, pages = shown ++ page :: later → page.truncated = false → later = [] := by
  induction h with
  | @last n request only asked done =>
    intro shown page later parts _
    cases shown with
    | nil => exact (List.cons.inj parts).2.symm
    | cons first rest =>
      have lengths := congrArg List.length parts
      simp at lengths
  | @next n request first token pages asked more rest ih =>
    intro shown page later parts ended
    cases shown with
    | nil =>
      rw [← (List.cons.inj parts).1, flags request first asked, more] at ended
      cases ended
    | cons other shown => exact ih shown page later (List.cons.inj parts).2 ended

end Follows

section

variable (ws : Workspace) (policy : GitPolicy) (repo : Repository) (world : World)
  (sizes : Nat → Option Nat)

theorem follows_pages {scope : GitDiffScope} {hunks : List DiffHunk}
    (selected : ws.selectedHunks repo world (some policy.maxContextChars) scope = .ok hunks)
    {n : Nat} {left : List DiffHunk} {chunks : List (List DiffHunk)}
    (pages : Paging.Pages hunkBytes (fun n => policy.applied (sizes n)) n left chunks)
    {request : GitDiffRequest} {offset : Nat} (rest : left = hunks.drop offset)
    (valid : (validatePaths (request.paths.getD [])).isOk = true)
    (requested : Workspace.requestedScope policy world request = .ok (scope, offset))
    (sized : request.maxChars = sizes n) :
    ∃ answers, Follows (ws.gitDiff policy repo world) sizes n request answers ∧
      answers.map GitDiffPage.hunks = chunks ∧
      answers.map GitDiffPage.output = chunks.map hunkTexts := by
  induction pages generalizing request offset with
  | @last n left done =>
    have asked := ws.gitDiff_eq policy repo world valid requested selected
    rw [sized] at asked
    subst rest
    refine ⟨_, .last asked ?_, ?_, ?_⟩
    · simp only [Workspace.pageAt, done]
      rfl
    · rfl
    · rfl
  | @next n left chunks more later ih =>
    have asked := ws.gitDiff_eq policy repo world valid requested selected
    rw [sized] at asked
    subst rest
    let page := Paging.page hunkBytes (policy.applied (sizes n)) (hunks.drop offset)
    have parts : page.1 ++ page.2 = hunks.drop offset := Paging.page_append _ _ _
    have left : page.2 = hunks.drop (offset + page.1.length) := by
      rw [← List.drop_drop, ← parts, List.drop_left]
    have continued : (Workspace.pageAt policy world scope hunks offset (sizes n)).continuation =
        some (encodeGitDiffContinuation policy.codec
          ⟨world.state.shared.snapshotId, offset + page.1.length, scope⟩) := by
      have unfinished : page.2.isEmpty = false := by
        rw [← Bool.not_eq_true, List.isEmpty_iff]
        exact more
      simp only [Workspace.pageAt]
      rw [show (Paging.page hunkBytes (policy.applied (sizes n)) (hunks.drop offset)).2.isEmpty =
        false from unfinished]
      rfl
    obtain ⟨answers, follows, shown, output⟩ := ih left rfl
      (Workspace.requestedScope_following policy world _ scope _) rfl
    refine ⟨_, .next asked continued follows, ?_, ?_⟩
    · rw [List.map_cons, shown]
      rfl
    · rw [List.map_cons, output]
      rfl

/-- The pages of a diff come to an end, and show what a scope selects of the whole diff
exactly where it selects the same of the diff cut to the configured size. -/
theorem diff_pages_whole_iff (request : GitDiffRequest) (first : GitDiffPage)
    (whole : List DiffHunk) (fresh : request.continuation = none)
    (sized : request.maxChars = sizes 0)
    (asked : ws.gitDiff policy repo world request = .ok first)
    (answered : ws.selectedHunks repo world none (.fromRequest request) = .ok whole) :
    (∃ pages, Follows (ws.gitDiff policy repo world) sizes 0 request pages) ∧
      ∀ pages, Follows (ws.gitDiff policy repo world) sizes 0 request pages →
        (Shows whole pages ↔
          ws.selectedHunks repo world (some policy.maxContextChars) (.fromRequest request) =
            ws.selectedHunks repo world none (.fromRequest request)) := by
  obtain ⟨scope, offset, hunks, valid, requested, selected, -⟩ :=
    ws.gitDiff_inv policy repo world asked
  cases (Workspace.requestedScope_fresh policy world fresh).symm.trans requested
  obtain ⟨chunks, paged⟩ :=
    Paging.exists_pages hunkBytes (fun n => policy.applied (sizes n)) 0 hunks
  obtain ⟨answers, follows, shown, output⟩ := follows_pages ws policy repo world sizes selected
    paged (List.drop_zero).symm valid
    (Workspace.requestedScope_fresh policy world fresh) sized
  refine ⟨⟨answers, follows⟩, fun pages followed => ?_⟩
  rw [followed.unique follows, selected, answered, Except.ok.injEq]
  have all : answers.flatMap GitDiffPage.hunks = hunks := by
    rw [List.flatMap_def, shown, paged.flatten]
  constructor
  · intro shows
    exact all.symm.trans shows.hunks
  · rintro rfl
    refine ⟨all, ?_, ?_⟩
    · rw [List.flatMap_def, output, ← paged.flatten, hunkTexts_flatten]
    · intro shown page later parts ended
      have last := follows.eq_nil_of_not_truncated
        (fun _ _ => ws.gitDiff_truncated policy repo world) shown page later parts ended
      rw [← all, parts, last]

end

namespace Sample

def textCode : Code Text := .list .char

def scopeCode : Code GitDiffScope :=
  .ofParts (.pair .bool (.pair (.list textCode) (.pair (.option textCode)
      (.pair (.option .nat) (.pair (.option .nat) (.list textCode))))))
    (fun scope => (scope.staged, scope.paths, scope.symbol, scope.startLine, scope.endLine,
      scope.hunkIds))
    (fun (staged, paths, symbol, startLine, endLine, hunkIds) =>
      ⟨staged, paths, symbol, startLine, endLine, hunkIds⟩)
    fun _ => rfl

def continuationCode : Code GitDiffContinuation :=
  .ofParts (.pair textCode (.pair .nat scopeCode))
    (fun continuation => (continuation.snapshotId, continuation.offset, continuation.scope))
    (fun (snapshotId, offset, scope) => ⟨snapshotId, offset, scope⟩)
    fun _ => rfl

def codec : ContinuationCodec where
  encode := continuationCode.put
  decode text := (continuationCode.take text).map Prod.fst
  decode_encode continuation := by
    have taken := continuationCode.take_put continuation []
    rw [List.append_nil] at taken
    rw [taken, Option.map_some]

def cappedAt (maxContextChars : Nat) : GitPolicy := ⟨maxContextChars, codec⟩

def hunkOfA : Text := "diff --git a/a b/a\n--- a/a\n+++ b/a\n@@ -2 +2 @@\n-two\n+TWO\n".toList

def hunkOfB : Text := "diff --git a/b b/b\n--- a/b\n+++ b/b\n@@ -3 +3 @@\n-three\n+THREE\n".toList

def twoHunks : Text := hunkOfA ++ hunkOfB

def printing (diff : Text) : Repository :=
  ⟨fun _ _ => .ok diff, fun _ => .ok [], fun _ => [], fun _ => none⟩

def diffWorld : World := .opened .plain (Disk.holding [])

def wholeDiff (maxChars : Nat) : GitDiffRequest :=
  ⟨none, none, some maxChars, none, none, none, none, none⟩

end Sample

open Sample in
theorem diff_pages_whole_uncut :
    ∃ whole pages, whole.length = 2 ∧
      Follows (Workspace.plain.gitDiff (cappedAt 1000) (printing twoHunks) diffWorld)
        (fun _ => some 1) 0 (wholeDiff 1) pages ∧ Shows whole pages := by
  have facts : (Workspace.plain.selectedHunks (printing twoHunks) diffWorld none
      (.fromRequest (wholeDiff 1))).toOption.any (fun whole => whole.length = 2 ∧
        (Workspace.plain.gitDiff (cappedAt 1000) (printing twoHunks) diffWorld
          (wholeDiff 1)).toOption.isSome) = true := by
    decide +kernel
  have uncut : Workspace.plain.selectedHunks (printing twoHunks) diffWorld (some 1000)
      (.fromRequest (wholeDiff 1)) =
        Workspace.plain.selectedHunks (printing twoHunks) diffWorld none
          (.fromRequest (wholeDiff 1)) := by
    decide +kernel
  obtain ⟨whole, answered, facts⟩ := (Option.any_eq_true _ _).mp facts
  obtain ⟨two, answers⟩ := of_decide_eq_true facts
  obtain ⟨first, asked⟩ := Option.isSome_iff_exists.mp answers
  obtain ⟨⟨pages, follows⟩, shows⟩ := diff_pages_whole_iff .plain (cappedAt 1000)
    (printing twoHunks) diffWorld (fun _ => some 1) (wholeDiff 1) first whole rfl rfl
    (eq_ok_of_toOption asked) (eq_ok_of_toOption answered)
  exact ⟨whole, pages, two, follows, (shows pages follows).mpr uncut⟩

-- The cut falls into the first hunk, and there is no other page.
open Sample in
theorem diff_pages_cut :
    ∃ whole page,
      Workspace.plain.selectedHunks (printing twoHunks) diffWorld none
        (.fromRequest (wholeDiff 1000)) = .ok whole ∧
      Follows (Workspace.plain.gitDiff (cappedAt 70) (printing twoHunks) diffWorld)
        (fun _ => some 1000) 0 (wholeDiff 1000) [page] ∧
      page.truncated = false ∧ page.hunks ≠ whole ∧ ¬Shows whole [page] := by
  have facts : (Workspace.plain.selectedHunks (printing twoHunks) diffWorld none
      (.fromRequest (wholeDiff 1000))).toOption.any (fun whole =>
        (Workspace.plain.gitDiff (cappedAt 70) (printing twoHunks) diffWorld
          (wholeDiff 1000)).toOption.any fun page =>
            page.continuation = none ∧ page.truncated = false ∧ page.hunks ≠ whole) = true := by
    decide +kernel
  obtain ⟨whole, answered, facts⟩ := (Option.any_eq_true _ _).mp facts
  obtain ⟨page, asked, facts⟩ := (Option.any_eq_true _ _).mp facts
  obtain ⟨done, ended, other⟩ := of_decide_eq_true facts
  have answered := eq_ok_of_toOption answered
  have asked := eq_ok_of_toOption asked
  refine ⟨whole, page, answered, .last asked done, ended, other, fun shows => other ?_⟩
  simpa using shows.hunks

end CodeWeave
