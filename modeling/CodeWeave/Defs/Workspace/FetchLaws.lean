import CodeWeave.Defs.Workspace.Fetch
import CodeWeave.Defs.Workspace.RangeReplacement
import CodeWeave.Lib.Cuts

/-! Following the continuations of a read.  Each page takes from the scoped text what fits
its budget, so that it gets no further where not even one character does. -/

namespace CodeWeave

open Cuts

theorem utf8Count_eq (text : Text) : utf8Count text = total Char.utf8Size text := by
  induction text with
  | nil => rfl
  | cons c rest ih => rw [utf8Count, total, ih]

theorem takeBytes_eq (text : Text) (budget : Nat) :
    takeBytes text budget = fit Char.utf8Size budget text := by
  induction text generalizing budget with
  | nil => rfl
  | cons c rest ih => rw [takeBytes, fit, ih]

theorem boundedContent_eq (base : FetchResponse) (done text : Text) (limit : Nat)
    (continuation : Nat → Text) :
    boundedContent base (done ++ text) (utf8Count done) limit continuation =
      { base with
        content := fit Char.utf8Size limit text
        offset := utf8Count done
        totalChars := utf8Count (done ++ text)
        continuation := if rest Char.utf8Size limit text = [] then none else
          some (continuation (utf8Count (done ++ fit Char.utf8Size limit text))) } := by
  have start : floorCharBoundary (done ++ text) (utf8Count done) = utf8Count done := by
    rw [floorCharBoundary, takeBytes_append]
  have upTo : takeBytes (done ++ text) (utf8Count done + limit) =
      done ++ fit Char.utf8Size limit text := by
    rw [takeBytes_eq, utf8Count_eq, fit_append]
  have stop : floorCharBoundary (done ++ text) (utf8Count done + limit) =
      utf8Count (done ++ fit Char.utf8Size limit text) := by
    rw [floorCharBoundary, upTo]
  have whole : done ++ text =
      done ++ fit Char.utf8Size limit text ++ rest Char.utf8Size limit text := by
    rw [List.append_assoc, fit_append_rest]
  have page : dropBytes (takeBytes (done ++ text)
      (utf8Count (done ++ fit Char.utf8Size limit text))) (utf8Count done) =
      fit Char.utf8Size limit text := by
    conv => lhs; arg 1; arg 1; rw [whole]
    rw [takeBytes_append, dropBytes_append]
  have more : utf8Count (done ++ fit Char.utf8Size limit text) < utf8Count (done ++ text) ↔
      rest Char.utf8Size limit text ≠ [] := by
    conv => lhs; rhs; rw [whole]
    rw [utf8Count_append _ (rest Char.utf8Size limit text), Nat.lt_add_right_iff_pos,
      Nat.pos_iff_ne_zero, ne_eq, utf8Count_eq_zero]
  simp only [boundedContent, start, stop, page, more, ne_eq, ite_not]

section

variable {ws : Workspace} (codec : FetchContinuationCodec) (encoder : HandleEncoder ws)
  (index : CodeIndex)

inductive ReadPages (maxChars : Nat → Nat) : Nat → ReadTarget → List FetchResponse → Prop
  | last {n : Nat} {target : ReadTarget} {page : FetchResponse}
      (read : ws.read codec encoder index target (maxChars n) = .ok page)
      (done : page.continuation = none) : ReadPages maxChars n target [page]
  | next {n : Nat} {target : ReadTarget} {page : FetchResponse} {token : Text}
      {pages : List FetchResponse}
      (read : ws.read codec encoder index target (maxChars n) = .ok page)
      (more : page.continuation = some token)
      (rest : ReadPages maxChars (n + 1) (.continuation token) pages) :
      ReadPages maxChars n target (page :: pages)

/-- A target addresses the whole of an indexed file, or lines of it by number or by a handle for
its present content. -/
inductive Addresses (ws : Workspace) (index : CodeIndex) (file : FileEntry) :
    ReadTarget → FetchScope → Prop
  | path {path : Text} {startLine endLine : Option Nat} (indexed : index.get path = some file) :
      Addresses ws index file (.path path startLine endLine) (scopeFromBounds startLine endLine)
  | handle {value : Text} {handle : RangeHandleWire} (decoded : ws.decodeHandle value = .ok handle)
      (own : handle.workspaceId = ws.id) (indexed : index.get handle.path = some file)
      (fresh : handle.contentHash = file.hash) :
      Addresses ws index file (.handle value) (.lines handle.startLine handle.endLine)

/-- The file a target is answered from, with the scope and the offset of its page. -/
inductive Serves (ws : Workspace) (codec : FetchContinuationCodec) (index : CodeIndex) :
    ReadTarget → FileEntry → FetchScope → Nat → Prop
  | addressed {target : ReadTarget} {file : FileEntry} {scope : FetchScope}
      (addresses : Addresses ws index file target scope) : Serves ws codec index target file scope 0
  | continued {value : Text} {continuation : FetchContinuation} {file : FileEntry}
      (decoded : decodeFetchContinuation codec value = .ok continuation)
      (own : continuation.workspaceId = ws.id)
      (indexed : index.get continuation.path = some file)
      (fresh : continuation.contentHash = file.hash) :
      Serves ws codec index (.continuation value) file continuation.scope continuation.offset

/-- Following the continuations comes to an end, gets on with every page, and returns the
whole text of the scope. -/
def ReadsWhole (maxChars : Nat → Nat) (file : FileEntry) (target : ReadTarget)
    (scope : FetchScope) : Prop :=
  ∃ pages, ReadPages codec encoder index maxChars 0 target pages ∧
    (pages.map FetchResponse.offset).IsChain (· < ·) ∧
    (pages.map FetchResponse.content).flatten = (scope.select file).1

def pageBudget (maxChars : Nat → Nat) (n : Nat) : Nat := min (maxChars n) maxReadMaxChars

variable {codec encoder index} {file : FileEntry} {scope : FetchScope} {target : ReadTarget}

theorem get_path_of_get {path : Text} (indexed : index.get path = some file) :
    index.get file.path = some file := by
  have own : file.path = normalizePathText path := index.keyed _ _ indexed
  rw [CodeIndex.get, own, normalizePathText_idem]
  exact indexed

def StandsAt (ws : Workspace) (codec : FetchContinuationCodec) (encoder : HandleEncoder ws)
    (index : CodeIndex) (file : FileEntry) (scope : FetchScope) (target : ReadTarget)
    (done : Text) : Prop :=
  ∀ maxChars, ws.read codec encoder index target maxChars = .ok
    (ws.buildFetchResponse codec encoder file scope (utf8Count done) (min maxChars maxReadMaxChars))

theorem fetchIndexedPath_eq_ok {path : Text} {offset limit : Nat}
    {precondition : Option FetchPrecondition} {response : FetchResponse} :
    ws.fetchIndexedPath codec encoder index path scope offset limit precondition = .ok response ↔
      ∃ file, index.get path = some file ∧
        (∀ condition, precondition = some condition → condition.expectedHash = file.hash) ∧
        ws.buildFetchResponse codec encoder file scope offset limit = response := by
  unfold Workspace.fetchIndexedPath
  cases index.get path with
  | none => cases precondition <;> simp
  | some file =>
    cases precondition with
    | none => simp
    | some condition =>
      by_cases fresh : condition.expectedHash = file.hash
      · simp [fresh]
      · simp [fresh, Ne.symm fresh]

theorem readTarget_eq_ok {limit : Nat} {response : FetchResponse} :
    ws.readTarget codec encoder index limit target = .ok response ↔
      ∃ file scope offset, Serves ws codec index target file scope offset ∧
        ws.buildFetchResponse codec encoder file scope offset limit = response := by
  cases target with
  | path path startLine endLine =>
    rw [Workspace.readTarget, fetchIndexedPath_eq_ok]
    constructor
    · rintro ⟨file, indexed, -, built⟩
      exact ⟨file, _, 0, .addressed (.path indexed), built⟩
    · rintro ⟨file, scope, offset, serves, built⟩
      obtain ⟨⟨indexed⟩⟩ := serves
      exact ⟨file, indexed, (by simp), built⟩
  | handle value =>
    simp only [Workspace.readTarget, bind_eq_ok, fetchIndexedPath_eq_ok, require_eq_ok,
      decide_eq_true_eq, Option.some.injEq, forall_eq']
    constructor
    · rintro ⟨handle, decoded, -, own, file, indexed, fresh, built⟩
      exact ⟨file, _, 0, .addressed (.handle decoded own indexed fresh), built⟩
    · rintro ⟨file, scope, offset, serves, built⟩
      obtain ⟨⟨⟩ | ⟨decoded, own, indexed, fresh⟩⟩ := serves
      exact ⟨_, decoded, (), own, file, indexed, fresh, built⟩
  | continuation value =>
    simp only [Workspace.readTarget, bind_eq_ok, fetchIndexedPath_eq_ok, require_eq_ok,
      decide_eq_true_eq, Option.some.injEq, forall_eq']
    constructor
    · rintro ⟨continuation, decoded, -, own, file, indexed, fresh, built⟩
      exact ⟨file, _, _, .continued decoded own indexed fresh, built⟩
    · rintro ⟨file, scope, offset, serves, built⟩
      obtain ⟨⟨⟩⟩ | ⟨decoded, own, indexed, fresh⟩ := serves
      exact ⟨_, decoded, (), own, file, indexed, fresh, built⟩

theorem Addresses.standsAt (addresses : Addresses ws index file target scope) :
    StandsAt ws codec encoder index file scope target [] :=
  fun _ => readTarget_eq_ok.mpr ⟨file, scope, 0, .addressed addresses, rfl⟩

theorem Addresses.get_path (addresses : Addresses ws index file target scope) :
    index.get file.path = some file := by
  cases addresses with
  | path indexed => exact get_path_of_get indexed
  | handle _ _ indexed _ => exact get_path_of_get indexed

theorem Serves.get_path {offset : Nat} (serves : Serves ws codec index target file scope offset) :
    index.get file.path = some file := by
  cases serves with
  | addressed addresses => exact addresses.get_path
  | continued _ _ indexed _ => exact get_path_of_get indexed

theorem decode_encodeFetchContinuation (value : FetchContinuation) :
    decodeFetchContinuation codec (encodeFetchContinuation codec value) = .ok value := by
  have parts : encodeFetchContinuation codec value = "fetch:".toList ++ codec.encode value := rfl
  rw [decodeFetchContinuation, parts, stripPrefix_append]
  exact codec.decode_encode value

theorem standsAt_continuation (indexed : index.get file.path = some file) (done : Text) :
    StandsAt ws codec encoder index file scope (.continuation (encodeFetchContinuation codec
      ⟨ws.id, file.path, utf8Count done, file.hash, scope⟩)) done :=
  fun _ => readTarget_eq_ok.mpr ⟨file, scope, utf8Count done,
    .continued (decode_encodeFetchContinuation _) rfl indexed rfl, rfl⟩

variable {done text whole : Text} {maxChars : Nat → Nat} {n : Nat} {pages : List FetchResponse}

theorem StandsAt.page (stands : StandsAt ws codec encoder index file scope target done)
    (indexed : index.get file.path = some file) (parts : (scope.select file).1 = done ++ text)
    (maxChars : Nat → Nat) (n : Nat) :
    ∃ page, ws.read codec encoder index target (maxChars n) = .ok page ∧
      page.content = fit Char.utf8Size (pageBudget maxChars n) text ∧
      page.offset = utf8Count done ∧
      (rest Char.utf8Size (pageBudget maxChars n) text = [] ∧ page.continuation = none ∨
        ∃ token, page.continuation = some token ∧
          rest Char.utf8Size (pageBudget maxChars n) text ≠ [] ∧
          StandsAt ws codec encoder index file scope (.continuation token)
            (done ++ fit Char.utf8Size (pageBudget maxChars n) text) ∧
          (scope.select file).1 = done ++ fit Char.utf8Size (pageBudget maxChars n) text ++
            rest Char.utf8Size (pageBudget maxChars n) text) := by
  refine ⟨_, stands (maxChars n), ?_⟩
  have budget : min (maxChars n) maxReadMaxChars = pageBudget maxChars n := rfl
  rw [Workspace.buildFetchResponse]
  simp only [parts, boundedContent_eq, true_and, budget]
  by_cases finished : rest Char.utf8Size (pageBudget maxChars n) text = []
  · exact Or.inl ⟨finished, if_pos finished⟩
  · refine Or.inr ⟨_, if_neg finished, finished, standsAt_continuation indexed _, ?_⟩
    rw [List.append_assoc, fit_append_rest]

theorem ReadPages.standing (reads : ReadPages codec encoder index maxChars n target pages)
    (stands : StandsAt ws codec encoder index file scope target done)
    (indexed : index.get file.path = some file) (parts : (scope.select file).1 = done ++ text) :
    ∃ page later, pages = page :: later ∧
      page.content = fit Char.utf8Size (pageBudget maxChars n) text ∧
      page.offset = utf8Count done ∧
      (rest Char.utf8Size (pageBudget maxChars n) text = [] ∧ later = [] ∨
        ∃ token, ReadPages codec encoder index maxChars (n + 1) (.continuation token) later ∧
          StandsAt ws codec encoder index file scope (.continuation token)
            (done ++ fit Char.utf8Size (pageBudget maxChars n) text) ∧
          (scope.select file).1 = done ++ fit Char.utf8Size (pageBudget maxChars n) text ++
            rest Char.utf8Size (pageBudget maxChars n) text) := by
  obtain ⟨found, same, content, offset, ending⟩ := stands.page indexed parts maxChars n
  cases reads with
  | @last _ _ page read finished =>
    obtain rfl := Except.ok.inj (read.symm.trans same)
    refine ⟨page, [], rfl, content, offset, Or.inl ?_⟩
    obtain ⟨nothing, -⟩ | ⟨token, more, -⟩ := ending
    · exact ⟨nothing, rfl⟩
    · rw [finished] at more
      cases more
  | @next _ _ page token later read more follows =>
    obtain rfl := Except.ok.inj (read.symm.trans same)
    refine ⟨page, later, rfl, content, offset, Or.inr ?_⟩
    obtain ⟨-, finished⟩ | ⟨next, given, -, standsNext, partsNext⟩ := ending
    · rw [finished] at more
      cases more
    · obtain rfl := Option.some.inj (more.symm.trans given)
      exact ⟨token, follows, standsNext, partsNext⟩

theorem ReadPages.content (reads : ReadPages codec encoder index maxChars n target pages)
    (stands : StandsAt ws codec encoder index file scope target done)
    (indexed : index.get file.path = some file)
    (parts : (scope.select file).1 = done ++ left Char.utf8Size (pageBudget maxChars) whole n) :
    (pages.map FetchResponse.content).flatten =
      left Char.utf8Size (pageBudget maxChars) whole n := by
  induction pages generalizing n target done with
  | nil =>
    obtain ⟨_, _, impossible, _⟩ := reads.standing stands indexed parts
    cases impossible
  | cons page later ih =>
    obtain ⟨_, _, same, content, -, ending⟩ := reads.standing stands indexed parts
    obtain ⟨rfl, rfl⟩ := List.cons.inj same
    have parted := @fit_append_rest _ Char.utf8Size (pageBudget maxChars n)
      (left Char.utf8Size (pageBudget maxChars) whole n)
    rw [List.map_cons, List.flatten_cons, content]
    obtain ⟨nothing, rfl⟩ | ⟨token, follows, standsNext, partsNext⟩ := ending
    · rw [nothing] at parted
      exact parted
    · rw [ih follows standsNext partsNext, left_succ]
      exact parted

theorem ReadPages.not_stuck (reads : ReadPages codec encoder index maxChars n target pages)
    (stands : StandsAt ws codec encoder index file scope target done)
    (indexed : index.get file.path = some file)
    (parts : (scope.select file).1 = done ++ left Char.utf8Size (pageBudget maxChars) whole n)
    (ascending : (pages.map FetchResponse.offset).IsChain (· < ·)) {m : Nat} (later : n ≤ m) :
    ¬Stuck Char.utf8Size (pageBudget maxChars) whole m := by
  induction pages generalizing n target done with
  | nil =>
    obtain ⟨_, _, impossible, _⟩ := reads.standing stands indexed parts
    cases impossible
  | cons page pages ih =>
    obtain ⟨_, _, same, -, offset, ending⟩ := reads.standing stands indexed parts
    obtain ⟨rfl, rfl⟩ := List.cons.inj same
    obtain ⟨nothing, rfl⟩ | ⟨token, follows, standsNext, partsNext⟩ := ending
    · rcases Nat.eq_or_lt_of_le later with rfl | after
      · rintro ⟨c, more, remaining, small⟩
        rw [remaining, rest_eq_self small] at nothing
        cases nothing
      · exact not_stuck_of_left_eq_nil (n := n + 1) nothing after
    · obtain ⟨following, others, rfl, -, further, -⟩ :=
        follows.standing standsNext indexed partsNext
      rw [List.map_cons, List.map_cons, List.isChain_cons_cons] at ascending
      rcases Nat.eq_or_lt_of_le later with rfl | after
      · rintro ⟨c, more, remaining, small⟩
        rw [offset, further, remaining, fit_eq_nil small, List.append_nil] at ascending
        exact Nat.lt_irrefl _ ascending.1
      · exact ih follows standsNext partsNext ascending.2 after

theorem StandsAt.readPages (stands : StandsAt ws codec encoder index file scope target done)
    (indexed : index.get file.path = some file)
    (parts : (scope.select file).1 = done ++ left Char.utf8Size (pageBudget maxChars) whole n)
    (free : ∀ m, ¬Stuck Char.utf8Size (pageBudget maxChars) whole m) :
    ∃ pages, ReadPages codec encoder index maxChars n target pages ∧
      (pages.map FetchResponse.offset).IsChain (· < ·) := by
  generalize size : (left Char.utf8Size (pageBudget maxChars) whole n).length = count
  induction count using Nat.strong_induction_on generalizing n target done with
  | _ count ih =>
    subst size
    obtain ⟨page, read, -, offset, ⟨-, finished⟩ | ⟨token, more, goes, standsNext, partsNext⟩⟩ :=
      stands.page indexed parts maxChars n
    · exact ⟨[page], .last read finished, List.IsChain.singleton _⟩
    · have nonempty : left Char.utf8Size (pageBudget maxChars) whole n ≠ [] := by
        intro nothing
        rw [nothing] at goes
        exact goes rfl
      have shorter := length_rest_lt nonempty (fits_of_not_stuck (free n))
      obtain ⟨pages, follows, ascending⟩ := ih _ shorter (n := n + 1) standsNext partsNext rfl
      obtain ⟨following, others, rfl, -, further, -⟩ :=
        follows.standing standsNext indexed partsNext
      refine ⟨_, .next read more follows, ?_⟩
      refine List.IsChain.cons_cons ?_ ascending
      rw [offset, further, utf8Count_append, Nat.lt_add_right_iff_pos, Nat.pos_iff_ne_zero, ne_eq,
        utf8Count_eq_zero]
      intro nothing
      rw [rest, nothing] at shorter
      exact Nat.lt_irrefl _ shorter

theorem Addresses.readsWhole (addresses : Addresses ws index file target scope)
    (free : ∀ m, ¬Stuck Char.utf8Size (pageBudget maxChars) (scope.select file).1 m) :
    ReadsWhole codec encoder index maxChars file target scope := by
  have stands : StandsAt ws codec encoder index file scope target [] := addresses.standsAt
  have parts : (scope.select file).1 =
      [] ++ left Char.utf8Size (pageBudget maxChars) (scope.select file).1 0 := rfl
  obtain ⟨pages, reads, ascending⟩ := stands.readPages addresses.get_path parts free
  exact ⟨pages, reads, ascending, reads.content stands addresses.get_path parts⟩

theorem Addresses.readsWhole_of_wide (addresses : Addresses ws index file target scope)
    (wide : ∀ n, 4 ≤ maxChars n) : ReadsWhole codec encoder index maxChars file target scope :=
  addresses.readsWhole fun n => not_stuck_of_fits fun c _ =>
    (Char.utf8Size_le_four c).trans (Nat.le_min.mpr ⟨wide n, by decide⟩)

theorem ReadsWhole.not_stuck (whole : ReadsWhole codec encoder index maxChars file target scope)
    (addresses : Addresses ws index file target scope) (n : Nat) :
    ¬Stuck Char.utf8Size (pageBudget maxChars) (scope.select file).1 n := by
  obtain ⟨pages, reads, ascending, -⟩ := whole
  have stands : StandsAt ws codec encoder index file scope target [] := addresses.standsAt
  exact reads.not_stuck stands addresses.get_path (n := 0) rfl ascending (Nat.zero_le n)

/-- A read is whole exactly when no page begins with a character wider than its budget. -/
theorem readsWhole_iff (addresses : Addresses ws index file target scope) :
    ReadsWhole codec encoder index maxChars file target scope ↔
      ∀ n, ¬Stuck Char.utf8Size (pageBudget maxChars) (scope.select file).1 n :=
  ⟨fun whole => whole.not_stuck addresses, addresses.readsWhole⟩

end

namespace Sample

def fetchCode : Code FetchContinuation :=
  .ofParts (.pair (.list .char) (.pair (.list .char) (.pair .nat (.pair (.list .char)
      (.pair .bool (.pair .nat .nat))))))
    (fun value => (value.workspaceId, value.path, value.offset, value.contentHash,
      match value.scope with
      | .full => (true, 0, 0)
      | .lines startLine endLine => (false, startLine, endLine)))
    (fun (workspaceId, path, offset, contentHash, full, startLine, endLine) =>
      ⟨workspaceId, path, offset, contentHash, if full then .full else .lines startLine endLine⟩)
    fun ⟨_, _, _, _, scope⟩ => by cases scope <;> rfl

def continuations : FetchContinuationCodec where
  encode := fetchCode.put
  decode text :=
    match fetchCode.take text with
    | some (value, _) => .ok value
    | none => .error (.new .invalidContinuation "Invalid continuation")
  decode_encode value := by
    have taken := fetchCode.take_put value []
    rw [List.append_nil] at taken
    simp only [taken]

def fileN (content : Text) : FileEntry := ⟨"n".toList, content, content, [], 0, 0⟩

theorem addresses_n (content : Text) :
    Addresses declaring (indexN content) (fileN content) (.path "n".toList none none) .full :=
  .path rfl

theorem readsWhole_accented :
    ReadsWhole continuations handles (indexN "aé".toList) (fun n => n + 1) (fileN "aé".toList)
      (.path "n".toList none none) .full := by
  refine (readsWhole_iff (addresses_n "aé".toList)).mpr fun n => ?_
  cases n with
  | zero =>
    rintro ⟨a, more, remaining, narrow⟩
    cases remaining
    exact absurd narrow (by decide)
  | succ n =>
    refine not_stuck_of_fits fun c mem => ?_
    have sizes : ("aé".toList.all fun c => c.utf8Size ≤ 2) = true := by decide
    have two := of_decide_eq_true (List.all_eq_true.mp sizes c mem)
    exact Nat.le_min.mpr ⟨two.trans (Nat.le_add_left 2 n), two.trans (by decide)⟩

-- The first page is empty, and its continuation is again at the start.
theorem not_readsWhole_narrow :
    ¬ReadsWhole continuations handles (indexN "é".toList) (fun _ => 1) (fileN "é".toList)
      (.path "n".toList none none) .full := by
  intro whole
  exact whole.not_stuck (addresses_n "é".toList) 0 ⟨'é', [], rfl, by decide⟩

end Sample

end CodeWeave
