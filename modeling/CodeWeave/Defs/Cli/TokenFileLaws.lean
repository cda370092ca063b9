import CodeWeave.Defs.Cli.TokenFile
import CodeWeave.Defs.Intelligence.UriLaws
import CodeWeave.Defs.TrimLaws

namespace CodeWeave

theorem hexDigit_plain {c : Char} (mem : c ∈ "0123456789abcdef".toList) :
    c.toNat < 128 ∧ isWhitespace c = false := by
  have all : "0123456789abcdef".toList.all (fun d => d.toNat < 128 && !isWhitespace d) = true := by
    decide
  simpa using List.all_eq_true.mp all c mem

theorem newToken_plain (uuids : SimpleUuid × SimpleUuid) {c : Char} (mem : c ∈ newToken uuids) :
    c.toNat < 128 ∧ isWhitespace c = false := by
  rcases List.mem_append.mp mem with first | second
  · exact hexDigit_plain (uuids.1.hex c first)
  · exact hexDigit_plain (uuids.2.hex c second)

theorem newToken_ne_nil (uuids : SimpleUuid × SimpleUuid) : newToken uuids ≠ [] := by
  intro empty
  have length := congrArg List.length empty
  rw [newToken, List.length_append, uuids.1.length, List.length_nil] at length
  omega

theorem asBytes_cons {c : Char} (ascii : c.toNat < 128) (rest : Text) :
    asBytes (c :: rest) = UInt8.ofNat c.toNat :: asBytes rest := by
  have encoded := utf8EncodeChar_ascii ascii
  rw [Char.ofNat_toNat] at encoded
  rw [asBytes, List.flatMap_cons, encoded]
  rfl

theorem asBytes_take {text : Text} (ascii : ∀ c ∈ text, c.toNat < 128) (n : Nat) :
    (asBytes text).take n = asBytes (text.take n) := by
  induction text generalizing n with
  | nil => simp [asBytes]
  | cons c rest ih =>
    rw [List.forall_mem_cons] at ascii
    cases n with
    | zero => simp [asBytes]
    | succ n =>
      rw [asBytes_cons ascii.1, List.take_succ_cons, List.take_succ_cons, asBytes_cons ascii.1,
        ih ascii.2]

theorem trim_of_solid {text : Text} (solid : ∀ c ∈ text, isWhitespace c = false) :
    trim text = text :=
  trim_eq_self (fun c mem => solid c (List.mem_of_mem_head? mem))
    (fun c mem => solid c (List.mem_of_mem_getLast? mem))

theorem AclEntry.violation_eq_none {owner : Text} {entry : AclEntry} :
    entry.violation owner = none ↔ entry = .denied ∨ ∃ sid, entry = .allowed sid ∧
      (sid = owner ∨ sid ∈ [localSystemSid, builtinAdministratorsSid, ownerRightsSid]) := by
  cases entry with
  | allowed sid =>
    rw [violation]
    split
    · next trusted => simpa using trusted
    · next unknown => simpa using unknown
  | denied => simp [violation]
  | unsupported => simp [violation]

/-- Whom a trusted file lets in on Windows. -/
theorem SecurityInfo.violation_eq_none {user : Text} {info : SecurityInfo} :
    info.violation user = none ↔ info.isProtected = true ∧ info.owner = some user ∧
      ∃ entries, info.dacl = some entries ∧ ∀ entry ∈ entries,
        entry = .denied ∨ ∃ sid, entry = .allowed sid ∧
          (sid = user ∨ sid ∈ [localSystemSid, builtinAdministratorsSid, ownerRightsSid]) := by
  obtain ⟨owner, dacl, isProtected⟩ := info
  cases isProtected with
  | false => simp [violation]
  | true =>
    cases dacl with
    | none => simp [violation]
    | some entries =>
      cases owner with
      | none => simp [violation]
      | some owner =>
        simp only [violation, Option.some.injEq, true_and, exists_eq_left']
        by_cases same : owner = user
        · subst same
          simp only [↓reduceIte, true_and, List.findSome?_eq_none_iff, AclEntry.violation_eq_none]
        · simp [same]

namespace TokenFile

open Runs

theorem accepted_of_prefix {uuids : SimpleUuid × SimpleUuid} {seen : List UInt8} {t : Text}
    (part : seen <+: asBytes (newToken uuids)) (done : accepted seen = .done t) :
    t ≠ [] ∧ t <+: newToken uuids ∧ seen = asBytes t := by
  have read : seen = asBytes ((newToken uuids).take seen.length) := by
    rw [← asBytes_take fun c mem => (newToken_plain uuids mem).1]
    exact List.prefix_iff_eq_take.mp part
  have decoded : fromUtf8 ⟨seen.toArray⟩ = some ((newToken uuids).take seen.length) := by
    conv_lhs => rw [read]
    exact fromUtf8_toList _
  have solid : trim ((newToken uuids).take seen.length) = (newToken uuids).take seen.length :=
    trim_of_solid fun c mem => (newToken_plain uuids (List.mem_of_mem_take mem)).2
  rw [accepted, decoded] at done
  simp only [solid] at done
  split at done
  · cases done
  · next nonempty =>
    cases done
    exact ⟨nonempty, List.take_prefix _ _, read⟩

variable {I : Type} [DecidableEq I] {platform : Platform} {uuids : I → SimpleUuid × SimpleUuid}
  {w v : World platform I} {move : Move I} {whole : Prop}

@[simp] theorem to_entry (i : I) (phase : Phase) : (w.to i phase).entry = w.entry := rfl

theorem to_self (i : I) (phase : Phase) : (w.to i phase).phase i = phase :=
  Function.update_self ..

theorem to_of_ne {i j : I} (other : j ≠ i) (phase : Phase) :
    (w.to i phase).phase j = w.phase j :=
  Function.update_of_ne other ..

structure Untouched (w : World platform I) : Prop where
  absent : w.entry = .absent
  closed : ∀ i, (w.phase i).holdsFile = false
  pending : ∀ i t, w.phase i ≠ .done t

structure Created (uuids : I → SimpleUuid × SimpleUuid) (whole : Prop) (w : World platform I)
    (creator : I) (written left : List UInt8) : Prop where
  file : w.entry = .file platform.created written
  bytes : written ++ left = asBytes (newToken (uuids creator))
  uncut : whole → written = [] ∨ left = []
  creating : w.phase creator = .writing left ∨ w.phase creator = .failed ∨
    w.phase creator = .done (newToken (uuids creator)) ∧ left = []
  one : ∀ i l, w.phase i = .writing l → i = creator
  reads : ∀ i seen, w.phase i = .reading seen → seen <+: written ∧
    (platform.shares = false → (w.phase creator).ended = true)
  agree : ∀ i t, w.phase i = .done t → t ≠ [] ∧ t <+: newToken (uuids creator) ∧
    (whole → t = newToken (uuids creator)) ∧
    (platform.shares = false → w.phase creator = .failed ∨ t = newToken (uuids creator))

def Inv (uuids : I → SimpleUuid × SimpleUuid) (whole : Prop) (w : World platform I) : Prop :=
  Untouched w ∨ ∃ creator written left, Created uuids whole w creator written left

theorem Untouched.to (untouched : Untouched w) {i : I} {phase : Phase}
    (closed : phase.holdsFile = false) (pending : ∀ t, phase ≠ .done t) :
    Untouched (w.to i phase) := by
  refine ⟨untouched.absent, fun j => ?_, fun j t => ?_⟩
  · by_cases same : j = i
    · rw [same, to_self]
      exact closed
    · rw [to_of_ne same]
      exact untouched.closed j
  · by_cases same : j = i
    · rw [same, to_self]
      exact pending t
    · rw [to_of_ne same]
      exact untouched.pending j t

variable {creator : I} {written left : List UInt8}

theorem Created.to (created : Created uuids whole w creator written left) {i : I} {phase : Phase}
    (other : i ≠ creator) (idle : ∀ l, phase ≠ .writing l)
    (reads : ∀ seen, phase = .reading seen → seen <+: written ∧
      (platform.shares = false → (w.phase creator).ended = true))
    (agree : ∀ t, phase = .done t → t ≠ [] ∧ t <+: newToken (uuids creator) ∧
      (whole → t = newToken (uuids creator)) ∧
      (platform.shares = false → w.phase creator = .failed ∨ t = newToken (uuids creator))) :
    Created uuids whole (w.to i phase) creator written left := by
  have here : (w.to i phase).phase creator = w.phase creator := to_of_ne other.symm phase
  refine ⟨created.file, created.bytes, created.uncut, here ▸ created.creating,
    fun j l at_j => ?_, fun j seen at_j => ?_, fun j t at_j => ?_⟩
  · by_cases same : j = i
    · rw [same, to_self] at at_j
      exact absurd at_j (idle l)
    · rw [to_of_ne same] at at_j
      exact created.one j l at_j
  · rw [here]
    by_cases same : j = i
    · rw [same, to_self] at at_j
      exact reads seen at_j
    · rw [to_of_ne same] at at_j
      exact created.reads j seen at_j
  · rw [here]
    by_cases same : j = i
    · rw [same, to_self] at at_j
      exact agree t at_j
    · rw [to_of_ne same] at at_j
      exact created.agree j t at_j

theorem Created.end_ (created : Created uuids whole w creator written left) {phase : Phase}
    (ends : phase = .failed ∨ phase = .done (newToken (uuids creator)) ∧ left = [])
    (going : (w.phase creator).ended = false) :
    Created uuids whole (w.to creator phase) creator written left := by
  have gone : phase.ended = true := by
    rcases ends with rfl | ⟨rfl, -⟩ <;> rfl
  refine ⟨created.file, created.bytes, created.uncut, ?_,
    fun j l at_j => ?_, fun j seen at_j => ?_, fun j t at_j => ?_⟩
  · rw [to_self]
    exact .inr ends
  · by_cases same : j = creator
    · exact same
    · rw [to_of_ne same] at at_j
      exact created.one j l at_j
  · rw [to_self]
    by_cases same : j = creator
    · rw [same, to_self] at at_j
      rw [at_j] at gone
      cases gone
    · rw [to_of_ne same] at at_j
      exact ⟨(created.reads j seen at_j).1, fun _ => gone⟩
  · rw [to_self]
    by_cases same : j = creator
    · rw [same, to_self] at at_j
      rcases ends with rfl | ⟨rfl, -⟩
      · cases at_j
      · cases at_j
        exact ⟨newToken_ne_nil _, List.prefix_rfl, fun _ => rfl, fun _ => .inr rfl⟩
    · rw [to_of_ne same] at at_j
      obtain ⟨nonempty, part, uncut, apart⟩ := created.agree j t at_j
      refine ⟨nonempty, part, uncut, fun alone => ?_⟩
      rcases apart alone with failed | same_token
      · rw [failed] at going
        cases going
      · exact .inr same_token

omit [DecidableEq I] in
theorem Created.accepts (created : Created uuids whole w creator written left) {i : I}
    {seen : List UInt8} (here : w.phase i = .reading seen) (all : written.length ≤ seen.length)
    {t : Text} (done : accepted seen = .done t) :
    t ≠ [] ∧ t <+: newToken (uuids creator) ∧ (whole → t = newToken (uuids creator)) ∧
      (platform.shares = false → w.phase creator = .failed ∨ t = newToken (uuids creator)) := by
  obtain ⟨part, apart⟩ := created.reads i seen here
  have everything : seen = written := part.eq_of_length_le all
  have start : seen <+: asBytes (newToken (uuids creator)) := by
    rw [everything, ← created.bytes]
    exact List.prefix_append _ _
  obtain ⟨nonempty, token_part, read⟩ := accepted_of_prefix start done
  have full (finished : left = []) : t = newToken (uuids creator) := by
    have bytes := created.bytes
    rw [finished, List.append_nil, ← everything, read] at bytes
    have decoded := fromUtf8_toList t
    rw [← asBytes, bytes, asBytes, fromUtf8_toList] at decoded
    exact (Option.some.inj decoded).symm
  refine ⟨nonempty, token_part, fun uncut => ?_, fun alone => ?_⟩
  · rcases created.uncut uncut with none_yet | finished
    · rw [everything, none_yet] at done
      cases done
    · exact full finished
  · rcases created.creating with writing | failed | finished
    · have gone := apart alone
      rw [writing] at gone
      cases gone
    · exact .inl failed
    · exact .inr (full finished.2)

theorem Created.writes (created : Created uuids whole w creator written left)
    (here : w.phase creator = .writing left) (n : Nat) (uncut : whole → left.length ≤ n) :
    Created uuids whole ((w.store (.file platform.created (written ++ left.take n))).to creator
      (.writing (left.drop n))) creator (written ++ left.take n) (left.drop n) := by
  refine ⟨rfl, ?_, fun all => .inr (List.drop_eq_nil_of_le (uncut all)), .inl (to_self ..),
    fun j l at_j => ?_, fun j seen at_j => ?_, fun j t at_j => ?_⟩
  · rw [List.append_assoc, List.take_append_drop]
    exact created.bytes
  · by_cases same : j = creator
    · exact same
    · rw [to_of_ne same] at at_j
      exact created.one j l at_j
  · by_cases same : j = creator
    · rw [same, to_self] at at_j
      cases at_j
    · rw [to_of_ne same] at at_j
      obtain ⟨part, apart⟩ := created.reads j seen at_j
      refine ⟨part.trans (List.prefix_append _ _), fun alone => ?_⟩
      have gone := apart alone
      rw [here] at gone
      cases gone
  · by_cases same : j = creator
    · rw [same, to_self] at at_j
      cases at_j
    · rw [to_of_ne same] at at_j
      obtain ⟨nonempty, part, token, apart⟩ := created.agree j t at_j
      refine ⟨nonempty, part, token, fun alone => ?_⟩
      rcases apart alone with failed | same_token
      · rw [here] at failed
        cases failed
      · exact .inr same_token

theorem Untouched.create (untouched : Untouched w) (i : I) :
    Created uuids whole ((w.store (.file platform.created [])).to i
      (.writing (asBytes (newToken (uuids i))))) i [] (asBytes (newToken (uuids i))) := by
  refine ⟨rfl, rfl, fun _ => .inl rfl, .inl (to_self ..), fun j l at_j => ?_,
    fun j seen at_j => ?_, fun j t at_j => ?_⟩
  · by_contra other
    rw [to_of_ne other] at at_j
    cases at_j ▸ untouched.closed j
  · by_cases same : j = i
    · rw [same, to_self] at at_j
      cases at_j
    · rw [to_of_ne same] at at_j
      cases at_j ▸ untouched.closed j
  · by_cases same : j = i
    · rw [same, to_self] at at_j
      cases at_j
    · rw [to_of_ne same] at at_j
      exact absurd at_j (untouched.pending j t)

theorem Untouched.step (untouched : Untouched w) (step : Step platform uuids w move v) :
    Inv uuids whole v := by
  have gone {security : platform.Security} {contents : List UInt8}
      (file : w.entry = .file security contents) : False := by
    rw [untouched.absent] at file
    cases file
  cases step with
  | missing => exact .inl (untouched.to rfl fun _ eq => by cases eq)
  | linked _ link =>
    rw [untouched.absent] at link
    cases link
  | refused _ file | opened _ file | read _ _ file | atEnd _ file | wrote _ _ file =>
    exact (gone file).elim
  | created => exact .inr ⟨_, _, _, untouched.create _⟩
  | «exists» _ present => exact absurd untouched.absent present
  | finished here => cases here ▸ untouched.closed _
  | failed => exact .inl (untouched.to rfl fun _ eq => by cases eq)

omit [DecidableEq I] in
theorem Created.other (created : Created uuids whole w creator written left) {i : I}
    {phase : Phase} (here : w.phase i = phase) (idle : ∀ l, phase ≠ .writing l)
    (going : phase.ended = false) : i ≠ creator := by
  rintro rfl
  rcases created.creating with writing | failed | ⟨finished, -⟩
  · exact idle _ (here.symm.trans writing)
  · cases here.symm.trans failed
    cases going
  · cases here.symm.trans finished
    cases going

omit [DecidableEq I] in
theorem Created.writing (created : Created uuids whole w creator written left) {i : I}
    {rest : List UInt8} (here : w.phase i = .writing rest) : i = creator ∧ rest = left := by
  obtain rfl := created.one i rest here
  rcases created.creating with writing | failed | ⟨finished, -⟩
  · cases here.symm.trans writing
    exact ⟨rfl, rfl⟩
  · cases here.symm.trans failed
  · cases here.symm.trans finished

omit [DecidableEq I] in
theorem Created.contents (created : Created uuids whole w creator written left)
    {security : platform.Security} {contents : List UInt8}
    (file : w.entry = .file security contents) :
    security = platform.created ∧ contents = written := by
  cases created.file.symm.trans file
  exact ⟨rfl, rfl⟩

theorem accepted_ended (seen : List UInt8) : (accepted seen).ended = true := by
  rw [accepted]
  split
  · rfl
  · split <;> rfl

theorem Created.step (created : Created uuids whole w creator written left)
    (step : Step platform uuids w move v) (uncut : whole → move.short = false) :
    ∃ written left, Created uuids whole v creator written left := by
  cases step with
  | missing _ absent | created _ absent => cases created.file.symm.trans absent
  | linked _ link => cases created.file.symm.trans link
  | refused _ file violates =>
    obtain ⟨rfl, -⟩ := created.contents file
    exact absurd platform.created_private violates
  | opened here _ _ free =>
    refine ⟨_, _, created.to (created.other here (fun _ eq => by cases eq) rfl)
      (fun _ eq => by cases eq) (fun seen eq => ?_) fun _ eq => by cases eq⟩
    cases eq
    refine ⟨List.nil_prefix, fun alone => ?_⟩
    rcases free with shared | closed
    · cases alone.symm.trans shared
    · rcases created.creating with writing | failed | ⟨finished, -⟩
      · cases writing ▸ closed creator
      · rw [failed]
        rfl
      · rw [finished]
        rfl
  | read n here file =>
    obtain ⟨-, rfl⟩ := created.contents file
    refine ⟨_, _, created.to (created.other here (fun _ eq => by cases eq) rfl)
      (fun _ eq => by cases eq) (fun seen eq => ?_) fun _ eq => by cases eq⟩
    cases eq
    exact ⟨List.take_prefix _ _, (created.reads _ _ here).2⟩
  | atEnd here file all =>
    obtain ⟨-, rfl⟩ := created.contents file
    refine ⟨_, _, created.to (created.other here (fun _ eq => by cases eq) rfl)
      (fun _ eq => ?_) (fun _ eq => ?_) fun t done => created.accepts here all done⟩
    · cases eq ▸ accepted_ended _
    · cases eq ▸ accepted_ended _
  | «exists» here =>
    exact ⟨_, _, created.to (created.other here (fun _ eq => by cases eq) rfl)
      (fun _ eq => by cases eq) (fun _ eq => by cases eq) fun _ eq => by cases eq⟩
  | wrote n here file =>
    obtain ⟨rfl, rfl⟩ := created.contents file
    obtain ⟨rfl, rfl⟩ := created.writing here
    exact ⟨_, _, created.writes here n fun all => Nat.not_lt.mp (of_decide_eq_false (uncut all))⟩
  | finished here =>
    obtain ⟨rfl, rfl⟩ := created.writing here
    exact ⟨_, _, created.end_ (.inr ⟨rfl, rfl⟩) (here ▸ rfl)⟩
  | @failed i going =>
    by_cases same : i = creator
    · subst same
      exact ⟨_, _, created.end_ (.inl rfl) going⟩
    · exact ⟨_, _, created.to same (fun _ eq => by cases eq) (fun _ eq => by cases eq)
        fun _ eq => by cases eq⟩

theorem Inv.step (inv : Inv uuids whole w) (step : Step platform uuids w move v)
    (uncut : whole → move.short = false) : Inv uuids whole v := by
  rcases inv with untouched | ⟨creator, _, _, created⟩
  · exact untouched.step step
  · exact .inr ⟨creator, created.step step uncut⟩

structure Found (entry : Entry platform) (w : World platform I) : Prop where
  kept : w.entry = entry
  idle : ∀ i l, w.phase i ≠ .writing l
  patient : ∀ i, w.phase i ≠ .creating
  reads : ∀ i seen, w.phase i = .reading seen → ∃ security contents,
    entry = .file security contents ∧ platform.violation security = none ∧ seen <+: contents
  accepts : ∀ i t, w.phase i = .done t → ∃ security contents,
    entry = .file security contents ∧ platform.violation security = none ∧
      accepted contents = .done t

variable {entry : Entry platform}

theorem Found.to (found : Found entry w) {i : I} {phase : Phase} (idle : ∀ l, phase ≠ .writing l)
    (patient : phase ≠ .creating)
    (reads : ∀ seen, phase = .reading seen → ∃ security contents,
      entry = .file security contents ∧ platform.violation security = none ∧ seen <+: contents)
    (accepts : ∀ t, phase = .done t → ∃ security contents,
      entry = .file security contents ∧ platform.violation security = none ∧
        accepted contents = .done t) : Found entry (w.to i phase) := by
  refine ⟨found.kept, fun j l at_j => ?_, fun j at_j => ?_, fun j seen at_j => ?_,
    fun j t at_j => ?_⟩
  all_goals by_cases same : j = i
  · rw [same, to_self] at at_j
    exact idle l at_j
  · rw [to_of_ne same] at at_j
    exact found.idle j l at_j
  · rw [same, to_self] at at_j
    exact patient at_j
  · rw [to_of_ne same] at at_j
    exact found.patient j at_j
  · rw [same, to_self] at at_j
    exact reads seen at_j
  · rw [to_of_ne same] at at_j
    exact found.reads j seen at_j
  · rw [same, to_self] at at_j
    exact accepts t at_j
  · rw [to_of_ne same] at at_j
    exact found.accepts j t at_j

theorem Found.step (found : Found entry w) (present : entry ≠ .absent)
    (step : Step platform uuids w move v) : Found entry v := by
  have fails (i : I) : Found entry (w.to i .failed) :=
    found.to (fun _ eq => by cases eq) (fun eq => by cases eq) (fun _ eq => by cases eq)
      fun _ eq => by cases eq
  cases step with
  | missing _ absent => exact absurd (found.kept.symm.trans absent) present
  | linked | refused | «exists» | failed => exact fails _
  | opened _ file trusted =>
    refine found.to (fun _ eq => by cases eq) (fun eq => by cases eq) (fun seen eq => ?_)
      fun _ eq => by cases eq
    cases eq
    exact ⟨_, _, found.kept.symm.trans file, trusted, List.nil_prefix⟩
  | read n here file =>
    refine found.to (fun _ eq => by cases eq) (fun eq => by cases eq) (fun seen eq => ?_)
      fun _ eq => by cases eq
    cases eq
    obtain ⟨security, contents, same, trusted, -⟩ := found.reads _ _ here
    cases same.symm.trans (found.kept.symm.trans file)
    exact ⟨_, _, same, trusted, List.take_prefix _ _⟩
  | atEnd here file all =>
    obtain ⟨security, contents, same, trusted, part⟩ := found.reads _ _ here
    cases same.symm.trans (found.kept.symm.trans file)
    refine found.to (fun _ eq => ?_) (fun eq => ?_) (fun _ eq => ?_) fun t done =>
      ⟨_, _, same, trusted, part.eq_of_length_le all ▸ done⟩
    · cases eq ▸ accepted_ended _
    · cases eq ▸ accepted_ended _
    · cases eq ▸ accepted_ended _
  | created here => exact absurd here (found.patient _)
  | wrote _ here | finished here => exact absurd here (found.idle _ _)

omit [DecidableEq I] in
theorem found_start : Found entry (⟨entry, fun _ => .starting⟩ : World platform I) where
  kept := rfl
  idle _ _ eq := by cases eq
  patient _ eq := by cases eq
  reads _ _ eq := by cases eq
  accepts _ _ eq := by cases eq

omit [DecidableEq I] in
theorem untouched_start :
    Untouched (⟨.absent, fun _ => .starting⟩ : World platform I) where
  absent := rfl
  closed _ := rfl
  pending _ _ eq := by cases eq

/-- What the starts that go on have, by what was there before them: the token of the file that they
all found; or the token that one of them created, or as much of it as was written by then. -/
def Agreed (uuids : I → SimpleUuid × SimpleUuid) (moves : List (Move I)) (w : World platform I) :
    Entry platform → Prop
  | .absent => (w.entry = .absent ∧ ∀ i t, w.phase i ≠ .done t) ∨
    ∃ creator, (∃ written, w.entry = .file platform.created written ∧
        written <+: asBytes (newToken (uuids creator))) ∧
      ∀ i t, w.phase i = .done t → t ≠ [] ∧ t <+: newToken (uuids creator) ∧
        ((∀ move ∈ moves, move.short = false) → t = newToken (uuids creator)) ∧
        (platform.shares = false → w.phase creator = .failed ∨ t = newToken (uuids creator))
  | .link => w.entry = .link ∧ ∀ i t, w.phase i ≠ .done t
  | .file security contents => w.entry = .file security contents ∧ ∀ i t,
      w.phase i = .done t → platform.violation security = none ∧ accepted contents = .done t

theorem starts_agree {moves : List (Move I)}
    (run : Run (Step platform uuids) ⟨entry, fun _ => .starting⟩ moves w) :
    Agreed uuids moves w entry := by
  have found (present : entry ≠ .absent) : Found entry w :=
    run.invariant _ (fun _ _ _ found step => found.step present step) found_start
  cases entry with
  | absent =>
    -- every write of the run is whole, or nothing is said of whole writes
    have guarded : Run (Along (fun _ move => (∀ move ∈ moves, move.short = false) →
        move.short = false) (Step platform uuids)) _ moves w :=
      run.along fun _ move mem uncut => uncut move mem
    have inv : Inv uuids (∀ move ∈ moves, move.short = false) w :=
      guarded.invariant_along _ (fun _ _ _ inv uncut step => inv.step step uncut)
        (.inl untouched_start)
    rcases inv with untouched | ⟨creator, written, left, created⟩
    · exact .inl ⟨untouched.absent, untouched.pending⟩
    · exact .inr ⟨creator, ⟨written, created.file, created.bytes ▸ List.prefix_append _ _⟩,
        created.agree⟩
  | link =>
    refine ⟨(found (by simp)).kept, fun i t done => ?_⟩
    obtain ⟨_, _, same, -⟩ := (found (by simp)).accepts i t done
    cases same
  | file security contents =>
    refine ⟨(found (by simp)).kept, fun i t done => ?_⟩
    obtain ⟨_, _, same, trusted, token⟩ := (found (by simp)).accepts i t done
    cases same
    exact ⟨trusted, token⟩

namespace Sample

def zeros : SimpleUuid where
  digits := List.replicate 32 '0'
  length := List.length_replicate
  hex c mem := by
    rw [List.eq_of_mem_replicate mem]
    decide

def begun : World (unixPlatform 18) Bool := ⟨.absent, fun _ => .starting⟩

def zeroToken : Text := newToken (zeros, zeros)

def openedEmpty : World (unixPlatform 18) Bool :=
  (((begun.to true .creating).store (.file (unixPlatform 18).created [])).to true
    (.writing (asBytes zeroToken))).to false (.reading [])

def allWritten : World (unixPlatform 18) Bool :=
  (openedEmpty.store (.file (unixPlatform 18).created (asBytes zeroToken))).to true (.writing [])

def readWhole : World (unixPlatform 18) Bool :=
  (allWritten.to true (.done zeroToken)).to false (.reading (asBytes zeroToken))

def ended : World (unixPlatform 18) Bool := readWhole.to false (accepted (asBytes zeroToken))

def bothMoves : List (Move Bool) :=
  [⟨true, false⟩, ⟨true, false⟩, ⟨false, false⟩, ⟨true, false⟩, ⟨true, false⟩, ⟨false, false⟩,
    ⟨false, false⟩]

def bothTokens (_ : Bool) : SimpleUuid × SimpleUuid := (zeros, zeros)

theorem both_start : Run (Step (unixPlatform 18) bothTokens) begun bothMoves ended := by
  have created : Run (Step (unixPlatform 18) bothTokens) begun _ openedEmpty :=
    .snoc (.snoc (.snoc (.nil _) (.missing rfl rfl)) (.created rfl rfl))
      (.opened rfl rfl (modeViolation_createdMode 18) (.inl rfl))
  have wrote : Step (unixPlatform 18) bothTokens openedEmpty ⟨true, false⟩ allWritten :=
    @Step.wrote Bool _ _ _ openedEmpty true _ [] (asBytes zeroToken) 64 rfl rfl (by decide)
      (by decide)
  have read : Step (unixPlatform 18) bothTokens (allWritten.to true (.done zeroToken))
      ⟨false, false⟩ readWhole :=
    @Step.read Bool _ _ _ (allWritten.to true (.done zeroToken)) false _ (asBytes zeroToken) [] 64
      rfl rfl (by decide) (by decide)
  exact .snoc (.snoc (.snoc (.snoc created wrote) (.finished rfl)) read)
    (.atEnd rfl rfl (Nat.le_refl _))

theorem both_agree : ended.phase true = .done zeroToken ∧ ended.phase false = .done zeroToken ∧
    Agreed bothTokens bothMoves ended .absent :=
  ⟨rfl, by decide +kernel, starts_agree both_start⟩

end Sample

end TokenFile

end CodeWeave
