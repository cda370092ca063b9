import CodeWeave.Defs.Error
import CodeWeave.Lib.Runs
import Mathlib.Data.UInt
import Mathlib.Logic.Function.Basic

/-! The bearer token file: what is created, what is trusted, and any number of starts of the
program that find or create it side by side. -/

namespace CodeWeave

/-- What `Uuid::simple` prints. -/
structure SimpleUuid where
  digits : Text
  length : digits.length = 32
  hex : ∀ c ∈ digits, c ∈ "0123456789abcdef".toList

def newToken (uuids : SimpleUuid × SimpleUuid) : Text := uuids.1.digits ++ uuids.2.digits

def asBytes (text : Text) : List UInt8 := text.flatMap String.utf8EncodeChar

inductive AclEntry
  | allowed (sid : Text)
  | denied
  | unsupported
  deriving DecidableEq

structure SecurityInfo where
  owner : Option Text
  dacl : Option (List AclEntry)
  isProtected : Bool
  deriving DecidableEq

def localSystemSid : Text := "S-1-5-18".toList

def builtinAdministratorsSid : Text := "S-1-5-32-544".toList

def ownerRightsSid : Text := "S-1-3-4".toList

def AclEntry.violation (owner : Text) : AclEntry → Option String
  | .denied => none
  | .unsupported => some "contains an unsupported Windows access entry"
  | .allowed sid =>
    if sid = owner ∨ sid ∈ [localSystemSid, builtinAdministratorsSid, ownerRightsSid] then none
    else some "grants access to an unrelated Windows principal"

def SecurityInfo.violation (user : Text) (info : SecurityInfo) : Option String :=
  match info.isProtected, info.dacl, info.owner with
  | true, some entries, some owner =>
    if owner = user then entries.findSome? (AclEntry.violation owner)
    else some "is not owned by the current Windows user"
  | _, _, _ => some "must have a protected, explicit Windows DACL"

def privateSecurity (user : Text) : SecurityInfo where
  owner := some user
  dacl := some [.allowed ownerRightsSid, .allowed localSystemSid, .allowed builtinAdministratorsSid]
  isProtected := true

def createdMode (umask : UInt32) : UInt32 := 384 &&& ~~~umask

def modeViolation (mode : UInt32) : Option String :=
  if mode &&& 63 ≠ 0 then
    some "must not be accessible by group or other users; run chmod 600"
  else none

/-- A platform's access control, and whether a file that one has open can be opened by another. -/
structure Platform where
  Security : Type
  created : Security
  violation : Security → Option String
  shares : Bool
  created_private : violation created = none

theorem violation_privateSecurity (user : Text) :
    (privateSecurity user).violation user = none := by
  have trusted {sid : Text} (known : sid ∈ [localSystemSid, builtinAdministratorsSid,
      ownerRightsSid]) : (AclEntry.allowed sid).violation user = none := if_pos (.inr known)
  have entries : [AclEntry.allowed ownerRightsSid, .allowed localSystemSid,
      .allowed builtinAdministratorsSid].findSome? (AclEntry.violation user) = none := by
    rw [List.findSome?_cons, trusted (.tail _ (.tail _ (.head _))), List.findSome?_cons,
      trusted (.head _), List.findSome?_cons, trusted (.tail _ (.head _)), List.findSome?_nil]
  exact (if_pos rfl).trans entries

theorem modeViolation_createdMode (umask : UInt32) : modeViolation (createdMode umask) = none := by
  have masked : createdMode umask &&& 63 = 0 := by
    have none_shared : (384 : UInt32) &&& 63 = 0 := by decide
    rw [createdMode, UInt32.and_assoc, UInt32.and_comm (~~~umask), ← UInt32.and_assoc, none_shared,
      UInt32.zero_and]
  rw [modeViolation, if_neg (not_not.mpr masked)]

def unixPlatform (umask : UInt32) : Platform where
  Security := UInt32
  created := createdMode umask
  violation := modeViolation
  shares := true
  created_private := modeViolation_createdMode umask

def windowsPlatform (user : Text) : Platform where
  Security := SecurityInfo
  created := privateSecurity user
  violation := SecurityInfo.violation user
  shares := false
  created_private := violation_privateSecurity user

namespace TokenFile

inductive Entry (platform : Platform)
  | absent
  | link
  | file (security : platform.Security) (contents : List UInt8)

inductive Phase
  | starting
  | reading (seen : List UInt8)
  | creating
  | writing (left : List UInt8)
  | done (token : Text)
  | failed
  deriving DecidableEq

def Phase.holdsFile : Phase → Bool
  | .reading _ | .writing _ => true
  | _ => false

def Phase.ended : Phase → Bool
  | .done _ | .failed => true
  | _ => false

def accepted (seen : List UInt8) : Phase :=
  match fromUtf8 ⟨seen.toArray⟩ with
  | none => .failed
  | some value => if trim value = [] then .failed else .done (trim value)

structure World (platform : Platform) (I : Type) where
  entry : Entry platform
  phase : I → Phase

def World.to [DecidableEq I] {platform : Platform} (w : World platform I) (i : I) (phase : Phase) :
    World platform I :=
  ⟨w.entry, Function.update w.phase i phase⟩

def World.store {platform : Platform} (w : World platform I) (entry : Entry platform) :
    World platform I :=
  ⟨entry, w.phase⟩

structure Move (I : Type) where
  who : I
  short : Bool

/-- A read gives some of the bytes that are there, and none at the end of these; a write takes
some of those that are left. Any call may fail. -/
inductive Step [DecidableEq I] (platform : Platform) (uuids : I → SimpleUuid × SimpleUuid) :
    World platform I → Move I → World platform I → Prop
  | missing {w i} (here : w.phase i = .starting) (absent : w.entry = .absent) :
      Step platform uuids w ⟨i, false⟩ (w.to i .creating)
  | linked {w i} (here : w.phase i = .starting) (link : w.entry = .link) :
      Step platform uuids w ⟨i, false⟩ (w.to i .failed)
  | refused {w i security contents} (here : w.phase i = .starting)
      (file : w.entry = .file security contents) (violates : platform.violation security ≠ none) :
      Step platform uuids w ⟨i, false⟩ (w.to i .failed)
  | opened {w i security contents} (here : w.phase i = .starting)
      (file : w.entry = .file security contents) (trusted : platform.violation security = none)
      (free : platform.shares = true ∨ ∀ j, (w.phase j).holdsFile = false) :
      Step platform uuids w ⟨i, false⟩ (w.to i (.reading []))
  | read {w i security contents seen} (n : Nat) (here : w.phase i = .reading seen)
      (file : w.entry = .file security contents) (more : seen.length < n)
      (there : n ≤ contents.length) :
      Step platform uuids w ⟨i, false⟩ (w.to i (.reading (contents.take n)))
  | atEnd {w i security contents seen} (here : w.phase i = .reading seen)
      (file : w.entry = .file security contents) (all : contents.length ≤ seen.length) :
      Step platform uuids w ⟨i, false⟩ (w.to i (accepted seen))
  | created {w i} (here : w.phase i = .creating) (absent : w.entry = .absent) :
      Step platform uuids w ⟨i, false⟩
        ((w.store (.file platform.created [])).to i (.writing (asBytes (newToken (uuids i)))))
  | exists {w i} (here : w.phase i = .creating) (present : w.entry ≠ .absent) :
      Step platform uuids w ⟨i, false⟩ (w.to i .failed)
  | wrote {w i security contents left} (n : Nat) (here : w.phase i = .writing left)
      (file : w.entry = .file security contents) (some_left : 0 < n) (within : n ≤ left.length) :
      Step platform uuids w ⟨i, n < left.length⟩
        ((w.store (.file security (contents ++ left.take n))).to i (.writing (left.drop n)))
  | finished {w i} (here : w.phase i = .writing []) :
      Step platform uuids w ⟨i, false⟩ (w.to i (.done (newToken (uuids i))))
  | failed {w i} (going : (w.phase i).ended = false) :
      Step platform uuids w ⟨i, false⟩ (w.to i .failed)

end TokenFile

end CodeWeave
