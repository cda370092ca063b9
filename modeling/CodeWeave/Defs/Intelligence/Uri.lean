import CodeWeave.Defs.Error

namespace CodeWeave

-- On a reversed text: separators at its end go, the last character stays.
def popSlashes : Text → Text
  | '/' :: c :: rest => popSlashes (c :: rest)
  | text => text

/-- Platform path text with `/` separators, without the verbatim prefix and a
trailing separator. -/
def comparableText (windows : Bool) (raw : Text) : Text :=
  let text := if windows then raw.map fun c => if c = '\\' then '/' else c else raw
  let text :=
    match stripPrefix "//?/UNC/".toList text with
    | some rest => '/' :: '/' :: rest
    | none => (stripPrefix "//?/".toList text).getD text
  (popSlashes text.reverse).reverse

def isUnreserved (byte : UInt8) : Bool :=
  (byte ≥ 48 && byte ≤ 57) || (byte ≥ 65 && byte ≤ 90) || (byte ≥ 97 && byte ≤ 122) ||
    byte = 45 || byte = 46 || byte = 95 || byte = 126

def upperHexDigit (n : Nat) : Char :=
  if n < 10 then Char.ofNat (48 + n) else Char.ofNat (55 + n)

def percentEncode (value : Text) (preservePathSeparators : Bool) : Text :=
  (Text.bytes value).data.toList.flatMap fun byte =>
    if isUnreserved byte || (preservePathSeparators && (byte = 47 || byte = 58)) then
      [Char.ofNat byte.toNat]
    else ['%', upperHexDigit (byte.toNat / 16), upperHexDigit (byte.toNat % 16)]

def hexValue (c : Char) : Option Nat :=
  if '0' ≤ c ∧ c ≤ '9' then some (c.toNat - 48)
  else if 'a' ≤ c ∧ c ≤ 'f' then some (c.toNat - 87)
  else if 'A' ≤ c ∧ c ≤ 'F' then some (c.toNat - 55)
  else none

-- `u8::from_str_radix(pair, 16)`, which takes a leading `+`.
def fromHex : Text → Option UInt8
  | ['+', low] => (hexValue low).map UInt8.ofNat
  | [high, low] => (hexValue high).bind fun h => (hexValue low).map fun l => UInt8.ofNat (16 * h + l)
  | [digit] => (hexValue digit).map UInt8.ofNat
  | _ => none

namespace Uri

def invalid (message : String) : AppError := .new .invalidLspUri message

def outsideRoot : AppError := .new .outsideRoot "LSP result is outside the workspace"

end Uri

def percentDecodeBytes : List UInt8 → AppResult (List UInt8)
  | [] => .ok []
  | 37 :: high :: low :: rest =>
    match fromUtf8 ⟨#[high, low]⟩ with
    | none => .error (Uri.invalid "LSP file URI contains an incomplete percent escape")
    | some pair =>
      match fromHex pair with
      | none => .error (Uri.invalid "LSP file URI contains an invalid percent escape")
      | some byte => (percentDecodeBytes rest).map (byte :: ·)
  | byte :: rest =>
    if byte = 37 then
      .error (Uri.invalid "LSP file URI contains an incomplete percent escape")
    else (percentDecodeBytes rest).map (byte :: ·)

def percentDecode (value : Text) : AppResult Text :=
  match percentDecodeBytes (Text.bytes value).data.toList with
  | .error error => .error error
  | .ok decoded =>
    match fromUtf8 ⟨decoded.toArray⟩ with
    | none => .error (Uri.invalid "LSP file URI is not valid UTF-8")
    | some text => .ok text

def equalIgnoreCase (s t : Text) : Prop := s.map Char.toLower = t.map Char.toLower

instance (s t : Text) : Decidable (equalIgnoreCase s t) := inferInstanceAs (Decidable (_ = _))

-- `/c:`, where the drive is one byte.
def driveOf : Text → Option Text
  | '/' :: drive :: ':' :: rest => if drive.utf8Size = 1 then some (drive :: ':' :: rest) else none
  | _ => none

def decodeFileUri (windows : Bool) (uri : Text) : AppResult Text :=
  match stripPrefix "file://".toList uri with
  | none => .error (.new .unsupportedLspUri "LSP returned a non-file URI")
  | some raw => do
    let path ← percentDecode (raw.dropWhile (· != '/'))
    let authority ← percentDecode (raw.takeWhile (· != '/'))
    if authority ≠ [] ∧ ¬equalIgnoreCase authority "localhost".toList then
      if windows then .ok ('/' :: '/' :: authority ++ path)
      else .error (.new .unsupportedLspUri "LSP returned a file URI with a remote authority")
    else if windows then .ok ((driveOf path).getD path)
    else .ok path

def stripRoot (windows : Bool) (path root : Text) : Option Text :=
  let head := path.take root.length
  if (windows ∧ equalIgnoreCase head root) ∨ (¬windows ∧ head = root) then
    match path.drop root.length with
    | [] => some []
    | '/' :: rest => some rest
    | _ => none
  else none

def pathUri (windows : Bool) (path : Text) : Text :=
  let raw := comparableText windows path
  match stripPrefix "//".toList raw with
  | some unc =>
    "file://".toList ++ percentEncode (unc.takeWhile (· != '/')) false ++ '/' ::
      percentEncode ((unc.dropWhile (· != '/')).drop 1) true
  | none => "file:///".toList ++ percentEncode (raw.dropWhile (· == '/')) true

structure UriCodec where
  windows : Bool
  root : Text
  -- comparable forms of the root: as configured and canonicalized
  prefixes : List Text
  deriving DecidableEq

namespace UriCodec

def new (windows : Bool) (root : Text) (canonical : Option Text) : UriCodec :=
  let configured := comparableText windows root
  let prefixes :=
    match canonical.map (comparableText windows) with
    | none => [configured]
    | some canonical => if canonical = configured then [configured] else [configured, canonical]
  ⟨windows, root, prefixes⟩

variable (codec : UriCodec)

def rootUri : Text := pathUri codec.windows codec.root

def join (relative : Text) : Text :=
  if isRooted relative then relative
  else if codec.root.getLast? = some '/' ∨ codec.root = [] then codec.root ++ relative
  else codec.root ++ '/' :: relative
where
  isRooted (path : Text) : Bool := path.head? = some '/'

def documentUri (relative : Text) : Text := pathUri codec.windows (codec.join relative)

def relative (uri : Text) : AppResult Text := do
  let decoded := comparableText codec.windows (← decodeFileUri codec.windows uri)
  match codec.prefixes.findSome? (stripRoot codec.windows decoded) with
  | none => .error Uri.outsideRoot
  | some remainder =>
    if remainder = [] then
      .error (Uri.invalid "LSP URI names the workspace root, not a file")
    else if ∃ segment ∈ remainder.splitOn '/', segment = [] ∨ segment = ['.'] ∨ segment = ['.', '.'] then
      .error Uri.outsideRoot
    else .ok remainder

end UriCodec

end CodeWeave
