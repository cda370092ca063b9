import CodeWeave.Defs.Intelligence.Uri

namespace CodeWeave

theorem bytes_toList (text : Text) :
    (Text.bytes text).data.toList = text.flatMap String.utf8EncodeChar := by
  rw [Text.bytes, String.toByteArray_ofList, List.utf8Encode, List.toList_data_toByteArray]

theorem fromUtf8_toList (text : Text) :
    fromUtf8 ⟨(text.flatMap String.utf8EncodeChar).toArray⟩ = some text := by
  rw [← bytes_toList, Array.toArray_toList]
  exact fromUtf8_bytes text

theorem utf8EncodeChar_ascii {n : Nat} (ascii : n < 128) :
    String.utf8EncodeChar (Char.ofNat n) = [UInt8.ofNat n] := by
  have value : (Char.ofNat n).val.toNat = n := by
    have valid : n.isValidChar := Or.inl (by omega)
    rw [Char.ofNat, dif_pos valid]
    rfl
  simp only [String.utf8EncodeChar, value]
  rw [if_pos (by omega)]

def percentEncodeByte (preservePathSeparators : Bool) (byte : UInt8) : Text :=
  if isUnreserved byte || (preservePathSeparators && (byte = 47 || byte = 58)) then
    [Char.ofNat byte.toNat]
  else ['%', upperHexDigit (byte.toNat / 16), upperHexDigit (byte.toNat % 16)]

theorem percentEncode_eq (value : Text) (preservePathSeparators : Bool) :
    percentEncode value preservePathSeparators =
      (value.flatMap String.utf8EncodeChar).flatMap (percentEncodeByte preservePathSeparators) := by
  rw [percentEncode, bytes_toList]
  rfl

def hexCode (n : Nat) : Nat := if n < 10 then 48 + n else 55 + n

theorem hexCode_ascii {n : Nat} (digit : n < 16) : hexCode n < 128 := by
  rw [hexCode]
  split <;> omega

theorem upperHexDigit_eq (n : Nat) : upperHexDigit n = Char.ofNat (hexCode n) := by
  rw [upperHexDigit, hexCode]
  split <;> rfl

theorem fromHex_upperHexDigits (byte : UInt8) :
    fromHex [upperHexDigit (byte.toNat / 16), upperHexDigit (byte.toNat % 16)] = some byte := by
  have all : ∀ n : Fin 256, fromHex [upperHexDigit (n.val / 16), upperHexDigit (n.val % 16)] =
      some (UInt8.ofNat n.val) := by decide +kernel
  have here := all ⟨byte.toNat, byte.toNat_lt⟩
  rwa [UInt8.ofNat_toNat] at here

theorem percentDecodeBytes_cons_of_ne {byte : UInt8} (plain : byte ≠ 37) (rest : List UInt8) :
    percentDecodeBytes (byte :: rest) = (percentDecodeBytes rest).map (byte :: ·) := by
  rw [percentDecodeBytes]
  · rw [if_neg plain]
  · intro high low more eq _
    exact absurd eq plain

theorem utf8EncodeChar_upperHexDigit {n : Nat} (digit : n < 16) :
    String.utf8EncodeChar (upperHexDigit n) = [UInt8.ofNat (hexCode n)] := by
  rw [upperHexDigit_eq, utf8EncodeChar_ascii (hexCode_ascii digit)]

theorem fromUtf8_upperHexDigits {m n : Nat} (high : m < 16) (low : n < 16) :
    fromUtf8 ⟨#[UInt8.ofNat (hexCode m), UInt8.ofNat (hexCode n)]⟩ =
      some [upperHexDigit m, upperHexDigit n] := by
  have pair := fromUtf8_toList [upperHexDigit m, upperHexDigit n]
  rw [List.flatMap_cons, List.flatMap_singleton, utf8EncodeChar_upperHexDigit high,
    utf8EncodeChar_upperHexDigit low] at pair
  exact pair

theorem ascii_of_kept {preservePathSeparators : Bool} {byte : UInt8}
    (kept : (isUnreserved byte || (preservePathSeparators && (byte = 47 || byte = 58))) = true) :
    byte.toNat < 128 ∧ byte ≠ 37 := by
  simp only [isUnreserved, Bool.or_eq_true, Bool.and_eq_true, decide_eq_true_eq, ge_iff_le,
    UInt8.le_iff_toNat_le, ← UInt8.toNat_inj, UInt8.reduceToNat] at kept
  simp only [ne_eq, ← UInt8.toNat_inj, UInt8.reduceToNat]
  omega

theorem percentDecodeBytes_percentEncodeByte (preservePathSeparators : Bool) (byte : UInt8)
    (rest : List UInt8) :
    percentDecodeBytes ((percentEncodeByte preservePathSeparators byte).flatMap String.utf8EncodeChar ++
      rest) = (percentDecodeBytes rest).map (byte :: ·) := by
  rw [percentEncodeByte]
  split
  · next kept =>
    obtain ⟨ascii, plain⟩ := ascii_of_kept kept
    rw [List.flatMap_singleton, utf8EncodeChar_ascii ascii, UInt8.ofNat_toNat, List.singleton_append,
      percentDecodeBytes_cons_of_ne plain]
  · have bound : byte.toNat < 256 := byte.toNat_lt
    have high : byte.toNat / 16 < 16 := by omega
    have low : byte.toNat % 16 < 16 := by omega
    have escape : ['%', upperHexDigit (byte.toNat / 16), upperHexDigit (byte.toNat % 16)].flatMap
        String.utf8EncodeChar = [37, UInt8.ofNat (hexCode (byte.toNat / 16)),
          UInt8.ofNat (hexCode (byte.toNat % 16))] := by
      rw [List.flatMap_cons, List.flatMap_cons, List.flatMap_singleton,
        utf8EncodeChar_upperHexDigit high, utf8EncodeChar_upperHexDigit low]
      rfl
    rw [escape, List.cons_append, List.cons_append, List.singleton_append, percentDecodeBytes]
    simp only [fromUtf8_upperHexDigits high low, fromHex_upperHexDigits]

theorem percentDecode_percentEncode (value : Text) (preservePathSeparators : Bool) :
    percentDecode (percentEncode value preservePathSeparators) = .ok value := by
  have decoded : ∀ bytes : List UInt8, percentDecodeBytes
      ((bytes.flatMap (percentEncodeByte preservePathSeparators)).flatMap String.utf8EncodeChar) =
        .ok bytes := by
    intro bytes
    induction bytes with
    | nil => rfl
    | cons byte rest ih =>
      rw [List.flatMap_cons, List.flatMap_append, percentDecodeBytes_percentEncodeByte, ih]
      rfl
  rw [percentDecode, bytes_toList, percentEncode_eq, decoded]
  simp only [fromUtf8_toList]

def PlainSegments (path : Text) : Prop :=
  ∀ segment ∈ path.splitOn '/', segment ≠ [] ∧ segment ≠ ['.'] ∧ segment ≠ ['.', '.']

instance (path : Text) : Decidable (PlainSegments path) :=
  inferInstanceAs (Decidable (∀ _ ∈ _, _))

/-- The text of a canonical path other than that of the filesystem root. -/
def CanonicalRoot (root : Text) : Prop := ∃ path, root = '/' :: path ∧ PlainSegments path

theorem plainSegments_append {path more : Text} :
    PlainSegments (path ++ '/' :: more) ↔ PlainSegments path ∧ PlainSegments more := by
  rw [PlainSegments, List.splitOn_append_cons_self]
  exact List.forall_mem_append

namespace PlainSegments

variable {path : Text}

theorem not_nil : ¬PlainSegments [] := by
  intro plain
  exact (plain [] (by decide)).1 rfl

theorem cons (plain : PlainSegments path) : ∃ c rest, path = c :: rest ∧ c ≠ '/' := by
  cases path with
  | nil => exact absurd plain not_nil
  | cons c rest =>
    refine ⟨c, rest, rfl, ?_⟩
    rintro rfl
    have split : PlainSegments ([] ++ '/' :: rest) := plain
    exact not_nil (plainSegments_append.mp split).1

theorem concat (plain : PlainSegments path) : ∃ front c, path = front ++ [c] ∧ c ≠ '/' := by
  cases path using List.reverseRecOn with
  | nil => exact absurd plain not_nil
  | append_singleton front c =>
    refine ⟨front, c, rfl, ?_⟩
    rintro rfl
    exact not_nil (plainSegments_append.mp plain).2

end PlainSegments

theorem popSlashes_of_ne {c : Char} (plain : c ≠ '/') (text : Text) :
    popSlashes (c :: text) = c :: text := by
  rw [popSlashes]
  intro d rest eq
  exact plain (List.cons.inj eq).1

theorem stripPrefix_slashes {start path : Text} (plain : PlainSegments path) :
    stripPrefix ('/' :: '/' :: start) ('/' :: path) = none := by
  obtain ⟨c, rest, rfl, ne⟩ := plain.cons
  rw [stripPrefix, if_neg]
  rw [List.isPrefixOf_iff_prefix, List.cons_prefix_cons, List.cons_prefix_cons]
  rintro ⟨-, eq, -⟩
  exact ne eq.symm

theorem comparableText_plain {path : Text} (plain : PlainSegments path) :
    comparableText false ('/' :: path) = '/' :: path := by
  have unc := @stripPrefix_slashes "?/UNC/".toList path plain
  have verbatim := @stripPrefix_slashes "?/".toList path plain
  obtain ⟨front, c, rfl, ne⟩ := plain.concat
  have ends : ('/' :: (front ++ [c])).reverse = c :: ('/' :: front).reverse := by simp
  have whole : (popSlashes ('/' :: (front ++ [c])).reverse).reverse = '/' :: (front ++ [c]) := by
    rw [ends, popSlashes_of_ne ne, ← ends, List.reverse_reverse]
  have prefixUnc : "//?/UNC/".toList = '/' :: '/' :: "?/UNC/".toList := rfl
  have prefixVerbatim : "//?/".toList = '/' :: '/' :: "?/".toList := rfl
  simp only [comparableText, Bool.false_eq_true, if_false, prefixUnc, prefixVerbatim, unc, verbatim,
    Option.getD_none, whole]

theorem percentEncode_slash (path : Text) :
    percentEncode ('/' :: path) true = '/' :: percentEncode path true := by
  rw [percentEncode_eq, percentEncode_eq]
  rfl

theorem decodeFileUri_pathUri {path : Text} (plain : PlainSegments path) :
    decodeFileUri false (pathUri false ('/' :: path)) = .ok ('/' :: path) := by
  have slashes := @stripPrefix_slashes [] path plain
  obtain ⟨c, rest, rfl, ne⟩ := plain.cons
  have kept : ('/' :: c :: rest).dropWhile (· == '/') = c :: rest := by
    rw [List.dropWhile_cons_of_pos (by rfl), List.dropWhile_cons_of_neg (by simpa using ne)]
  have uri : pathUri false ('/' :: c :: rest) =
      "file://".toList ++ percentEncode ('/' :: c :: rest) true := by
    have start : "//".toList = ['/', '/'] := rfl
    simp only [pathUri, comparableText_plain plain, start, slashes, kept, percentEncode_slash]
    rfl
  rw [uri, decodeFileUri, stripPrefix_append, percentEncode_slash]
  have path : ('/' :: percentEncode (c :: rest) true).dropWhile (· != '/') =
      percentEncode ('/' :: c :: rest) true := by
    rw [percentEncode_slash]
    rfl
  have authority : ('/' :: percentEncode (c :: rest) true).takeWhile (· != '/') =
      percentEncode [] true := rfl
  simp only [path, authority, percentDecode_percentEncode, bind, Except.bind]
  rfl

theorem stripRoot_append (root rest : Text) : stripRoot false (root ++ '/' :: rest) root = some rest := by
  simp [stripRoot]

theorem stripRoot_eq_some {path root rest : Text} (stripped : stripRoot false path root = some rest)
    (nonempty : rest ≠ []) : path = root ++ '/' :: rest := by
  rw [stripRoot] at stripped
  split at stripped
  · next same =>
    have head : path.take root.length = root := by simpa using same
    split at stripped
    · exact absurd (Option.some.inj stripped).symm nonempty
    · next more after =>
      obtain rfl := Option.some.inj stripped
      rw [← List.take_append_drop root.length path, head, after]
    · cases stripped
  · cases stripped

namespace UriCodec

variable {base : Text} {canonical : Option Text}

theorem new_canonical (plain : PlainSegments base)
    (resolved : ∀ text ∈ canonical, text = '/' :: base) :
    new false ('/' :: base) canonical = ⟨false, '/' :: base, ['/' :: base]⟩ := by
  have same := comparableText_plain plain
  cases canonical with
  | none => simp only [new, Option.map_none, same]
  | some text =>
    obtain rfl := resolved text rfl
    simp only [new, Option.map_some, same, if_true]

theorem join_plain {path : Text} (plain : PlainSegments base) (below : PlainSegments path)
    (prefixes : List Text) :
    join ⟨false, '/' :: base, prefixes⟩ path = '/' :: (base ++ '/' :: path) := by
  obtain ⟨c, rest, rfl, ne⟩ := below.cons
  obtain ⟨front, d, rfl, ne'⟩ := plain.concat
  have unrooted : join.isRooted (c :: rest) = false := by simpa [join.isRooted] using ne
  have last : ('/' :: (front ++ [d])).getLast? = some d := by
    rw [← List.cons_append, List.getLast?_concat]
  simp only [join, unrooted, last, Option.some.injEq, ne', reduceCtorEq, or_self, if_false,
    Bool.false_eq_true, List.cons_append]

theorem relative_eq_ok {root uri path : Text} :
    relative ⟨false, root, [root]⟩ uri = .ok path ↔
      ∃ decoded, decodeFileUri false uri = .ok decoded ∧
        comparableText false decoded = root ++ '/' :: path ∧ PlainSegments path := by
  constructor
  · intro found
    simp only [relative, bind_eq_ok, List.findSome?_cons, List.findSome?_nil] at found
    obtain ⟨decoded, decodes, found⟩ := found
    refine ⟨decoded, decodes, ?_⟩
    cases stripped : stripRoot false (comparableText false decoded) root with
    | none =>
      rw [stripped] at found
      cases found
    | some rest =>
      simp only [stripped] at found
      split at found
      · cases found
      · next nonempty =>
        split at found
        · cases found
        · next plain =>
          obtain rfl := Except.ok.inj found
          refine ⟨stripRoot_eq_some stripped nonempty, fun segment mem => ?_⟩
          rw [← not_or, ← not_or]
          exact fun bad => plain ⟨segment, mem, bad⟩
  · rintro ⟨decoded, decodes, whole, plain⟩
    have nonempty : path ≠ [] := by
      rintro rfl
      exact PlainSegments.not_nil plain
    have allowed : ¬∃ segment ∈ path.splitOn '/',
        segment = [] ∨ segment = ['.'] ∨ segment = ['.', '.'] := by
      rintro ⟨segment, mem, empty | dot | parent⟩
      · exact (plain segment mem).1 empty
      · exact (plain segment mem).2.1 dot
      · exact (plain segment mem).2.2 parent
    simp only [relative, decodes, bind, Except.bind, whole, List.findSome?_cons, stripRoot_append,
      if_neg nonempty, if_neg allowed]

end UriCodec

/-- Under a canonical root, the URI of a path is read as that path, and what a URI is read as
is a path below the root, which the URI is of. -/
theorem documentUri_roundTrip {root : Text} {canonical : Option Text} (rooted : CanonicalRoot root)
    (resolved : ∀ text ∈ canonical, text = root) :
    (∀ path, PlainSegments path →
      (UriCodec.new false root canonical).relative
        ((UriCodec.new false root canonical).documentUri path) = .ok path) ∧
    ∀ uri path, (UriCodec.new false root canonical).relative uri = .ok path →
      path ≠ [] ∧ PlainSegments path ∧ ∃ decoded, decodeFileUri false uri = .ok decoded ∧
        (UriCodec.new false root canonical).join path = comparableText false decoded := by
  obtain ⟨base, rfl, plain⟩ := rooted
  rw [UriCodec.new_canonical plain resolved]
  constructor
  · intro path below
    have under := plainSegments_append.mpr ⟨plain, below⟩
    rw [UriCodec.relative_eq_ok, UriCodec.documentUri, UriCodec.join_plain plain below]
    exact ⟨_, decodeFileUri_pathUri under, comparableText_plain under, below⟩
  · intro uri path found
    obtain ⟨decoded, decodes, whole, below⟩ := UriCodec.relative_eq_ok.mp found
    refine ⟨?_, below, decoded, decodes, ?_⟩
    · rintro rfl
      exact PlainSegments.not_nil below
    · rw [UriCodec.join_plain plain below, whole]
      rfl

theorem documentUri_roundTrip_w :
    CanonicalRoot "/w".toList ∧
      (UriCodec.new false "/w".toList none).relative
        ((UriCodec.new false "/w".toList none).documentUri "a/café 100%.rs".toList) =
          .ok "a/café 100%.rs".toList := by
  have rooted : CanonicalRoot "/w".toList := ⟨"w".toList, rfl, by decide⟩
  have resolved : ∀ text ∈ (none : Option Text), text = "/w".toList := nofun
  exact ⟨rooted, (documentUri_roundTrip rooted resolved).1 _ (by decide)⟩

end CodeWeave
