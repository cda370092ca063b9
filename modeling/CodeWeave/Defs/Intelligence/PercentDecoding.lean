import CodeWeave.Defs.Intelligence.UriLaws
import CodeWeave.Defs.Utf8
import Mathlib.Data.Fintype.Basic
import Mathlib.Tactic.FinCases

namespace CodeWeave

def hexByte (byte : UInt8) : Option Nat :=
  if 48 ≤ byte ∧ byte ≤ 57 then some (byte.toNat - 48)
  else if 97 ≤ byte ∧ byte ≤ 102 then some (byte.toNat - 87)
  else if 65 ≤ byte ∧ byte ≤ 70 then some (byte.toNat - 55)
  else none

/-- What bytes stand for, where each `%` is followed by two hexadecimal digits, or, if a sign
is let in, by a `+` and one digit. The flag tells whether there is a sign. -/
inductive Decodes : Bool → List UInt8 → List UInt8 → Prop
  | nil : Decodes false [] []
  | plain {byte : UInt8} : byte ≠ 37 → Decodes signed rest out →
      Decodes signed (byte :: rest) (byte :: out)
  | escape {high low : UInt8} {h l : Nat} : hexByte high = some h → hexByte low = some l →
      Decodes signed rest out →
      Decodes signed (37 :: high :: low :: rest) (UInt8.ofNat (16 * h + l) :: out)
  | sign {low : UInt8} {l : Nat} : hexByte low = some l → Decodes signed rest out →
      Decodes true (37 :: 43 :: low :: rest) (UInt8.ofNat l :: out)

def escapeValue (high low : UInt8) : Option UInt8 :=
  (if high = 43 then some 0 else hexByte high).bind fun h =>
    (hexByte low).map fun l => UInt8.ofNat (16 * h + l)

theorem hexValue_ascii {byte : UInt8} (small : byte.toNat < 128) :
    hexValue (Char.ofNat byte.toNat) = hexByte byte := by
  have all : ∀ n : Fin 128, hexValue (Char.ofNat n) = hexByte (UInt8.ofNat n) := by decide +kernel
  have here := all ⟨byte.toNat, small⟩
  rwa [UInt8.ofNat_toNat] at here

theorem fromHex_digits (n : Fin 128) (digit : n ≠ 43) (low : Char) :
    fromHex [Char.ofNat n, low] = (hexValue (Char.ofNat n)).bind fun h =>
      (hexValue low).map fun l => UInt8.ofNat (16 * h + l) := by
  fin_cases n <;> first | rfl | exact absurd rfl digit

theorem fromHex_ascii {high low : UInt8} (small : high.toNat < 128) (small' : low.toNat < 128) :
    fromHex [Char.ofNat high.toNat, Char.ofNat low.toNat] = escapeValue high low := by
  rw [escapeValue, ← hexValue_ascii small']
  by_cases plus : high = 43
  · subst plus
    change (hexValue (Char.ofNat low.toNat)).map UInt8.ofNat = _
    cases hexValue (Char.ofNat low.toNat) <;> simp
  · have digit : (⟨high.toNat, small⟩ : Fin 128) ≠ 43 := by
      intro same
      have code : high.toNat = 43 := congrArg Fin.val same
      exact plus (UInt8.toNat_inj.mp code)
    rw [if_neg plus, ← hexValue_ascii small]
    exact fromHex_digits ⟨high.toNat, small⟩ digit (Char.ofNat low.toNat)

theorem fromHex_two_bytes {c : Char} (beyond : 128 ≤ c.toNat) (short : c.toNat < 2048) :
    fromHex [c] = none := by
  have all : ∀ m : Fin 30, ∀ n : Fin 64, fromHex [Char.ofNat (128 + 64 * m + n)] = none := by
    decide +kernel
  obtain ⟨m, n, block, offset, code⟩ : ∃ m n, m < 30 ∧ n < 64 ∧ 128 + 64 * m + n = c.toNat :=
    ⟨(c.toNat - 128) / 64, (c.toNat - 128) % 64, by omega, by omega, by omega⟩
  have here : fromHex [Char.ofNat (128 + 64 * m + n)] = none := all ⟨m, block⟩ ⟨n, offset⟩
  rwa [code, Char.ofNat_toNat] at here

theorem hexByte_ascii {byte : UInt8} {n : Nat} (digit : hexByte byte = some n) :
    byte.toNat < 128 := by
  simp only [hexByte, UInt8.le_iff_toNat_le, UInt8.reduceToNat] at digit
  split at digit
  · omega
  · split at digit
    · omega
    · split at digit
      · omega
      · cases digit

theorem escapeValue_ascii {high low byte : UInt8} (value : escapeValue high low = some byte) :
    high.toNat < 128 ∧ low.toNat < 128 := by
  simp only [escapeValue, Option.bind_eq_some_iff, Option.map_eq_some_iff] at value
  obtain ⟨h, first, l, second, -⟩ := value
  refine ⟨?_, hexByte_ascii second⟩
  split at first
  · next plus => rw [plus]; decide
  · exact hexByte_ascii first

theorem utf8EncodeChar_length (c : Char) :
    (c.toNat < 128 ∧ String.utf8EncodeChar c = [UInt8.ofNat c.toNat]) ∨
      128 ≤ c.toNat ∧ 2 ≤ (String.utf8EncodeChar c).length ∧
        ((String.utf8EncodeChar c).length = 2 → c.toNat < 2048) := by
  have code : c.val.toNat = c.toNat := rfl
  simp only [String.utf8EncodeChar, code]
  split
  · exact .inl ⟨by omega, rfl⟩
  · split
    · exact .inr ⟨by omega, Nat.le_refl 2, fun _ => by omega⟩
    · split
      · exact .inr ⟨by omega, by simp, nofun⟩
      · exact .inr ⟨by omega, by simp, nofun⟩

theorem fromUtf8_ascii {high low : UInt8} (small : high.toNat < 128) (small' : low.toNat < 128) :
    fromUtf8 ⟨#[high, low]⟩ = some [Char.ofNat high.toNat, Char.ofNat low.toNat] := by
  have pair := fromUtf8_toList [Char.ofNat high.toNat, Char.ofNat low.toNat]
  rw [List.flatMap_cons, List.flatMap_singleton, utf8EncodeChar_ascii small,
    utf8EncodeChar_ascii small', UInt8.ofNat_toNat, UInt8.ofNat_toNat] at pair
  exact pair

theorem fromHex_pair {high low : UInt8} {pair : Text} (text : fromUtf8 ⟨#[high, low]⟩ = some pair) :
    fromHex pair = escapeValue high low := by
  by_cases ascii : high.toNat < 128 ∧ low.toNat < 128
  · rw [fromUtf8_ascii ascii.1 ascii.2] at text
    obtain rfl := Option.some.inj text
    exact fromHex_ascii ascii.1 ascii.2
  · have none : escapeValue high low = none := by
      rw [Option.eq_none_iff_forall_not_mem]
      intro byte value
      exact ascii (escapeValue_ascii value)
    have bytes : pair.flatMap String.utf8EncodeChar = [high, low] := by
      rw [← bytes_toList, ← fromUtf8_eq_some.mp text]
    rw [none]
    cases pair with
    | nil => cases bytes
    | cons c rest =>
      rw [List.flatMap_cons] at bytes
      have total := congrArg List.length bytes
      rw [List.length_append, List.length_cons, List.length_singleton] at total
      cases utf8EncodeChar_length c with
      | inl single =>
        rw [single.2, List.singleton_append] at bytes
        obtain ⟨first, others⟩ := List.cons.inj bytes
        cases rest with
        | nil => cases others
        | cons d more =>
          rw [List.flatMap_cons] at others
          have width := congrArg List.length others
          rw [List.length_append, List.length_singleton] at width
          cases utf8EncodeChar_length d with
          | inl single' =>
            rw [single'.2, List.singleton_append] at others
            refine absurd ⟨?_, ?_⟩ ascii
            · rw [← first, UInt8.toNat_ofNat']
              exact (Nat.mod_le ..).trans_lt single.1
            · rw [← (List.cons.inj others).1, UInt8.toNat_ofNat']
              exact (Nat.mod_le ..).trans_lt single'.1
          | inr wide => omega
      | inr wide =>
        have alone : rest = [] := by
          cases rest with
          | nil => rfl
          | cons d more =>
            rw [List.flatMap_cons, List.length_append] at total
            cases utf8EncodeChar_length d with
            | inl single' =>
              rw [single'.2, List.length_singleton] at total
              omega
            | inr wide' => omega
        rw [alone, List.flatMap_nil, List.length_nil] at total
        rw [alone]
        exact fromHex_two_bytes wide.1 (wide.2.2 (by omega))

section

variable {high low byte : UInt8}

theorem percentDecodeBytes_escape (value : escapeValue high low = some byte) (rest : List UInt8) :
    percentDecodeBytes (37 :: high :: low :: rest) = (percentDecodeBytes rest).map (byte :: ·) := by
  obtain ⟨small, small'⟩ := escapeValue_ascii value
  have text := fromUtf8_ascii small small'
  have hex := fromHex_pair text
  rw [percentDecodeBytes]
  simp only [text, hex, value]

theorem percentDecodeBytes_malformed (value : escapeValue high low = none) (rest : List UInt8) :
    ∃ error, percentDecodeBytes (37 :: high :: low :: rest) = .error error := by
  rw [percentDecodeBytes]
  cases text : fromUtf8 ⟨#[high, low]⟩ with
  | none => exact ⟨_, rfl⟩
  | some pair =>
    simp only [fromHex_pair text, value]
    exact ⟨_, rfl⟩

theorem percentDecodeBytes_incomplete {rest : List UInt8} (short : rest.length < 2) :
    ∃ error, percentDecodeBytes (37 :: rest) = .error error := by
  rw [percentDecodeBytes]
  · exact ⟨_, rfl⟩
  · rintro high low more - rfl
    rw [List.length_cons, List.length_cons] at short
    omega

end

theorem Decodes.of_escapeValue {high low byte : UInt8} {rest out : List UInt8} {signed : Bool}
    (value : escapeValue high low = some byte) (later : Decodes signed rest out) :
    ∃ signed, Decodes signed (37 :: high :: low :: rest) (byte :: out) := by
  simp only [escapeValue, Option.bind_eq_some_iff, Option.map_eq_some_iff] at value
  obtain ⟨h, first, l, second, rfl⟩ := value
  split at first
  · next plus =>
    obtain rfl := Option.some.inj first
    rw [Nat.mul_zero, Nat.zero_add, plus]
    exact ⟨true, .sign second later⟩
  · exact ⟨signed, .escape first second later⟩

theorem Decodes.percentDecodeBytes {signed : Bool} {bytes out : List UInt8}
    (decodes : Decodes signed bytes out) : percentDecodeBytes bytes = .ok out := by
  induction decodes with
  | nil => rfl
  | plain other _ ih =>
    rw [percentDecodeBytes_cons_of_ne other, ih]
    rfl
  | @escape _ _ _ high low h l first second _ ih =>
    have digit : high ≠ 43 := by
      rintro rfl
      cases first
    have value : escapeValue high low = some (UInt8.ofNat (16 * h + l)) := by
      rw [escapeValue, if_neg digit, first, second]
      rfl
    rw [percentDecodeBytes_escape value, ih]
    rfl
  | @sign _ _ _ low l second _ ih =>
    have value : escapeValue 43 low = some (UInt8.ofNat l) := by
      rw [escapeValue, if_pos rfl, second, Option.bind_some, Option.map_some, Nat.mul_zero,
        Nat.zero_add]
    rw [percentDecodeBytes_escape value, ih]
    rfl

theorem decodes_of_percentDecodeBytes {bytes out : List UInt8}
    (decoded : percentDecodeBytes bytes = .ok out) : ∃ signed, Decodes signed bytes out := by
  induction size : bytes.length using Nat.strongRecOn generalizing bytes out with
  | ind n ih =>
    have later {byte : UInt8} {rest : List UInt8} (shorter : rest.length < bytes.length)
        (mapped : (percentDecodeBytes rest).map (byte :: ·) = .ok out) :
        ∃ more signed, Decodes signed rest more ∧ out = byte :: more := by
      cases found : percentDecodeBytes rest with
      | error error =>
        rw [found] at mapped
        cases mapped
      | ok more =>
        rw [found] at mapped
        obtain ⟨signed, decodes⟩ := ih rest.length (size ▸ shorter) found rfl
        exact ⟨more, signed, decodes, (Except.ok.inj mapped).symm⟩
    cases bytes with
    | nil =>
      cases decoded
      exact ⟨false, .nil⟩
    | cons byte rest =>
      by_cases percent : byte = 37
      · subst percent
        cases rest with
        | nil =>
          obtain ⟨error, refused⟩ := @percentDecodeBytes_incomplete [] Nat.two_pos
          rw [refused] at decoded
          cases decoded
        | cons high rest =>
          cases rest with
          | nil =>
            obtain ⟨error, refused⟩ := @percentDecodeBytes_incomplete [high] Nat.one_lt_two
            rw [refused] at decoded
            cases decoded
          | cons low rest =>
            cases value : escapeValue high low with
            | none =>
              obtain ⟨error, refused⟩ := percentDecodeBytes_malformed value rest
              rw [refused] at decoded
              cases decoded
            | some byte =>
              rw [percentDecodeBytes_escape value] at decoded
              obtain ⟨more, signed, decodes, rfl⟩ :=
                later (by simp only [List.length_cons]; omega) decoded
              exact decodes.of_escapeValue value
      · rw [percentDecodeBytes_cons_of_ne percent] at decoded
        obtain ⟨more, signed, decodes, rfl⟩ := later (by simp) decoded
        exact ⟨signed, .plain percent decodes⟩

theorem Decodes.unique {signed other : Bool} {bytes out out' : List UInt8}
    (decodes : Decodes signed bytes out) (decodes' : Decodes other bytes out') :
    signed = other ∧ out = out' := by
  have same := decodes.percentDecodeBytes.symm.trans decodes'.percentDecodeBytes
  refine ⟨?_, Except.ok.inj same⟩
  clear same
  induction decodes generalizing other out' with
  | nil =>
    cases decodes'
    rfl
  | plain ne _ ih =>
    cases decodes' with
    | plain _ later => exact ih later
    | escape => exact absurd rfl ne
    | sign => exact absurd rfl ne
  | escape first _ _ ih =>
    cases decodes' with
    | plain ne => exact absurd rfl ne
    | escape _ _ later => exact ih later
    | sign => cases first
  | sign _ _ ih =>
    cases decodes' with
    | plain ne => exact absurd rfl ne
    | escape first => cases first
    | sign => rfl

theorem percentDecode_eq_ok {value text : Text} :
    percentDecode value = .ok text ↔
      ∃ signed, Decodes signed (Text.bytes value).data.toList (Text.bytes text).data.toList := by
  constructor
  · intro decoded
    rw [percentDecode] at decoded
    split at decoded
    · cases decoded
    · next out found =>
      obtain ⟨signed, decodes⟩ := decodes_of_percentDecodeBytes found
      split at decoded
      · cases decoded
      · next utf8 =>
        obtain rfl := Except.ok.inj decoded
        rw [← fromUtf8_eq_some.mp utf8]
        exact ⟨signed, decodes⟩
  · rintro ⟨signed, decodes⟩
    have utf8 : fromUtf8 ⟨(Text.bytes text).data⟩ = some text := fromUtf8_bytes text
    simp only [percentDecode, decodes.percentDecodeBytes, Array.toArray_toList, utf8]

/-- Percent decoding gives what the escapes of a text stand for, if they are well formed and
that is a text, and nothing otherwise. -/
def DecodesExactly (value : Text) : Prop :=
  ∀ text, percentDecode value = .ok text ↔
    Decodes false (Text.bytes value).data.toList (Text.bytes text).data.toList

theorem decodesExactly_iff (value : Text) :
    DecodesExactly value ↔ ¬∃ text : Text,
      Decodes true (Text.bytes value).data.toList (Text.bytes text).data.toList := by
  constructor
  · rintro exactly ⟨text, signed⟩
    have decoded := percentDecode_eq_ok.mpr ⟨true, signed⟩
    cases (signed.unique ((exactly text).mp decoded)).1
  · intro unsigned text
    rw [percentDecode_eq_ok]
    constructor
    · rintro ⟨_ | _, decodes⟩
      · exact decodes
      · exact absurd ⟨text, decodes⟩ unsigned
    · exact fun decodes => ⟨false, decodes⟩

/-- What is encoded is decoded again, and beyond that decoding takes just the well-formed
escapes, except where a sign is taken for a digit. -/
theorem percentDecode_exact (value : Text) :
    (∀ preservePathSeparators,
      percentDecode (percentEncode value preservePathSeparators) = .ok value) ∧
    (DecodesExactly value ↔ ¬∃ text : Text,
      Decodes true (Text.bytes value).data.toList (Text.bytes text).data.toList) :=
  ⟨percentDecode_percentEncode value, decodesExactly_iff value⟩

-- `%+a` is read as a line feed.
theorem not_decodesExactly : ¬DecodesExactly "%+a".toList := by
  rw [decodesExactly_iff, not_not]
  refine ⟨['\n'], ?_⟩
  rw [bytes_toList, bytes_toList]
  exact .sign (l := 10) rfl .nil

end CodeWeave
