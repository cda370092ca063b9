import CodeWeave.Defs.Text
import CodeWeave.Lib.Lossy

namespace CodeWeave

theorem fromUtf8_eq_some {bytes : ByteArray} {text : Text} :
    fromUtf8 bytes = some text ↔ bytes = text.bytes := by
  constructor
  · intro decoded
    rw [fromUtf8, Option.map_eq_some_iff] at decoded
    obtain ⟨chars, found, rfl⟩ := decoded
    have valid : bytes.utf8Decode?.isSome := by rw [found]; rfl
    have encoded := @ByteArray.utf8Encode_get_utf8Decode? bytes valid
    simp only [found, Option.get_some] at encoded
    rw [Text.bytes, String.toByteArray_ofList, encoded]
  · rintro rfl
    exact fromUtf8_bytes text

def isContinuation (byte : UInt8) : Bool := 0x80 ≤ byte && byte ≤ 0xbf

def incompleteChar : List UInt8 → Bool
  | [a] => 0xc2 ≤ a && a ≤ 0xf4
  | [a, b] =>
    (a = 0xe0 && 0xa0 ≤ b && b ≤ 0xbf) || (a = 0xed && 0x80 ≤ b && b ≤ 0x9f) ||
      (0xe1 ≤ a && a ≤ 0xef && a ≠ 0xed && isContinuation b) ||
      (a = 0xf0 && 0x90 ≤ b && b ≤ 0xbf) || (0xf1 ≤ a && a ≤ 0xf3 && isContinuation b) ||
      (a = 0xf4 && 0x80 ≤ b && b ≤ 0x8f)
  | [a, b, c] =>
    isContinuation c && ((a = 0xf0 && 0x90 ≤ b && b ≤ 0xbf) ||
      (0xf1 ≤ a && a ≤ 0xf3 && isContinuation b) || (a = 0xf4 && 0x80 ≤ b && b ≤ 0x8f))
  | _ => false

def utf8 : Words UInt8 Char where
  word bytes :=
    match fromUtf8 ⟨bytes.toArray⟩ with
    | some [c] => some c
    | _ => none
  opens := incompleteChar
  standIn := '\ufffd'

def strFromUtf8 (bytes : List UInt8) : Except Words.Stop Text := utf8.parse bytes

def fromUtf8Lossy (bytes : List UInt8) : Text := utf8.decode bytes

end CodeWeave
