import PassTuner.Text.Search

/-!
# UTF-8

Strict reading is the core library's; this module adds reading that never fails. Where the bytes
stop being well formed, the longest beginning of a well-formed sequence (at least one byte) is read
as one replacement character.
-/

namespace PassTuner.Text

def replacementChar : Char := '\uFFFD'

/-- The lead byte of a longer sequence: the range its second byte must lie in, and how many bytes
follow the lead. -/
def leadByte? (b : Nat) : Option (Nat × Nat × Nat) :=
  if 0xC2 ≤ b && b ≤ 0xDF then some (0x80, 0xBF, 1)
  else if b == 0xE0 then some (0xA0, 0xBF, 2)
  else if b == 0xED then some (0x80, 0x9F, 2)
  else if 0xE1 ≤ b && b ≤ 0xEF then some (0x80, 0xBF, 2)
  else if b == 0xF0 then some (0x90, 0xBF, 3)
  else if 0xF1 ≤ b && b ≤ 0xF3 then some (0x80, 0xBF, 3)
  else if b == 0xF4 then some (0x80, 0x8F, 3)
  else none

/-- Up to `count` continuation bytes, of which the first must lie in the given range. -/
def continuation (low high : Nat) : Nat → List UInt8 → List Nat
  | 0, _ => []
  | _ + 1, [] => []
  | n + 1, b :: rest =>
    if low ≤ b.toNat && b.toNat ≤ high then b.toNat :: continuation 0x80 0xBF n rest else []

/-- The first character of a byte list and the number of bytes it took, which is never zero. -/
def decodeFirst (b : UInt8) (rest : List UInt8) : Char × Nat :=
  let lead := b.toNat
  if lead < 0x80 then (Char.ofNat lead, 1)
  else match leadByte? lead with
    | none => (replacementChar, 1)
    | some (low, high, count) =>
      let tail := continuation low high count rest
      if tail.length = count then
        let payload := if count == 1 then lead % 32 else if count == 2 then lead % 16 else lead % 8
        (Char.ofNat (tail.foldl (fun n t => n * 64 + t % 64) payload), count + 1)
      else (replacementChar, tail.length + 1)

/-- Reads bytes as text, putting a replacement character wherever they are not well formed. -/
def decodeLossy : List UInt8 → List Char
  | [] => []
  | b :: rest =>
    (decodeFirst b rest).1 :: decodeLossy (rest.drop ((decodeFirst b rest).2 - 1))
termination_by bytes => bytes.length
decreasing_by simp only [List.length_drop, List.length_cons]; omega

/-- The text of a byte string, whatever the bytes are. -/
def ofBytesLossy (bytes : ByteArray) : String :=
  match String.fromUTF8? bytes with
  | some text => text
  | none => String.ofList (decodeLossy bytes.toList)

end PassTuner.Text
