/-!
# UTF-8

Bytes to text.  Where the bytes are no UTF-8, `firstFlaw` says how many of them are fine and how the
next ones fail: a maximal beginning of a character that cannot go on, or a character that the end
of the bytes cuts short.
-/

namespace MiniC.Text.Utf8

/-- How bytes fail to be UTF-8. -/
inductive Flaw
  /-- After `index` good bytes, `length` bytes begin no character. -/
  | invalid (length index : Nat)
  /-- After `index` good bytes, the last character is cut short. -/
  | incomplete (index : Nat)
deriving DecidableEq

/-- The lead byte of a character: how many bytes follow, and the range of the first of them.  Every
further one is between `80` and `BF`. -/
def lead? (b : UInt8) : Option (Nat × UInt8 × UInt8) :=
  if b < 0x80 then some (0, 0x80, 0xBF)
  else if b < 0xC2 then none
  else if b < 0xE0 then some (1, 0x80, 0xBF)
  else if b = 0xE0 then some (2, 0xA0, 0xBF)
  else if b = 0xED then some (2, 0x80, 0x9F)
  else if b < 0xF0 then some (2, 0x80, 0xBF)
  else if b = 0xF0 then some (3, 0x90, 0xBF)
  else if b < 0xF4 then some (3, 0x80, 0xBF)
  else if b = 0xF4 then some (3, 0x80, 0x8F)
  else none

/-- What the bytes after a lead byte make of it. -/
inductive Tail
  | complete
  | broken (length : Nat)
  | cutShort

/-- Checks `missing` bytes, the first of them against a range of its own; `seen` bytes of the
character came before. -/
def tail (missing : Nat) (low high : UInt8) (seen : Nat) (bytes : List UInt8) : Tail :=
  match missing, bytes with
  | 0, _ => .complete
  | _ + 1, [] => .cutShort
  | more + 1, b :: rest =>
    if low ≤ b && b ≤ high then tail more 0x80 0xBF (seen + 1) rest else .broken seen

/-- The first flaw of some bytes, `index` bytes after the start of the text. -/
def flawFrom (index : Nat) (bytes : List UInt8) : Option Flaw :=
  match bytes with
  | [] => none
  | b :: rest =>
    match lead? b with
    | none => some (.invalid 1 index)
    | some (following, low, high) =>
      match tail following low high 1 rest with
      | .complete => flawFrom (index + 1 + following) (rest.drop following)
      | .broken length => some (.invalid length index)
      | .cutShort => some (.incomplete index)
termination_by bytes.length
decreasing_by simp only [List.length_drop, List.length_cons]; omega

/-- The first flaw of some bytes. -/
def firstFlaw (bytes : List UInt8) : Option Flaw := flawFrom 0 bytes

/-- The text that bytes encode, if they encode one. -/
def decode? (bytes : List UInt8) : Option String :=
  String.fromUTF8? bytes.toByteArray

/-- The bytes of a text. -/
def encode (s : String) : List UInt8 :=
  s.toUTF8.data.toList

theorem toByteArray_encode (s : String) : (encode s).toByteArray = s.toUTF8 :=
  ByteArray.ext (by simp [encode])

@[simp] theorem decode?_encode (s : String) : decode? (encode s) = some s := by
  rw [decode?, toByteArray_encode, String.fromUTF8?]
  simp [s.isValidUTF8]
  rfl

end MiniC.Text.Utf8
