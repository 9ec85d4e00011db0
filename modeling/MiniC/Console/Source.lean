import MiniC.Fault
import MiniC.Text.Blank

/-!
# Reading input

Input arrives in chunks of bytes.  Words and lines are read across the borders of chunks; what is
not consumed stays.  A word or a line that is no UTF-8 is consumed all the same.
-/

namespace MiniC

/-- The bytes still to be read, in the chunks in which they arrive. -/
structure Source where
  chunks : List (List UInt8)

namespace Source

/-- The bytes still to be read. -/
def bytes (s : Source) : List UInt8 := s.chunks.flatten

/-- All bytes in one chunk. -/
def ofBytes (bytes : List UInt8) : Source :=
  if bytes.isEmpty then ⟨[]⟩ else ⟨[bytes]⟩

/-- Cuts bytes into chunks of `size + 1`. -/
def cut (size : Nat) (bytes : List UInt8) : List (List UInt8) :=
  match bytes with
  | [] => []
  | b :: rest => (b :: rest.take size) :: cut size (rest.drop size)
termination_by bytes.length
decreasing_by simp only [List.length_drop, List.length_cons]; omega

/-- Bytes in chunks of at most `size`, a size of zero counting as one. -/
def ofChunks (size : Nat) (bytes : List UInt8) : Source := ⟨cut (size - 1) bytes⟩

/-- A chunk in front of others; an empty one is left out. -/
def unread (chunk : List UInt8) (chunks : List (List UInt8)) : List (List UInt8) :=
  if chunk.isEmpty then chunks else chunk :: chunks

/-- The bytes of a word, of which `word` are already read, and the chunks after it.  The blanks in
front of a word are consumed, the blank behind it is not. -/
def takeWord (word : List UInt8) : List (List UInt8) → List UInt8 × List (List UInt8)
  | [] => (word, [])
  | chunk :: chunks =>
    let body := if word.isEmpty then chunk.dropWhile Text.isBlankByte else chunk
    let taken := body.takeWhile fun b => !Text.isBlankByte b
    match body.drop taken.length with
    | [] => takeWord (word ++ taken) chunks
    | left => (word ++ taken, left :: chunks)

/-- The bytes of a line through its line feed, or to the end, and the chunks after it. -/
def takeLine (line : List UInt8) : List (List UInt8) → List UInt8 × List (List UInt8)
  | [] => (line, [])
  | chunk :: chunks =>
    let taken := chunk.takeWhile (· ≠ Text.lineFeed)
    match chunk.drop taken.length with
    | [] => takeLine (line ++ taken) chunks
    | feed :: left => (line ++ taken ++ [feed], unread left chunks)

/-- A line without its line feed and the carriage return in front of that. -/
def stripLineEnd (line : List Char) : List Char :=
  match line.reverse with
  | '\n' :: '\r' :: rest => rest.reverse
  | '\n' :: rest => rest.reverse
  | _ => line

/-- The next word of input. -/
def readWord (s : Source) : Except Fault String × Source :=
  let (word, chunks) := takeWord [] s.chunks
  let result :=
    if word.isEmpty then .error .inputEnded
    else
      match Text.Utf8.decode? word with
      | some text => .ok text
      | none => .error (.wordNotUtf8 ((Text.Utf8.firstFlaw word).getD (.incomplete word.length)))
  (result, ⟨chunks⟩)

/-- The rest of the current line of input. -/
def readLine (s : Source) : Except Fault String × Source :=
  let (line, chunks) := takeLine [] s.chunks
  let result :=
    if line.isEmpty then .error .inputEnded
    else
      match Text.Utf8.decode? line with
      | some text => .ok (String.ofList (stripLineEnd text.toList))
      | none => .error .lineNotUtf8
  (result, ⟨chunks⟩)

end Source

end MiniC
