import MiniC.Proofs.Console.Delimited
import MiniC.Proofs.Decimal.Written
import MiniC.Proofs.Eval.Called
import MiniC.Proofs.Eval.Limited

/-!
# What is printed is read back

Ints and strings that are printed one after the other stand in the output on a line each.  Read from
there, `inputline` gives their texts, and `inputi` and `inputs` give the values themselves.  Main
statement: `printed_read_back`.
-/

namespace MiniC

/-- What can be printed and read: an int, or a string. -/
inductive Printable
  | int (n : Int64)
  | string (s : String)

namespace Printable

def value : Printable → Value
  | .int n => .int n
  | .string s => .string s

/-- The line that it is printed as, without an end. -/
def text : Printable → String
  | .int n => Decimal.ofInt64 n
  | .string s => s

/-- The built-in function that prints it. -/
def printer : Printable → Builtin
  | .int _ => .printi
  | .string _ => .prints

/-- The built-in function that reads it. -/
def reader : Printable → Builtin
  | .int _ => .inputi
  | .string _ => .inputs

/-- Prints values one after the other. -/
def printAll (steps : Nat) (items : List Printable) : Run (List Value) :=
  Run.each (fun i => callBuiltin steps i.printer [i.value]) items

/-- The bytes of printed values. -/
def linesOf (items : List Printable) : List UInt8 :=
  items.flatMap fun i => Text.Utf8.encode (i.text ++ "\n")

end Printable

/-- Reads with built-in functions one after the other. -/
def readAll (steps : Nat) (readers : List Builtin) : Run (List Value) :=
  Run.each (fun b => callBuiltin steps b []) readers

/-! ## Texts -/

/-- The text of an int is a word. -/
theorem Text.isWord_ofInt64 (n : Int64) : IsWord (Decimal.ofInt64 n) := by
  constructor
  · intro hempty
    exact Decimal.ofInt_ne_empty n.toInt (String.toList_eq_nil_iff.2 hempty)
  · intro c hc
    rcases Decimal.eq_or_isDigit_of_mem_ofInt hc with rfl | hdigit
    · decide
    · rw [Bool.eq_false_iff]
      intro hblank
      rcases isBlank_iff.1 hblank with rfl | rfl | rfl | rfl | rfl <;>
        exact absurd hdigit (by decide)

namespace Printable

variable {items : List Printable}

theorem isLine_text (h : ∀ s, .string s ∈ items → '\\' ∉ s.toList ∧ Text.IsLine s) :
    ∀ i ∈ items, Text.IsLine i.text := by
  intro i hi
  cases i with
  | int n => exact (Text.isWord_ofInt64 n).isLine
  | string s => exact (h s hi).2

theorem isWord_text (h : ∀ s, .string s ∈ items → Text.IsWord s) :
    ∀ i ∈ items, Text.IsWord i.text := by
  intro i hi
  cases i with
  | int n => exact Text.isWord_ofInt64 n
  | string s => exact h s hi

end Printable

/-! ## A single item -/

variable {steps : Nat} {m n : Machine}

namespace Printable

variable {i : Printable} {items : List Printable} {rest blanks : List UInt8} {vs : List Value}

/-- To print is to write the text as a line. -/
theorem callBuiltin_printer (steps : Nat) (h : ∀ s, i = .string s → '\\' ∉ s.toList)
    {result : Except Fault Unit} {output : Sink}
    (hwrite : m.console.output.writeLine i.text = (result, output)) :
    callBuiltin (steps + 1) i.printer [i.value] m =
      Run.lift (result.map fun _ => .void) (m.withOutput output) := by
  cases i with
  | int n =>
    have hline : m.console.output.writeLine (Value.render (.int n)) = (result, output) := hwrite
    exact invoke_print hline steps (b := .printi) rfl rfl
  | string s =>
    have htext : Builtin.expandedText (.string s) = s := by
      unfold Builtin.expandedText
      dsimp only
      rw [Text.unescape_of_notMem (h s rfl), String.ofList_toList]
    have hline : m.console.output.writeLine (Builtin.expandedText (.string s)) =
        (result, output) := by
      rw [htext]
      exact hwrite
    exact invoke_print hline steps (b := .prints) rfl rfl

theorem callBuiltin_inputline {text : String} (htext : Text.IsLine text)
    (hinput : m.console.input.bytes = Text.Utf8.encode (text ++ "\n") ++ rest) :
    ∃ left, callBuiltin (steps + 1) .inputline [] m = .done (.string text) (m.withInput left) ∧
      left.bytes = rest := by
  have hbytes := Reading.line_written htext rest
  rw [← hinput] at hbytes
  obtain ⟨left, hread, hleft⟩ := Reading.ofSource_of_ofBytes hbytes
  exact ⟨left, invoke_read hread steps (b := .inputline) .string rfl rfl rfl, hleft⟩

theorem callBuiltin_reader (htext : Text.IsWord i.text)
    (hblanks : ∀ b ∈ blanks, Text.isBlankByte b = true)
    (hinput : m.console.input.bytes = blanks ++ (Text.Utf8.encode (i.text ++ "\n") ++ rest)) :
    ∃ left, callBuiltin (steps + 1) i.reader [] m = .done i.value (m.withInput left) ∧
      left.bytes = Text.lineFeed :: rest := by
  have hbytes := Reading.word_written htext hblanks rest
  rw [← hinput] at hbytes
  obtain ⟨left, hread, hleft⟩ := Reading.ofSource_of_ofBytes hbytes
  have hword : m.console.input.readWord = (.ok i.text, left) := hread
  refine ⟨left, ?_, hleft⟩
  cases i with
  | int n =>
    have hint : Builtin.readAs Decimal.readInt? .wordNoInt m.console.input = (.ok n, left) := by
      unfold Builtin.readAs
      rw [hword]
      dsimp only [text]
      rw [Decimal.readInt?_ofInt64]
    exact invoke_read hint steps (b := .inputi) .int rfl rfl rfl
  | string s => exact invoke_read hword steps (b := .inputs) .string rfl rfl rfl

/-! ## One after the other -/

theorem printAll_of_unlimited (h : ∀ s, .string s ∈ items → '\\' ∉ s.toList)
    (hm : m.console.output.capacity = none) :
    ∃ vs n, printAll (steps + 1) items m = .done vs n := by
  induction items generalizing m with
  | nil => exact ⟨[], m, rfl⟩
  | cons i items ih =>
    obtain ⟨output, hwrite⟩ := Sink.write_of_unlimited hm (Text.Utf8.encode (i.text ++ "\n"))
    have hcapacity : output.capacity = none := (Sink.written_of_write hwrite).2.trans hm
    have hfirst := callBuiltin_printer steps
      (fun s hs => h s (hs ▸ List.mem_cons_self)) hwrite
    obtain ⟨vs, n, hrest⟩ := ih (m := m.withOutput output)
      (fun s hs => h s (List.mem_cons_of_mem _ hs)) hcapacity
    exact ⟨.void :: vs, n, Run.each_cons_of_done hfirst hrest⟩

/-- Printing that succeeds wrote the lines of all items. -/
theorem written_of_printAll (h : ∀ s, .string s ∈ items → '\\' ∉ s.toList)
    (hprint : printAll (steps + 1) items m = .done vs n) :
    n.written = m.written ++ linesOf items := by
  induction items generalizing m vs with
  | nil =>
    obtain ⟨-, rfl⟩ := Run.pure_done hprint
    exact (List.append_nil _).symm
  | cons i items ih =>
    obtain ⟨v, k, hfirst, hprint⟩ := Run.bind_done hprint
    obtain ⟨ws, l, hrest, hprint⟩ := Run.bind_done hprint
    obtain ⟨-, rfl⟩ := Run.pure_done hprint
    cases hwrite : m.console.output.writeLine i.text with
    | mk result output =>
      have hcall := callBuiltin_printer steps (fun s hs => h s (hs ▸ List.mem_cons_self)) hwrite
      obtain ⟨hresult, rfl⟩ := Run.lift_done (hcall.symm.trans hfirst)
      cases result with
      | error fault => cases hresult
      | ok _ =>
        have hline : (m.withOutput output).written =
            m.written ++ Text.Utf8.encode (i.text ++ "\n") := (Sink.written_of_write hwrite).1
        have hlines := ih (fun s hs => h s (List.mem_cons_of_mem _ hs)) hrest
        rw [hlines, hline, List.append_assoc]
        rfl

/-- Lines are read until the input is used up. -/
theorem readAll_lines (h : ∀ i ∈ items, Text.IsLine i.text)
    (hinput : m.console.input.bytes = linesOf items) :
    ∃ n, readAll (steps + 1) (items.map fun _ => .inputline) m =
        .done (items.map fun i => .string i.text) n ∧
      n.console.input.bytes = [] := by
  induction items generalizing m with
  | nil => exact ⟨m, rfl, hinput⟩
  | cons i items ih =>
    obtain ⟨left, hfirst, hleft⟩ := callBuiltin_inputline (h i List.mem_cons_self) hinput
    obtain ⟨n, hrest, hn⟩ := ih (m := m.withInput left)
      (fun j hj => h j (List.mem_cons_of_mem _ hj)) hleft
    exact ⟨n, Run.each_cons_of_done hfirst hrest, hn⟩

/-- Words are read as what was printed.  The line feed behind a word is among the blanks in front of
the next one. -/
theorem readAll_words (h : ∀ i ∈ items, Text.IsWord i.text)
    (hblanks : ∀ b ∈ blanks, Text.isBlankByte b = true)
    (hinput : m.console.input.bytes = blanks ++ linesOf items) :
    ∃ n, readAll (steps + 1) (items.map reader) m = .done (items.map value) n ∧
      ∀ b ∈ n.console.input.bytes, Text.isBlankByte b = true := by
  induction items generalizing m blanks with
  | nil =>
    refine ⟨m, rfl, ?_⟩
    rw [hinput]
    simpa [linesOf] using hblanks
  | cons i items ih =>
    obtain ⟨left, hfirst, hleft⟩ := callBuiltin_reader (h i List.mem_cons_self) hblanks hinput
    have hfeed : ∀ b ∈ [Text.lineFeed], Text.isBlankByte b = true := by
      intro b hb
      rw [List.mem_singleton.1 hb]
      rfl
    obtain ⟨n, hrest, hn⟩ := ih (m := m.withInput left)
      (fun j hj => h j (List.mem_cons_of_mem _ hj)) hfeed hleft
    exact ⟨n, Run.each_cons_of_done hfirst hrest, hn⟩

end Printable

/-- What is printed is read back.  Let ints and strings be printed with `printi` and `prints`, where
no string has a backslash or a line feed or ends with a carriage return.  This succeeds on a sink
that takes everything.  Whenever it succeeds, what it wrote is read again from every input that has
these bytes: `inputline`, called once for each item, gives the texts in order and leaves nothing;
and if moreover no string is empty or has an ASCII blank, `inputi` and `inputs` give the items in
order and leave nothing but blanks. -/
theorem printed_read_back (steps : Nat) (items : List Printable)
    (h : ∀ s, .string s ∈ items → '\\' ∉ s.toList ∧ Text.IsLine s) :
    (∀ m : Machine, m.console.output.capacity = none →
      ∃ vs n, Printable.printAll (steps + 1) items m = .done vs n) ∧
    ∀ m vs n, Printable.printAll (steps + 1) items m = .done vs n →
      ∃ bytes, n.written = m.written ++ bytes ∧
        ∀ r : Machine, r.console.input.bytes = bytes →
          (∃ n, readAll (steps + 1) (items.map fun _ => .inputline) r =
              .done (items.map fun i => .string i.text) n ∧ n.console.input.bytes = []) ∧
          ((∀ s, .string s ∈ items → Text.IsWord s) →
            ∃ n, readAll (steps + 1) (items.map Printable.reader) r =
                .done (items.map Printable.value) n ∧
              ∀ b ∈ n.console.input.bytes, Text.isBlankByte b = true) := by
  have hescape : ∀ s, .string s ∈ items → '\\' ∉ s.toList := fun s hs => (h s hs).1
  refine ⟨fun m hm => Printable.printAll_of_unlimited hescape hm, fun m vs n hprint => ?_⟩
  refine ⟨Printable.linesOf items, Printable.written_of_printAll hescape hprint, ?_⟩
  intro r hr
  refine ⟨Printable.readAll_lines (Printable.isLine_text h) hr, fun hwords => ?_⟩
  have hinput : r.console.input.bytes = [] ++ Printable.linesOf items := hr
  exact Printable.readAll_words (Printable.isWord_text hwords) (by simp) hinput

/-- The least int and a word beyond ASCII. -/
theorem least_int_read_back :
    let items : List Printable := [.int Int64.minValue, .string "größe", .int 7]
    ∃ vs n, Printable.printAll 1 items (.initial ⟨⟨[]⟩, .unlimited⟩) = .done vs n ∧
      let r : Machine := .initial ⟨.ofBytes n.written, .unlimited⟩
      (∃ k, readAll 1 [.inputline, .inputline, .inputline] r =
        .done [.string "-9223372036854775808", .string "größe", .string "7"] k) ∧
      ∃ k, readAll 1 [.inputi, .inputs, .inputi] r =
        .done [.int Int64.minValue, .string "größe", .int 7] k := by
  intro items
  have hline : ∀ s, .string s ∈ items → '\\' ∉ s.toList ∧ Text.IsLine s := by
    intro s hs
    obtain rfl : s = "größe" := by simpa [items] using hs
    exact ⟨by decide, by decide⟩
  have hword : ∀ s, .string s ∈ items → Text.IsWord s := by
    intro s hs
    obtain rfl : s = "größe" := by simpa [items] using hs
    decide
  obtain ⟨hsucceeds, hback⟩ := printed_read_back 0 items hline
  obtain ⟨vs, n, hprint⟩ := hsucceeds (.initial ⟨⟨[]⟩, .unlimited⟩) rfl
  obtain ⟨bytes, hwritten, hread⟩ := hback _ _ _ hprint
  have hinput : (Source.ofBytes n.written).bytes = bytes :=
    (Source.bytes_ofBytes n.written).trans hwritten
  obtain ⟨⟨k, hlines, -⟩, hwords⟩ := hread (.initial ⟨.ofBytes n.written, .unlimited⟩) hinput
  obtain ⟨l, hvalues, -⟩ := hwords hword
  refine ⟨vs, n, hprint, ⟨k, ?_⟩, l, hvalues⟩
  have hleast : Decimal.ofInt64 Int64.minValue = "-9223372036854775808" := by decide +kernel
  have hseven : Decimal.ofInt64 7 = "7" := by decide +kernel
  rw [← hleast, ← hseven]
  exact hlines

end MiniC
