import Jack.Lexicon.Vocabulary
import Jack.Proofs.Text.Reading
import Jack.Vm.Code

/-!
# Reading VM text

The text of code can be read back. The first word of a line tells the form of the instruction, and
where a number is written it is what comes after the last space, so a name may contain spaces and
digits. Only a line feed in a name would be taken for the end of the line.
-/

namespace Jack.Vm

open Text (OneLine joinLines lines?)

/-! ## Instructions -/

/-- The segment with a name. -/
def Segment.ofName? (s : String) : Option Segment := lookUp? all name s

theorem Segment.ofName?_name (segment : Segment) : ofName? segment.name = some segment :=
  (lookUp?_eq_some_iff (by decide)).2 ⟨by cases segment <;> decide, rfl⟩

/-- The command with a name. -/
def Arithmetic.ofName? (s : String) : Option Arithmetic := lookUp? all name s

theorem Arithmetic.ofName?_name (op : Arithmetic) : ofName? op.name = some op :=
  (lookUp?_eq_some_iff (by decide)).2 ⟨by cases op <;> decide, rfl⟩

/-- What comes before the last space, and the number after it. -/
def numbered? (cs : List Char) : Option (String × Nat) :=
  match cs.reverse.span (· != ' ') with
  | (digits, _ :: name) =>
    (Text.digits? digits.reverse).map fun n => (String.ofList name.reverse, n)
  | (_, []) => none

namespace Instruction

/-- The instruction whose line begins with a word and a space. -/
def ofOperand? (word : String) (operand : List Char) : Option Instruction :=
  match word with
  | "push" => do
    let (name, n) ← numbered? operand
    return .push (← Segment.ofName? name) n
  | "pop" => do
    let (name, n) ← numbered? operand
    return .pop (← Segment.ofName? name) n
  | "label" => some (.label (String.ofList operand))
  | "goto" => some (.goto (String.ofList operand))
  | "if-goto" => some (.ifGoto (String.ofList operand))
  | "function" => do
    let (name, n) ← numbered? operand
    return .function name n
  | "call" => do
    let (name, n) ← numbered? operand
    return .call name n
  | _ => none

/-- The instruction that a line writes. -/
def ofText? (line : String) : Option Instruction :=
  match line.toList.span (· != ' ') with
  | (word, _ :: operand) => ofOperand? (String.ofList word) operand
  | (word, []) =>
    let word := String.ofList word
    if word = "return" then some .ret else (Arithmetic.ofName? word).map .arithmetic

end Instruction

theorem numbered?_append (name : String) (n : Nat) :
    numbered? (name ++ " " ++ n.repr).toList = some (name, n) := by
  -- No digit is a space, so the last space is the one in front of the number.
  have hdigits : ' ' ∉ n.repr.toList.reverse := fun h => by
    cases Text.isDigit_of_mem_repr (List.mem_reverse.1 h)
  have hreverse : (name ++ " " ++ n.repr).toList.reverse =
      n.repr.toList.reverse ++ ' ' :: name.toList.reverse := by
    simp only [String.toList_append, List.reverse_append]
    rfl
  rw [numbered?, hreverse, Text.span_append hdigits]
  simp only [List.reverse_reverse, Text.digits?_repr, Option.map_some, String.ofList_toList]

namespace Instruction

theorem ofText?_of_toList_eq {line : String} (word operand : String) (hword : ' ' ∉ word.toList)
    (hline : line.toList = word.toList ++ ' ' :: operand.toList) :
    ofText? line = ofOperand? word operand.toList := by
  rw [ofText?, hline, Text.span_append hword]
  simp only [String.ofList_toList]

theorem ofText?_word {word : String} (h : ' ' ∉ word.toList) :
    ofText? word =
      if word = "return" then some .ret else (Arithmetic.ofName? word).map .arithmetic := by
  rw [ofText?, Text.span_of_notMem h]
  simp only [String.ofList_toList]

/-- The line of an instruction says which instruction it is, whatever names it holds. -/
theorem ofText?_text (i : Instruction) : ofText? i.text = some i := by
  cases i with
  | push segment index =>
    rw [ofText?_of_toList_eq "push" (segment.name ++ " " ++ index.repr)
      (by decide) (by simp [text])]
    simp only [ofOperand?, numbered?_append, Segment.ofName?_name, Option.bind_eq_bind,
      Option.bind_some, pure]
  | pop segment index =>
    rw [ofText?_of_toList_eq "pop" (segment.name ++ " " ++ index.repr)
      (by decide) (by simp [text])]
    simp only [ofOperand?, numbered?_append, Segment.ofName?_name, Option.bind_eq_bind,
      Option.bind_some, pure]
  | arithmetic op =>
    -- A line of one word is a command unless it is the one that returns.
    have hword : ' ' ∉ op.name.toList ∧ op.name ≠ "return" := by
      cases op <;> decide
    rw [text, ofText?_word hword.1, if_neg hword.2, Arithmetic.ofName?_name]
    rfl
  | label name =>
    rw [ofText?_of_toList_eq "label" name (by decide) (by simp [text])]
    simp only [ofOperand?, String.ofList_toList]
  | goto name =>
    rw [ofText?_of_toList_eq "goto" name (by decide) (by simp [text])]
    simp only [ofOperand?, String.ofList_toList]
  | ifGoto name =>
    rw [ofText?_of_toList_eq "if-goto" name (by decide) (by simp [text])]
    simp only [ofOperand?, String.ofList_toList]
  | function name locals =>
    rw [ofText?_of_toList_eq "function" (name ++ " " ++ locals.repr)
      (by decide) (by simp [text])]
    simp only [ofOperand?, numbered?_append, Option.bind_eq_bind, Option.bind_some, pure]
  | call name args =>
    rw [ofText?_of_toList_eq "call" (name ++ " " ++ args.repr)
      (by decide) (by simp [text])]
    simp only [ofOperand?, numbered?_append, Option.bind_eq_bind, Option.bind_some, pure]
  | ret => rfl

end Instruction

/-! ## Code -/

namespace Instruction

/-- An instruction that writes no name with a line feed. -/
def Legible : Instruction → Prop
  | label name | goto name | ifGoto name | function name _ | call name _ => OneLine name
  | push .. | pop .. | arithmetic _ | ret => True

/-- A legible instruction is written in one line. -/
theorem Legible.oneLine {i : Instruction} (h : i.Legible) : OneLine i.text := by
  have hspace : OneLine " " := by decide
  cases i with
  | push segment index =>
    have hsegment : OneLine ("push " ++ segment.name) := by cases segment <;> decide
    exact Text.oneLine_append.2 ⟨Text.oneLine_append.2 ⟨hsegment, hspace⟩, Text.oneLine_repr index⟩
  | pop segment index =>
    have hsegment : OneLine ("pop " ++ segment.name) := by cases segment <;> decide
    exact Text.oneLine_append.2 ⟨Text.oneLine_append.2 ⟨hsegment, hspace⟩, Text.oneLine_repr index⟩
  | arithmetic op => cases op <;> decide
  | label name | goto name | ifGoto name => exact Text.oneLine_append.2 ⟨by decide, h⟩
  | function name n | call name n =>
    exact Text.oneLine_append.2 ⟨Text.oneLine_append.2 ⟨Text.oneLine_append.2 ⟨by decide, h⟩,
      hspace⟩, Text.oneLine_repr n⟩
  | ret => decide

end Instruction

/-- The instructions that a text writes, one in each line. -/
def instructionsOf? (text : String) : Option (List Instruction) := do
  (← lines? text).mapM Instruction.ofText?

/-- Instructions that are written one after the other can be read back. -/
theorem lines?_texts {is : List Instruction} (h : ∀ i ∈ is, i.Legible) :
    lines? (joinLines (is.map Instruction.text)) = some (is.map Instruction.text) := by
  apply Text.lines?_joinLines
  intro line hline
  obtain ⟨i, hi, rfl⟩ := List.mem_map.1 hline
  exact (h i hi).oneLine

theorem instructionsOf?_texts {is : List Instruction} (h : ∀ i ∈ is, i.Legible) :
    instructionsOf? (joinLines (is.map Instruction.text)) = some is := by
  have hread : Instruction.ofText? ∘ Instruction.text = some := funext Instruction.ofText?_text
  rw [instructionsOf?, lines?_texts h, Option.bind_eq_bind, Option.bind_some, List.mapM_map, hread]
  exact (List.mapM_pure (f := id)).trans (congrArg some (List.map_id is))

theorem Code.toList_lines (code : Code) :
    code.lines.toList = code.toList.map Instruction.text := Array.toList_map

theorem Code.text_eq (code : Code) : code.text = joinLines code.lines.toList := by
  rw [text, ← Array.foldl_toList, joinLines, toList_lines, List.map_map, String.join,
    List.foldl_map]
  simp only [Function.comp_apply, String.append_assoc]
  rfl

/-- A sink that keeps what it is given has the text in the end. -/
theorem Code.run_writeTo (code : Code) (written : String) :
    (code.writeTo fun line => modify (· ++ line) : StateM String Unit).run written =
      ((), written ++ code.text) := by
  rw [text_eq, toList_lines, writeTo]
  induction code.toList generalizing written with
  | nil => exact congrArg ((), ·) String.append_empty.symm
  | cons i is ih =>
    have hline : joinLines ((i :: is).map Instruction.text) =
        i.text ++ "\n" ++ joinLines (is.map Instruction.text) := String.join_cons
    rw [hline, ← String.append_assoc]
    exact ih (written ++ (i.text ++ "\n"))

end Jack.Vm
