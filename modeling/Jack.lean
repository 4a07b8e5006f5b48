import Jack.Lexicon.Vocabulary
import Jack.Lexicon.NodeKind
import Jack.Lexicon.Operator
import Jack.Lexicon.Declaration
import Jack.Lexicon.Punctuation
import Jack.Text.Blank
import Jack.Text.Numeral
import Jack.Json.Basic
import Jack.Tree.Basic
import Jack.Tree.Position
import Jack.Tree.Cursor
import Jack.Tree.Padding
import Jack.Tree.Error
import Jack.Tree.Assembly
import Jack.Tree.Layout
import Jack.Tree.Dump
import Jack.Vm.Instruction
import Jack.Vm.Code
import Jack.Vm.Label
import Jack.Scope.SymbolTable
import Jack.Scope.Basic
import Jack.Compiler.Fault
import Jack.Compiler.Notice
import Jack.Compiler.Idiom
import Jack.Compiler.Basic
import Jack.Compiler.Expression
import Jack.Compiler.Statement
import Jack.Compiler.Declaration
import Jack.Compiler.ClassCode
import Jack.Error
import Jack.Program
import Jack.Proofs.Grammar.Basic
import Jack.Proofs.Vm.Structured
import Jack.Proofs.Grammar.Translation
import Jack.Proofs.Compiler.Run
import Jack.Proofs.Compiler.Expression
import Jack.Proofs.Compiler.Statement
import Jack.Proofs.Compiler.Declaration
import Jack.Proofs.Grammar.Layout
import Jack.Proofs.Compiler.ClassCode
import Jack.Proofs.Compiler.Reading
import Jack.Proofs.Compiler.Soundness
import Jack.Proofs.Vm.Height
import Jack.Proofs.Vm.Place
import Jack.Proofs.Compiler.Stack
import Jack.Proofs.Vm.Label
import Jack.Proofs.Vm.Relabel
import Jack.Proofs.Program
import Jack.Proofs.Vm.Machine
import Jack.Proofs.Vm.Evaluation
import Jack.Proofs.Grammar.Semantics
import Jack.Proofs.Grammar.Meaning
import Jack.Proofs.Grammar.Simulation
import Jack.Proofs.Compiler.Meaning
import Jack.Proofs.Scope.Symbols
import Jack.Proofs.Vm.Access
import Jack.Proofs.Grammar.Uses
import Jack.Proofs.Grammar.Variables
import Jack.Proofs.Compiler.Slots
import Jack.Proofs.Compiler.Constants
import Jack.Proofs.Compiler.Parallel
import Jack.Proofs.Compiler.Uniform
import Jack.Proofs.Compiler.Supplies
import Jack.Proofs.Program.Sequence
import Jack.Proofs.Tree.Assembly
import Jack.Proofs.Tree.Dump
import Jack.Proofs.Tree.Blame
import Jack.Proofs.Grammar.Boundary
import Jack.Proofs.Compiler.Lockstep
import Jack.Proofs.Compiler.Lockstep.Procedure
import Jack.Proofs.Compiler.Routines
import Jack.Proofs.Compiler.Independence
import Jack.Proofs.Tree.Padding
import Jack.Proofs.Scope.Calls
import Jack.Proofs.Text.Reading
import Jack.Proofs.Vm.Text
import Jack.Proofs.Grammar.Names
import Jack.Proofs.Program.Text
import Jack.Proofs.Compiler.Local
import Jack.Proofs.Compiler.Local.Procedure
import Jack.Proofs.Compiler.FaultSite
import Jack.Proofs.Vm.Functions
import Jack.Proofs.Grammar.Value
import Jack.Proofs.Compiler.Evaluation
import Jack.Proofs.Grammar.Calls
import Jack.Proofs.Grammar.CallSites
import Jack.Proofs.Grammar.Passing
import Jack.Proofs.Compiler.Calls
import Jack.Proofs.Grammar.Terms
import Jack.Proofs.Compiler.Truncation
import Jack.Proofs.Compiler.Truncation.Procedure
import Jack.Proofs.Compiler.Prefix
import Jack.Proofs.Compiler.Literal
import Jack.Proofs.Scope.Count
import Jack.Proofs.Compiler.Progress
import Jack.Proofs.Compiler.Awaiting
import Jack.Proofs.Compiler.Ending
import Jack.Proofs.Compiler.Arrival
import Jack.Proofs.Compiler.Counts
