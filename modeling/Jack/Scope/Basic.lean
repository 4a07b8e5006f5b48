import Jack.Scope.SymbolTable
import Jack.Vm.Instruction

/-!
# Scopes

What a statement can see: the class it belongs to, the subroutine that holds it, and the variables
of both. A name declared in the subroutine hides the same name of the class.
-/

namespace Jack

/-- The head of a subroutine declaration. -/
structure Signature where
  kind : SubroutineKind
  returnType : String
  name : String
deriving DecidableEq, Repr, Inhabited

/-- The memory cell of a variable. -/
structure Slot where
  segment : Vm.Segment
  index : Nat
deriving DecidableEq, Repr, Inhabited

/-- The names that the statements of one subroutine can use. -/
structure Scope where
  className : String
  classTable : SymbolTable
  signature : Signature
  subroutineTable : SymbolTable
deriving Inhabited

/-- Whether nothing but zero is ever returned. -/
def Signature.isVoid (signature : Signature) : Bool := signature.returnType == "void"

/-- The memory cell that holds a symbol. -/
def Symbol.slot (symbol : Symbol) : Slot := ⟨.ofStorage symbol.kind, symbol.index⟩

namespace Scope

/-- The symbol that a name stands for, looked up in the subroutine before the class. -/
def lookup? (scope : Scope) (name : String) : Option Symbol :=
  match scope.subroutineTable.get? name with
  | some symbol => some symbol
  | none => scope.classTable.get? name

/-- The written name of a subroutine of the class. -/
def qualify (scope : Scope) (subroutine : String) : String := scope.className ++ "." ++ subroutine

end Scope

end Jack
