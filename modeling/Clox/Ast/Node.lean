import Mathlib.Data.Nat.Notation

/-! # Syntax trees

The trees `parser.c` hands to the compiler (`nodes.h`), one constructor for
each node kind, with the children and the token texts the compiler reads.
Token positions, which only messages and the debugger use, are left out.
-/

namespace Clox

/-- `LITERAL_EXPR`, by its token; a number keeps its lexeme. -/
inductive Literal where
  | number (numStr : String)
  | regex (str : String)
  | string (str : String) (isStatic : Bool)
  | true
  | false
  | nil
deriving DecidableEq, Repr

/-- The tokens `emitBinaryOp` accepts. -/
inductive BinaryTok where
  | plus | minus | star | slash | percent
  | less | lessEqual | greater | greaterEqual | equalEqual | bangEqual
  | pipe | amp | caret | shovelL | shovelR
deriving DecidableEq, Repr

inductive LogicalTok where
  | and | or
deriving DecidableEq, Repr

inductive UnaryTok where
  | minus | bang
deriving DecidableEq, Repr

/-- `PARAM_NODE_REGULAR` and so on. -/
inductive ParamKind where
  | regular | defaultArg | kwarg | splat | block
deriving DecidableEq, Repr

/-- The node kinds with parameters and a body. -/
inductive FunctionKind where
  | function | method | classMethod | getter | setter | anon
deriving DecidableEq, Repr

inductive Node where
  /-- `STMTLIST_STMT` -/
  | stmtList (children : List Node)
  | grouping (expr : Node)
  | exprStmt (expr : Node)
  | binary (tok : BinaryTok) (lhs rhs : Node)
  /-- `name tok= rhs`; the left side of a `BINARY_ASSIGN_EXPR` is a `VARIABLE_EXPR`. -/
  | binaryAssign (tok : BinaryTok) (name : String) (rhs : Node)
  | logical (tok : LogicalTok) (lhs rhs : Node)
  | unary (tok : UnaryTok) (expr : Node)
  | literal (lit : Literal)
  | array (children : List Node)
  | map (children : List Node)
  | indexGet (obj index : Node)
  | indexSet (obj index rval : Node)
  | variable (name : String)
  | constant (name : String)
  | constantLookup (under : Option Node) (name : String)
  /-- `ASSIGN_EXPR` to a `VARIABLE_EXPR`. -/
  | assign (name : String) (rval : Node)
  /-- `ASSIGN_EXPR` to a `CONSTANT_EXPR`. -/
  | assignConstant (name : String) (rval : Node)
  | call (nameTok : String) (lhs : Node) (args : List Node)
  /-- `CALL_BLOCK_EXPR`: the call, then the parameters and body of the block. -/
  | callBlock (nameTok : String) (lhs : Node) (args params : List Node) (body : Node)
  | toBlock (expr : Node)
  | propAccess (obj : Node) (name : String)
  | propSet (obj : Node) (name : String) (rval : Node)
  | propSetBinop (tok : BinaryTok) (obj : Node) (name : String) (rval : Node)
  | this
  | super (name : String)
  | splat (expr : Node)
  | kwargInCall (name : String) (expr : Node)
  | print (expr : Node)
  /-- `var name, more.. = init;` -/
  | var (name : String) (more : List String) (init : Option Node)
  | block (children : List Node)
  | ifStmt (cond thenBranch : Node) (elseBranch : Option Node)
  | whileStmt (cond body : Node)
  | forStmt (init test incr : Option Node) (body : Node)
  | foreachStmt (vars : List String) (iter body : Node)
  | continueStmt
  | breakStmt
  | param (kind : ParamKind) (name : String) (children : List Node)
  | function (kind : FunctionKind) (name : String) (params : List Node) (body : Node)
  | returnStmt (expr : Option Node)
  | classStmt (name : String) (superClass : Option String) (body : Node)
  | moduleStmt (name : String) (body : Node)
  | inStmt (expr body : Node)
  | tryStmt (block : Node) (clauses : List Node)
  /-- `catch (A::B::C var)`: the class constant from its last name to its first. -/
  | catchStmt (className : List String) (var : Option String) (block : Node)
  | tryElse (block : Node)
  | ensure (block : Node)
  | throw (expr : Node)

end Clox
