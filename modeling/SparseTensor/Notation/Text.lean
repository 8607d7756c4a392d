import SparseTensor.Notation.Stmt
import SparseTensor.Value.Text

/-!
# Texts of index notation

Expressions are written as arithmetic with the parentheses that the tree needs and no others, when
operators of one level group to the left. Statements are written like calls.
-/

namespace SparseTensor

/-- How tightly the root of an expression binds. -/
inductive Binding where
  | sum | product | sign | atom
  deriving DecidableEq

namespace Binding

def strength : Binding → Nat
  | sum => 1
  | product => 2
  | sign => 3
  | atom => 4

end Binding

namespace BinaryOp

def binding : BinaryOp → Binding
  | add | sub => .sum
  | mul | div => .product

/-- The name of a node with the operator. -/
def text : BinaryOp → String
  | add => "add"
  | sub => "sub"
  | mul => "mul"
  | div => "div"

/-- Whether a right operand that binds as tightly as the operator has to be enclosed: with `-` and
`/`, regrouping to the left would change the tree's value. -/
def enclosesRight : BinaryOp → Bool
  | sub | div => true
  | add | mul => false

end BinaryOp

def UnaryOp.text : UnaryOp → String
  | neg => "neg"
  | sqrt => "sqrt"

def Grouping.text : Grouping → String
  | multi => "multi"
  | sequence => "sequence"

/-- The tensor alone if there are no indices. -/
def Access.text (a : Access) : String :=
  if a.indices.isEmpty then a.tensor.name
  else a.tensor.name ++ "(" ++ ",".intercalate (a.indices.map IndexVar.name) ++ ")"

namespace Expr

def binding : Expr → Binding
  | binary _ op _ _ => op.binding
  | unary _ .neg _ => .sign
  | _ => .atom

/-- A text, enclosed in parentheses or not. -/
def enclosed (parens : Bool) (text : String) : String := if parens then "(" ++ text ++ ")" else text

def text : Expr → String
  | undefined => "undefined"
  | access a => a.text
  | literal _ v => v.text
  | unary _ .neg a => "-" ++ enclosed (decide (a.binding.strength < Binding.sign.strength)) a.text
  | unary _ .sqrt a => "sqrt(" ++ a.text ++ ")"
  | binary _ op a b =>
    let level := op.binding.strength
    enclosed (decide (a.binding.strength < level)) a.text ++ " " ++ op.symbol ++ " "
      ++ enclosed (decide (b.binding.strength < level)
        || (op.enclosesRight && decide (b.binding.strength = level))) b.text
  | reduction _ r i a => r.text ++ "(" ++ i.name ++ ", " ++ a.text ++ ")"

/-- The name of the kind of node. -/
def kindText : Expr → String
  | undefined => "undefined"
  | access _ => "access"
  | literal _ _ => "literal"
  | unary _ op _ => op.text
  | binary _ op _ _ => op.text
  | reduction .. => "reduction"

end Expr

namespace Stmt

mutual

def text : Stmt → String
  | undefined => "undefined"
  | assign _ target value none => target.text ++ " = " ++ value.text
  | assign _ target value (some op) => target.text ++ " " ++ op.symbol ++ "= " ++ value.text
  | forAll _ i body => "forall(" ++ i.name ++ ", " ++ body.text ++ ")"
  | staged _ consumer producer => "where(" ++ consumer.text ++ ", " ++ producer.text ++ ")"
  | group _ grouping members => grouping.text ++ "(" ++ ", ".intercalate (texts members) ++ ")"

def texts : List Stmt → List String
  | [] => []
  | s :: ss => s.text :: texts ss

end

/-- The name of the kind of node. -/
def kindText : Stmt → String
  | undefined => "undefined"
  | assign .. => "assignment"
  | forAll .. => "forall"
  | staged .. => "where"
  | group _ grouping _ => grouping.text

end Stmt

end SparseTensor
