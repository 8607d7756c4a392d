import SparseTensor.Notation.Text

/-!
# The log of transformations

Substitutions and pipelines say what they do. Each event is one line of the log.
-/

namespace SparseTensor

inductive TransformEvent where
  | exprReplaced (e : Expr)
  | stmtReplaced (s : Stmt)
  | targetReplaced (target : Access)
  | passStarted (name : String)
  /-- The pass gave back the statement that it was given. -/
  | passKept (name : String)
  | passChanged (name : String) (s : Stmt)

def TransformEvent.line : TransformEvent → String
  | exprReplaced e => s!"TRACE Substituting expression {e.text}"
  | stmtReplaced s => s!"TRACE Substituting statement {s.text}"
  | targetReplaced target => s!"TRACE Substituting assignment target {target.text}"
  | passStarted name => s!"DEBUG Running rewrite pass: {name}"
  | passKept name => "TRACE Pass '" ++ name ++ "' made no changes"
  | passChanged name s => "DEBUG Pass '" ++ name ++ "' rewrote the statement to " ++ s.text

end SparseTensor
