import SparseTensor.Notation.Text

/-!
# The grammar of expressions

How a text is read as arithmetic. A text is cut into words and symbols (`scan`), and what these may
stand for is said by the rules of `Scope.Derives`:

    sum     ::=  product  |  sum + product  |  sum - product
    product ::=  sign  |  product * sign  |  product / sign
    sign    ::=  atom  |  - sign
    atom    ::=  (sum)  |  sqrt(sum)  |  sum(v, sum)  |  product(v, sum)  |  T  |  T(v, ..., v)

So `*` and `/` bind tighter than `+` and `-`, a prefix minus binds tighter than all four, and
operators of one level group to the left. A scope says which words are names of tensors and which
are names of index variables.
-/

namespace SparseTensor

/-! ## Words and symbols -/

inductive Token where
  | word (w : String)
  | op (op : BinaryOp)
  | opening
  | closing
  | comma
  deriving DecidableEq

/-- The tokens for a character that is not part of a word: none for a blank. -/
def symbol? : Char → Option (List Token)
  | ' ' => some []
  | '+' => some [.op .add]
  | '-' => some [.op .sub]
  | '*' => some [.op .mul]
  | '/' => some [.op .div]
  | '(' => some [.opening]
  | ')' => some [.closing]
  | ',' => some [.comma]
  | _ => none

/-- The word that is complete, if one was begun. -/
def wordTokens (word : List Char) : List Token :=
  if word.isEmpty then [] else [.word (String.ofList word)]

/-- The tokens of a text, of which the word before it is not yet complete. -/
def scan (word : List Char) : List Char → List Token
  | [] => wordTokens word
  | c :: cs =>
    match symbol? c with
    | none => scan (word ++ [c]) cs
    | some ts => wordTokens word ++ ts ++ scan [] cs

/-! ## Names -/

/-- A name that is read as one word. Every identifier is one. -/
def IsWord (name : String) : Prop := name.toList ≠ [] ∧ ∀ c ∈ name.toList, symbol? c = none

instance (name : String) : Decidable (IsWord name) :=
  -- The characters of the name are looked at, not all characters there are.
  haveI : Decidable (∀ c ∈ name.toList, symbol? c = none) := List.decidableBAll _ _
  inferInstanceAs (Decidable (_ ∧ _))

/-- The words with a meaning of their own. -/
def reservedWords : List String := ["sqrt", Reducer.sum.text, Reducer.product.text]

/-- The tensors and index variables that a text may speak of. -/
structure Scope where
  tensors : List TensorVar
  vars : List IndexVar

namespace Scope

def names (S : Scope) : List String := S.tensors.map TensorVar.name ++ S.vars.map IndexVar.name

/-- Names are words that are not reserved, and no two things have the same name. -/
structure WellNamed (S : Scope) : Prop where
  isWord : ∀ name ∈ S.names, IsWord name
  unreserved : ∀ name ∈ S.names, name ∉ reservedWords
  nodup : S.names.Nodup

end Scope

/-- Whether the expression speaks of the tensors and variables of the scope only, and has neither a
literal nor anything undefined in it. -/
def Expr.WrittenIn (S : Scope) : Expr → Prop
  | .undefined | .literal _ _ => False
  | .access a => a.tensor ∈ S.tensors ∧ ∀ i ∈ a.indices, i ∈ S.vars
  | .unary _ _ a => a.WrittenIn S
  | .binary _ _ a b => a.WrittenIn S ∧ b.WrittenIn S
  | .reduction _ _ i a => i ∈ S.vars ∧ a.WrittenIn S

/-! ## The rules -/

/-- The names of index variables with commas between them. -/
def listTokens (indices : List IndexVar) : List Token :=
  (indices.map fun i => Token.word i.name).intersperse .comma

/-- The tokens stand for the expression and bind as tightly as the level says. The nodes of what is
read have no identities yet: all are 0. -/
inductive Scope.Derives (S : Scope) : Binding → List Token → Expr → Prop
  /-- What binds tighter may stand where less is wanted. -/
  | tighter {l l' : Binding} {ts : List Token} {a : Expr} :
      l'.strength ≤ l.strength → S.Derives l ts a → S.Derives l' ts a
  /-- The left operand may be of the operator's own level, the right one binds tighter. -/
  | binary {op : BinaryOp} {l : Binding} {ts us : List Token} {a b : Expr} :
      S.Derives op.binding ts a → op.binding.strength < l.strength → S.Derives l us b →
        S.Derives op.binding (ts ++ .op op :: us) (.binary 0 op a b)
  | neg {ts : List Token} {a : Expr} :
      S.Derives .sign ts a → S.Derives .sign (.op .sub :: ts) (.unary 0 .neg a)
  | parens {ts : List Token} {a : Expr} :
      S.Derives .sum ts a → S.Derives .atom (.opening :: (ts ++ [.closing])) a
  | sqrt {ts : List Token} {a : Expr} : S.Derives .sum ts a →
      S.Derives .atom (.word "sqrt" :: .opening :: (ts ++ [.closing])) (.unary 0 .sqrt a)
  | reduction {reducer : Reducer} {i : IndexVar} {ts : List Token} {a : Expr} :
      i ∈ S.vars → S.Derives .sum ts a →
        S.Derives .atom
          (.word reducer.text :: .opening :: .word i.name :: .comma :: (ts ++ [.closing]))
          (.reduction 0 reducer i a)
  | scalar {t : TensorVar} : t ∈ S.tensors → S.Derives .atom [.word t.name] (.access ⟨0, t, []⟩)
  | access {t : TensorVar} {indices : List IndexVar} :
      t ∈ S.tensors → indices ≠ [] → (∀ i ∈ indices, i ∈ S.vars) →
        S.Derives .atom (.word t.name :: .opening :: (listTokens indices ++ [.closing]))
          (.access ⟨0, t, indices⟩)

/-- The text can be read as the expression. -/
def Scope.Reads (S : Scope) (text : String) (e : Expr) : Prop :=
  S.Derives .sum (scan [] text.toList) e

end SparseTensor
