import Mathlib.Data.List.Nodup
import SparseTensor.Proofs.Grammar

/-!
# The grammar is unambiguous

A reader takes the tokens from left to right. What waits for more stands on a stack: left operands
with their operators, prefix minuses and open brackets. A token that cannot be a part of what is on
top settles it first (`settle`): what binds at least as tightly as the token is put together.

**Theorem (`Derives.unique`).** In a scope where all is well named, tokens stand for at most one
expression.

The reader finds that expression. The proof is an induction on the rules, with an invariant that
holds on every stack: after tokens that stand for `a` at some level, settling at that level leaves
the stack as it was before them, and `a` (`Derives.runs`). Nothing on the stack may bind so tightly
that it would take the beginning of `a` for itself (`OpenAt`).
-/

namespace SparseTensor

/-- What waits for more to come. -/
inductive Frame where
  | left (op : BinaryOp) (a : Expr)
  | neg
  | paren
  | sqrt
  | reduction (reducer : Reducer) (i : IndexVar)

/-- What was read last. -/
inductive Focus where
  /-- Nothing yet of the operand that has to come. -/
  | wanted
  /-- A word where an operand is wanted. -/
  | word (w : String)
  | found (a : Expr)
  /-- A tensor, a bracket and indices, each with its comma. -/
  | index (t : TensorVar) (indices : List IndexVar)
  /-- A tensor, a bracket and indices. -/
  | indexed (t : TensorVar) (indices : List IndexVar)
  /-- The name of a reduction and its bracket. -/
  | binder (reducer : Reducer)
  /-- The name of a reduction, its bracket and its variable. -/
  | bound (reducer : Reducer) (i : IndexVar)

namespace Frame

/-- How tightly what waits binds what comes. A bracket does not bind at all. -/
def strength : Frame → Nat
  | left op _ => op.binding.strength
  | neg => Binding.sign.strength
  | _ => 0

/-- What waits together with what comes. -/
def onto : Frame → Expr → Expr
  | left op a, b => .binary 0 op a b
  | neg, a => .unary 0 .neg a
  | _, a => a

end Frame

/-- Puts together what binds at least as tightly as `k`. -/
def settle (k : Nat) : List Frame → Expr → List Frame × Expr
  | [], a => ([], a)
  | f :: frames, a => if k ≤ f.strength then settle k frames (f.onto a) else (f :: frames, a)

/-- What a closing bracket makes of the expression in it. -/
def close : List Frame × Expr → Option (List Frame × Focus)
  | (.paren :: frames, a) => some (frames, .found a)
  | (.sqrt :: frames, a) => some (frames, .found (.unary 0 .sqrt a))
  | (.reduction reducer i :: frames, a) => some (frames, .found (.reduction 0 reducer i a))
  | _ => none

def reducerNamed (w : String) : Option Reducer :=
  if w = Reducer.sum.text then some .sum
  else if w = Reducer.product.text then some .product
  else none

namespace Scope

variable (S : Scope)

def tensor? (name : String) : Option TensorVar := S.tensors.find? fun t => t.name = name

def var? (name : String) : Option IndexVar := S.vars.find? fun i => i.name = name

/-- The operand that is complete, if there is one. -/
def operand? : Focus → Option Expr
  | .word w => (S.tensor? w).map fun t => .access ⟨0, t, []⟩
  | .found a => some a
  | _ => none

/-- What an opening bracket after a word begins. -/
def call (w : String) (frames : List Frame) : Option (List Frame × Focus) :=
  if w = "sqrt" then some (.sqrt :: frames, .wanted)
  else match reducerNamed w with
    | some reducer => some (frames, .binder reducer)
    | none => (S.tensor? w).map fun t => (frames, .index t [])

/-- Reads one token. -/
def step : List Frame × Focus → Token → Option (List Frame × Focus)
  | (frames, .wanted), .word w => some (frames, .word w)
  | (frames, .wanted), .op .sub => some (.neg :: frames, .wanted)
  | (frames, .wanted), .opening => some (.paren :: frames, .wanted)
  | (frames, .word w), .opening => S.call w frames
  | (frames, .index t indices), .word w =>
    (S.var? w).map fun i => (frames, .indexed t (indices ++ [i]))
  | (frames, .indexed t indices), .comma => some (frames, .index t indices)
  | (frames, .indexed t indices), .closing => some (frames, .found (.access ⟨0, t, indices⟩))
  | (frames, .binder reducer), .word w => (S.var? w).map fun i => (frames, .bound reducer i)
  | (frames, .bound reducer i), .comma => some (.reduction reducer i :: frames, .wanted)
  | (frames, focus), .op op =>
    (S.operand? focus).map fun a =>
      let settled := settle op.binding.strength frames a
      (.left op settled.2 :: settled.1, .wanted)
  | (frames, focus), .closing =>
    (S.operand? focus).bind fun a => close (settle Binding.sum.strength frames a)
  | _, _ => none

/-- Reads tokens from left to right. -/
def run (state : List Frame × Focus) (ts : List Token) : Option (List Frame × Focus) :=
  ts.foldlM S.step state

/-- The expression that the tokens stand for. -/
def read (ts : List Token) : Option Expr := do
  let (frames, focus) ← S.run ([], .wanted) ts
  let a ← S.operand? focus
  return (settle Binding.sum.strength frames a).2

end Scope

variable {S : Scope} {frames : List Frame} {a b : Expr} {j k : Nat} {l l' : Binding}
  {ts us : List Token}

/-! ## Settling -/

/-- Nothing on the stack would take the beginning of what is read at the level. A sign or an atom
may follow anything. -/
def OpenAt (l : Binding) (frames : List Frame) : Prop :=
  l.strength < Binding.sign.strength → ∀ f ∈ frames.head?, f.strength < l.strength

theorem settle_of_lt (h : ∀ f ∈ frames.head?, f.strength < k) (a : Expr) :
    settle k frames a = (frames, a) := by
  cases frames with
  | nil => rfl
  | cons f frames => rw [settle, if_neg (Nat.not_le.2 (h f rfl))]

theorem settle_of_le {f : Frame} (h : k ≤ f.strength) (a : Expr) :
    settle k (f :: frames) a = settle k frames (f.onto a) := if_pos h

theorem settle_settle (h : j ≤ k) (frames : List Frame) (a : Expr) :
    settle j (settle k frames a).1 (settle k frames a).2 = settle j frames a := by
  induction frames generalizing a with
  | nil => rfl
  | cons f frames ih =>
    by_cases hk : k ≤ f.strength
    · simp only [settle, if_pos hk, if_pos (Nat.le_trans h hk), ih]
    · simp only [settle, if_neg hk]

/-- Stacks that settle alike settle alike further. -/
theorem settle_congr {frames' : List Frame} (h : j ≤ k)
    (heq : settle k frames a = settle k frames' b) : settle j frames a = settle j frames' b := by
  rw [← settle_settle h frames a, heq, settle_settle h frames' b]

theorem OpenAt.mono (h : OpenAt l' frames) (hle : l'.strength ≤ l.strength) : OpenAt l frames :=
  fun hl f hf => Nat.lt_of_lt_of_le (h (Nat.lt_of_le_of_lt hle hl) f hf) hle

theorem strength_binding_lt (op : BinaryOp) : op.binding.strength < Binding.sign.strength := by
  cases op <;> decide

theorem strength_sum_le (l : Binding) : Binding.sum.strength ≤ l.strength := by
  cases l <;> decide

/-! ## Steps -/

section

variable {focus : Focus}

theorem run_cons (state : List Frame × Focus) (t : Token) (ts : List Token) :
    S.run state (t :: ts) = (S.step state t).bind fun state => S.run state ts := rfl

theorem run_append (state : List Frame × Focus) (ts us : List Token) :
    S.run state (ts ++ us) = (S.run state ts).bind fun state => S.run state us :=
  List.foldlM_append

theorem step_op (h : S.operand? focus = some a) (op : BinaryOp) :
    S.step (frames, focus) (.op op) =
      some (.left op (settle op.binding.strength frames a).2 ::
        (settle op.binding.strength frames a).1, .wanted) := by
  cases focus with
  | word w =>
    rw [Scope.step, h]
    · rfl
    · exact nofun
  | found b =>
    cases h
    rfl
  | wanted | index | indexed | binder | bound => cases h

theorem step_closing (h : S.operand? focus = some a) :
    S.step (frames, focus) .closing = close (settle Binding.sum.strength frames a) := by
  cases focus with
  | word w =>
    rw [Scope.step, h]
    · rfl
    · exact nofun
  | found b =>
    cases h
    rfl
  | wanted | index | indexed | binder | bound => cases h

end

theorem find?_name {α : Type} {name : α → String} {x : α} {xs : List α} (h : (xs.map name).Nodup)
    (hx : x ∈ xs) : xs.find? (fun y => name y = name x) = some x := by
  induction xs with
  | nil => cases hx
  | cons y ys ih =>
    rw [List.map_cons, List.nodup_cons] at h
    by_cases hy : name y = name x
    · rcases List.mem_cons.1 hx with rfl | hx
      · simp
      · exact absurd (List.mem_map.2 ⟨x, hx, hy.symm⟩) h.1
    · have hne : x ≠ y := fun hxy => hy (hxy ▸ rfl)
      rw [List.find?_cons_of_neg (by simpa using hy)]
      exact ih h.2 ((List.mem_cons.1 hx).resolve_left hne)

namespace Scope.WellNamed

variable (hS : S.WellNamed)
include hS

theorem tensor?_name {t : TensorVar} (ht : t ∈ S.tensors) : S.tensor? t.name = some t :=
  find?_name (List.nodup_append.1 hS.nodup).1 ht

theorem var?_name {i : IndexVar} (hi : i ∈ S.vars) : S.var? i.name = some i :=
  find?_name (List.nodup_append.1 hS.nodup).2.1 hi

/-- A tensor before a bracket begins a list of indices. -/
theorem call_name {t : TensorVar} (ht : t ∈ S.tensors) (frames : List Frame) :
    S.call t.name frames = some (frames, .index t []) := by
  have hname : t.name ∈ S.names := List.mem_append_left _ (List.mem_map_of_mem ht)
  have hreserved := hS.unreserved _ hname
  simp only [reservedWords, List.mem_cons, List.not_mem_nil, or_false, not_or] at hreserved
  rw [call, if_neg hreserved.1, reducerNamed, if_neg hreserved.2.1, if_neg hreserved.2.2,
    hS.tensor?_name ht]
  rfl

/-- A list of indices is read to its end. -/
theorem run_listTokens (frames : List Frame) (t : TensorVar) {i : IndexVar} (before : List IndexVar)
    {indices : List IndexVar} (hi : i ∈ S.vars) (h : ∀ j ∈ indices, j ∈ S.vars) :
    S.run (frames, .index t before) (listTokens (i :: indices)) =
      some (frames, .indexed t (before ++ i :: indices)) := by
  have hstep : S.step (frames, .index t before) (.word i.name) =
      some (frames, .indexed t (before ++ [i])) := by
    rw [step, hS.var?_name hi, Option.map_some]
  induction indices generalizing i before with
  | nil =>
    rw [listTokens, List.map_cons, List.map_nil, List.intersperse_singleton, run_cons, hstep]
    rfl
  | cons j indices ih =>
    rw [List.forall_mem_cons] at h
    have hrest := ih (before ++ [i]) h.1 h.2 (by rw [step, hS.var?_name h.1, Option.map_some])
    rw [listTokens, List.map_cons] at hrest
    rw [listTokens, List.map_cons, List.map_cons, List.intersperse_cons_cons, run_cons, hstep,
      Option.bind_some, run_cons]
    show S.run (frames, .index t (before ++ [i])) _ = _
    rw [hrest, List.append_assoc]
    rfl

end Scope.WellNamed

/-! ## Runs -/

/-- The reader comes from a stack to one that settles to the same stack and the expression. -/
def Runs (S : Scope) (l : Binding) (ts : List Token) (a : Expr) : Prop :=
  ∀ frames, OpenAt l frames → ∃ frames' focus a',
    S.run (frames, .wanted) ts = some (frames', focus) ∧ S.operand? focus = some a' ∧
      settle l.strength frames' a' = settle l.strength frames a

/-- An expression in brackets is read to its closing bracket. -/
theorem Runs.closing (h : Runs S .sum ts a) {f : Frame} (hf : f.strength = 0) :
    S.run (f :: frames, .wanted) (ts ++ [.closing]) = close (f :: frames, a) := by
  have hlt : ∀ g ∈ (f :: frames).head?, g.strength < Binding.sum.strength := by
    rintro g ⟨⟩
    rw [hf]
    decide
  obtain ⟨frames', focus, a', hrun, hfocus, hsettle⟩ := h (f :: frames) fun _ => hlt
  rw [run_append, hrun, Option.bind_some, run_cons, step_closing hfocus, hsettle,
    settle_of_lt hlt]
  cases close (f :: frames, a) <;> rfl

/-- **The reader follows the rules**, on every stack on which they can be followed. -/
theorem Scope.Derives.runs (hS : S.WellNamed) (h : S.Derives l ts a) : Runs S l ts a := by
  induction h with
  | tighter hle _ ih =>
    intro frames hopen
    obtain ⟨frames', focus, a', hrun, hfocus, hsettle⟩ := ih frames (hopen.mono hle)
    exact ⟨frames', focus, a', hrun, hfocus, settle_congr hle hsettle⟩
  | @binary op l ts us a b _ hlt _ iha ihb =>
    intro frames hopen
    obtain ⟨frames₁, focus₁, a', hrun, hfocus, hsettle⟩ := iha frames hopen
    rw [settle_of_lt (hopen (strength_binding_lt op))] at hsettle
    -- The operator settles the left operand, and the right one is read on top of both.
    have hopen' : OpenAt l (.left op a :: frames) := by
      rintro - f ⟨⟩
      exact hlt
    obtain ⟨frames₂, focus₂, b', hrun', hfocus', hsettle'⟩ := ihb _ hopen'
    refine ⟨frames₂, focus₂, b', ?_, hfocus', ?_⟩
    · rw [run_append, hrun, Option.bind_some, run_cons, step_op hfocus, hsettle, Option.bind_some,
        hrun']
    · exact (settle_congr (Nat.le_of_lt hlt) hsettle').trans
        (settle_of_le (f := .left op a) (Nat.le_refl _) b)
  | @neg ts a _ ih =>
    intro frames _
    have hopen : OpenAt .sign (.neg :: frames) := fun h => absurd h (Nat.lt_irrefl _)
    obtain ⟨frames', focus, a', hrun, hfocus, hsettle⟩ := ih _ hopen
    exact ⟨frames', focus, a', hrun, hfocus,
      hsettle.trans (settle_of_le (f := .neg) (Nat.le_refl _) a)⟩
  | parens _ ih =>
    intro frames _
    exact ⟨frames, _, _, ih.closing rfl, rfl, rfl⟩
  | sqrt _ ih =>
    intro frames _
    exact ⟨frames, _, _, ih.closing rfl, rfl, rfl⟩
  | @reduction reducer i ts a hi _ ih =>
    intro frames _
    refine ⟨frames, .found (.reduction 0 reducer i a), _, ?_, rfl, rfl⟩
    have hcall : S.step (frames, .word reducer.text) .opening = some (frames, .binder reducer) := by
      cases reducer <;> rfl
    have hbinder : S.step (frames, .binder reducer) (.word i.name) =
        some (frames, .bound reducer i) := by
      rw [step, hS.var?_name hi, Option.map_some]
    calc
      S.run (frames, .wanted) _ =
          S.run (frames, .binder reducer) (.word i.name :: .comma :: _) := by
        rw [run_cons]
        show S.run (frames, .word reducer.text) _ = _
        rw [run_cons, hcall, Option.bind_some]
      _ = S.run (.reduction reducer i :: frames, .wanted) (ts ++ [.closing]) := by
        rw [run_cons, hbinder, Option.bind_some]
        rfl
      _ = some (frames, .found (.reduction 0 reducer i a)) := ih.closing rfl
  | @scalar t ht =>
    intro frames _
    refine ⟨frames, .word t.name, _, rfl, ?_, rfl⟩
    rw [operand?, hS.tensor?_name ht, Option.map_some]
  | @access t indices ht hne hvars =>
    intro frames _
    refine ⟨frames, .found (.access ⟨0, t, indices⟩), _, ?_, rfl, rfl⟩
    cases indices with
    | nil => exact absurd rfl hne
    | cons i indices =>
      rw [List.forall_mem_cons] at hvars
      have hcall : S.step (frames, .word t.name) .opening = some (frames, .index t []) :=
        hS.call_name ht frames
      calc
        S.run (frames, .wanted) _ =
            S.run (frames, .index t []) (listTokens (i :: indices) ++ [.closing]) := by
          rw [run_cons]
          show S.run (frames, .word t.name) _ = _
          rw [run_cons, hcall, Option.bind_some]
        _ = S.run (frames, .indexed t (i :: indices)) [.closing] := by
          rw [run_append, hS.run_listTokens frames t [] hvars.1 hvars.2, Option.bind_some]
          rfl
        _ = some (frames, .found (.access ⟨0, t, i :: indices⟩)) := rfl

/-- **Tokens stand for at most one expression.** -/
theorem Scope.Derives.unique (hS : S.WellNamed) (ha : S.Derives .sum ts a)
    (hb : S.Derives .sum ts b) : a = b := by
  have hread : ∀ {e}, S.Derives .sum ts e → S.read ts = some e := by
    intro e he
    obtain ⟨frames, focus, e', hrun, hfocus, hsettle⟩ := he.runs hS [] fun _ f hf => by cases hf
    simp only [read, hrun, hfocus, Option.bind_eq_bind, Option.bind_some, hsettle]
    rfl
  exact Option.some.inj ((hread ha).symm.trans (hread hb))

end SparseTensor
