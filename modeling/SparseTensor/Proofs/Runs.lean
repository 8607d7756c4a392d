import SparseTensor.Transform.Traversal

/-!
# Runs of transformations

A transformation runs over a state and a supply of identities, and may fail. `Yields` says that a
run succeeds, and with what. Runs that succeed compose.
-/

namespace SparseTensor

variable {σ α β : Type}

/-- From the state `st` and the supply `n`, the transformation succeeds with `a` and leaves `st'`
and `n'`. -/
def Yields (x : TransformM σ α) (st : σ) (n : NodeId) (a : α) (st' : σ) (n' : NodeId) : Prop :=
  (x.run.run st).run n = ((.ok a, st'), n')

namespace Yields

variable {x : TransformM σ α} {f : α → TransformM σ β} {st st' st'' : σ} {n n' n'' : NodeId}
  {a : α} {b : β}

theorem pure (a : α) : Yields (Pure.pure a : TransformM σ α) st n a st n := rfl

theorem bind (hx : Yields x st n a st' n') (hf : Yields (f a) st' n' b st'' n'') :
    Yields (x >>= f) st n b st'' n'' := by
  rw [Yields] at hx hf ⊢
  rw [ExceptT.run_bind, StateT.run_bind, StateT.run_bind, hx]
  exact hf

/-- A supply of identities gives the next one. -/
theorem fresh : Yields (liftM SparseTensor.fresh : TransformM σ NodeId) st n n st (n + 1) := rfl

/-- A computation that only makes nodes leaves the state alone. -/
theorem lift {x : Fresh α} (h : x.run n = (a, n')) :
    Yields (liftM x : TransformM σ α) st n a st n' :=
  congrArg (fun p : α × NodeId => ((Except.ok p.1, st), p.2)) h

/-! ## Walking on -/

/-- A node stays if its children are given back, and is built anew otherwise. -/
theorem rebuild (same : Bool) (self : α) (build : NodeId → α) :
    Yields (do if same then return self else return build (← SparseTensor.fresh) : TransformM σ α)
      st n (if same then self else build n) st (if same then n else n + 1) := by
  by_cases hsame : same = true
  · simp only [if_pos hsame]
    exact .pure self
  · simp only [if_neg hsame]
    exact fresh.bind (.pure _)

section

variable {self new new' : Expr} {c c' : Child σ Expr}

theorem unary (op : UnaryOp) (h : Yields c.visit st n new st' n') :
    Yields (Walk.unary self op c) st n (if new.same c.old then self else .unary n' op new) st'
      (if new.same c.old then n' else n' + 1) :=
  h.bind (rebuild _ self fun k => .unary k op new)

theorem binary (op : BinaryOp) (ha : Yields c.visit st n new st' n')
    (hb : Yields c'.visit st' n' new' st'' n'') :
    Yields (Walk.binary self op c c') st n
      (if new.same c.old && new'.same c'.old then self else .binary n'' op new new') st''
      (if new.same c.old && new'.same c'.old then n'' else n'' + 1) :=
  ha.bind (hb.bind (rebuild _ self fun k => .binary k op new new'))

theorem reduction (reducer : Reducer) (i : IndexVar) (h : Yields c.visit st n new st' n') :
    Yields (Walk.reduction self reducer i c) st n
      (if new.same c.old then self else .reduction n' reducer i new) st'
      (if new.same c.old then n' else n' + 1) :=
  h.bind (rebuild _ self fun k => .reduction k reducer i new)

/-- An assignment is built anew if what takes the place of its target is an access. -/
theorem assign {self : Stmt} {a : Access} (op : Option BinaryOp)
    (ht : Yields c.visit st n (.access a) st' n') (hv : Yields c'.visit st' n' new' st'' n'') :
    Yields (Walk.assign self op c c') st n
      (if (Expr.access a).same c.old && new'.same c'.old then self else .assign n'' a new' op) st''
      (if (Expr.access a).same c.old && new'.same c'.old then n'' else n'' + 1) := by
  refine ht.bind (hv.bind ?_)
  by_cases hsame : ((Expr.access a).same c.old && new'.same c'.old) = true
  · simp only [if_pos hsame]
    exact .pure self
  · simp only [if_neg hsame]
    exact fresh.bind (.pure _)

end

variable {self new new' : Stmt} {c c' : Child σ Stmt}

theorem forAll (i : IndexVar) (h : Yields c.visit st n new st' n') :
    Yields (Walk.forAll self i c) st n (if new.same c.old then self else .forAll n' i new) st'
      (if new.same c.old then n' else n' + 1) :=
  h.bind (rebuild _ self fun k => .forAll k i new)

theorem staged (hc : Yields c.visit st n new st' n') (hp : Yields c'.visit st' n' new' st'' n'') :
    Yields (Walk.staged self c c') st n
      (if new.same c.old && new'.same c'.old then self else .staged n'' new new') st''
      (if new.same c.old && new'.same c'.old then n'' else n'' + 1) :=
  hc.bind (hp.bind (rebuild _ self fun k => .staged k new new'))

theorem members {cs : List (Child σ Stmt)} {news : List Stmt} (hc : Yields c.visit st n new st' n')
    (hcs : Yields (Walk.members cs) st' n' news st'' n'') :
    Yields (Walk.members (c :: cs)) st n (new :: news) st'' n'' :=
  hc.bind (hcs.bind (.pure _))

theorem group {cs : List (Child σ Stmt)} {news : List Stmt} (grouping : Grouping)
    (h : Yields (Walk.members cs) st n news st' n') :
    Yields (Walk.group self grouping cs) st n
      (if Walk.allSame cs news then self else .group n' grouping news) st'
      (if Walk.allSame cs news then n' else n' + 1) :=
  h.bind (rebuild _ self fun k => .group k grouping news)

end Yields

end SparseTensor
