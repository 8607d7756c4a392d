import SparseTensor.Proofs.Building
import SparseTensor.Storage.Buffer

/-!
# Failed insertions

The calls that a buffer gets may fail for three reasons: a coordinate has too many or too few
components, one of them is not below the size of its dimension, or the value has another type. The
buffer keeps coordinates and values apart, and one that went into its list without the other would
move all later values to wrong coordinates.

**Theorem (`failed_insertions`).** An insertion succeeds if and only if none of the reasons holds.
Whatever the calls, the buffer is then the one that the successful calls alone would have left, and
everything after that has the same answers. After each call the two lists are of one length, and all
coordinates are in bounds.

The first half is about single calls: all checks come before the first change, so that a refused
call changes nothing (`run_call_refused`). The second is an invariant: the buffer holds what it has
accepted (`Holds`), and each call keeps that (`Holds.call`).
-/

namespace SparseTensor

/-- One component per dimension, each below the size of its dimension if that is fixed. -/
def Shape.Admits (s : Shape) (coords : List Nat) : Prop :=
  coords.length = s.order ∧ ∀ (mode c : Nat) (d : Dimension), coords[mode]? = some c →
    s.dims[mode]? = some d → d.isFixed = true → c < d.size

theorem Shape.checkCoordinate_iff_admits {s : Shape} {coords : List Nat} :
    s.checkCoordinate coords = .ok () ↔ s.Admits coords := by
  rw [checkCoordinate_eq_ok, List.forall₂_iff_get]
  refine and_congr_right fun hlength => ?_
  constructor
  · intro h mode c d hc hd hfixed
    obtain ⟨hmode, rfl⟩ := List.getElem?_eq_some_iff.1 hc
    obtain ⟨hdim, rfl⟩ := List.getElem?_eq_some_iff.1 hd
    have hadmits := h mode hmode hdim
    rw [List.get_eq_getElem, Dimension.admits, List.get_eq_getElem, hfixed] at hadmits
    exact of_decide_eq_true hadmits
  · intro h mode hmode hdim
    have hlt := h mode _ _ (List.getElem?_eq_getElem hmode) (List.getElem?_eq_getElem hdim)
    by_cases hfixed : s.dims[mode].isFixed = true
    · simp [Dimension.admits, hlt hfixed]
    · simp [Dimension.admits, hfixed]

namespace Buffer

/-- Whether an insertion was refused. -/
def Answer.isRefusal : Answer → Bool
  | inserted (.error _) => true
  | _ => false

def answers (b : Buffer) (cs : List Call) : List Answer := ((calls cs).run b).1

def after (b : Buffer) (cs : List Call) : Buffer := ((calls cs).run b).2

/-- The calls that the buffer does not refuse. -/
def successful (b : Buffer) (cs : List Call) : List Call :=
  ((cs.zip (b.answers cs)).filter fun x => !x.2.isRefusal).map Prod.fst

/-- What the calls insert. -/
def insertions (cs : List Call) : List Entry :=
  cs.filterMap fun
    | .insert coords value => some ⟨coords, value⟩
    | _ => none

variable {type : TensorType} {format : Format} {es : List Entry} {b : Buffer} {c : Call}
  {cs : List Call} {coords : List Nat} {value : Value}

/-! ## One call -/

theorem check_eq_ok : b.check coords value = .ok () ↔
    b.type.shape.Admits coords ∧ value.type = b.type.component := by
  rw [check, bind_unit_eq_ok, Shape.checkCoordinate_iff_admits]
  refine and_congr_right fun _ => ?_
  by_cases htype : value.type = b.type.component
  · simp [htype, pure, Except.pure]
  · simp [htype]

/-- All checks come before the first change. -/
theorem run_insert (b : Buffer) (coords : List Nat) (value : Value) :
    (insert coords value).run.run b =
      match b.check coords value with
      | .error e => (.error e, b)
      | .ok () =>
        (.ok (), { b with coords := b.coords ++ [coords], values := b.values ++ [value] }) := by
  show (ExceptT.run (do
    MonadExcept.ofExcept (b.check coords value)
    modify fun b => { b with coords := b.coords ++ [coords] }
    modify fun b => { b with values := b.values ++ [value] } :
      ExceptT Fault (StateM Buffer) Unit)).run b = _
  cases b.check coords value <;> rfl

theorem run_call_insert (b : Buffer) (coords : List Nat) (value : Value) :
    (call (.insert coords value)).run b =
      (.inserted ((insert coords value).run.run b).1, ((insert coords value).run.run b).2) :=
  rfl

/-- A refused call changes nothing. -/
theorem run_call_refused (h : ((call c).run b).1.isRefusal = true) : ((call c).run b).2 = b := by
  cases c with
  | insert coords value =>
    rw [run_call_insert, run_insert] at h ⊢
    cases hcheck : b.check coords value with
    | error e => rfl
    | ok _ =>
      rw [hcheck] at h
      cases h
  | policy | len | pack => cases h

/-! ## A sequence of calls -/

theorem answers_cons (b : Buffer) (c : Call) (cs : List Call) :
    b.answers (c :: cs) = ((call c).run b).1 :: ((call c).run b).2.answers cs := by
  rw [answers, calls, List.mapM_cons]
  rfl

theorem after_cons (b : Buffer) (c : Call) (cs : List Call) :
    b.after (c :: cs) = ((call c).run b).2.after cs := by
  rw [after, calls, List.mapM_cons]
  rfl

theorem answers_append (b : Buffer) (cs more : List Call) :
    b.answers (cs ++ more) = b.answers cs ++ (b.after cs).answers more := by
  induction cs generalizing b with
  | nil => rfl
  | cons c cs ih =>
    rw [List.cons_append, answers_cons, ih, answers_cons, after_cons, List.cons_append]

theorem after_append (b : Buffer) (cs more : List Call) :
    b.after (cs ++ more) = (b.after cs).after more := by
  induction cs generalizing b with
  | nil => rfl
  | cons c cs ih => rw [List.cons_append, after_cons, ih, after_cons]

theorem length_answers (b : Buffer) (cs : List Call) : (b.answers cs).length = cs.length := by
  induction cs generalizing b with
  | nil => rfl
  | cons c cs ih => rw [answers_cons, List.length_cons, ih, List.length_cons]

theorem successful_cons_of_refused (h : ((call c).run b).1.isRefusal = true) :
    b.successful (c :: cs) = b.successful cs := by
  rw [successful, answers_cons, List.zip_cons_cons, List.filter_cons_of_neg (by simp [h]),
    run_call_refused h]
  rfl

theorem successful_cons_of_not_refused (h : ((call c).run b).1.isRefusal = false) :
    b.successful (c :: cs) = c :: ((call c).run b).2.successful cs := by
  rw [successful, answers_cons, List.zip_cons_cons, List.filter_cons_of_pos (by simp [h])]
  rfl

/-- The successful calls alone leave the same buffer. -/
theorem after_successful (b : Buffer) (cs : List Call) :
    b.after (b.successful cs) = b.after cs := by
  induction cs generalizing b with
  | nil => rfl
  | cons c cs ih =>
    cases h : ((call c).run b).1.isRefusal with
    | true => rw [successful_cons_of_refused h, ih, after_cons, run_call_refused h]
    | false => rw [successful_cons_of_not_refused h, after_cons, ih, after_cons]

/-- Alone, the successful calls have the answers that they had. -/
theorem answers_successful (b : Buffer) (cs : List Call) :
    b.answers (b.successful cs) = (b.answers cs).filter fun a => !a.isRefusal := by
  induction cs generalizing b with
  | nil => rfl
  | cons c cs ih =>
    cases h : ((call c).run b).1.isRefusal with
    | true =>
      rw [successful_cons_of_refused h, ih, answers_cons, run_call_refused h,
        List.filter_cons_of_neg (by simp [h])]
    | false =>
      rw [successful_cons_of_not_refused h, answers_cons, ih, answers_cons,
        List.filter_cons_of_pos (by simp [h])]

/-! ## What a buffer holds -/

/-- The buffer was made for the type and the format and has accepted the insertions `es`, in this
order. -/
structure Holds (type : TensorType) (format : Format) (es : List Entry) (b : Buffer) : Prop where
  built : Builder.Built type format es b.builder
  coords_eq : b.coords = es.map Entry.coords
  values_eq : b.values = es.map Entry.value

theorem Holds.type_eq (h : b.Holds type format es) : b.type = type := h.built.holds.type_eq

theorem Holds.length_coords (h : b.Holds type format es) : b.coords.length = b.values.length := by
  rw [h.coords_eq, h.values_eq, List.length_map, List.length_map]

theorem Holds.admits (h : b.Holds type format es) :
    ∀ coords ∈ b.coords, type.shape.Admits coords := by
  rw [h.coords_eq]
  refine List.forall_mem_map.2 fun e he => ?_
  exact Shape.checkCoordinate_iff_admits.1 (h.built.holds.checked e he)

theorem holds_new (h : Buffer.new type format = .ok b) : b.Holds type format [] := by
  rw [Buffer.new, bind_unit_eq_ok] at h
  obtain ⟨hshape, ⟨⟩⟩ := h
  refine ⟨.new ?_, rfl, rfl⟩
  rw [Builder.new, hshape]
  rfl

/-- Both lists together, the builder has one more insertion. -/
theorem builder_push (h : b.coords.length = b.values.length) (coords : List Nat) (value : Value) :
    builder { b with coords := b.coords ++ [coords], values := b.values ++ [value] } =
      { b.builder with entries := b.builder.entries ++ [⟨coords, value⟩] } :=
  congrArg (Builder.mk b.type b.format b.duplicates) (List.zipWith_append h)

/-- The insertion of the builder has the same outcome. -/
theorem builder_insert (h : b.coords.length = b.values.length) (coords : List Nat) (value : Value) :
    b.builder.insert coords value = (b.check coords value).map fun _ =>
      builder { b with coords := b.coords ++ [coords], values := b.values ++ [value] } := by
  simp only [builder_push h]
  show (b.type.shape.checkCoordinate coords >>= fun _ => if value.type = b.type.component then
    _ else _) = Except.map _ (b.type.shape.checkCoordinate coords >>= fun _ =>
      if value.type ≠ b.type.component then _ else _)
  cases b.type.shape.checkCoordinate coords with
  | error e => rfl
  | ok _ =>
    by_cases htype : value.type = b.type.component
    · show (if _ then _ else _) = Except.map _ (if _ then _ else _)
      rw [if_pos htype, if_neg (not_not.2 htype)]
      rfl
    · show (if _ then _ else _) = Except.map _ (if _ then _ else _)
      rw [if_neg htype, if_pos htype]
      rfl

theorem Holds.push (h : b.Holds type format es) (hcheck : b.check coords value = .ok ()) :
    Holds type format (es ++ [⟨coords, value⟩])
      { b with coords := b.coords ++ [coords], values := b.values ++ [value] } := by
  refine ⟨.insert ⟨coords, value⟩ h.built ?_, ?_, ?_⟩
  · rw [builder_insert h.length_coords, hcheck]
    rfl
  · rw [h.coords_eq, List.map_append, List.map_singleton]
  · rw [h.values_eq, List.map_append, List.map_singleton]

/-- A call adds what it inserts unless it is refused. -/
theorem Holds.call (h : b.Holds type format es) (hc : ((call c).run b).1.isRefusal = false) :
    ((Buffer.call c).run b).2.Holds type format (es ++ insertions [c]) := by
  cases c with
  | insert coords value =>
    rw [run_call_insert, run_insert] at hc ⊢
    cases hcheck : b.check coords value with
    | error e =>
      rw [hcheck] at hc
      cases hc
    | ok _ => exact h.push hcheck
  | policy duplicates =>
    rw [insertions, List.filterMap_cons_none rfl, List.filterMap_nil, List.append_nil]
    exact ⟨.policy duplicates h.built, h.coords_eq, h.values_eq⟩
  | len | pack =>
    rw [insertions, List.filterMap_cons_none rfl, List.filterMap_nil, List.append_nil]
    exact h

theorem Holds.after (h : b.Holds type format es) (cs : List Call) :
    (b.after cs).Holds type format (es ++ insertions (b.successful cs)) := by
  induction cs generalizing b es with
  | nil =>
    show b.Holds type format (es ++ [])
    rwa [List.append_nil]
  | cons c cs ih =>
    rw [after_cons]
    cases hc : ((Buffer.call c).run b).1.isRefusal with
    | true =>
      rw [successful_cons_of_refused hc, run_call_refused hc]
      exact ih h
    | false =>
      have hinserted : insertions (c :: ((Buffer.call c).run b).2.successful cs) =
          insertions [c] ++ insertions (((Buffer.call c).run b).2.successful cs) :=
        List.filterMap_append (l := [c])
      rw [successful_cons_of_not_refused hc, hinserted, ← List.append_assoc]
      exact ih (h.call hc)

/-- Each insertion succeeds if it is in bounds and of the type. -/
theorem Holds.answers (h : b.Holds type format es) (cs : List Call) :
    List.Forall₂ (fun c a => ∀ coords value, c = .insert coords value → ∃ outcome,
      a = .inserted outcome ∧
        (outcome = .ok () ↔ type.shape.Admits coords ∧ value.type = type.component))
      cs (b.answers cs) := by
  induction cs generalizing b es with
  | nil => exact .nil
  | cons c cs ih =>
    rw [answers_cons]
    constructor
    · rintro coords value rfl
      refine ⟨_, congrArg Prod.fst (run_call_insert b coords value), ?_⟩
      rw [← h.type_eq, ← check_eq_ok, run_insert]
      cases b.check coords value with
      | error e => simp
      | ok _ => simp
    · cases hc : ((Buffer.call c).run b).1.isRefusal with
      | true =>
        rw [run_call_refused hc]
        exact ih h
      | false => exact ih (h.call hc)

/-- Failed insertions leave no trace. -/
theorem failed_insertions (hnew : Buffer.new type format = .ok b) (cs : List Call) :
    List.Forall₂ (fun c a => ∀ coords value, c = .insert coords value → ∃ outcome,
      a = .inserted outcome ∧
        (outcome = .ok () ↔ type.shape.Admits coords ∧ value.type = type.component))
      cs (b.answers cs) ∧
    (∀ more, (b.after (b.successful cs ++ more)).len = (b.after (cs ++ more)).len ∧
      (b.after (b.successful cs ++ more)).builder.packLogged =
        (b.after (cs ++ more)).builder.packLogged ∧
      b.answers (b.successful cs ++ more) =
        ((b.answers cs).filter fun a => !a.isRefusal) ++ (b.answers (cs ++ more)).drop cs.length) ∧
    (∀ n, (b.after (cs.take n)).coords.length = (b.after (cs.take n)).values.length ∧
      ∀ coords ∈ (b.after (cs.take n)).coords, type.shape.Admits coords) ∧
    Builder.Built type format (insertions (b.successful cs)) (b.after cs).builder := by
  have h : b.Holds type format [] := holds_new hnew
  refine ⟨h.answers cs, fun more => ?_, fun n => ?_, (h.after cs).built⟩
  · have hafter : b.after (b.successful cs ++ more) = b.after (cs ++ more) := by
      rw [after_append, after_successful, after_append]
    refine ⟨congrArg len hafter, congrArg (fun b => b.builder.packLogged) hafter, ?_⟩
    rw [answers_append, answers_successful, after_successful, answers_append,
      ← length_answers b cs, List.drop_left]
  · exact ⟨(h.after (cs.take n)).length_coords, (h.after (cs.take n)).admits⟩

/-- Of five insertions into two rows and three columns, three fail: one lacks a component, one is in
a fourth column, and one has a value of another type. The tensor is packed in between. -/
theorem failed_insertions_csr :
    let type : TensorType := ⟨.bool, ⟨[.fixed 2 (by decide), .fixed 3 (by decide)]⟩⟩
    let first : Call := .insert [1, 2] (.bool true)
    let last : Call := .insert [0, 1] (.bool false)
    let cs : List Call := [first, .insert [1] (.bool true), .insert [0, 3] (.bool true), .pack,
      .insert [0, 0] (.int .w8 1), last]
    ∃ b, Buffer.new type .csr = .ok b ∧ b.successful cs = [first, .pack, last] ∧
      Builder.Built type .csr [⟨[1, 2], .bool true⟩, ⟨[0, 1], .bool false⟩] (b.after cs).builder ∧
      ∀ more, (b.after ([first, .pack, last] ++ more)).builder.packLogged =
        (b.after (cs ++ more)).builder.packLogged := by
  intro type first last cs
  obtain ⟨-, htrace, -, hbuilt⟩ := @failed_insertions type .csr _ rfl cs
  exact ⟨_, rfl, rfl, hbuilt, fun more => (htrace more).2.1⟩

end Buffer

end SparseTensor
