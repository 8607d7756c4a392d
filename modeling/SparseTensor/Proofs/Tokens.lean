import SparseTensor.Proofs.Grammar

/-!
# The tokens of printed expressions

The text of an expression is cut into its tokens piece by piece (`Expr.scan_text`). A word ends
where a symbol begins, so what comes after a piece matters only by its first character. `Scans` says
what a piece is cut into whatever comes after it, and has one lemma for each way to put pieces
together.
-/

namespace SparseTensor

variable {S : Scope} {e : Expr} {ts us : List Token}

/-! ## Pieces -/

/-- What comes next, if anything does, ends a word. -/
def Breaks (rest : List Char) : Prop := ∀ c ∈ rest.head?, (symbol? c).isSome = true

/-- The characters are cut into the tokens if they are not followed by more of a word. -/
def Scans (cs : List Char) (ts : List Token) : Prop :=
  ∀ rest, Breaks rest → scan [] (cs ++ rest) = ts ++ scan [] rest

section

variable {cs ds : List Char} {ch : Char}

theorem breaks_cons (h : symbol? ch = some ts) (cs : List Char) : Breaks (ch :: cs) := by
  rintro c ⟨⟩
  rw [h]
  rfl

theorem scan_symbol (h : symbol? ch = some ts) (word cs : List Char) :
    scan word (ch :: cs) = wordTokens word ++ ts ++ scan [] cs := by
  rw [scan, h]

theorem scan_append_word {word rest : List Char} (hds : ∀ c ∈ ds, symbol? c = none)
    (hrest : Breaks rest) : scan word (ds ++ rest) = wordTokens (word ++ ds) ++ scan [] rest := by
  induction ds generalizing word with
  | nil =>
    rw [List.nil_append, List.append_nil]
    cases rest with
    | nil => simp [scan, wordTokens]
    | cons c cs =>
      obtain ⟨ts, hts⟩ := Option.isSome_iff_exists.1 (hrest c rfl)
      rw [scan_symbol hts, scan_symbol hts, List.append_assoc]
      rfl
  | cons d ds ih =>
    rw [List.forall_mem_cons] at hds
    rw [List.cons_append, scan, hds.1]
    simp only [ih hds.2, List.append_assoc, List.singleton_append]

theorem IsWord.scans {name : String} (h : IsWord name) : Scans name.toList [.word name] := by
  intro rest hrest
  rw [scan_append_word h.2 hrest, List.nil_append, wordTokens, if_neg (by simpa using h.1),
    String.ofList_toList]

theorem Scans.cons (ch : Char) (hc : symbol? ch = some ts) (h : Scans ds us) :
    Scans (ch :: ds) (ts ++ us) := by
  intro rest hrest
  rw [List.cons_append, scan_symbol hc, h rest hrest]
  simp [wordTokens]

theorem Scans.nil : Scans [] [] := fun _ _ => rfl

/-- Two pieces with a symbol between them. -/
theorem Scans.append {vs : List Token} (h : Scans cs ts) (ch : Char) (hc : symbol? ch = some us)
    (h' : Scans ds vs) : Scans (cs ++ ch :: ds) (ts ++ (us ++ vs)) := by
  intro rest hrest
  have hrest' := h'.cons ch hc rest hrest
  rw [List.append_assoc, List.append_assoc, ← hrest']
  exact h _ (breaks_cons hc _)

theorem Scans.closing (h : Scans cs ts) : Scans (cs ++ [')']) (ts ++ [.closing]) :=
  h.append ')' rfl .nil

/-- What is in brackets. -/
theorem Scans.brackets (h : Scans cs ts) :
    Scans ('(' :: (cs ++ [')'])) (.opening :: (ts ++ [.closing])) :=
  Scans.cons '(' rfl h.closing

/-- A word and what is in brackets after it. -/
theorem Scans.call {w : String} (hw : IsWord w) (h : Scans cs ts) :
    Scans (w.toList ++ '(' :: (cs ++ [')'])) (.word w :: .opening :: (ts ++ [.closing])) :=
  hw.scans.append '(' rfl h.closing

end

namespace Expr

/-- The tokens of a text that is enclosed in parentheses or not. -/
def enclosedTokens (parens : Bool) (ts : List Token) : List Token :=
  if parens then .opening :: (ts ++ [.closing]) else ts

/-- The tokens of the text of an expression. Literals and what is undefined are not read. -/
def tokens : Expr → List Token
  | undefined | literal _ _ => []
  | access a =>
    if a.indices.isEmpty then [.word a.tensor.name]
    else .word a.tensor.name :: .opening :: (listTokens a.indices ++ [.closing])
  | unary _ .neg a =>
    .op .sub :: enclosedTokens (decide (a.binding.strength < Binding.sign.strength)) a.tokens
  | unary _ .sqrt a => .word "sqrt" :: .opening :: (a.tokens ++ [.closing])
  | binary _ op a b =>
    let level := op.binding.strength
    enclosedTokens (decide (a.binding.strength < level)) a.tokens ++ .op op ::
      enclosedTokens (decide (b.binding.strength < level)
        || (op.enclosesRight && decide (b.binding.strength = level))) b.tokens
  | reduction _ r i a =>
    .word r.text :: .opening :: (.word i.name :: .comma :: a.tokens ++ [.closing])

end Expr

theorem Scans.enclosed {text : String} (h : Scans text.toList ts) (parens : Bool) :
    Scans (Expr.enclosed parens text).toList (Expr.enclosedTokens parens ts) := by
  cases parens with
  | false => exact h
  | true =>
    have htext : (Expr.enclosed true text).toList = '(' :: (text.toList ++ [')']) := by
      simp [Expr.enclosed]
    rw [htext]
    exact h.brackets

theorem Scans.binary {cs ds : List Char} (op : BinaryOp) (h : Scans cs ts) (h' : Scans ds us) :
    Scans (cs ++ ' ' :: (op.symbol.toList ++ ' ' :: ds)) (ts ++ .op op :: us) := by
  have hright : Scans (' ' :: ds) us := h'.cons ' ' rfl
  have hop : Scans (op.symbol.toList ++ ' ' :: ds) (.op op :: us) := by
    cases op with
    | add => exact hright.cons '+' rfl
    | sub => exact hright.cons '-' rfl
    | mul => exact hright.cons '*' rfl
    | div => exact hright.cons '/' rfl
  exact h.append ' ' rfl hop

/-- The names of index variables with commas between them. -/
theorem scans_listTokens {i : IndexVar} {indices : List IndexVar}
    (h : ∀ j ∈ i :: indices, IsWord j.name) :
    Scans (",".intercalate ((i :: indices).map IndexVar.name)).toList
      (listTokens (i :: indices)) := by
  rw [String.toList_intercalate]
  induction indices generalizing i with
  | nil =>
    rw [List.map_singleton, List.map_singleton, List.intercalate_singleton]
    exact (h i List.mem_cons_self).scans
  | cons j indices ih =>
    rw [List.forall_mem_cons] at h
    have hi := h.1.scans.append ',' rfl (ih h.2)
    simp only [List.map_cons, List.intercalate_cons_cons, listTokens,
      List.intersperse_cons_cons] at hi ⊢
    simpa using hi

namespace Scope.WellNamed

variable (hS : S.WellNamed)
include hS

theorem isWord_tensor {t : TensorVar} (ht : t ∈ S.tensors) : IsWord t.name :=
  hS.isWord _ (List.mem_append_left _ (List.mem_map_of_mem ht))

theorem isWord_var {i : IndexVar} (hi : i ∈ S.vars) : IsWord i.name :=
  hS.isWord _ (List.mem_append_right _ (List.mem_map_of_mem hi))

theorem scans_access {a : Access} (ha : a.tensor ∈ S.tensors)
    (hvars : ∀ i ∈ a.indices, i ∈ S.vars) :
    Scans a.text.toList (Expr.access a).tokens := by
  obtain ⟨k, t, indices⟩ := a
  cases indices with
  | nil => exact (hS.isWord_tensor ha).scans
  | cons i indices =>
    have htext : (Access.text ⟨k, t, i :: indices⟩).toList = t.name.toList ++
        '(' :: ((",".intercalate ((i :: indices).map IndexVar.name)).toList ++ [')']) := by
      simp [Access.text]
    rw [htext]
    exact Scans.call (hS.isWord_tensor ha)
      (scans_listTokens fun j hj => hS.isWord_var (hvars j hj))

end Scope.WellNamed

/-- **The text of an expression is cut into its tokens.** -/
theorem Expr.scans_text (hS : S.WellNamed) (he : e.WrittenIn S) :
    Scans e.text.toList e.tokens := by
  induction e with
  | undefined | literal => exact he.elim
  | access a => exact hS.scans_access he.1 he.2
  | unary k op a ih =>
    cases op with
    | neg =>
      rw [text, String.toList_append]
      exact ((ih he).enclosed _).cons '-' rfl
    | sqrt =>
      have htext : (unary k .sqrt a).text.toList =
          "sqrt".toList ++ '(' :: (a.text.toList ++ [')']) := by
        simp [text]
      rw [htext]
      exact (ih he).call (by decide +kernel)
  | binary k op a b iha ihb =>
    rw [text, tokens]
    simp only [String.toList_append, List.append_assoc]
    exact Scans.binary op ((iha he.1).enclosed _) ((ihb he.2).enclosed _)
  | reduction k r i a ih =>
    have htext : (reduction k r i a).text.toList =
        r.text.toList ++ '(' :: ((i.name.toList ++ ',' :: ' ' :: a.text.toList) ++ [')']) := by
      simp [text]
    have hoperand : Scans (' ' :: a.text.toList) a.tokens := (ih he.2).cons ' ' rfl
    rw [htext]
    exact Scans.call (by cases r <;> decide +kernel)
      ((hS.isWord_var he.1).scans.append ',' rfl hoperand)

theorem Expr.scan_text (hS : S.WellNamed) (he : e.WrittenIn S) :
    scan [] e.text.toList = e.tokens := by
  have h := Expr.scans_text hS he [] fun _ h => by cases h
  simpa [scan, wordTokens] using h

end SparseTensor
