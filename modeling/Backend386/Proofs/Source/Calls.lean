import Backend386.Proofs.Source.Evaluated

/-!
# The calls that a program makes

Calls are among the expressions that are evaluated, once wherever a constant is named that stands
for them.

* `Source.Calls` — the calls of some expressions, one after another, and `Source.Calls.unique` —
  there is one answer only;
* `Source.Calls.before_call` — the calls that a call needs are made right before it;
* `Source.Calling` — the calls before and after some expressions are evaluated.
-/

namespace Backend386.Source

/-- The expression, if it is a call. -/
def Expr.ownCall : Expr → List Expr
  | .call n callee args => [.call n callee args]
  | _ => []

/-- The calls that are made when expressions are evaluated one after another. A constant stands for
its value wherever it is named. -/
inductive Calls (t : EntityTable) : List Expr → List Expr → Prop where
  | nil : Calls t [] []
  | constant {e value : Expr} {es a b : List Expr} (hv : e.constant? t = some value)
    (h : Calls t [value] a) (hs : Calls t es b) : Calls t (e :: es) (a ++ b)
  | node {e : Expr} {es a b : List Expr} (hv : e.constant? t = none) (h : Calls t e.evaluated a)
    (hs : Calls t es b) : Calls t (e :: es) (a ++ e.ownCall ++ b)

namespace Calls

variable {t t' : EntityTable} {e value : Expr} {es es' a b : List Expr}

/-- What is evaluated determines the calls. -/
theorem unique (h : Calls t es a) (h' : Calls t es b) : a = b := by
  induction h generalizing b with
  | nil =>
    cases h'
    rfl
  | constant hv _ _ ih ihs =>
    cases h' with
    | constant hv' h' hs' =>
      obtain rfl := Option.some.inj (hv.symm.trans hv')
      rw [ih h', ihs hs']
    | node hv' => simp [hv] at hv'
  | node hv _ _ ih ihs =>
    cases h' with
    | constant hv' => simp [hv] at hv'
    | node _ h' hs' => rw [ih h', ihs hs']

/-- Calls are made one after another. -/
theorem append (h : Calls t es a) (h' : Calls t es' b) : Calls t (es ++ es') (a ++ b) := by
  induction h with
  | nil => exact h'
  | constant hv h _ _ ih =>
    rw [List.append_assoc]
    exact .constant hv h ih
  | node hv h _ _ ih =>
    rw [List.append_assoc]
    exact .node hv h ih

/-- A call of two lists is in the first of them, or behind it. -/
theorem split {before after : List Expr} (h : a ++ b = before ++ e :: after) :
    (∃ rest, a = before ++ e :: rest) ∨ ∃ rest, before = a ++ rest ∧ b = rest ++ e :: after := by
  rcases List.append_eq_append_iff.1 h with ⟨c, hc⟩ | ⟨c, rfl, hc⟩
  · exact .inr ⟨c, hc⟩
  · cases c with
    | nil => exact .inr ⟨[], by simp, hc.symm⟩
    | cons x c =>
      obtain ⟨rfl, rfl⟩ := List.cons.inj hc
      exact .inl ⟨c, rfl⟩

/-- The calls that a call needs stand right before it: those of its arguments, last to first, and
then those of its callee. -/
theorem before_call (h : Calls t es a) {before after args : List Expr} {n : Note} {callee : Expr}
    (ha : a = before ++ .call n callee args :: after) :
    ∃ earlier needed, before = earlier ++ needed ∧ Calls t (args.reverse ++ [callee]) needed := by
  -- the calls are in front of the node's own one, and each part is searched in turn
  induction h generalizing before after with
  | nil => simp at ha
  | @constant e value es a b _ _ _ ih ihs =>
    -- the call is in the value of the constant, or behind it
    rcases split ha with ⟨rest, ha⟩ | ⟨rest, rfl, hb⟩
    · exact ih ha
    · obtain ⟨earlier, needed, rfl, hneeded⟩ := ihs hb
      exact ⟨a ++ earlier, needed, (List.append_assoc ..).symm, hneeded⟩
  | @node e es a b _ h _ ih ihs =>
    rw [List.append_assoc] at ha
    -- the call is in the operands, or it is the node's own, or behind the node
    rcases split ha with ⟨rest, ha⟩ | ⟨rest, rfl, hb⟩
    · exact ih ha
    · rcases split hb with ⟨rest', hown⟩ | ⟨rest', rfl, hafter⟩
      · -- the call itself, behind its own operands
        cases e with
        | call n' callee' args' =>
          obtain ⟨rfl, hcall⟩ : rest = [] ∧ _ := by
            rcases List.singleton_eq_append_iff.1 hown with h | h
            · exact h
            · simp at h
          obtain ⟨-, rfl, rfl⟩ := Expr.call.inj (List.cons.inj hcall).1.symm
          exact ⟨[], a, (List.append_nil a), h⟩
        | _ => simp [Expr.ownCall] at hown
      · obtain ⟨earlier, needed, rfl, hneeded⟩ := ihs hafter
        exact ⟨a ++ (e.ownCall ++ earlier), needed, by simp, hneeded⟩

/-- Only the constants of the table count. -/
theorem congr (h : Calls t es a) (ht : ∀ id, t'.constant? id = t.constant? id) :
    Calls t' es a := by
  have hconstant (e : Expr) : e.constant? t' = e.constant? t := by
    cases e with
    | var n id => exact ht id
    | _ => rfl
  induction h with
  | nil => exact .nil
  | constant hv _ _ ih ihs => exact .constant ((hconstant _).trans hv) ih ihs
  | node hv _ _ ih ihs => exact .node ((hconstant _).trans hv) ih ihs

end Calls

/-- The calls that have been made go on from one list to another when expressions are evaluated. -/
def Calling (t : EntityTable) (es before after : List Expr) : Prop :=
  ∃ new, Calls t es new ∧ after = before ++ new

namespace Calling

variable {t : EntityTable} {e value : Expr} {es es' a b c : List Expr}

theorem refl (a : List Expr) : Calling t [] a a :=
  ⟨[], .nil, (List.append_nil a).symm⟩

theorem of_eq (h : b = a) : Calling t [] a b :=
  h ▸ refl b

theorem trans (h : Calling t es a b) (h' : Calling t es' b c) : Calling t (es ++ es') a c := by
  obtain ⟨new, hnew, rfl⟩ := h
  obtain ⟨new', hnew', rfl⟩ := h'
  exact ⟨new ++ new', hnew.append hnew', List.append_assoc ..⟩

/-- A constant is evaluated where it is named. -/
theorem constant (hv : e.constant? t = some value) (h : Calling t [value] a b) :
    Calling t [e] a b := by
  obtain ⟨new, hnew, rfl⟩ := h
  exact ⟨new ++ [], .constant hv hnew .nil, by rw [List.append_nil]⟩

/-- The operands of an expression are evaluated, and then the expression itself. -/
theorem node (hv : e.constant? t = none) (h : Calling t e.evaluated a b) :
    Calling t [e] a (b ++ e.ownCall) := by
  obtain ⟨new, hnew, rfl⟩ := h
  exact ⟨new ++ e.ownCall ++ [], .node hv hnew .nil, by simp⟩

end Calling

end Backend386.Source
