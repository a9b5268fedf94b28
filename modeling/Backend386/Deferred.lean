import Backend386.Fault

/-!
# Values settled later

Some parts of a value are filled in by a later pass than the one that made it: the type of a
member, the type and the storage of an entity. Each is settled exactly once, and reading it before
that is a fault.

* `Deferred.get` — the settled value, or a fault that names the owner;
* `Deferred.settle` — settles a value that is still pending.
-/

namespace Backend386

/-- A value that a later pass settles. -/
inductive Deferred (α : Type) where
  | pending
  | settled (value : α)
deriving DecidableEq, Inhabited

namespace Deferred

variable {α : Type}

/-- Whether the value is there. -/
def isSettled : Deferred α → Bool
  | pending => false
  | settled _ => true

/-- The value, if it is there. -/
def toOption : Deferred α → Option α
  | pending => none
  | settled v => some v

/-- The value; `what` names its owner in the fault. -/
def get (d : Deferred α) (what : String) : Except Fault α :=
  match d with
  | pending => .error (.readEarly what)
  | settled v => .ok v

/-- Settles the value; `what` names its owner in the fault. -/
def settle (d : Deferred α) (value : α) (what : String) : Except Fault (Deferred α) :=
  match d with
  | pending => .ok (settled value)
  | settled _ => .error (.settledTwice what)

@[simp] theorem get_settled (v : α) (what : String) : (settled v).get what = .ok v := rfl

@[simp] theorem get_pending (what : String) :
    (pending : Deferred α).get what = .error (.readEarly what) := rfl

/-- Settling succeeds exactly on a pending value, and then the value is there. -/
theorem settle_eq_ok_iff {d e : Deferred α} {v : α} {what : String} :
    d.settle v what = .ok e ↔ d = pending ∧ e = settled v := by
  cases d <;> simp [settle, eq_comm]

end Deferred

end Backend386
