import Backend386.Ir.Dump
import Backend386.Proofs.Source.InputUnits

/-!
# Dumps without decimals

All numbers in the dump of a module are integers, up to those in the forms of its entities.

* `Ir.Expr.isWhole_toJson`, `Ir.Stmt.isWhole_toJson`, `Ir.Function.isWhole_toJson` — by recursion on
  what is written;
* `Ir.Module.isWhole_toJson` — the form of a module whose entities are written without decimals.
-/

namespace Backend386

open Json

@[simp] theorem EntityId.isWhole_toJson (id : EntityId) : id.toJson.isWhole = true := rfl

@[simp] theorem isWhole_entityIds (ids : List EntityId) :
    (list EntityId.toJson ids).isWhole = true :=
  isWhole_list fun id _ => id.isWhole_toJson

mutual

theorem Scope.isWhole_toJson : ∀ scope : Scope, scope.toJson.isWhole = true
  | ⟨vars, children⟩ => by simpa [Scope.toJson] using Scope.isWhole_toJsonAll children

/-- A tree of scopes is written with whole numbers. -/
theorem Scope.isWhole_toJsonAll : ∀ scopes : List Scope, ∀ j ∈ Scope.toJsonAll scopes,
    j.isWhole = true
  | [] => by simp [Scope.toJsonAll]
  | s :: ss => by
    rw [Scope.toJsonAll]
    exact List.forall_mem_cons.2 ⟨s.isWhole_toJson, Scope.isWhole_toJsonAll ss⟩

end

namespace Ir

theorem isWhole_wrapExpr {w : Width} {kind : Json} :
    (wrapExpr w kind).isWhole = true ↔ kind.isWhole = true := by
  simp [wrapExpr]

namespace Expr

mutual

/-- So is an expression. -/
theorem isWhole_toJson : ∀ e : Expr, e.toJson.isWhole = true
  | int w v | str w v | var w v | addr w v => by
    simp [toJson, isWhole_wrapExpr, Json.variant]
  | mem w e | uni w op e => by simp [toJson, isWhole_wrapExpr, Json.variant, isWhole_toJson e]
  | bin w op l r => by
    simp [toJson, isWhole_wrapExpr, Json.variant, isWhole_toJson l, isWhole_toJson r]
  | call w f args => by
    simpa [toJson, isWhole_wrapExpr, Json.variant, isWhole_toJson f] using isWhole_toJsonAll args

theorem isWhole_toJsonAll : ∀ es : List Expr, ∀ j ∈ toJsonAll es, j.isWhole = true
  | [] => by simp [toJsonAll]
  | e :: es => by
    rw [toJsonAll]
    exact List.forall_mem_cons.2 ⟨isWhole_toJson e, isWhole_toJsonAll es⟩

end

theorem isWhole_optionToJson (e : Option Expr) : (option toJson e).isWhole = true :=
  isWhole_option isWhole_toJson

end Expr

theorem Stmt.isWhole_toJson (s : Stmt) : s.toJson.isWhole = true := by
  have haction : s.action.toJson.isWhole = true := by
    cases s.action <;>
      simp [Action.toJson, Json.variant, Label.toJson, Expr.isWhole_toJson,
        Expr.isWhole_optionToJson]
  simp [Stmt.toJson, haction, (Location.isPlain_optionToJson s.location).isWhole]

theorem Function.isWhole_toJson (f : Function) : f.toJson.isWhole = true := by
  have hbody : (list Stmt.toJson f.body.toList).isWhole = true :=
    isWhole_list fun s _ => s.isWhole_toJson
  simp [Function.toJson, f.scope.isWhole_toJson, hbody]

/-- A module is written without decimals if its entities are. -/
theorem Module.isWhole_toJson {m : Module} (hentities : m.entities.toJson.isWhole = true) :
    m.toJson.isWhole = true := by
  have hstrings : m.strings.toJson.isWhole = true := by
    have hsymbol (s : Option String) : (option str s).isWhole = true := isWhole_option isWhole_str
    exact isWhole_obj.2 (List.forall_mem_singleton.2 (isWhole_list fun e _ => by simp [hsymbol]))
  have hvars : (list StaticVariable.toJson m.vars).isWhole = true :=
    isWhole_list fun v _ => by simp [StaticVariable.toJson, Expr.isWhole_optionToJson]
  have hfunctions : (list Function.toJson m.functions).isWhole = true :=
    isWhole_list fun f _ => f.isWhole_toJson
  have hconstants : (list NamedConstant.toJson m.namedConstants).isWhole = true :=
    isWhole_list fun c _ => by simp [NamedConstant.toJson, Expr.isWhole_optionToJson]
  simp [Module.toJson, hentities, hstrings, hvars, hfunctions, hconstants]

end Ir

end Backend386
