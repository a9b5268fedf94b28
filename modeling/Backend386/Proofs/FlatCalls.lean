import Backend386.Proofs.Lowering.Expr
import Backend386.Proofs.Lowering.Rounds
import Backend386.Proofs.Lowering.TrailBodies

/-!
# Calls are flat

The calls of a function are statements of its code, or the values of fresh temporaries. They are
those that the body makes, in the order in which it makes them.

* `Ir.Module.Fresh` — temporaries that are new where they are used;
* `Source.Program.calls_flat` — the code of every function has flat calls.
-/

namespace Backend386

/-- A temporary of a function that is not mentioned in some statements. -/
structure Ir.Module.Fresh (m : Ir.Module) (f : Ir.Function) (before : List Ir.Stmt) (v : EntityId) :
    Prop where
  scope : v ∈ f.scope.vars
  temp : ∃ e, m.entities.get v = .ok e ∧ e.IsTemp
  new : ∀ st ∈ before, v ∉ st.action.entities

/-- The entities that are added belong to the outermost scope. -/
theorem Lower.Grown.mem_vars {s s' : LowerState} (h : Grown s s') {v : EntityId}
    (hle : s.entities.size ≤ v.index) (hlt : v.index < s'.entities.size) :
    v ∈ s'.function.scope.vars := by
  obtain ⟨e, he⟩ := EntityTable.exists_get hlt
  rcases h.get_cases he with hold | ⟨-, -, hmem⟩
  · exact absurd (EntityTable.lt_of_get hold) (not_lt.2 hle)
  · exact hmem

/-- In the code of every function, a call stands as a statement or is kept in a fresh temporary, and
all other expressions are free of calls, those in calls too. The calls of the code are those of the
body: one for each, in the same order, with as many arguments in the same order. Those that a call
needs come right before it, those of later arguments first. -/
theorem Source.Program.calls_flat {p : Source.Program} {types : TypeTable} {ds : Diagnostics}
    {lowered : Lowered} (h : p.lower types ds = .ok lowered) {f : Ir.Function}
    (hf : f ∈ lowered.module.functions) :
    ∃ e params body first last, p.entities.get f.entity = .ok e ∧
      e.kind = .definedFunction params body ∧ body.lower {} first = .ok ((), last) ∧
      last.function = f ∧
      (∀ before st after, f.body.toList = before ++ st :: after →
        st.action.Flat (·.calls = []) fun v =>
          p.entities.size ≤ v.index ∧ lowered.module.Fresh f before v) ∧
      ∃ calls, (∀ cs, Calls p.entities (body.evaluated p.entities) cs ↔ cs = calls) ∧
        List.Forall₂ (Lower.CallOf first last) calls (Ir.callsOf f.body.toList) ∧
        ∀ before n callee args after, calls = before ++ .call n callee args :: after →
          ∃ earlier needed, before = earlier ++ needed ∧
            Calls p.entities (args.reverse ++ [callee]) needed := by
  obtain ⟨r⟩ := rounds_of_ok h
  obtain ⟨e, params, body, s, last, -, he, hkind, hs, hbody, rfl, hlast⟩ := r.function hf
  have hclosed := Part.closed_all s.entities
  obtain ⟨A, calls, htrail, hcalls⟩ :=
    Lower.body_trail hclosed ⟨fun _ _ => trivial, fun _ _ => trivial⟩ hbody
  obtain ⟨known, -, -, horderly⟩ := htrail.orderly
  -- the constants and the initial values are those of the program
  have hsame : body.evaluated s.entities = body.evaluated p.entities :=
    Block.evaluated_congr hs.initial?_eq body
  have hprogram : Calls p.entities (body.evaluated p.entities) calls :=
    hsame ▸ hcalls.congr fun id => (hs.constant?_eq id).symm
  refine ⟨e, params, body, _, last, he, hkind, hbody, rfl, fun before st after hcode => ?_, calls,
    fun cs => ?_, htrail.calls, fun before n callee args after hsplit => ?_⟩
  · refine (horderly.flat hcode).mono (fun _ => id) fun v ⟨hle, hlt, hnew⟩ => ?_
    have hfirst : p.entities.size ≤ v.index := hs.size_le.trans hle
    obtain ⟨t, ht⟩ := EntityTable.exists_get (hlt.trans_le hlast.size_le)
    refine ⟨hfirst, htrail.grown.mem_vars hle hlt, ⟨t, r.entities ▸ ht, ?_⟩, hnew⟩
    exact r.carried.temps ht hfirst
  · exact ⟨fun hcs => hcs.unique hprogram, fun heq => heq ▸ hprogram⟩
  · exact hprogram.before_call hsplit

/-- The type of a function of so many integers. -/
def countedRef (count : Nat) : TypeRef :=
  .function (.integer .int true) (List.replicate count (.integer .int true)) false

/-- A table with the types of functions of one and of two integers. -/
def countedTypes : TypeTable :=
  match (TypeTable.initial .ilp32).internAll [countedRef 1, countedRef 2] with
  | .ok (types, _) => types
  | .error _ => .initial .ilp32

/-- The call `step(e)`. -/
def stepCall (e : Source.Expr) : Source.Expr :=
  .call .int (.var ⟨countedRef 1, none⟩ ⟨0⟩) [e]

/-- The function `{ return pair(step(sizeof step(3)), two); }`, where `two` is a constant that
stands for `step(2)`. -/
def nestedCalls : Source.Program where
  entities := ⟨[
    { name := "step", ref := countedRef 1, kind := .undefinedFunction, type := .settled ⟨9⟩ },
    { name := "pair", ref := countedRef 2, kind := .undefinedFunction, type := .settled ⟨10⟩ },
    { name := "two", ref := .integer .int true, kind := .constant (stepCall (.int .int 2)) },
    { name := "nested", ref := countedRef 0,
      kind := .definedFunction [] (.mk [] [.ret none (some (.call .int
        (.var ⟨countedRef 2, none⟩ ⟨1⟩)
        [stepCall (.sizeofExpr .int (stepCall (.int .int 3))), .var .int ⟨2⟩]))]) }]⟩
  declarations := [⟨3⟩]

/-- The function that a call names, and how many arguments it has. -/
def Ir.Expr.called? : Ir.Expr → Option (EntityId × Nat)
  | .call _ (.addr _ v) args => some (v, args.length)
  | _ => none

/-- The last argument is evaluated first, and the call that is measured is not made. -/
theorem Source.Program.calls_flat_nestedCalls :
    ∃ lowered f, nestedCalls.lower countedTypes [] = .ok lowered ∧ f ∈ lowered.module.functions ∧
      (Ir.callsOf f.body.toList).map (·.called?) =
        [some (⟨0⟩, 1), some (⟨0⟩, 1), some (⟨1⟩, 2)] ∧
      ∀ before st after, f.body.toList = before ++ st :: after →
        st.action.Flat (·.calls = []) fun v => 4 ≤ v.index ∧ lowered.module.Fresh f before v := by
  obtain ⟨lowered, hlower, hcalls⟩ := exists_lower nestedCalls countedTypes []
    (fun lowered => lowered.module.functions.map fun f =>
      (Ir.callsOf f.body.toList).map (·.called?))
    [[some (⟨0⟩, 1), some (⟨0⟩, 1), some (⟨1⟩, 2)]] (by decide +kernel)
  obtain ⟨f, hf, hf'⟩ := List.mem_map.1 (hcalls ▸ List.mem_singleton_self _)
  obtain ⟨e, params, body, first, last, -, -, -, -, hflat, -⟩ := calls_flat hlower hf
  exact ⟨lowered, f, hlower, hf, hf', hflat⟩

end Backend386
