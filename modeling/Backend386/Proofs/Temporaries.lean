import Backend386.Proofs.FlatCalls
import Backend386.Proofs.PlacedOnce

/-!
# Temporaries

Lowering a unit adds temporaries to its entities and changes nothing else but the numbers of static
variables. Each temporary belongs to one function, and on every path through the code of the
function it is written before it is read.

* `Source.Program.Resolved` — all that the functions refer to is in the table of entities;
* `Lower.FunctionsFrom.separate` — no two functions have a temporary in common;
* `Source.Program.temporaries_fresh` — temporaries are new, and written before they are read;
* `Source.ProgramUnit.temporary_unwritten` — not so where a constant that is not declared refers to
  an entity behind the table.
-/

namespace Backend386

/-- Every entity that a function refers to is in the table already: its parameters, the variables of
its blocks, and what is named in its body, in the initializers of its variables and in the constants
that are inlined into them. -/
structure Source.Program.Resolved (p : Source.Program) : Prop where
  locals : ∀ id ∈ p.declarations, ∀ v ∈ p.entities.localsOf id, v.index < p.entities.size
  named : ∀ id ∈ p.declarations, ∀ f params body, p.entities.get id = .ok f →
    f.kind = .definedFunction params body → ∀ n v,
    (body.part.closure p.entities).exprs (.var n v) → v.index < p.entities.size

/-- The parameters and the variables of a function, temporaries included. -/
def Ir.Function.locals (f : Ir.Function) : List EntityId :=
  f.params ++ f.scope.variablesOfTree

namespace Lower

variable {s s' : LowerState} {id v : EntityId} {ids : List EntityId} {f : Ir.Function}
  {bound : Nat}

/-- Temporaries are no constants and have no initializers, so that a closed part stays closed. -/
theorem Carried.closed (h : Carried s s') {part : Source.Part} (hc : part.Closed s.entities) :
    part.Closed s'.entities where
  operand := hc.operand
  constant := by
    intro n id c value hvar hget hvalue
    rcases h.get_cases hget with ⟨c₀, hget₀, sequence, rfl⟩ | htemp
    · exact hc.constant hvar hget₀ hvalue
    · rw [Entity.constantValue?, htemp.kind] at hvalue
      cases hvalue
  initial := by
    intro id v init hvar hget hprivate hinit
    rcases h.get_cases hget with ⟨v₀, hget₀, sequence, rfl⟩ | htemp
    · exact hc.initial hvar hget₀ hprivate hinit
    · rw [Entity.initializer?, htemp.kind] at hinit
      cases hinit

/-! ## The temporaries of functions -/

/-- The parameters and block variables of some functions are below a bound. -/
def LocalsBelow (bound : Nat) (ids : List EntityId) (s : LowerState) : Prop :=
  ∀ id ∈ ids, ∀ e, s.entities.get id = .ok e → ∀ v ∈ e.locals, v.index < bound

/-- Local variables stay where they are. -/
theorem LocalsBelow.carried (h : LocalsBelow bound ids s) (hs : Carried s s') :
    LocalsBelow bound ids s' := by
  intro id hid e he v hv
  rcases hs.get_cases he with ⟨e₀, he₀, sequence, rfl⟩ | htemp
  · exact h id hid e₀ he₀ v hv
  · simp [Entity.locals, htemp.kind] at hv

/-- The variables of a function that are not below the bound are its temporaries. -/
theorem function_temporaries (h : function id s = .ok (f, s'))
    (hbelow : LocalsBelow bound [id] s) (hv : v ∈ f.locals) (hbound : bound ≤ v.index) :
    s.entities.size ≤ v.index ∧ v.index < s'.entities.size := by
  obtain ⟨e, params, body, he, hkind, rfl, hgrown, -⟩ := function_eq_ok h
  obtain ⟨count, hsize, htree⟩ := hgrown.variablesOfTree
  have hperm : s'.function.locals.Perm (e.locals ++ idsFrom s.entities.size count) := by
    rw [Ir.Function.locals, Entity.locals, hkind, List.append_assoc, hgrown.params]
    exact htree.append_left params
  rcases List.mem_append.1 (hperm.mem_iff.1 hv) with hv | hv
  · exact absurd (hbelow id (List.mem_singleton_self id) e he v hv) (not_lt.2 hbound)
  · have hv := mem_idsFrom.1 hv
    omega

/-- The temporaries of the functions come one function after another. -/
theorem FunctionsFrom.separate {fs : List Ir.Function} {vars : List Ir.StaticVariable}
    (h : FunctionsFrom ids s fs vars s') (hbelow : LocalsBelow bound ids s) :
    (∀ f ∈ fs, ∀ v ∈ f.locals, bound ≤ v.index → s.entities.size ≤ v.index) ∧
      fs.Pairwise fun f g => ∀ v ∈ f.locals, bound ≤ v.index → v ∉ g.locals := by
  induction h with
  | nil => exact ⟨nofun, .nil⟩
  | @cons id ids statics s s₁ s₂ s₃ f fs before before' vars more hf hstatics hvars hrest ih =>
    have h₁ := carried_function hf
    have h₂ := (staticLocals_eq_ok hvars).2.1
    obtain ⟨hlater, hpairwise⟩ := ih fun id hid =>
      (hbelow.carried (h₁.trans h₂)) id (List.mem_cons_of_mem _ hid)
    have hid : LocalsBelow bound [id] s := fun id' hid' =>
      hbelow id' (List.mem_singleton.1 hid' ▸ List.mem_cons_self)
    have hfirst {v : EntityId} (hv : v ∈ f.locals) (hbound : bound ≤ v.index) :=
      function_temporaries hf hid hv hbound
    refine ⟨fun g hg v hv hbound => ?_, .cons (fun g hg v hv hbound hv' => ?_) hpairwise⟩
    · rcases List.mem_cons.1 hg with rfl | hg
      · exact (hfirst hv hbound).1
      · exact (h₁.size_le.trans h₂.size_le).trans (hlater g hg v hv hbound)
    · have hlt := (hfirst hv hbound).2
      have hle := hlater g hg v hv' hbound
      have hsize := h₂.size_le
      omega

end Lower

namespace Source.Program

variable {p : Source.Program} {types : TypeTable} {ds : Diagnostics} {lowered : Lowered}
  {f : Ir.Function} {v : EntityId}

/-- A function mentions entities of the program and temporaries of its own. -/
theorem Rounds.mentioned (r : p.Rounds types ds lowered) (hresolved : p.Resolved)
    (hf : f ∈ lowered.module.functions) {st : Ir.Stmt} (hst : st ∈ f.body.toList)
    (hv : v ∈ st.action.entities) : v.index < p.entities.size ∨ v ∈ f.scope.vars := by
  obtain ⟨e, params, body, s, last, hdeclared, he, hkind, hs, hbody, rfl, -⟩ := r.function hf
  have hc : (body.part.closure p.entities).Closed
      (Lower.entered s last.function.entity params body).entities :=
    hs.closed (Part.closed_closure p.entities body.part)
  have hblock : Lower.Stepwise (.along (body.part.closure p.entities)) .always (body.lower {}) _ :=
    Lower.stepwise_block hc {} body (fun e he => Source.Occurs.root he) (fun id hid => hid) _
  have hmoves := (hblock.walked hc trivial hbody).moves
  rcases (hmoves.known (fun _ hmem => nomatch hmem) st hst).entities v hv trivial with
    hlocal | hscope | ⟨n, -, hexpr, -⟩
  · refine .inl (hresolved.locals _ hdeclared v ?_)
    rw [EntityTable.localsOf_eq he, Entity.locals, hkind]
    exact List.mem_append_right _ hlocal
  · exact .inr hscope
  · exact .inl (hresolved.named _ hdeclared e params body he hkind n v hexpr)

/-- A function writes its temporaries before it reads them. -/
theorem Rounds.written_before (r : p.Rounds types ds lowered) (hresolved : p.Resolved)
    (hf : f ∈ lowered.module.functions) {passed rest : List Ir.Stmt} {st : Ir.Stmt}
    (hpath : Ir.Path f.body.toList passed (st :: rest)) {w : Width}
    (hread : .var w v ∈ st.action.reads) (hle : p.entities.size ≤ v.index) :
    ∃ st' ∈ passed, st'.Writes v := by
  obtain ⟨e, params, body, s, last, hdeclared, he, hkind, hs, hbody, rfl, -⟩ := r.function hf
  have hc : (body.part.closure p.entities).Closed s.entities := hs.closed (Part.closed_closure ..)
  obtain ⟨A, calls, htrail, -⟩ :=
    Lower.body_trail hc ⟨fun e he => .root he, fun id hid => hid⟩ hbody
  obtain ⟨known, -, -, horderly⟩ := htrail.orderly
  refine horderly.written_before hpath hread ?_
  rintro ⟨n, hnamed⟩
  exact absurd (hresolved.named _ hdeclared e params body he hkind n v hnamed) (not_lt.2 hle)

end Source.Program

/-- Lowering a unit leaves the given entities as they are, but for the numbers of static variables,
and appends temporaries. Those that the code of a function mentions are in the outermost scope of
the function, and no two functions have one in common. On every path from the start of a function, a
temporary is written before it is read. -/
theorem Source.Program.temporaries_fresh {p : Source.Program} {types : TypeTable} {ds : Diagnostics}
    {lowered : Lowered} (hresolved : p.Resolved) (h : p.lower types ds = .ok lowered) :
    (∀ id e, p.entities.get id = .ok e → lowered.module.entities.get id = .ok e ∨
      e.isPrivate = true ∧ (∃ f ∈ lowered.module.functions, id ∈ f.scope.variablesOfTree) ∧
        ∃ n, lowered.module.entities.get id = .ok { e with sequence := some n }) ∧
    (∀ id e, p.entities.size ≤ id.index → lowered.module.entities.get id = .ok e → e.IsTemp) ∧
    (∀ f ∈ lowered.module.functions, ∀ st ∈ f.body.toList, ∀ v ∈ st.action.entities,
      p.entities.size ≤ v.index → v ∈ f.scope.vars) ∧
    (lowered.module.functions.Pairwise fun f g =>
      ∀ v ∈ f.locals, p.entities.size ≤ v.index → v ∉ g.locals) ∧
    ∀ f ∈ lowered.module.functions, ∀ passed st rest, Ir.Path f.body.toList passed (st :: rest) →
      ∀ w v, .var w v ∈ st.action.reads → p.entities.size ≤ v.index →
        ∃ st' ∈ passed, st'.Writes v := by
  obtain ⟨r⟩ := rounds_of_ok h
  refine ⟨fun id e he => r.kept he, fun id e hle he => r.carried.temps (r.entities ▸ he) hle,
    fun f hf st hst v hv hle => ?_, ?_, fun f hf passed st rest hpath w v hread hle => ?_⟩
  · exact (r.mentioned hresolved hf hst hv).resolve_left (not_lt.2 hle)
  · have hstart : Lower.LocalsBelow p.entities.size r.declared.functions r.start := by
      intro id hid e he v hv
      exact hresolved.locals id (r.declared_of_mem hid) v (EntityTable.localsOf_eq he ▸ hv)
    exact (r.functionsFrom.separate (hstart.carried r.declares.carried)).2
  · exact r.written_before hresolved hf hpath hread hle

/-- The function `{ static int tries = 0; again: if (step(tries) && tries++) goto again;
return tries; }`. -/
def retryLoop : Source.Program where
  entities := ⟨[
    { name := "step", ref := countedRef 1, kind := .undefinedFunction, type := .settled ⟨9⟩ },
    { name := "retry", ref := countedRef 0, kind := .definedFunction [] (.mk [⟨2⟩] [
      .label none "again" (.ifThen none (.logical .int .and (stepCall (.var .int ⟨2⟩))
        (.postStep .int .inc (.var .int ⟨2⟩))) (.goto none "again")),
      .ret none (some (.var .int ⟨2⟩))]) },
    { name := "tries", ref := .integer .int true, isPrivate := true,
      kind := .definedVariable (some (.int .int 0)), type := .settled ⟨5⟩ }]⟩
  declarations := [⟨1⟩]

/-- All ids of the example are in its table. -/
theorem retryLoop_resolved : retryLoop.Resolved where
  locals := by decide
  named := by
    intro id hid f params body hf hkind n v hv
    obtain rfl := List.mem_singleton.1 hid
    obtain rfl := Except.ok.inj hf
    obtain ⟨rfl, rfl⟩ := EntityKind.definedFunction.inj hkind
    refine hv.uses (·.index < retryLoop.entities.size) ?_ ?_ ?_ v (List.mem_singleton.2 rfl)
    · simp [Source.Block.part, Source.Block.exprs, Source.exprsOfStmts, Source.Stmt.exprs,
        Source.Expr.uses, Source.Expr.usesAll, stepCall, retryLoop, EntityTable.size]
    · simp [retryLoop, Entity.constantValue?]
    · simp [Source.Block.part, Source.Block.scope, Scope.variablesOfTree, Scope.variablesOfTrees,
        Source.scopesOfStmts, Source.Stmt.scopes, retryLoop, EntityTable.get, Entity.initializer?,
        Source.Expr.uses]

/-- The result of the call, the value that is incremented and the truth of the test are kept in
temporaries, and the loop is entered again behind them. -/
theorem Source.Program.temporaries_fresh_retryLoop :
    ∃ lowered f, retryLoop.lower countedTypes [] = .ok lowered ∧
      lowered.diagnostics.hasErrors = false ∧ f ∈ lowered.module.functions ∧
      f.scope.vars = [⟨2⟩, ⟨3⟩, ⟨4⟩, ⟨5⟩] ∧
      ∀ passed st rest, Ir.Path f.body.toList passed (st :: rest) →
        ∀ w v, .var w v ∈ st.action.reads → 3 ≤ v.index → ∃ st' ∈ passed, st'.Writes v := by
  obtain ⟨lowered, hlower, hseen⟩ := exists_lower retryLoop countedTypes []
    (fun lowered => (lowered.diagnostics.hasErrors, lowered.module.functions.map (·.scope.vars)))
    (false, [[⟨2⟩, ⟨3⟩, ⟨4⟩, ⟨5⟩]]) (by decide +kernel)
  obtain ⟨hquiet, hvars⟩ := Prod.mk.inj hseen
  obtain ⟨f, hf, hf'⟩ := List.mem_map.1 (hvars ▸ List.mem_singleton_self _)
  obtain ⟨-, -, -, -, hwritten⟩ := temporaries_fresh retryLoop_resolved hlower
  exact ⟨lowered, f, hlower, hquiet, hf, hf', hwritten f hf⟩

/-- The unit `int f(void) { int a; goto skip; a = a ? 1 : 2; skip: return c; }`. The constant `c`,
which is not among the declarations, is said to be the entity behind the last one of the table. -/
def danglingConstant : Source.ProgramUnit where
  types := []
  program :=
    let a : Source.Expr := .var .int ⟨1⟩
    { entities := ⟨[
        { name := "f", ref := .function (.integer .int true) [] false,
          kind := .definedFunction [] (.mk [⟨1⟩] [
            .goto none "skip",
            .expr none (.assign .int a (.cond .int a (.int .int 1) (.int .int 2))),
            .label none "skip" (.ret none (some (.var .int ⟨2⟩)))]) },
        { name := "a", ref := .integer .int true, kind := .definedVariable none },
        { name := "c", ref := .integer .int true, kind := .constant (.var .int ⟨3⟩) }]⟩
      declarations := [⟨0⟩] }

/-- The variable that an expression reads, and how wide it is read. -/
def Ir.Expr.read? : Ir.Expr → Option (Width × EntityId)
  | .var w v => some (w, v)
  | _ => none

/-- No error is reported: when the constant is inlined, its entity has become the temporary of the
conditional expression. The jump leads past the statements that write it. -/
theorem Source.ProgramUnit.temporary_unwritten :
    ∃ lowered f passed st rest w v, danglingConstant.Lowers .ilp32 lowered ∧
      f ∈ lowered.module.functions ∧ Ir.Path f.body.toList passed (st :: rest) ∧
      .var w v ∈ st.action.reads ∧ danglingConstant.program.entities.size ≤ v.index ∧
      ∀ st' ∈ passed, ¬ st'.Writes v := by
  -- the kernel lowers the unit once; the jump and the read behind its label are seen in the result
  obtain ⟨lowered, hlowers, hseen⟩ := exists_lowers danglingConstant .ilp32
    (fun lowered => lowered.module.functions.map fun f =>
      ((f.body.toList.take 1).map (·.targets),
        ((Ir.after? ⟨0⟩ f.body.toList).getD []).map (·.action.reads.filterMap Ir.Expr.read?)))
    [([[⟨0⟩]], [[(.w32, ⟨3⟩)]])] (by decide +kernel)
  obtain ⟨f, hfunctions, hf⟩ := List.map_eq_singleton_iff.1 hseen
  obtain ⟨hfirst, hlast⟩ := Prod.mk.inj hf
  obtain ⟨first, htake, htargets⟩ := List.map_eq_singleton_iff.1 hfirst
  have hbody : f.body.toList = first :: f.body.toList.drop 1 := by
    rw [← List.take_append_drop 1 f.body.toList, htake]
    rfl
  obtain ⟨st, hget, hst⟩ := List.map_eq_singleton_iff.1 hlast
  have hbehind : Ir.after? ⟨0⟩ f.body.toList = some [st] := by
    cases hafter : Ir.after? ⟨0⟩ f.body.toList with
    | none =>
      rw [hafter] at hget
      cases hget
    | some rest =>
      rw [hafter] at hget
      exact congrArg some hget
  obtain ⟨e, he, hread⟩ := List.mem_filterMap.1 (hst ▸ List.mem_singleton_self _)
  -- the jump leads behind the label, where the temporary is read, past all that writes it
  have hstart : Ir.Path f.body.toList [] (first :: f.body.toList.drop 1) := hbody ▸ .start
  have hpath : Ir.Path f.body.toList [first] [st] :=
    hstart.jump (htargets ▸ List.mem_singleton_self _) hbehind
  refine ⟨lowered, f, [first], st, [], .w32, ⟨3⟩, hlowers, by simp [hfunctions], hpath,
    ?_, by decide, ?_⟩
  · cases e <;> cases hread
    exact he
  · rintro st' hst' ⟨ptr, value, haction⟩
    obtain rfl := List.mem_singleton.1 hst'
    simp [Ir.Stmt.targets, haction] at htargets

end Backend386
