import Backend386.Proofs.Lowering.Bodies
import Backend386.Proofs.PlacedOnce

/-!
# Widths of accesses

Nothing checks the types that the expressions of a unit carry. Where they fit each other, what every
expression is lowered to is as wide as its type, and every store is inside its object.

* `Lowering.reachable`, `Lowering.measured` — the types that are left behind can be measured;
* `Lowering.course` — the lowering of a unit as a course, and `Lowering.sound` — the types that it
  carries fit each other;
* `Lowering.accesses_inside` — so reads and stores fit the types.
-/

namespace Backend386

/-! ## Types that are looked up -/

section

variable {profile : WidthProfile} {types types' : TypeTable} {ds : Diagnostics}

theorem checkedTypes_reachable {definitions : List TypeDefinition}
    (h : checkedTypes profile definitions = .ok (types, ds)) :
    TypeTable.Reachable profile types := by
  obtain ⟨t, hdefine, hsettle, -⟩ := checkedTypes_eq_ok_iff.1 h
  exact .settle (TypeTable.Reachable.initial.defineAll hdefine) hsettle

/-- Types can be measured when the definitions have passed the check. -/
theorem checkedTypes_measured {definitions : List TypeDefinition}
    (hprofile : profile ∈ WidthProfile.all)
    (h : checkedTypes profile definitions = .ok (types, ds)) (hquiet : ds.hasErrors = false) :
    types.Measured := by
  obtain ⟨hcomplete, hsound, hsame⟩ := checkedTypes_sound h hquiet
  exact ⟨hsound.acyclic, hcomplete, hsame ▸ TypeTable.scalarSizes hprofile,
    (checkedTypes_reachable h).coherent⟩

/-- Settling the types of entities only interns what they refer to. -/
theorem EntityTable.settleTypesOf_reachable {es es' : List Entity}
    (ht : TypeTable.Reachable profile types) (h : settleTypesOf types es = .ok (types', es')) :
    TypeTable.Reachable profile types' := by
  induction es generalizing types es' with
  | nil =>
    obtain ⟨rfl, -⟩ := Prod.mk.inj (Except.ok.inj h)
    exact ht
  | cons e es ih =>
    obtain ⟨⟨types₁, e₁⟩, he, h⟩ := bind_eq_ok_iff.1 h
    obtain ⟨⟨types₂, es₁⟩, hes, h⟩ := bind_eq_ok_iff.1 h
    obtain ⟨rfl, rfl⟩ := Prod.mk.inj (Except.ok.inj h)
    rcases settleType_eq_ok he with ⟨rfl, -⟩ | ⟨ref, type, -, hintern, -⟩
    · exact ih ht hes
    · exact ih (ht.intern hintern) hes

/-- The lowering only interns references, so that its tables can be reached as well. -/
theorem Lower.Step.reachable {p : Source.Part} {s s' : LowerState} (h : Step p s s')
    (ht : TypeTable.Reachable profile s.types) : TypeTable.Reachable profile s'.types := by
  cases h with
  | typeId _ h => exact ht.intern h
  | pointerTo h =>
    obtain ⟨ref, -, hintern⟩ := Backend386.bind_eq_ok_iff.1 h
    exact ht.intern hintern
  | _ => exact ht

/-- From the first function to the last, every table of types can be reached. -/
theorem Lower.UnitSteps.reachable {w : Walk} {s s' : LowerState} (h : UnitSteps w s s')
    (ht : TypeTable.Reachable profile s.types) : TypeTable.Reachable profile s'.types := by
  induction h with
  | refl => exact ht
  | tail _ h ih =>
    cases h with
    | inner h => exact h.step.reachable ih
    | _ => exact ih

end

/-! ## The course of a unit -/

/-- All that is lowered with a program. -/
def Source.Program.part (p : Source.Program) : Source.Part :=
  (Source.Part.ofTable p.entities).closure p.entities

/-- Temporaries hold no expressions, so that a part stays closed. -/
theorem EntityTable.Readied.closed {t t' : EntityTable} (h : t.Readied t') {part : Source.Part} :
    (part.closure t).Closed t' where
  operand := .operand
  constant := fun he hc hv => by
    rcases h.get_cases hc with ⟨c, hc₀, type, uses, sequence, rfl⟩ | ⟨htemp, -⟩
    · exact .constant he hc₀ hv
    · rw [Entity.constantValue?, htemp.kind] at hv
      cases hv
  initial := fun hvar hv _ hi => by
    rcases h.get_cases hv with ⟨v, hv₀, type, uses, sequence, rfl⟩ | ⟨htemp, -⟩
    · exact .initial hvar hv₀ hi
    · rw [Entity.initializer?, htemp.kind] at hi
      cases hi

namespace Lowering

variable {p : Source.Program} {profile : WidthProfile} {types : TypeTable} {ds : Diagnostics}
  {lowered : Lowered} {definitions : List TypeDefinition}

/-- Types are looked up one after another. -/
theorem reachable (l : Lowering p types ds lowered) (ht : TypeTable.Reachable profile types) :
    TypeTable.Reachable profile l.final.types := by
  obtain ⟨entities, hsettle, -⟩ := l.settle
  obtain ⟨⟨types₁, es⟩, hes, h⟩ := bind_eq_ok_iff.1 hsettle
  obtain ⟨rfl, -⟩ := Prod.mk.inj (Except.ok.inj h)
  exact (l.steps (w := .any) (Source.Part.covers_all _)).reachable
    (EntityTable.settleTypesOf_reachable ht hes)

/-- The types that are left behind can be measured, like those that have passed the check. -/
theorem measured (l : Lowering p types ds lowered) (hprofile : profile ∈ WidthProfile.all)
    (htypes : checkedTypes profile definitions = .ok (types, ds)) (hquiet : ds.hasErrors = false) :
    l.final.types.Measured :=
  (checkedTypes_measured hprofile htypes hquiet).of_extends (l.types_eq ▸ l.types_extends)
    (l.reachable (checkedTypes_reachable htypes)).coherent

/-- The lowering of a program, from its first state to its last one. -/
def course (l : Lowering p types ds lowered) : Lower.Course :=
  ⟨p.part, l.start, l.final⟩

/-- What the check of the types and the annotations promise is what the accesses rely on. -/
theorem sound (l : Lowering p types ds lowered) (hprofile : profile ∈ WidthProfile.all)
    (htypes : checkedTypes profile definitions = .ok (types, ds)) (hquiet : ds.hasErrors = false)
    (hannotated : p.part.Annotated lowered.types lowered.module.entities)
    (hproper : p.part.Proper lowered.types lowered.module.entities) : l.course.Sound := by
  rw [l.types_eq, l.entities] at hannotated hproper
  constructor
  case measured => exact l.measured hprofile htypes hquiet
  case typed => exact fun _ _ he => (l.readied l.carried).typed he
  case closed => exact (l.readied l.carried).closed
  case annotated => exact hannotated
  case proper => exact hproper

/-- The body of a function is part of the program. -/
theorem holds_body (l : Lowering p types ds lowered) {s : LowerState} (hs : Lower.Carried l.start s)
    {id : EntityId} {e : Entity} {params : List EntityId} {body : Source.Block}
    (he : s.entities.get id = .ok e) (hkind : e.kind = .definedFunction params body) :
    l.course.Holds body.exprs body.scope.variablesOfTree body.switches := by
  rcases (l.readied hs).get_cases he with ⟨e₀, he₀, type, uses, sequence, rfl⟩ | ⟨htemp, -⟩
  · have hkind : e₀.kind = .definedFunction params body := hkind
    refine ⟨fun x hx => .root ⟨id, e₀, he₀, ?_⟩, fun _ _ => trivial, fun x hx => ⟨id, e₀, he₀, ?_⟩⟩
    · rwa [Entity.exprs, hkind]
    · rwa [Entity.switches, hkind]
  · rw [htemp.kind] at hkind
    cases hkind

/-- Where the types of a unit fit each other, what an expression is lowered to is as wide as its
type, every read is as wide as what is read, and every store fills its object or one piece of it; a
member of a variable is inside the variable. -/
theorem accesses_inside (l : Lowering p types ds lowered) (hprofile : profile ∈ WidthProfile.all)
    (htypes : checkedTypes profile definitions = .ok (types, ds)) (hquiet : ds.hasErrors = false)
    (hannotated : p.part.Annotated lowered.types lowered.module.entities)
    (hproper : p.part.Proper lowered.types lowered.module.entities) :
    (∀ e x, p.part.exprs e → l.course.Gives e x → ∃ type,
      lowered.types.lookup? e.type = some type ∧ lowered.types.registerWidth type = .ok x.width) ∧
    (∀ f ∈ lowered.module.functions, l.course.TypedCode f.body.toList) ∧
    ∀ e v a type, p.part.exprs e → Source.MemberOf lowered.module.entities v e →
      lowered.types.lookup? e.type = some type → l.course.ObjectAt e a →
      l.course.Inside v type a := by
  have hs := l.sound hprofile htypes hquiet hannotated hproper
  -- a result was lowered in a state between the first and the last one, so what the walk tells of
  -- it counts
  have hdelivered {e : Source.Expr} {x : Ir.Expr} (he : p.part.exprs e) (h : l.course.Gives e x) :
      ∃ type s, l.course.Delivered e type x s := by
    obtain ⟨depth, d, s, s', hfirst, hrun, hlast⟩ := h
    have hgrown : Lower.Grown s s' := Lower.Additive.grown inferInstance hrun
    obtain ⟨type, hx⟩ := (Lower.Course.leads_lowerWithin hs depth he hfirst
      (hgrown.carried.trans hlast) hrun hlast).2 x rfl
    exact ⟨type, s', hx⟩
  rw [l.types_eq, l.entities]
  refine ⟨fun e x he hx => ?_, fun f hf => ?_, fun e v a type he hv htype ha => ?_⟩
  · obtain ⟨type, s, h⟩ := hdelivered he hx
    exact ⟨type, h.hasType, h.valued.width⟩
  · obtain ⟨id, -, s₁, s₂, -, h₁, h₂, hrun, -⟩ := l.functionsFrom.function hf
    have hfirst := l.declares.carried.trans h₁
    exact Lower.Course.typedCode_function hs hfirst hrun h₂ fun e params body => l.holds_body hfirst
  · obtain ⟨x, type', hx, htype', haddress⟩ := ha
    obtain ⟨σ, s, h⟩ := hdelivered he hx
    obtain rfl := Option.some.inj (htype.symm.trans htype')
    exact (h.of_hasType htype').inside v hv a haddress

end Lowering

/-! ## Units whose types can be checked -/

namespace Source

variable {p : Program} {t : TypeTable} {entities : EntityTable} {exprs : List Expr}

/-- A list that holds what is defined, and all operands, holds all that is lowered. -/
theorem Program.mem_of_part (hroots : ∀ d ∈ p.entities.entries, ∀ e ∈ d.exprs, e ∈ exprs)
    (hoperands : ∀ e ∈ exprs, ∀ o ∈ e.operands, o ∈ exprs) {e : Expr} (h : p.part.exprs e) :
    e ∈ exprs := by
  induction h with
  | root h =>
    obtain ⟨id, d, hd, he⟩ := h
    exact hroots d (EntityTable.mem_of_get hd) _ he
  | operand _ ho ih => exact hoperands _ ih _ ho
  | constant _ hc hv =>
    exact hroots _ (EntityTable.mem_of_get hc) _ (Entity.mem_exprs_of_constantValue hv)
  | initial _ hv hi =>
    exact hroots _ (EntityTable.mem_of_get hv) _ (Entity.mem_exprs_of_initializer hi)

/-- The widths of the variables that are initialized. -/
def InitialWidths (t : TypeTable) (entities : EntityTable) : Prop :=
  ∀ v ∈ entities.entries, ∀ init ∈ v.initializer?, ∀ τ ∈ v.type.toOption,
    t.Known init.type fun σ => t.registerWidth σ = t.registerWidth τ

instance : Decidable (InitialWidths t entities) :=
  inferInstanceAs (Decidable (∀ v ∈ entities.entries, ∀ init ∈ v.initializer?,
    ∀ τ ∈ v.type.toOption, t.Known init.type fun _ => _))

/-- A part is annotated if a list holds all of its expressions and each of them is annotated. -/
theorem Program.annotated_of (hpart : ∀ e, p.part.exprs e → e ∈ exprs)
    (hexprs : ∀ e ∈ exprs, e.Annotated t entities)
    (hswitches : ∀ d ∈ p.entities.entries, d.switches = []) (hinitial : InitialWidths t entities) :
    p.part.Annotated t entities where
  expr := fun e he => hexprs e (hpart e he)
  switch := by
    rintro e ⟨id, d, hd, he⟩
    rw [hswitches d (EntityTable.mem_of_get hd)] at he
    cases he
  initial := fun id v τ init _ hv hτ hinit =>
    hinitial v (EntityTable.mem_of_get hv) init hinit τ (by rw [hτ]; rfl)

end Source

/-- The unit `struct pair { char tag; int count; }; int next(void) { struct pair p; p.count = 1;
return p.count; }`. -/
def counted : Source.ProgramUnit where
  types := [.composite .struct "pair" [⟨"tag", .integer .char true, none⟩,
    ⟨"count", .integer .int true, none⟩] none]
  program :=
    let p : Source.Expr := .var { type := .struct "pair" } ⟨0⟩
    let count : Source.Expr := .member .int p "count"
    { entities := ⟨[
        { name := "p", ref := .struct "pair", kind := .definedVariable none },
        { name := "next", ref := .function (.integer .int true) [] false,
          kind := .definedFunction [] (.mk [⟨0⟩] [
            .expr none (.assign .int count (.int .int 1)), .ret none (some count)]) }]⟩
      declarations := [⟨1⟩] }

/-- The expressions of the unit. -/
def countedExprs : List Source.Expr :=
  let p : Source.Expr := .var { type := .struct "pair" } ⟨0⟩
  let count : Source.Expr := .member .int p "count"
  [p, count, .int .int 1, .assign .int count (.int .int 1)]

/-- The expressions of the example are listed. -/
theorem mem_countedExprs (e : Source.Expr) (h : counted.program.part.exprs e) :
    e ∈ countedExprs := by
  refine Source.Program.mem_of_part ?_ ?_ h
  · simp [counted, countedExprs, Entity.exprs, Source.Block.exprs, Source.exprsOfStmts,
      Source.Stmt.exprs]
  · simp [countedExprs, Source.Expr.operands]

/-- The member is stored inside the variable. -/
theorem Lowering.accesses_inside_counted :
    ∃ (types : TypeTable) (ds : Diagnostics) (lowered : Lowered)
      (l : Lowering counted.program types ds lowered),
      checkedTypes .ilp32 counted.types = .ok (types, ds) ∧
      lowered.module.functions.map (·.body.size) = [2] ∧
      ∀ f ∈ lowered.module.functions, l.course.TypedCode f.body.toList := by
  -- the kernel runs the compiler once, and everything that is decided is read off its result
  obtain ⟨lowered, ⟨types, ds, htypes, hquiet, hlower, -⟩, hseen⟩ :=
    Source.ProgramUnit.exists_lowers counted .ilp32
      (fun lowered => (lowered.module.functions.map (·.body.size),
        decide ((∀ e ∈ countedExprs, e.Annotated lowered.types lowered.module.entities) ∧
          Source.InitialWidths lowered.types lowered.module.entities),
        decide (∀ e ∈ countedExprs, e.Proper lowered.types),
        decide (∀ v ∈ lowered.module.entities.entries, v.initializer?.isNone)))
      ([2], true, true, true) (by decide +kernel)
  simp only [Prod.mk.injEq, decide_eq_true_eq] at hseen
  obtain ⟨hsizes, ⟨hannotated, hinitial⟩, hproper, hnone⟩ := hseen
  obtain ⟨l⟩ := lowering_of_ok hlower
  refine ⟨types, ds, lowered, l, htypes, hsizes, (l.accesses_inside ?_ htypes hquiet
    (Source.Program.annotated_of mem_countedExprs hannotated ?_ hinitial) ⟨?_, ?_⟩).2.1⟩
  · decide
  · simp [counted, Entity.switches, Source.Block.switches, Source.switchesOfStmts,
      Source.Stmt.switches]
  · exact fun e he => hproper e (mem_countedExprs e he)
  · intro id v τ init _ hv _ hinit
    have hnone := hnone v (EntityTable.mem_of_get hv)
    rw [hinit] at hnone
    cases hnone

/-- The unit `struct tag { char mark; }; void f(void) { void v = 1; char c = ""; char d = &c;
struct tag *p; *p += 1; &(*p)++; return f = 1; }`, where the string and the address are said to be
chars. -/
def misfits : Source.ProgramUnit where
  types := [.composite .struct "tag" [⟨"mark", .integer .char true, none⟩] none]
  program :=
    let char : Source.Note := { type := .integer .char true }
    let tag : Source.Note := { type := .struct "tag" }
    let pointer : Source.Note := { type := .pointer (.struct "tag") }
    let function : Source.Note := { type := .function .void [] false }
    { entities := ⟨[
        { name := "v", ref := .void, kind := .definedVariable (some (.int .int 1)) },
        { name := "c", ref := char.type, kind := .definedVariable (some (.str char "")) },
        { name := "d", ref := char.type,
          kind := .definedVariable (some (.addr char (.var char ⟨1⟩))) },
        { name := "p", ref := pointer.type, kind := .definedVariable none },
        { name := "f", ref := function.type,
          kind := .definedFunction [] (.mk [⟨0⟩, ⟨1⟩, ⟨2⟩, ⟨3⟩] [
            .expr none (.opAssign tag .add (.deref tag (.var pointer ⟨3⟩)) (.int .int 1)),
            .expr none (.addr pointer (.postStep tag .inc (.deref tag (.var pointer ⟨3⟩)))),
            .ret none (some (.assign function (.var function ⟨4⟩) (.int .int 1)))]) }]⟩
      declarations := [⟨4⟩] }

/-- The expressions of the unit. -/
def misfitsExprs : List Source.Expr :=
  let char : Source.Note := { type := .integer .char true }
  let tag : Source.Note := { type := .struct "tag" }
  let pointer : Source.Note := { type := .pointer (.struct "tag") }
  let function : Source.Note := { type := .function .void [] false }
  let object : Source.Expr := .deref tag (.var pointer ⟨3⟩)
  [.int .int 1, .str char "", .var char ⟨1⟩, .addr char (.var char ⟨1⟩), .var pointer ⟨3⟩, object,
    .opAssign tag .add object (.int .int 1), .postStep tag .inc object,
    .addr pointer (.postStep tag .inc object), .var function ⟨4⟩,
    .assign function (.var function ⟨4⟩) (.int .int 1)]

/-- Nothing else stands in the unit, whatever is lowered along with its functions. -/
theorem mem_misfitsExprs (e : Source.Expr) (h : misfits.program.part.exprs e) :
    e ∈ misfitsExprs := by
  refine Source.Program.mem_of_part ?_ ?_ h
  · simp [misfits, misfitsExprs, Entity.exprs, Source.Block.exprs, Source.exprsOfStmts,
      Source.Stmt.exprs]
  · simp [misfitsExprs, Source.Expr.operands]

/-- The size of the object that an entity stands for, if it has one. -/
def Lowered.sizeOf? (lowered : Lowered) (id : EntityId) : Option Nat :=
  let size : Except Fault Nat := do
    lowered.types.sizeOf (← (← lowered.module.entities.get id).typeId)
  size.toOption

/-- The variable that a statement stores into, and how wide the value is. -/
def Ir.Action.storedIn? : Ir.Action → Option (EntityId × Width)
  | .assign (.addr _ v) value => some (v, value.width)
  | _ => none

/-- The variable that an expression reads. -/
def Ir.Expr.variable? : Ir.Expr → Option EntityId
  | .var _ v => some v
  | _ => none

set_option synthInstance.maxSize 1000 in
/-- The types of the unit fit each other. Four bytes are stored in variables and a temporary of one
byte; what is stored for the object behind `p` is stored in `p`; and temporaries of a struct and of
a function are read as values. -/
theorem Lowering.accesses_inside_misfits :
    ∃ lowered, misfits.Lowers .ilp32 lowered ∧
      misfits.program.part.Annotated lowered.types lowered.module.entities ∧
      [⟨0⟩, ⟨1⟩, ⟨2⟩, ⟨5⟩, ⟨6⟩].map lowered.sizeOf? = [some 1, some 1, some 1, some 1, none] ∧
      (lowered.module.functions.map fun f => f.body.toList.filterMap (·.action.storedIn?)) =
        [[(⟨0⟩, .w32), (⟨1⟩, .w32), (⟨2⟩, .w32), (⟨3⟩, .w32), (⟨5⟩, .w32), (⟨3⟩, .w32),
          (⟨6⟩, .w32), (⟨4⟩, .w32)]] ∧
      (lowered.module.functions.map fun f =>
        f.body.toList.flatMap (·.action.reads.filterMap Ir.Expr.variable?)) =
        [[⟨3⟩, ⟨3⟩, ⟨5⟩, ⟨5⟩, ⟨6⟩, ⟨6⟩]] := by
  -- one run again, which decides the premises and what is to be seen
  obtain ⟨lowered, hlowers, hseen⟩ :=
    Source.ProgramUnit.exists_lowers misfits .ilp32
      (fun lowered => (
        decide ((∀ e ∈ misfitsExprs, e.Annotated lowered.types lowered.module.entities) ∧
          Source.InitialWidths lowered.types lowered.module.entities),
        [⟨0⟩, ⟨1⟩, ⟨2⟩, ⟨5⟩, ⟨6⟩].map lowered.sizeOf?,
        lowered.module.functions.map fun f => f.body.toList.filterMap (·.action.storedIn?),
        lowered.module.functions.map fun f =>
          f.body.toList.flatMap (·.action.reads.filterMap Ir.Expr.variable?)))
      (true, [some 1, some 1, some 1, some 1, none],
        [[(⟨0⟩, .w32), (⟨1⟩, .w32), (⟨2⟩, .w32), (⟨3⟩, .w32), (⟨5⟩, .w32), (⟨3⟩, .w32),
          (⟨6⟩, .w32), (⟨4⟩, .w32)]],
        [[⟨3⟩, ⟨3⟩, ⟨5⟩, ⟨5⟩, ⟨6⟩, ⟨6⟩]]) (by decide +kernel)
  simp only [Prod.mk.injEq, decide_eq_true_eq] at hseen
  obtain ⟨⟨hannotated, hinitial⟩, hrest⟩ := hseen
  refine ⟨lowered, hlowers, Source.Program.annotated_of mem_misfitsExprs hannotated ?_ hinitial,
    hrest⟩
  simp [misfits, Entity.switches, Source.Block.switches, Source.switchesOfStmts,
    Source.Stmt.switches]

end Backend386
