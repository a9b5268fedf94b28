import Backend386.Proofs.I386.SymbolNames
import Backend386.Proofs.Lowering.Rounds
import Backend386.Proofs.StaticValues
import Backend386.Proofs.Types.Canonical

/-!
# Symbols and labels do not clash

The symbols of a listing come from the names of the program, from the numbers of static local
variables, from the string table and from the supply of labels. Static local variables of one name
are counted over the whole unit, and labels are taken from one supply, so a unit whose declared
names are distinct and have no dots defines no symbol twice.

* `Lower.NumberedApart` — static variables of one name have different numbers, kept while functions
  are lowered;
* `definedLabels_nodup` — no label is placed twice, by a function or an epilogue;
* `Source.Program.NamedApart` — what is asked of the names of a program;
* `Source.ProgramUnit.symbols_apart` — then no symbol of the listing is defined twice, and every
  jump stays inside its function.
-/

namespace Backend386

namespace Lower

variable {s s' : LowerState} {before after : List String} {numbered ids : List EntityId}
  {id : EntityId}

/-! ## Numbers -/

/-- The static variables that have been numbered, with the names that were counted: variables of one
name have different numbers, below the count of the name. -/
structure NumberedApart (before : List String) (numbered : List EntityId) (s : LowerState) :
    Prop where
  below : ∀ id ∈ numbered, ∃ e n, s.entities.get id = .ok e ∧ e.sequence = some n ∧
    n < before.count e.name
  apart : ∀ id ∈ numbered, ∀ id' ∈ numbered, ∀ e e', s.entities.get id = .ok e →
    s.entities.get id' = .ok e' → e.name = e'.name → e.sequence = e'.sequence → id = id'

namespace NumberedApart

theorem nil (s : LowerState) : NumberedApart [] [] s where
  below := by simp
  apart := by simp

/-- Entities that are appended have no numbers to compare. -/
theorem appends {α : Type} {m : Lower α} [Appends m] {x : α} (h : NumberedApart before numbered s)
    (hm : m s = .ok (x, s')) : NumberedApart before numbered s' := by
  have hnone : Kept (fun _ => False) s s' := Appends.kept hm
  have hkept {id : EntityId} {e : Entity} (he : s.entities.get id = .ok e) :
      s'.entities.get id = .ok e :=
    (hnone he).resolve_right fun hnot => hnot.1
  -- what was numbered is the same before and after
  have hsame {id : EntityId} (hid : id ∈ numbered) {e : Entity} (he : s'.entities.get id = .ok e) :
      s.entities.get id = .ok e := by
    obtain ⟨e₀, n, he₀, -⟩ := h.below id hid
    rwa [← (hkept he₀).symm.trans he]
  refine ⟨fun id hid => ?_, fun id hid id' hid' e e' he he' => ?_⟩
  · obtain ⟨e, n, he, hrest⟩ := h.below id hid
    exact ⟨e, n, hkept he, hrest⟩
  · exact h.apart id hid id' hid' e e' (hsame hid he) (hsame hid' he')

/-- The next variable of a name gets a number that no other has. -/
theorem number (h : NumberedApart before numbered s)
    (hnumber : numberStatic before id s = .ok (after, s')) :
    NumberedApart after (numbered ++ [id]) s' := by
  obtain ⟨e, he, hnumber⟩ := lift_bind_eq_ok (get_bind_eq_ok hnumber)
  obtain ⟨rfl, rfl⟩ := Prod.mk.inj (Except.ok.inj hnumber)
  have hself := EntityTable.get_set_self (e := { e with sequence := some (before.count e.name) })
    (EntityTable.lt_of_get he)
  have hmem {x : EntityId} (hx : x ∈ numbered ++ [id]) (hne : x ≠ id) : x ∈ numbered :=
    (List.mem_append.1 hx).resolve_right fun h => hne (List.mem_singleton.1 h)
  -- the others of the same name have numbers below
  have hfresh {x : EntityId} (hx : x ∈ numbered) {e' : Entity} (he' : s.entities.get x = .ok e')
      (hname : e.name = e'.name) : some (before.count e.name) ≠ e'.sequence := by
    obtain ⟨e₁, n, he₁, hn, hlt⟩ := h.below x hx
    obtain rfl := Except.ok.inj (he₁.symm.trans he')
    rw [hn, hname]
    exact fun heq => absurd (Option.some.inj heq) (Nat.ne_of_gt hlt)
  refine ⟨fun x hx => ?_, fun x hx y hy ex ey hex hey hname hsequence => ?_⟩
  · by_cases hxid : x = id
    · subst hxid
      exact ⟨_, _, hself, rfl, by simp⟩
    · obtain ⟨e', n, he', hn, hlt⟩ := h.below x (hmem hx hxid)
      refine ⟨e', n, (EntityTable.get_set_of_ne hxid).trans he', hn, ?_⟩
      rw [List.count_append]
      exact Nat.lt_add_right _ hlt
  · by_cases hxid : x = id <;> by_cases hyid : y = id
    · rw [hxid, hyid]
    · subst hxid
      obtain rfl := Except.ok.inj (hself.symm.trans hex)
      rw [EntityTable.get_set_of_ne hyid] at hey
      exact absurd hsequence (hfresh (hmem hy hyid) hey hname)
    · subst hyid
      obtain rfl := Except.ok.inj (hself.symm.trans hey)
      rw [EntityTable.get_set_of_ne hxid] at hex
      exact absurd hsequence.symm (hfresh (hmem hx hxid) hex hname.symm)
    · rw [EntityTable.get_set_of_ne hxid] at hex
      rw [EntityTable.get_set_of_ne hyid] at hey
      exact h.apart x (hmem hx hxid) y (hmem hy hyid) ex ey hex hey hname hsequence

/-- The static variables of a function are numbered one after another. -/
theorem staticLocals {vars : List Ir.StaticVariable} (h : NumberedApart before numbered s)
    (hlocals : Lower.staticLocals before ids s = .ok ((after, vars), s')) :
    NumberedApart after (numbered ++ ids) s' := by
  induction ids generalizing before numbered vars s with
  | nil =>
    obtain ⟨hpair, rfl⟩ := Prod.mk.inj (Except.ok.inj hlocals)
    obtain ⟨rfl, -⟩ := Prod.mk.inj hpair
    rwa [List.append_nil]
  | cons id ids ih =>
    obtain ⟨names, s₁, hnumber, hlocals⟩ := bind_eq_ok_iff.1 hlocals
    obtain ⟨v, s₂, hvar, hlocals⟩ := bind_eq_ok_iff.1 hlocals
    obtain ⟨⟨after', vs⟩, s₃, hothers, hlocals⟩ := bind_eq_ok_iff.1 hlocals
    obtain ⟨hpair, rfl⟩ := Prod.mk.inj (Except.ok.inj hlocals)
    obtain ⟨rfl, -⟩ := Prod.mk.inj hpair
    have hnext := ih ((h.number hnumber).appends hvar) hothers
    rwa [List.append_assoc] at hnext

/-- The count of names goes on from one function to the next. -/
theorem functions {fs : List Ir.Function} {vars : List Ir.StaticVariable}
    (h : NumberedApart before numbered s)
    (hfunctions : Lower.functions before ids s = .ok ((fs, vars), s')) :
    ∃ after, NumberedApart after (numbered ++ vars.map (·.entity)) s' := by
  induction ids generalizing before numbered fs vars s with
  | nil =>
    obtain ⟨hpair, rfl⟩ := Prod.mk.inj (Except.ok.inj hfunctions)
    obtain ⟨-, rfl⟩ := Prod.mk.inj hpair
    exact ⟨before, by rwa [List.map_nil, List.append_nil]⟩
  | cons id ids ih =>
    obtain ⟨f, s₁, hf, hfunctions⟩ := bind_eq_ok_iff.1 hfunctions
    obtain ⟨statics, -, hfunctions⟩ := lift_bind_eq_ok (get_bind_eq_ok hfunctions)
    obtain ⟨⟨after, vars⟩, s₂, hlocals, hfunctions⟩ := bind_eq_ok_iff.1 hfunctions
    obtain ⟨⟨fs, more⟩, s₃, hfs, hfunctions⟩ := bind_eq_ok_iff.1 hfunctions
    obtain ⟨hpair, rfl⟩ := Prod.mk.inj (Except.ok.inj hfunctions)
    obtain ⟨-, rfl⟩ := Prod.mk.inj hpair
    obtain ⟨last, hlast⟩ := ih ((h.appends hf).staticLocals hlocals) hfs
    refine ⟨last, ?_⟩
    rwa [List.map_append, (staticLocals_eq_ok hlocals).1, ← List.append_assoc]

end NumberedApart

end Lower

/-! ## Labels -/

/-- No label is placed twice, in one function or in two, and the labels of the epilogues are new. -/
theorem definedLabels_nodup {p : Source.Program} {types : TypeTable} {ds : Diagnostics}
    {lowered : Lowered} (h : lowerProgram p types ds = .ok lowered) :
    lowered.module.definedLabels.Nodup := by
  obtain ⟨⟨typed, entities⟩, -, h⟩ := bind_eq_ok_iff.1 h
  obtain ⟨program, -, h⟩ := bind_eq_ok_iff.1 h
  obtain ⟨lowered', hlower, h⟩ := bind_eq_ok_iff.1 h
  obtain ⟨ds', -, h⟩ := bind_eq_ok_iff.1 h
  obtain rfl := Except.ok.inj h
  obtain ⟨declared, s, runs, s', -, hruns, hfunctions, hlabels, -⟩ := Lower.lower_eq_ok hlower
  rw [Ir.Module.definedLabels, hfunctions, hlabels, List.flatMap_map]
  refine List.nodup_append.2 ⟨hruns.nodup, ?_, fun l hl l' hl' heq => ?_⟩
  · exact List.Nodup.map (fun _ _ h => Ir.Label.mk.inj h) List.nodup_range'
  · obtain ⟨r, hr, hl⟩ := List.mem_flatMap.1 hl
    obtain ⟨n, hn, rfl⟩ := List.mem_map.1 hl'
    have hbefore := (hruns.handed hr hl).2
    have hafter := (List.mem_range'_1.1 hn).1
    rw [heq] at hbefore
    exact absurd hbefore (Nat.not_lt.2 hafter)

/-! ## Names -/

/-- The declared names are distinct, and neither they nor those of static local variables have dots.
Numbers are for the lowering to give. -/
structure Source.Program.NamedApart (p : Source.Program) : Prop where
  names : ∀ id ∈ p.declarations, ∀ id' ∈ p.declarations, ∀ e e', p.entities.get id = .ok e →
    p.entities.get id' = .ok e' → e.name = e'.name → id = id'
  dotless : ∀ v e, p.IsStatic v → p.entities.get v = .ok e → Dotless e.name
  unnumbered : ∀ id ∈ p.declarations, ∀ e, p.entities.get id = .ok e → e.sequence = none

namespace Lowering

variable {p : Source.Program} {types : TypeTable} {ds : Diagnostics} {lowered : Lowered}

/-- What is declared is there: its uses were looked for. -/
theorem exists_declared (l : Lowering p types ds lowered) {id : EntityId}
    (h : id ∈ p.declarations) : ∃ e, p.entities.get id = .ok e := by
  obtain ⟨entities, hsettle, hmark⟩ := l.settle
  obtain ⟨-, hsize⟩ := EntityTable.settleTypes_eq_ok hsettle
  obtain ⟨used, hused, -⟩ := bind_eq_ok_iff.1 hmark
  obtain ⟨parts, hparts, -⟩ := bind_eq_ok_iff.1 hused
  obtain ⟨part, -, hpart⟩ := (mapM_eq_ok hparts).1 id h
  obtain ⟨e, he, -⟩ := bind_eq_ok_iff.1 hpart
  exact EntityTable.exists_get (hsize ▸ EntityTable.lt_of_get he)

/-- What the listing defines is declared, or is a static variable of a function. -/
theorem definedEntities_cases (l : Lowering p types ds lowered) {id : EntityId}
    (h : id ∈ lowered.module.definedEntities) :
    id ∈ p.declarations ∨ id ∈ l.statics.map (·.entity) := by
  rw [Ir.Module.definedEntities, l.vars, List.map_append, l.functionsFrom.map_entity] at h
  rcases List.mem_append.1 h with h | h
  · refine (List.mem_append.1 h).imp_left fun h => ?_
    obtain ⟨v, hv, rfl⟩ := List.mem_map.1 h
    rcases l.declares.var v hv with hv | ⟨hid, -⟩
    · cases hv
    · exact hid
  · exact .inl (l.declared_functions.mem h)

/-- What is declared, and no static variable of a function, has its name for a symbol. -/
theorem symbolOf_declared (l : Lowering p types ds lowered) (h : p.NamedApart) {id : EntityId}
    (hid : id ∈ p.declarations) (hnot : id ∉ l.statics.map (·.entity)) {e : Entity}
    (he : p.entities.get id = .ok e) : lowered.module.entities.symbolOf id = .named e.name := by
  obtain ⟨e₁, he₁, type, uses, rfl⟩ := l.entities_typed.1 he
  have hnone : Lower.Kept (fun _ => False) l.start l.between := Lower.Appends.kept l.declare
  have hbetween := (hnone he₁).resolve_right fun hfalse => hfalse.1
  have hfinal := (l.functionsFrom.kept hbetween).resolve_right fun hstatic => hnot hstatic.1
  rw [l.entities, EntityTable.symbolOf_eq hfinal, Entity.kindOfSymbol,
    show e.sequence = none from h.unnumbered id hid e he]

/-- A static variable of a function has a number behind its name. -/
theorem symbolOf_static (l : Lowering p types ds lowered) {before : List String}
    (h : Lower.NumberedApart before (l.statics.map (·.entity)) l.final) {id : EntityId}
    (hid : id ∈ l.statics.map (·.entity)) : ∃ e n, l.final.entities.get id = .ok e ∧
      e.sequence = some n ∧ lowered.module.entities.symbolOf id = .numbered e.name n := by
  obtain ⟨e, n, he, hn, -⟩ := h.below id hid
  refine ⟨e, n, he, hn, ?_⟩
  rw [l.entities, EntityTable.symbolOf_eq he, Entity.kindOfSymbol, hn]

/-- What the listing defines is an entity of the program with static storage. -/
theorem isStatic_of_defined (l : Lowering p types ds lowered) {id : EntityId}
    (h : id ∈ lowered.module.definedEntities) : p.IsStatic id := by
  rcases l.definedEntities_cases h with hid | hid
  · exact .inl hid
  · obtain ⟨v, hv, rfl⟩ := List.mem_map.1 hid
    obtain ⟨f, hf, s₁, -, e, h₁, -, -, htree, he, hprivate⟩ := l.functionsFrom.static hv
    exact l.isStatic_of_static hf (l.declares.carried.trans h₁) htree he hprivate

/-- The names behind the symbols of the listing have no dots. -/
theorem symbolOf_proper (l : Lowering p types ds lowered) (h : p.NamedApart) {id : EntityId}
    (hid : id ∈ lowered.module.definedEntities) :
    (lowered.module.entities.symbolOf id).Proper := by
  have hready := l.readied l.carried
  have hstatic := l.isStatic_of_defined hid
  obtain ⟨e₀, he₀⟩ : ∃ e₀, p.entities.get id = .ok e₀ := by
    obtain hid | ⟨-, -, -, -, -, e₀, -, -, -, he₀, -⟩ := hstatic
    · exact l.exists_declared hid
    · exact ⟨e₀, he₀⟩
  obtain ⟨e, he, type, uses, sequence, rfl⟩ := hready.passes he₀
  have hname := h.dotless id e₀ hstatic he₀
  rw [l.entities, EntityTable.symbolOf_eq he, Entity.kindOfSymbol]
  split <;> exact hname

/-- Where the names of the program are apart, the symbols of its entities are. -/
theorem symbolOf_inj (l : Lowering p types ds lowered) (h : p.NamedApart) {a b : EntityId}
    (ha : a ∈ lowered.module.definedEntities) (hb : b ∈ lowered.module.definedEntities)
    (heq : lowered.module.entities.symbolOf a = lowered.module.entities.symbolOf b) : a = b := by
  obtain ⟨before, hnumbered⟩ := (Lower.NumberedApart.nil l.between).functions l.functions
  rw [List.nil_append] at hnumbered
  -- a static variable of a function, or a declaration that is none
  have hcases {id : EntityId} (hid : id ∈ lowered.module.definedEntities) :
      id ∈ l.statics.map (·.entity) ∨ id ∈ p.declarations ∧ ∃ e, p.entities.get id = .ok e ∧
        lowered.module.entities.symbolOf id = .named e.name := by
    by_cases hstatic : id ∈ l.statics.map (·.entity)
    · exact .inl hstatic
    · have hdeclared := (l.definedEntities_cases hid).resolve_right hstatic
      obtain ⟨e, he⟩ := l.exists_declared hdeclared
      exact .inr ⟨hdeclared, e, he, l.symbolOf_declared h hdeclared hstatic he⟩
  rcases hcases ha with hsa | ⟨hda, e, he, hsa⟩ <;> rcases hcases hb with hsb | ⟨hdb, e', he', hsb⟩
  · obtain ⟨e, n, he, hn, ha⟩ := l.symbolOf_static hnumbered hsa
    obtain ⟨e', n', he', hn', hb⟩ := l.symbolOf_static hnumbered hsb
    rw [ha, hb] at heq
    obtain ⟨hname, rfl⟩ := Symbol.numbered.inj heq
    exact hnumbered.apart a hsa b hsb e e' he he' hname (hn.trans hn'.symm)
  · obtain ⟨e, n, -, -, hsymbol⟩ := l.symbolOf_static hnumbered hsa
    rw [hsymbol, hsb] at heq
    cases heq
  · obtain ⟨e, n, -, -, hsymbol⟩ := l.symbolOf_static hnumbered hsb
    rw [hsa, hsymbol] at heq
    cases heq
  · rw [hsa, hsb] at heq
    exact h.names a hda b hdb e e' he he' (Symbol.named.inj heq)

end Lowering

/-! ## Units -/

/-- A unit whose declared names are distinct, and where neither declared names nor those of static
local variables have dots, defines no symbol twice: functions, variables, static local variables of
any names, string literals, and the labels of jumps and epilogues. Its listing is data, where
nothing jumps, and the code of each of its functions, where every jump leads to a label of that
code. -/
theorem Source.ProgramUnit.symbols_apart {unit : Source.ProgramUnit} {options : Options}
    {compiled : Compiled} {code : Listing} (hnames : unit.program.NamedApart)
    (h : compile unit options = .ok compiled) (hcode : compiled.result = .ok (.asm code)) :
    code.defined.Nodup ∧
    ∃ lowered, unit.Lowers options.profile lowered ∧ ∃ (data : Listing) (parts : List Listing),
      code = data ++ parts.flatten ∧ (∀ i ∈ data, i.isJump = false) ∧
      List.Forall₂ (fun f part => (∃ before after epilogue,
        Placement.functionCode before lowered.types
          { fileName := options.fileName, verbose := options.verbose } epilogue f =
            .ok (after, part)) ∧ part.JumpsInside) lowered.module.functions parts := by
  obtain ⟨types, ds, lowered, htypes, hchecked, hlower, hquiet, hresult⟩ :=
    compile_stages h hcode (emit_of_listing h hcode)
  obtain ⟨-, hmir⟩ | ⟨code', hassemble, hout⟩ := hresult
  · cases hmir
  -- the entities that are defined are among those that have an address, and these have different
  -- names
  obtain rfl := Output.asm.inj hout
  obtain ⟨l⟩ := lowering_of_ok hlower
  obtain ⟨p, -, -, -, hplace, -⟩ := Ir.Module.assemble_eq_ok hassemble
  refine ⟨Ir.Module.defined_nodup hassemble ?_ (fun id => l.symbolOf_proper hnames)
    (definedLabels_nodup hlower), lowered, ⟨types, ds, htypes, hchecked, hlower, hquiet⟩,
    Ir.Module.assemble_jumpsInside hassemble⟩
  have hsublist : lowered.module.definedEntities.Sublist lowered.module.addressed :=
    (List.Sublist.refl _).append (List.sublist_append_right ..)
  exact ((Ir.Module.addressed_nodup hplace).sublist hsublist).map_on
    fun a ha b hb => l.symbolOf_inj hnames ha hb

/-- The unit `int n; int tick(void) { static int n = 1; { static int n; while (n) n--; } return n; }
char *tock(void) { static int n; if (n) return "tick"; return "tock"; }`. -/
def ticks : Source.ProgramUnit where
  program :=
    let int : TypeRef := .integer .int true
    let text : TypeRef := .pointer (.integer .char true)
    let n (id : Nat) : Source.Expr := .var .int ⟨id⟩
    { entities := ⟨[
        { name := "n", ref := int, kind := .definedVariable none },
        { name := "tick", ref := .function int [] false,
          kind := .definedFunction [] (.mk [⟨2⟩] [
            .block none (.mk [⟨3⟩] [
              .whileLoop none (n 3) (.expr none (.postStep .int .dec (n 3)))]),
            .ret none (some (n 2))]) },
        { name := "n", ref := int, isPrivate := true,
          kind := .definedVariable (some (.int .int 1)) },
        { name := "n", ref := int, isPrivate := true, kind := .definedVariable none },
        { name := "tock", ref := .function text [] false,
          kind := .definedFunction [] (.mk [⟨5⟩] [
            .ifThen none (n 5) (.ret none (some (.str { type := text } "tick"))),
            .ret none (some (.str { type := text } "tock"))]) },
        { name := "n", ref := int, isPrivate := true, kind := .definedVariable none }]⟩
      declarations := [⟨0⟩, ⟨1⟩, ⟨4⟩] }

/-- The declarations of the example have names of their own. -/
theorem ticks_namedApart : ticks.program.NamedApart where
  names := by
    intro id hid id' hid' e e' he he' hname
    have hdistinct : ∀ id ∈ ticks.program.declarations, ∀ id' ∈ ticks.program.declarations,
        (ticks.program.entities.get id).toOption.map (·.name) =
          (ticks.program.entities.get id').toOption.map (·.name) → id = id' := by decide
    refine hdistinct id hid id' hid' ?_
    rw [he, he']
    exact congrArg some hname
  dotless := by
    intro v e _ he
    have hall : ∀ e ∈ ticks.program.entities.entries, Dotless e.name := by decide
    exact hall e (EntityTable.mem_of_get he)
  unnumbered := by
    intro id _ e he
    have hall : ∀ e ∈ ticks.program.entities.entries, e.sequence = none := by decide
    exact hall e (EntityTable.mem_of_get he)

/-- One global variable and three static ones have the same name, and there are two literals and
seven labels. -/
theorem Source.ProgramUnit.symbols_apart_ticks :
    ∃ compiled code, compile ticks {} = .ok compiled ∧ compiled.result = .ok (.asm code) ∧
      code.defined = ["n.0", "n", "n.1", "n.2", ".LC0", ".LC1", "tick", ".L0", ".L1", ".L2", ".L5",
        "tock", ".L3", ".L4", ".L6"] ∧
      code.countP Item.isJump = 6 ∧ ticks.program.NamedApart ∧ code.defined.Nodup ∧
      ∃ (data : Listing) (parts : List Listing), code = data ++ parts.flatten ∧
        (∀ i ∈ data, i.isJump = false) ∧ ∀ part ∈ parts, part.JumpsInside := by
  obtain ⟨compiled, code, hcompile, hcode, hseen⟩ := ticks.exists_listing {}
    (fun code => (code.defined, code.countP Item.isJump))
    (["n.0", "n", "n.1", "n.2", ".LC0", ".LC1", "tick", ".L0", ".L1", ".L2", ".L5", "tock", ".L3",
      ".L4", ".L6"], 6) (by decide +kernel)
  obtain ⟨hdefined, hjumps⟩ := Prod.mk.inj hseen
  obtain ⟨hnodup, lowered, -, data, parts, hsplit, hdata, hparts⟩ :=
    symbols_apart ticks_namedApart hcompile hcode
  refine ⟨compiled, code, hcompile, hcode, hdefined, hjumps, ticks_namedApart, hnodup, data, parts,
    hsplit, hdata, fun part hpart => ?_⟩
  obtain ⟨f, -, -, hinside⟩ := forall₂_mem_right hparts hpart
  exact hinside

end Backend386
