import Backend386.Proofs.Ir.WholeDumps
import Backend386.Proofs.Lowering.Depths
import Backend386.Proofs.Source.InputUnits
import Backend386.Proofs.Source.ReadUnits
import Backend386.Proofs.Stages

/-!
# Units are read again as they were written

The form of a unit is read as the unit it was written for, from its text. What the lowering adds to
the entities are temporaries, so that the entities of a dump of intermediate code are read as those
of the unit, followed by the temporaries. Such a dump holds no number that is not an integer.

* `Entity.AreTemps` — temporaries as they are read;
* `Lowering.asInput_entities` — the entities that the lowering leaves behind, as they are read;
* `Source.ProgramUnit.readDump?` — a unit with the entities of a dump;
* `Source.ProgramUnit.format_roundtrip` — units and dumps of units are read again.
-/

namespace Backend386

open Json

/-! ## Temporaries as they are read -/

/-- Variables without initializers that are named as temporaries, by their numbers from `start` on.
-/
def Entity.AreTemps (start : Nat) (es : List Entity) : Prop :=
  ∀ i e, es[i]? = some e →
    ∃ ref : TypeRef,
      e = ({ name := "@tmp" ++ (start + i).repr, ref, kind := .definedVariable none } : Entity)

theorem Entity.AreTemps.kind {start : Nat} {es : List Entity} (h : AreTemps start es) {e : Entity}
    (he : e ∈ es) : e.kind = .definedVariable none := by
  obtain ⟨i, hi⟩ := List.mem_iff_getElem?.1 he
  obtain ⟨ref, rfl⟩ := h i e hi
  rfl

/-- Temporaries are numbered on. -/
theorem Entity.AreTemps.append {start : Nat} {a b : List Entity} (ha : AreTemps start a)
    (hb : AreTemps (start + a.length) b) : AreTemps start (a ++ b) := by
  intro i e he
  by_cases hi : i < a.length
  · exact ha i e (List.getElem?_append_left hi ▸ he)
  · rw [List.getElem?_append_right (not_lt.1 hi)] at he
    obtain ⟨ref, rfl⟩ := hb _ e he
    refine ⟨ref, ?_⟩
    have hnumber : start + a.length + (i - a.length) = start + i := by omega
    rw [hnumber]

/-- The entities as they are read. -/
def EntityTable.asInput (t : EntityTable) : List Entity :=
  t.entries.map Entity.asInput

theorem EntityTable.length_asInput (t : EntityTable) : t.asInput.length = t.size :=
  List.length_map _

namespace Lower

variable {w : Walk} {s s' : LowerState}

/-- A step adds at most a temporary to what is read of the entities. -/
theorem UnitStep.asInput (h : UnitStep w s s') : ∃ temps,
    s'.entities.asInput = s.entities.asInput ++ temps ∧ Entity.AreTemps s.entities.size temps := by
  have hsame (entities : EntityTable) (h : entities.asInput = s.entities.asInput) : ∃ temps,
      entities.asInput = s.entities.asInput ++ temps ∧ Entity.AreTemps s.entities.size temps :=
    ⟨[], by rw [h, List.append_nil], fun i e he => by cases he⟩
  cases h with
  | inner h =>
    cases h with
    | @temporary type ref href =>
      refine ⟨[{ name := "@tmp" ++ s.entities.size.repr, ref, kind := .definedVariable none }],
        List.map_append, fun i e he => ⟨ref, ?_⟩⟩
      obtain ⟨hi, rfl⟩ := List.getElem?_eq_some_iff.1 he
      obtain rfl : i = 0 := Nat.lt_one_iff.1 hi
      rfl
    | _ => exact hsame _ rfl
  | start f => exact hsame _ rfl
  | @number id e sequence he =>
    -- the number of a static variable is not read
    refine hsame _ ?_
    have hread : s.entities.asInput[id.index]? = some e.asInput := by
      rw [EntityTable.asInput, List.getElem?_map, EntityTable.get_eq_ok_iff.1 he, Option.map_some]
    obtain ⟨hi, hread⟩ := List.getElem?_eq_some_iff.1 hread
    calc (s.entities.set id { e with sequence }).asInput
        = s.entities.asInput.set id.index e.asInput := List.map_set
      _ = s.entities.asInput := by rw [← hread, List.set_getElem_self]

/-- What a run adds to what is read of the entities are temporaries. -/
theorem UnitSteps.asInput (h : UnitSteps w s s') : ∃ temps,
    s'.entities.asInput = s.entities.asInput ++ temps ∧ Entity.AreTemps s.entities.size temps := by
  induction h with
  | refl => exact ⟨[], (List.append_nil _).symm, fun i e he => by cases he⟩
  | tail _ h ih =>
    obtain ⟨a, ha, hatemps⟩ := ih
    obtain ⟨b, hb, hbtemps⟩ := h.asInput
    refine ⟨a ++ b, by rw [hb, ha, List.append_assoc], hatemps.append ?_⟩
    rwa [← EntityTable.length_asInput, ha, List.length_append,
      EntityTable.length_asInput] at hbtemps

end Lower

/-! ## What the lowering leaves behind -/

namespace Lowering

variable {p : Source.Program} {types : TypeTable} {ds : Diagnostics} {lowered : Lowered}

/-- Nothing is read of what is settled before the first round. -/
theorem asInput_start (l : Lowering p types ds lowered) :
    l.start.entities.asInput = p.entities.asInput := by
  obtain ⟨htyped, hsize, -⟩ := l.entities_typed
  refine List.ext_getElem? fun i => ?_
  by_cases hi : i < p.entities.size
  · obtain ⟨e, he⟩ : ∃ e, p.entities.get ⟨i⟩ = .ok e := EntityTable.exists_get hi
    obtain ⟨e', he', type, uses, rfl⟩ := htyped he
    have hold : p.entities.entries[i]? = some e := EntityTable.get_eq_ok_iff.1 he
    have hnew : l.start.entities.entries[i]? = some { e with type := .settled type, uses } :=
      EntityTable.get_eq_ok_iff.1 he'
    rw [EntityTable.asInput, EntityTable.asInput, List.getElem?_map, List.getElem?_map, hold, hnew]
    rfl
  · have hsize' : l.start.entities.asInput.length = p.entities.size := by
      rw [EntityTable.length_asInput]
      exact hsize
    rw [List.getElem?_eq_none, List.getElem?_eq_none]
    · rwa [EntityTable.length_asInput, ← not_lt]
    · rwa [hsize', ← not_lt]

/-- The entities are read as those of the program, followed by temporaries. -/
theorem asInput_entities (l : Lowering p types ds lowered) : ∃ temps,
    Entity.AreTemps p.entities.size temps ∧
      lowered.module.entities.asInput = p.entities.asInput ++ temps := by
  obtain ⟨temps, happend, htemps⟩ := (l.steps (w := .any) (Source.Part.covers_all _)).asInput
  have hsize : l.start.entities.size = p.entities.size := l.entities_typed.2.1
  refine ⟨temps, hsize ▸ htemps, ?_⟩
  rw [l.entities, happend, l.asInput_start]

/-- What is read of the forms of the entities is nested no deeper than it was. -/
theorem shallow_entities (l : Lowering p types ds lowered) {d : Nat}
    (h : p.entities.Shallow (d + 3)) : lowered.module.entities.Shallow (d + 3) := by
  have hstart : l.start.entities.Shallow (d + 3) := by
    intro e he
    have hmem : e.asInput ∈ p.entities.asInput := l.asInput_start ▸ List.mem_map_of_mem he
    obtain ⟨e₀, he₀, hsame⟩ := List.mem_map.1 hmem
    -- the type that has been settled is not among what is read
    calc e.inputJson.depth = e.asInput.inputJson.depth := rfl
      _ = e₀.asInput.inputJson.depth := by rw [hsame]
      _ ≤ d + 3 := h e₀ he₀
  have hsteps : Lower.UnitSteps (.along (.upTo (d + 1))) l.start l.final := l.steps hstart.covers
  exact l.entities ▸ hsteps.shallow hstart

/-- If nothing has been placed before, nothing is placed. -/
theorem storage_pending (l : Lowering p types ds lowered)
    (h : ∀ e ∈ p.entities.entries, e.storage = .pending) :
    ∀ e ∈ lowered.module.entities.entries, e.storage = .pending := by
  intro e he
  obtain ⟨i, hi⟩ := List.mem_iff_getElem?.1 he
  have hget : l.final.entities.get ⟨i⟩ = .ok e := EntityTable.get_eq_ok_iff.2 (l.entities ▸ hi)
  rcases (l.readied l.carried).get_cases hget with ⟨e₀, he₀, type, uses, sequence, rfl⟩ | ⟨htemp, -⟩
  · exact h e₀ (EntityTable.mem_of_get he₀)
  · exact htemp.storage

end Lowering

/-! ## Reading dumps -/

namespace Source.ProgramUnit

/-- The unit with the entities of a dump of intermediate code. -/
def readDump? (u : ProgramUnit) (dump : String) : Option ProgramUnit := do
  match ← (← Json.parse? dump).record? ["entities"] with
  | [some entities] => ofJson? (u.jsonWith entities)
  | _ => none

variable {u : ProgramUnit} {m : Ir.Module}

/-- The entities of a dump are read, whatever the passes have settled of them. -/
theorem readDump?_render (hids : ∀ e ∈ m.entities.entries, ∀ id ∈ e.kind.ids, id.Fits)
    (hdeclared : ∀ id ∈ u.program.declarations, id.Fits)
    (hstorage : ∀ e ∈ m.entities.entries, e.storage = .pending)
    (hdepth : (u.jsonWith (.list Entity.inputJson m.entities.entries)).depth ≤ maxUnitDepth) :
    u.readDump? m.toJson.render = some (u.withEntities m.entities.asInput) := by
  have hentities : m.entities.toJson.isWhole = true :=
    isWhole_list fun e he => Entity.isWhole_toJson (hids e he) (hstorage e he)
  have hwhole := Ir.Module.isWhole_toJson hentities
  have hrecord : m.toJson.reread.record? ["entities"] = some [some m.entities.toJson.reread] := by
    simp [Ir.Module.toJson, reread, rereadFields, record?, fieldOnce?]
  rw [readDump?, parse?_render hwhole]
  dsimp only [Option.bind_eq_bind, Option.bind_some]
  rw [hrecord]
  exact ofJson?_jsonWith (mapItems_relevantEntity_reread hids) hids hdeclared hdepth

/-- The module that a unit is lowered to. -/
def mir? (u : ProgramUnit) (options : Options) : Option Ir.Module :=
  match compile u options with
  | .ok ⟨_, .ok (.mir m)⟩ => some m
  | _ => none

/-- A unit is lowered to a module if a run shows part of it. -/
theorem exists_mir (u : ProgramUnit) (options : Options) {α : Type} (view : Ir.Module → α)
    (seen : α)
    (h : (u.mir? options).map view = some seen) :
    ∃ compiled m, compile u options = .ok compiled ∧ compiled.result = .ok (.mir m) ∧
      view m = seen := by
  obtain ⟨m, hm, hview⟩ := Option.map_eq_some_iff.1 h
  unfold mir? at hm
  split at hm
  · next hcompile =>
    obtain rfl := Option.some.inj hm
    exact ⟨_, _, hcompile, rfl, hview⟩
  · cases hm

/-- A unit whose JSON form is nested at most 127 deep is read again from the text of its form. When
intermediate code is made of it, the entities of the dump are read as those of the unit, followed by
the temporaries, from the dump and also from a unit that has them in place of its own. -/
theorem format_roundtrip (hu : u.IsInput) (hdepth : u.toJson.depth ≤ maxUnitDepth) :
    parse? u.toJson.render = some u ∧
      ∀ options compiled m, compile u options = .ok compiled →
        compiled.result = .ok (.mir m) → ∃ temps,
          Entity.AreTemps u.program.entities.size temps ∧
          m.entities.asInput = u.program.entities.entries ++ temps ∧
          u.readDump? ((Output.mir m).render .json) = some (u.withEntities m.entities.asInput) ∧
          parse? (u.jsonWith m.entities.toJson).render =
            some (u.withEntities m.entities.asInput) := by
  refine ⟨parse?_toJson hu hdepth, fun options compiled m hcompile hok => ?_⟩
  obtain ⟨types, ds, lowered, -, -, hlower, -, hout⟩ :=
    compile_stages hcompile hok (emit_of_mir hcompile hok)
  obtain ⟨-, hmir⟩ | ⟨code, -, hasm⟩ := hout
  swap
  · cases hasm
  obtain rfl := Output.mir.inj hmir
  obtain ⟨l⟩ := lowering_of_ok hlower
  obtain ⟨temps, htemps, hentities⟩ := l.asInput_entities
  have hsame : u.program.entities.asInput = u.program.entities.entries := by
    rw [EntityTable.asInput, List.map_congr_left hu.entities, List.map_id']
  rw [hsame] at hentities
  -- the ids of the unit fit since it was read, and temporaries have none
  have hids : ∀ e ∈ lowered.module.entities.entries, ∀ id ∈ e.kind.ids, id.Fits := by
    intro e he
    have hread : e.asInput ∈ u.program.entities.entries ++ temps :=
      hentities ▸ List.mem_map_of_mem he
    obtain hread | hread := List.mem_append.1 hread
    · exact hu.ids e.asInput hread
    · -- a temporary names nothing
      have hkind : e.asInput.kind = .definedVariable none := htemps.kind hread
      intro id hid
      change id ∈ e.asInput.kind.ids at hid
      rw [hkind] at hid
      cases hid
  -- nothing was given storage, so that the dump has nothing more to say than its input
  have hstorage := l.storage_pending hu.storage_pending
  obtain ⟨htypes, hdeclared, hforms⟩ := depth_jsonWith_le_iff.1 hdepth
  have hshallow := l.shallow_entities fun e he => e.depth_inputJson_le.trans (hforms e he)
  have hread := depth_jsonWith_le_iff.2 ⟨htypes, hdeclared, hshallow⟩
  exact ⟨temps, htemps, hentities, readDump?_render hids hu.declarations hstorage hread,
    parse?_jsonWith hids hu.declarations hstorage hread⟩

end Source.ProgramUnit

/-- The unit `struct node { long value; struct node *next; }; long count = LONG_MIN;
char *title = "...";` with a function of a list of nodes that counts them. -/
def nodes : Source.ProgramUnit where
  types := [.composite .struct "node" [
    { name := "value", type := .integer .long true },
    { name := "next", type := .pointer (.struct "node"), location := some { line := 3 } }] none]
  program :=
    let long : Source.Note := { type := .integer .long true }
    let node : Source.Note := { type := .pointer (.struct "node"), location := some { line := 9 } }
    let text : TypeRef := .pointer (.integer .char true)
    { entities := ⟨[
        { name := "count", ref := .integer .long true,
          kind := .definedVariable (some (.int long (-9223372036854775808))) },
        { name := "title", ref := text,
          kind := .definedVariable (some (.str { type := text } "\"list\"\n\\ of\tnodes")) },
        { name := "walk", ref := .function (.integer .long true) [.pointer (.struct "node")] false,
          location := some { line := 8, column := 4 },
          kind := .definedFunction [⟨3⟩] (.mk [] [
            .whileLoop none (.var node ⟨3⟩) (.block none (.mk [] [
              .ifElse none (.ptrMember long (.var node ⟨3⟩) "value")
                (.expr none (.postStep long .inc (.var long ⟨0⟩)))
                (.breakOut none),
              .expr none (.assign node (.var node ⟨3⟩) (.ptrMember node (.var node ⟨3⟩) "next"))])),
            .ret none (some (.postStep long .inc (.var long ⟨0⟩)))]) },
        { name := "list", ref := .pointer (.struct "node"), isPrivate := true,
          kind := .parameter }]⟩
      declarations := [⟨0⟩, ⟨1⟩, ⟨2⟩] }

/-- No part of the example has been settled, and all of its ids fit. -/
theorem nodes_isInput : nodes.IsInput where
  entities := by
    simp only [nodes, List.forall_mem_cons]
    exact ⟨rfl, rfl, rfl, rfl, List.forall_mem_nil _⟩
  ids := by decide
  declarations := by decide

/-- The value that is returned is kept in a temporary. -/
theorem Source.ProgramUnit.format_roundtrip_nodes :
    parse? nodes.toJson.render = some nodes ∧
      ∃ compiled m, compile nodes { emit := .mir } = .ok compiled ∧
        compiled.result = .ok (.mir m) ∧
        m.entities.entries.map (·.name) = ["count", "title", "walk", "list", "@tmp4"] ∧
        nodes.readDump? ((Output.mir m).render .json) =
          some (nodes.withEntities m.entities.asInput) := by
  obtain ⟨compiled, m, hcompile, hok, hnames⟩ := nodes.exists_mir { emit := .mir }
    (fun m => m.entities.entries.map (·.name)) ["count", "title", "walk", "list", "@tmp4"]
    (by decide +kernel)
  obtain ⟨hread, hdump⟩ := format_roundtrip nodes_isInput (by decide +kernel)
  obtain ⟨temps, -, -, hdump, -⟩ := hdump { emit := .mir } compiled m hcompile hok
  exact ⟨hread, compiled, m, hcompile, hok, hnames, hdump⟩

end Backend386
