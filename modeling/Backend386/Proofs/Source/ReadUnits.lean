import Backend386.Proofs.Source.ReadStmts

/-!
# Units that were written are read again

The form of an entity has two fields more than are read: its type and its storage, which later
passes settle. They are ignored, whatever they hold, so that the entities of a dump are read as the
entities they were before.

* `Entity.asInput`, `Entity.inputJson` — an entity as it is read, and what is read of its form;
* `Source.ProgramUnit.IsInput` — the units that are read;
* `Source.ProgramUnit.withEntities`, `Source.ProgramUnit.jsonWith` — a unit with other entities, and
  its form;
* `Source.ProgramUnit.parse?_jsonWith` — reading a unit whose entities were written by any pass.
-/

namespace Backend386

open Json

/-! ## Entities -/

/-- The entities that are named in what an entity is. -/
def EntityKind.ids : EntityKind → List EntityId
  | definedVariable init => Source.usesOption init
  | definedFunction params body => params ++ body.ids
  | constant value => value.uses
  | undefinedVariable | parameter | undefinedFunction => []

/-- The kind of an entity is read back. -/
theorem Source.readEntityKind?_toJson {kind : EntityKind} (hids : ∀ id ∈ kind.ids, id.Fits) :
    readEntityKind? kind.toJson = some kind := by
  have htag (name : String) (fields : List (String × Json)) (h : "entity" ∉ fields.map (·.1)) :
      tagged? "entity" (.obj (("entity", .str name) :: fields)) = some (name, .obj fields) :=
    taggedBy?_obj rfl h
  cases kind with
  | definedVariable init =>
    rw [EntityKind.ids] at hids
    rw [EntityKind.toJson, readEntityKind?, htag _ _ (by simp)]
    simp [record?_obj, optional?_readExpr? hids]
  | definedFunction params body =>
    rw [EntityKind.ids, List.forall_mem_append] at hids
    have hparams := list?_readEntityId? hids.1
    rw [EntityKind.toJson, readEntityKind?, htag _ _ (by simp)]
    generalize list EntityId.toJson params = j at hparams
    simp [record?_obj, required?, hparams, readBlock?_toJson hids.2]
  | constant value =>
    rw [EntityKind.ids] at hids
    rw [EntityKind.toJson, readEntityKind?, htag _ _ (by simp)]
    simp [record?_obj, required?, readExpr?_toJson hids]
  | undefinedVariable | parameter | undefinedFunction =>
    rw [EntityKind.toJson, readEntityKind?, htag _ _ (by simp)]
    rfl

/-- It is written plainly. -/
theorem EntityKind.isPlain_toJson {kind : EntityKind} (hids : ∀ id ∈ kind.ids, id.Fits) :
    kind.toJson.IsPlain := by
  cases kind with
  | definedVariable init =>
    rw [EntityKind.ids] at hids
    simp [EntityKind.toJson, Source.Expr.isPlain_optionToJson hids]
  | definedFunction params body =>
    rw [EntityKind.ids, List.forall_mem_append] at hids
    have hparams : (list EntityId.toJson params).IsPlain :=
      isPlain_list fun id hid => EntityId.isPlain_toJson (hids.1 id hid)
    simp [EntityKind.toJson, hparams, Source.Block.isPlain_toJson hids.2]
  | constant value =>
    rw [EntityKind.ids] at hids
    simp [EntityKind.toJson, Source.Expr.isPlain_toJson hids]
  | undefinedVariable | parameter | undefinedFunction => simp [EntityKind.toJson]

namespace Entity

/-- The entity as it is read, before any pass has settled something. -/
def asInput (e : Entity) : Entity :=
  { e with type := .pending, storage := .pending, uses := 0, sequence := none }

/-- What is read of the form of an entity. -/
def inputJson (e : Entity) : Json :=
  .obj [
    ("name", .str e.name),
    ("type", e.ref.toJson),
    ("private", .bool e.isPrivate),
    ("location", Location.optionToJson e.location),
    ("kind", e.kind.toJson)]

/-- The type and the storage of an entity are ignored. -/
theorem relevantEntity_obj {e : Entity} {type storage : Json} :
    Source.relevantEntity (.obj [
      ("name", .str e.name), ("type", e.ref.toJson), ("private", .bool e.isPrivate),
      ("location", Location.optionToJson e.location), ("kind", e.kind.toJson), ("ty", type),
      ("storage", storage)]) = e.inputJson := by
  have hlocation : relevantLocation (Location.optionToJson e.location) =
      Location.optionToJson e.location := by
    cases e.location <;> rfl
  simp [Source.relevantEntity, keepFields, List.lookup_cons, TypeRef.relevantTypeRef_toJson,
    hlocation,
    inputJson]

/-- What is ignored may have changed when the form is read from its text. -/
theorem relevantEntity_reread {e : Entity} (hids : ∀ id ∈ e.kind.ids, id.Fits) :
    Source.relevantEntity e.toJson.reread = e.inputJson := by
  have hreread : e.toJson.reread = .obj [
      ("name", .str e.name), ("type", e.ref.toJson), ("private", .bool e.isPrivate),
      ("location", Location.optionToJson e.location), ("kind", e.kind.toJson),
      ("ty", (e.type.toJson TypeId.toJson).reread),
      ("storage", (e.storage.toJson Storage.toJson).reread)] := by
    simp only [toJson, reread, rereadFields, e.ref.isPlain_toJson.same.2.2,
      (Location.isPlain_optionToJson e.location).same.2.2,
      (EntityKind.isPlain_toJson hids).same.2.2]
  rw [hreread]
  exact relevantEntity_obj

/-- What is read back of an entity is its input. -/
theorem readEntity?_inputJson {e : Entity} (hids : ∀ id ∈ e.kind.ids, id.Fits) :
    Source.readEntity? e.inputJson = some e.asInput := by
  have hfields : record? ["name", "type", "private", "location", "kind"] e.inputJson =
      some [some (.str e.name), some e.ref.toJson, some (.bool e.isPrivate),
        some (Location.optionToJson e.location), some e.kind.toJson] :=
    record?_obj rfl (by decide)
  rw [Source.readEntity?, hfields]
  simp [required?, withDefault?, str?, bool?, TypeRef.readTypeRef?_toJson, optional?_location,
    Source.readEntityKind?_toJson hids, asInput]

theorem isPlain_inputJson {e : Entity} (hids : ∀ id ∈ e.kind.ids, id.Fits) :
    e.inputJson.IsPlain := by
  simp [inputJson, EntityKind.isPlain_toJson hids]

theorem depth_inputJson_le (e : Entity) : e.inputJson.depth ≤ e.toJson.depth := by
  simp only [inputJson, toJson, depth, depthOfFields]
  omega

/-- The form of an entity whose storage is pending holds no decimals. -/
theorem isWhole_toJson {e : Entity} (hids : ∀ id ∈ e.kind.ids, id.Fits)
    (hstorage : e.storage = .pending) : e.toJson.isWhole = true := by
  have htype : (e.type.toJson TypeId.toJson).isWhole = true := by
    cases e.type <;> simp [Deferred.toJson, Json.variant, TypeId.toJson]
  have hprivate : (bool e.isPrivate).isWhole = true := rfl
  have hstorage : (e.storage.toJson Storage.toJson).isWhole = true := by
    rw [hstorage]
    rfl
  simp [toJson, htype, hprivate, hstorage, e.ref.isPlain_toJson.isWhole,
    (Location.isPlain_optionToJson e.location).isWhole, (EntityKind.isPlain_toJson hids).isWhole]

end Entity

/-! ## Units -/

namespace Source.ProgramUnit

/-- A unit as it is read: of its entities nothing is settled, and the numbers of entities have 32
bits. -/
structure IsInput (u : ProgramUnit) : Prop where
  entities : ∀ e ∈ u.program.entities.entries, e.asInput = e
  ids : ∀ e ∈ u.program.entities.entries, ∀ id ∈ e.kind.ids, id.Fits
  declarations : ∀ id ∈ u.program.declarations, id.Fits

theorem IsInput.storage_pending {u : ProgramUnit} (h : u.IsInput) :
    ∀ e ∈ u.program.entities.entries, e.storage = .pending := by
  intro e he
  rw [← h.entities e he]
  rfl

/-- A unit with other entities. -/
def withEntities (u : ProgramUnit) (es : List Entity) : ProgramUnit :=
  { u with program := { u.program with entities := ⟨es⟩ } }

/-- The form of a unit with another list of entities. -/
def jsonWith (u : ProgramUnit) (entities : Json) : Json :=
  .obj [
    ("types", .list TypeDefinition.toJson u.types),
    ("program", .obj [
      ("entities", entities), ("declarations", .list EntityId.toJson u.program.declarations)])]

theorem toJson_eq_jsonWith (u : ProgramUnit) :
    u.toJson = u.jsonWith (.list Entity.toJson u.program.entities.entries) := rfl

theorem relevantUnit_jsonWith (u : ProgramUnit) (j : Json) :
    relevantUnit (u.jsonWith j) = u.jsonWith (mapItems relevantEntity j) := by
  simp [jsonWith, relevantUnit, relevantProgram, keepFields, List.lookup_cons]

variable {u : ProgramUnit} {es : List Entity}

/-- A unit is read back with the input of its entities. -/
theorem read?_jsonWith (hids : ∀ e ∈ es, ∀ id ∈ e.kind.ids, id.Fits)
    (hdeclared : ∀ id ∈ u.program.declarations, id.Fits) :
    read? (u.jsonWith (.list Entity.inputJson es)) =
      some (u.withEntities (es.map Entity.asInput)) := by
  have htypes : list? readDefinition? (.list TypeDefinition.toJson u.types) = some u.types :=
    list?_list fun d _ => readDefinition?_toJson d
  have hentities : list? readEntity? (.list Entity.inputJson es) = some (es.map Entity.asInput) :=
    list?_map fun e he => Entity.readEntity?_inputJson (hids e he)
  have hprogram : readProgram? (.obj [("entities", .list Entity.inputJson es),
      ("declarations", .list EntityId.toJson u.program.declarations)]) =
      some (u.withEntities (es.map Entity.asInput)).program := by
    have hdeclarations := list?_readEntityId? hdeclared
    generalize list EntityId.toJson u.program.declarations = j at hdeclarations
    rw [readProgram?]
    simp [record?_obj, required?, hentities, hdeclarations, withEntities]
  rw [jsonWith, read?]
  simp [record?_obj, required?, withDefault?, htypes, hprogram, withEntities]

/-- It is written plainly. -/
theorem isPlain_jsonWith (hids : ∀ e ∈ es, ∀ id ∈ e.kind.ids, id.Fits)
    (hdeclared : ∀ id ∈ u.program.declarations, id.Fits) :
    (u.jsonWith (.list Entity.inputJson es)).IsPlain := by
  have htypes : (list TypeDefinition.toJson u.types).IsPlain :=
    isPlain_list fun d _ => d.isPlain_toJson
  have hentities : (list Entity.inputJson es).IsPlain :=
    isPlain_list fun e he => Entity.isPlain_inputJson (hids e he)
  have hdeclarations : (list EntityId.toJson u.program.declarations).IsPlain :=
    isPlain_list fun id hid => EntityId.isPlain_toJson (hdeclared id hid)
  simp [jsonWith, htypes, hentities, hdeclarations]

/-- A unit is read from its form, whatever the passes have settled of its entities. -/
theorem ofJson?_jsonWith {j : Json} (hj : mapItems relevantEntity j = .list Entity.inputJson es)
    (hids : ∀ e ∈ es, ∀ id ∈ e.kind.ids, id.Fits)
    (hdeclared : ∀ id ∈ u.program.declarations, id.Fits)
    (hdepth : (u.jsonWith (.list Entity.inputJson es)).depth ≤ maxUnitDepth) :
    ofJson? (u.jsonWith j) = some (u.withEntities (es.map Entity.asInput)) := by
  have hreadable := (isPlain_jsonWith hids hdeclared).same.2.1
  rw [ofJson?, relevantUnit_jsonWith, hj]
  rw [if_pos ⟨hreadable, hdepth⟩, read?_jsonWith hids hdeclared]

/-- What is ignored of entities may have changed when their list is read from its text. -/
theorem mapItems_relevantEntity_reread (hids : ∀ e ∈ es, ∀ id ∈ e.kind.ids, id.Fits) :
    mapItems relevantEntity (list Entity.toJson es).reread = .list Entity.inputJson es := by
  have hitems : (rereadItems (es.map Entity.toJson)).map relevantEntity =
      es.map Entity.inputJson := by
    induction es with
    | nil => rfl
    | cons e es ih =>
      obtain ⟨he, hes⟩ := List.forall_mem_cons.1 hids
      rw [List.map_cons, rereadItems, List.map_cons, List.map_cons,
        Entity.relevantEntity_reread he, ih hes]
  rw [list, reread, mapItems, hitems, list]

/-- The text of a unit is read, whatever the passes have settled of its entities. -/
theorem parse?_jsonWith (hids : ∀ e ∈ es, ∀ id ∈ e.kind.ids, id.Fits)
    (hdeclared : ∀ id ∈ u.program.declarations, id.Fits)
    (hstorage : ∀ e ∈ es, e.storage = .pending)
    (hdepth : (u.jsonWith (.list Entity.inputJson es)).depth ≤ maxUnitDepth) :
    parse? (u.jsonWith (.list Entity.toJson es)).render =
      some (u.withEntities (es.map Entity.asInput)) := by
  have htypes : (list TypeDefinition.toJson u.types).IsPlain :=
    isPlain_list fun d _ => d.isPlain_toJson
  have hdeclarations : (list EntityId.toJson u.program.declarations).IsPlain :=
    isPlain_list fun id hid => EntityId.isPlain_toJson (hdeclared id hid)
  have hentities : (list Entity.toJson es).isWhole = true :=
    isWhole_list fun e he => Entity.isWhole_toJson (hids e he) (hstorage e he)
  have hwhole : (u.jsonWith (.list Entity.toJson es)).isWhole = true := by
    simp [jsonWith, htypes.isWhole, hentities, hdeclarations.isWhole]
  -- the definitions and the declarations are plain, so that only the entities are read in another
  -- way
  have hreread : (u.jsonWith (.list Entity.toJson es)).reread =
      u.jsonWith (list Entity.toJson es).reread := by
    simp only [jsonWith, reread, rereadFields, htypes.same.2.2, hdeclarations.same.2.2]
  rw [parse?, parse?_render hwhole, Option.bind_some, hreread]
  exact ofJson?_jsonWith (mapItems_relevantEntity_reread hids) hids hdeclared hdepth

/-- Entities stand three levels deep in the form of a unit. -/
theorem depth_jsonWith_le_iff {form : Entity → Json} {n : Nat} :
    (u.jsonWith (.list form es)).depth ≤ n + 3 ↔
      (list TypeDefinition.toJson u.types).depth ≤ n + 2 ∧
        (list EntityId.toJson u.program.declarations).depth ≤ n + 1 ∧
          ∀ e ∈ es, (form e).depth ≤ n := by
  have hitems : depthOfItems (es.map form) ≤ n ↔ ∀ e ∈ es, (form e).depth ≤ n := by
    rw [depthOfItems_le_iff, List.forall_mem_map]
  rw [← hitems]
  simp only [jsonWith, list, depth, depthOfFields]
  omega

/-- A unit is read again from the text of its form. -/
theorem parse?_toJson (hu : u.IsInput) (hdepth : u.toJson.depth ≤ maxUnitDepth) :
    parse? u.toJson.render = some u := by
  have hsame : u.withEntities (u.program.entities.entries.map Entity.asInput) = u := by
    rw [List.map_congr_left hu.entities, List.map_id']
    rfl
  obtain ⟨htypes, hdeclared, hentities⟩ := depth_jsonWith_le_iff.1 hdepth
  have hread := depth_jsonWith_le_iff.2
    ⟨htypes, hdeclared, fun e he => e.depth_inputJson_le.trans (hentities e he)⟩
  rw [toJson_eq_jsonWith, parse?_jsonWith hu.ids hu.declarations hu.storage_pending hread, hsame]

end Source.ProgramUnit

end Backend386
