import Backend386.Proofs.Json.Records
import Backend386.Source.Reader
import Backend386.Source.Writer

/-!
# Types that were written are read again

Places, type references and type definitions have a JSON form that is read as what it was written
for. The form holds nothing but what is read, and no number that is not one of 64 bits.

* `readLocation?_toJson`, `readTypeRef?_toJson`, `readDefinition?_toJson` — reading what was
  written;
* `relevantTypeRef_toJson` — all of a type reference is read;
* `TypeDefinition.isPlain_toJson` — the form of a definition is plain.
-/

namespace Backend386

open Json

/-! ## Places -/

/-- A location is read from its line and its column. -/
theorem readLocation?_of_fields {j line column : Json} {l c : UInt32}
    (hfields : record? ["line", "column"] j = some [some line, some column])
    (hline : uint32? line = some l) (hcolumn : uint32? column = some c) :
    readLocation? j = some { line := l, column := c } := by
  rw [readLocation?, hfields]
  simp [required?, withDefault?, hline, hcolumn]

theorem readLocation?_toJson (l : Location) : readLocation? l.toJson = some l :=
  readLocation?_of_fields (record?_obj rfl (by decide)) (uint32?_nat l.line) (uint32?_nat l.column)

theorem optional?_location (l : Option Location) :
    optional? readLocation? (some (Location.optionToJson l)) = some l :=
  optional?_option (fun l => by rintro ⟨⟩) fun l _ => readLocation?_toJson l

theorem isPlain_uint32 (n : UInt32) : (nat n.toNat).IsPlain :=
  isPlain_nat (n.toNat_lt.trans (by decide))

theorem Location.isPlain_toJson (l : Location) : l.toJson.IsPlain := by
  simp [Location.toJson, isPlain_uint32]

@[simp] theorem Location.isPlain_optionToJson (l : Option Location) :
    (Location.optionToJson l).IsPlain :=
  isPlain_option fun l _ => l.isPlain_toJson

/-! ## Type references -/

namespace TypeRef

theorem readRank?_render (setting : Setting) (rank : IntegerRank) :
    readRank? setting (.str rank.render) = some rank := by
  cases rank <;> rfl

mutual

/-- A reference is read again with any bound above its depth. -/
theorem readTypeRefWithin?_toJson (setting : Setting) : ∀ (t : TypeRef) (steps : Nat),
    t.toJson.depth < steps → readTypeRefWithin? setting steps t.toJson = some t
  | t, 0, h => absurd h (Nat.not_lt_zero _)
  | void, steps + 1, _ => by
    rw [toJson, readTypeRefWithin?]
    rfl
  | integer rank signed, steps + 1, _ => by
    have hfields : record? ["rank", "signed"]
        (.obj [("rank", .str rank.render), ("signed", .bool signed)]) =
          some [some (.str rank.render), some (.bool signed)] :=
      record?_obj rfl (by decide)
    rw [toJson, readTypeRefWithin?]
    simp [Json.variant, variant?, hfields, required?, readRank?_render, bool?]
  | struct n, steps + 1, _ | union n, steps + 1, _ | typedef n, steps + 1, _ => by
    rw [toJson, readTypeRefWithin?]
    rfl
  -- the base is nested one level less deep
  | pointer b, steps + 1, h => by
    rw [toJson] at h ⊢
    simp only [Json.variant, depth, depthOfFields] at h
    have hbase := readTypeRefWithin?_toJson setting b steps (by omega)
    rw [readTypeRefWithin?]
    simp [Json.variant, variant?, hbase]
  | array b n, steps + 1, h => by
    rw [toJson] at h ⊢
    simp only [Json.variant, depth, depthOfFields, depthOfItems] at h
    have hbase := readTypeRefWithin?_toJson setting b steps (by omega)
    -- a length that is not there is null, and a number otherwise
    have hlength : optional? uint64? (some (option (fun n => nat (UInt64.toNat n)) n)) = some n :=
      optional?_option (fun n => by rintro ⟨⟩) fun n _ => uint64?_nat n
    generalize option (fun n => nat (UInt64.toNat n)) n = length at hlength
    rw [readTypeRefWithin?]
    simp [Json.variant, variant?, hbase, hlength]
  | function r ps v, steps + 1, h => by
    rw [toJson] at h ⊢
    simp only [Json.variant, depth, depthOfFields] at h
    have hret := readTypeRefWithin?_toJson setting r steps (by omega)
    have hparams := mapM_toJsonAll setting ps steps (by omega)
    have hfields : record? ["ret", "params", "vararg"]
        (.obj [("ret", r.toJson), ("params", .arr (toJsonAll ps)), ("vararg", .bool v)]) =
          some [some r.toJson, some (.arr (toJsonAll ps)), some (.bool v)] :=
      record?_obj rfl (by decide)
    rw [readTypeRefWithin?]
    simp [Json.variant, variant?, hfields, required?, withDefault?, list?, hret, hparams, bool?]

/-- Parameters are read back one after another. -/
theorem mapM_toJsonAll (setting : Setting) : ∀ (ps : List TypeRef) (steps : Nat),
    depthOfItems (toJsonAll ps) < steps →
      (toJsonAll ps).mapM (readTypeRefWithin? setting steps) = some ps
  | [], _, _ => rfl
  | p :: ps, steps, h => by
    rw [toJsonAll, depthOfItems] at h
    have hp := readTypeRefWithin?_toJson setting p steps (by omega)
    have hps := mapM_toJsonAll setting ps steps (by omega)
    rw [toJsonAll, List.mapM_cons, hp, hps]
    rfl

end

theorem readTypeRef?_toJson (setting : Setting) (t : TypeRef) :
    readTypeRef? setting t.toJson = some t :=
  readTypeRefWithin?_toJson setting t _ (Nat.lt_succ_self _)

theorem relevantTypeRefWithin_zero (j : Json) : relevantTypeRefWithin 0 j = j := by
  unfold relevantTypeRefWithin
  rfl

mutual

/-- Nothing that is written for a reference is ignored. -/
theorem relevantTypeRefWithin_toJson : ∀ (t : TypeRef) (steps : Nat),
    relevantTypeRefWithin steps t.toJson = t.toJson
  | t, 0 => relevantTypeRefWithin_zero t.toJson
  | void, steps + 1 | struct _, steps + 1 | union _, steps + 1 | typedef _, steps + 1 => by
    rw [toJson]
    rfl
  | integer _ _, steps + 1 => by
    rw [toJson, Json.variant, relevantTypeRefWithin]
    simp [keepFields, List.lookup_cons]
    rfl
  | pointer b, steps + 1 => by
    rw [toJson, Json.variant, relevantTypeRefWithin, relevantTypeRefWithin_toJson b steps]
    rfl
  | array b _, steps + 1 => by
    rw [toJson, Json.variant, relevantTypeRefWithin, relevantTypeRefWithin_toJson b steps]
    rfl
  | function r ps _, steps + 1 => by
    rw [toJson, Json.variant, relevantTypeRefWithin]
    simp [keepFields, List.lookup_cons, mapItems, relevantTypeRefWithin_toJson r steps,
      map_relevantTypeRefWithin ps steps]
    rfl

/-- Nothing of the parameters is left out. -/
theorem map_relevantTypeRefWithin : ∀ (ps : List TypeRef) (steps : Nat),
    (toJsonAll ps).map (relevantTypeRefWithin steps) = toJsonAll ps
  | [], _ => rfl
  | p :: ps, steps => by
    rw [toJsonAll, List.map_cons, relevantTypeRefWithin_toJson p steps,
      map_relevantTypeRefWithin ps steps]

end

theorem relevantTypeRef_toJson (t : TypeRef) : relevantTypeRef t.toJson = t.toJson :=
  relevantTypeRefWithin_toJson t maxUnitDepth

mutual

/-- A reference is written plainly. -/
theorem isPlain_toJson : ∀ t : TypeRef, t.toJson.IsPlain
  | void => by simp [toJson]
  | integer _ _ | struct _ | union _ | typedef _ => by simp [toJson, Json.variant]
  | pointer b => by simp [toJson, Json.variant, isPlain_toJson b]
  | array b n => by
    have hlength : (option (fun n => nat (UInt64.toNat n)) n).IsPlain :=
      isPlain_option fun n _ => isPlain_nat n.toNat_lt
    simp [toJson, Json.variant, isPlain_toJson b, hlength]
  | function r ps _ => by
    simpa [toJson, Json.variant, isPlain_toJson r] using isPlain_toJsonAll ps

theorem isPlain_toJsonAll : ∀ ps : List TypeRef, ∀ j ∈ toJsonAll ps, j.IsPlain
  | [] => by simp [toJsonAll]
  | p :: ps => by
    rw [toJsonAll]
    exact List.forall_mem_cons.2 ⟨isPlain_toJson p, isPlain_toJsonAll ps⟩

end

end TypeRef

attribute [simp] TypeRef.isPlain_toJson

/-! ## Definitions -/

/-- A member is read back. -/
theorem readMember?_toJson (m : MemberDecl) : readMember? m.toJson = some m := by
  have hfields : record? ["name", "ty", "location"] m.toJson =
      some [some (.str m.name), some m.type.toJson, some (Location.optionToJson m.location)] :=
    record?_obj rfl (by decide)
  rw [readMember?, hfields]
  simp [required?, str?, TypeRef.readTypeRef?_toJson, optional?_location]

/-- So is a definition. -/
theorem readDefinition?_toJson (d : TypeDefinition) : readDefinition? d.toJson = some d := by
  cases d with
  | composite kind name members location =>
    have htag : tagged? "kind" (TypeDefinition.composite kind name members location).toJson =
        some (kind.render, .obj [("name", .str name), ("members", .list MemberDecl.toJson members),
          ("location", Location.optionToJson location)]) :=
      taggedBy?_obj rfl (by simp)
    -- one record is read for structs and unions; the kind was read from the tag
    have hfields : record? ["name", "members", "location"]
        (.obj [("name", .str name), ("members", .list MemberDecl.toJson members),
          ("location", Location.optionToJson location)]) =
        some [some (.str name), some (.list MemberDecl.toJson members),
          some (Location.optionToJson location)] :=
      record?_obj rfl (by decide)
    have hmembers : list? readMember? (.list MemberDecl.toJson members) = some members :=
      list?_list fun m _ => readMember?_toJson m
    have hcomposite (kind : CompositeKind) : readComposite? kind
        (.obj [("name", .str name), ("members", .list MemberDecl.toJson members),
          ("location", Location.optionToJson location)]) =
        some (.composite kind name members location) := by
      rw [readComposite?, hfields]
      simp [required?, str?, hmembers, optional?_location]
    rw [readDefinition?, htag]
    cases kind <;> exact hcomposite _
  | typedef name real location =>
    have htag : tagged? "kind" (TypeDefinition.typedef name real location).toJson =
        some ("typedef", .obj [("name", .str name), ("real", real.toJson),
          ("location", Location.optionToJson location)]) :=
      taggedBy?_obj rfl (by simp)
    have hfields : record? ["name", "real", "location"]
        (.obj [("name", .str name), ("real", real.toJson),
          ("location", Location.optionToJson location)]) =
        some [some (.str name), some real.toJson, some (Location.optionToJson location)] :=
      record?_obj rfl (by decide)
    rw [readDefinition?, htag]
    simp [hfields, required?, str?, TypeRef.readTypeRef?_toJson, optional?_location]

/-- A definition is written plainly. -/
theorem TypeDefinition.isPlain_toJson (d : TypeDefinition) : d.toJson.IsPlain := by
  cases d with
  | composite kind name members location =>
    have hmembers : (list MemberDecl.toJson members).IsPlain :=
      isPlain_list fun m _ => by simp [MemberDecl.toJson]
    simp [TypeDefinition.toJson, hmembers]
  | typedef name real location => simp [TypeDefinition.toJson]

end Backend386
