import Mathlib.Data.List.Basic
import Backend386.Proofs.Places.Bare

/-!
# Types do not depend on places

The type table is filled, settled and asked in the same way whether or not its types carry the
places of their definitions, and the check of types finds the same problems.

* `TypeTable.intern_bare`, `TypeTable.settleDefinitions_bare` — how the table is filled;
* `TypeTable.realInfo_bind_bare`, `TypeTable.layout_bare` — questions about a type;
* `TypeTable.check_bare`, `TypeTable.summaries_bare` — what is found and said of all types.
-/

namespace Backend386

section

variable {α β γ : Type}

theorem map_bind (x : Except Fault α) (f : α → β) (g : β → Except Fault γ) :
    (x.map f >>= g) = x >>= fun a => g (f a) := by
  cases x <;> rfl

theorem bind_map (x : Except Fault α) (g : α → Except Fault β) (f : β → γ) :
    (x >>= g).map f = x >>= fun a => (g a).map f := by
  cases x <;> rfl

/-- Where a computation gives the image of what another one gives, and the rest is done on images,
the whole gives the image of the whole. -/
theorem bind_bare {δ : Type} {x : Except Fault α} {y : Except Fault β} {f : α → β}
    {g : α → Except Fault γ} {k : β → Except Fault δ} {b : γ → δ} (h : y = x.map f)
    (hk : ∀ a, k (f a) = (g a).map b) : (y >>= k) = (x >>= g).map b := by
  rw [h, map_bind, bind_map]
  exact bind_congr hk

/-- Where every step of a loop can be taken on the images of its state and its element, the whole
loop can. -/
theorem foldlM_map {f : β → α → Except Fault β} {k : β → γ → Except Fault β} {b : β → β}
    {g : α → γ} (h : ∀ s a, k (b s) (g a) = (f s a).map b) (l : List α) (s : β) :
    (l.map g).foldlM k (b s) = (l.foldlM f s).map b := by
  induction l generalizing s with
  | nil => rfl
  | cons a l ih =>
    rw [List.map_cons, List.foldlM_cons, List.foldlM_cons]
    exact bind_bare (h s a) ih

theorem foldlM_bare {f k : β → α → Except Fault β} {b : β → β}
    (h : ∀ s a, k (b s) a = (f s a).map b) (l : List α) (s : β) :
    l.foldlM k (b s) = (l.foldlM f s).map b := by
  have hmap := foldlM_map (g := id) h l s
  rwa [List.map_id] at hmap

end

namespace Diagnostics

variable {ds : Diagnostics}

@[simp] theorem bare_error (location : Option Location) (message : String) :
    (ds.error location message).bare = ds.bare.error none message := by
  simp [bare, error, report, Diagnostic.bare]

@[simp] theorem bare_warn (location : Option Location) (message : String) :
    (ds.warn location message).bare = ds.bare.warn none message := by
  simp [bare, warn, report, Diagnostic.bare]

@[simp] theorem errorCount_bare : ds.bare.errorCount = ds.errorCount := by
  simp [errorCount, errors, bare, List.filter_map, Function.comp_def, Diagnostic.bare]

@[simp] theorem hasErrors_bare : ds.bare.hasErrors = ds.hasErrors := by
  rw [hasErrors, errorCount_bare, hasErrors]

end Diagnostics

@[simp] theorem TypeDefinition.ref_bare (d : TypeDefinition) : d.bare.ref = d.ref := by
  cases d <;> rfl

/-- A definition without locations describes the same type. -/
theorem TypeInfo.ofDefinition_bare (d : TypeDefinition) :
    ofDefinition d.bare = (ofDefinition d).bare := by
  cases d with
  | composite => simp [TypeDefinition.bare, ofDefinition, bare, Composite.bare, Member.bare,
      MemberDecl.bare]
  | typedef => rfl

@[simp] theorem TypeInfo.name?_bare (info : TypeInfo) : info.bare.name? = info.name? := by
  cases info <;> rfl

/-- A struct is laid out by what is measured of its members. -/
theorem Layout.ofStruct_map {α β : Type} (measure : β → Except Fault (Nat × Nat)) (f : α → β)
    (ms : List α) : ofStruct measure (ms.map f) = ofStruct (fun m => measure (f m)) ms := by
  have hplace (a : Allocator) :
      placeMembers measure a (ms.map f) = placeMembers (fun m => measure (f m)) a ms := by
    induction ms generalizing a with
    | nil => rfl
    | cons m ms ih => simp only [List.map_cons, placeMembers, ih]
  simp only [ofStruct, hplace]

theorem Layout.ofUnion_map {α β : Type} (measure : β → Except Fault (Nat × Nat)) (f : α → β)
    (ms : List α) : ofUnion measure (ms.map f) = ofUnion (fun m => measure (f m)) ms := by
  rw [ofUnion, ofUnion, List.mapM_map]
  rfl

namespace TypeTable

variable {t : TypeTable} {id : TypeId} {ref : TypeRef}

/-! ## Reading -/

@[simp] theorem profile_bare : t.bare.profile = t.profile := rfl

@[simp] theorem size_bare : t.bare.size = t.size :=
  List.length_map ..

@[simp] theorem getElem?_bare (i : Nat) : t.bare.entries[i]? = t.entries[i]?.map (·.bare) :=
  List.getElem?_map ..

@[simp] theorem lookup?_bare : t.bare.lookup? ref = t.lookup? ref := by
  simp [lookup?, bare, Function.comp_def, TypeEntry.bare]

theorem entry_bare : t.bare.entry id = (t.entry id).map (·.bare) := by
  rw [entry, entry, getElem?_bare]
  cases t.entries[id.index]? <;> rfl

theorem info_bare : t.bare.info id = (t.info id).map (·.bare) := by
  rw [info, info]
  exact bind_bare entry_bare fun _ => rfl

@[simp] theorem refOf_bare : t.bare.refOf id = t.refOf id := by
  rw [refOf, refOf, entry_bare, map_bind]
  rfl

/-! ## Registering -/

/-- The table of a result is bare. -/
def bareFirst {α : Type} (result : TypeTable × α) : TypeTable × α :=
  (result.1.bare, result.2)

/-- A type is entered the same without locations. -/
theorem put_bare (info : TypeInfo) :
    t.bare.put ref info.bare = (t.put ref info).map bareFirst := by
  rw [put, put, lookup?_bare]
  cases t.lookup? ref with
  | some => rfl
  | none => simp [bare, bareFirst, TypeEntry.bare, Except.map, size]

mutual

/-- So it is registered with all of its parts. -/
theorem intern_bare (t : TypeTable) : (ref : TypeRef) →
    t.bare.intern ref = (t.intern ref).map bareFirst
  | .void | .integer .. | .struct _ | .union _ | .typedef _ => by
    rw [intern, intern, lookup?_bare]
    cases t.lookup? _ <;> rfl
  -- the element is registered first, in both tables alike
  | .pointer base => by
    rw [intern, intern, lookup?_bare]
    cases t.lookup? (.pointer base) with
    | some => rfl
    | none =>
      dsimp only
      exact bind_bare (intern_bare t base) fun r => put_bare (.pointer r.2)
  | .array base length => by
    rw [intern, intern, lookup?_bare]
    cases t.lookup? (.array base length) with
    | some => rfl
    | none =>
      dsimp only
      exact bind_bare (intern_bare t base) fun r => put_bare (.array r.2 length)
  | .function ret params vararg => by
    rw [intern, intern, lookup?_bare]
    cases t.lookup? (.function ret params vararg) with
    | some => rfl
    | none =>
      dsimp only
      refine bind_bare (intern_bare t ret) fun r => ?_
      exact bind_bare (internParams_bare r.1 params) fun r' =>
        put_bare (.function ⟨r.2, r'.2, vararg⟩)

/-- So are the parameters of a function. -/
theorem internParams_bare (t : TypeTable) : (refs : List TypeRef) →
    t.bare.internParams refs = (t.internParams refs).map bareFirst
  | [] => rfl
  | ref :: refs => by
    have hfirst : t.bare.internParam ref = (t.internParam ref).map bareFirst := by
      unfold internParam
      split
      · exact intern_bare t (.pointer _)
      · exact intern_bare t ref
    rw [internParams_cons, internParams_cons]
    refine bind_bare hfirst fun r => ?_
    exact bind_bare (internParams_bare r.1 refs) fun _ => rfl

end

theorem internParam_bare : t.bare.internParam ref = (t.internParam ref).map bareFirst := by
  unfold internParam
  split
  · exact intern_bare t _
  · exact intern_bare t _

/-- So are the types of a list. -/
theorem internAll_bare (refs : List TypeRef) :
    t.bare.internAll refs = (t.internAll refs).map bareFirst := by
  induction refs generalizing t with
  | nil => rfl
  | cons ref refs ih =>
    rw [internAll, internAll]
    exact bind_bare (intern_bare t ref) fun _ => bind_bare ih fun _ => rfl

theorem pointerTo_bare : t.bare.pointerTo id = (t.pointerTo id).map bareFirst := by
  rw [pointerTo, pointerTo, refOf_bare, bind_map]
  exact bind_congr fun _ => intern_bare t _

/-! ## Definitions -/

theorem defineAll_bare (ds : List TypeDefinition) :
    t.bare.defineAll (ds.map (·.bare)) = (t.defineAll ds).map (·.bare) := by
  refine foldlM_map (fun t d => ?_) ds t
  rw [define, define, TypeDefinition.ref_bare, TypeInfo.ofDefinition_bare]
  exact bind_bare (put_bare _) fun _ => rfl

theorem pendingRefs_bare (members : List Member) :
    pendingRefs (members.map (·.bare)) = pendingRefs members := by
  simp [pendingRefs, List.filter_map, Function.comp_def, Member.bare]

/-- Members are settled the same without locations. -/
theorem settleMembers_bare (members : List Member) (ids : List TypeId) :
    settleMembers (members.map (·.bare)) ids = (settleMembers members ids).map (·.bare) := by
  fun_induction settleMembers members ids with
  | case1 => rfl
  | case2 ms h =>
    cases ms with
    | nil => rfl
    | cons m ms => rfl
  | case3 m ms id ids hsettled ih =>
    rw [List.map_cons, settleMembers, if_pos (show m.bare.type.isSettled = true from hsettled), ih,
      List.map_cons]
  | case4 m ms id ids hpending ih =>
    rw [List.map_cons, settleMembers, if_neg (show ¬ m.bare.type.isSettled = true from hpending),
      ih, List.map_cons]
    rfl

/-- The information on a type is replaced the same. -/
theorem setInfo_bare (info : TypeInfo) :
    t.bare.setInfo id info.bare = (t.setInfo id info).bare := by
  refine congrArg (TypeTable.mk t.profile) (List.ext_getElem? fun i => ?_)
  simp only [bare, setInfo, List.getElem?_map, List.getElem?_modify]
  cases t.entries[i]? with
  | none => rfl
  | some e =>
    by_cases hi : id.index = i <;> simp [hi, TypeEntry.bare]

/-- A definition is settled the same. -/
theorem settleDefinition_bare :
    t.bare.settleDefinition id = (t.settleDefinition id).map (·.bare) := by
  rw [settleDefinition, settleDefinition]
  refine bind_bare info_bare fun info => ?_
  cases info with
  | composite c =>
    dsimp only [TypeInfo.bare, Composite.bare]
    rw [pendingRefs_bare]
    refine bind_bare (internAll_bare _) fun ⟨t₁, ids⟩ => ?_
    dsimp only [bareFirst]
    rw [settleMembers_bare]
    exact congrArg Except.ok
      (setInfo_bare (.composite { c with members := settleMembers c.members ids }))
  | typedef d =>
    dsimp only [TypeInfo.bare, Typedef.bare]
    split
    · rfl
    · exact bind_bare (intern_bare t _) fun r =>
        congrArg Except.ok (setInfo_bare (.typedef { d with real := .settled r.2 }))
  | _ => rfl

theorem settleDefinitions_bare : t.bare.settleDefinitions = t.settleDefinitions.map (·.bare) := by
  rw [settleDefinitions, settleDefinitions, size_bare]
  refine foldlM_bare (b := (·.bare)) (fun t i => ?_) (List.range t.size) t
  exact settleDefinition_bare

/-! ## Questions -/

/-- The name of a type does not depend on locations. -/
@[simp] theorem nameWithin_bare (steps : Nat) (id : TypeId) :
    t.bare.nameWithin steps id = t.nameWithin steps id := by
  induction steps generalizing id with
  | zero => rfl
  | succ steps ih =>
    rw [nameWithin, nameWithin, getElem?_bare]
    cases t.entries[id.index]? with
    | none => rfl
    | some e =>
      obtain ⟨ref, info⟩ := e
      have hmap : t.bare.nameWithin steps = t.nameWithin steps := funext ih
      cases info with
      | array base length => cases length <;> simp [TypeEntry.bare, TypeInfo.bare, ih]
      | _ => simp [TypeEntry.bare, TypeInfo.bare, ih, hmap, Composite.bare, Composite.render,
          Typedef.bare]

@[simp] theorem nameOf_bare : t.bare.nameOf id = t.nameOf id := by
  rw [nameOf, nameOf, size_bare, nameWithin_bare]

/-- What is asked of a type and does not depend on places is the same. -/
theorem info_bind_bare {α : Type} {g g' : TypeInfo → Except Fault α}
    (h : ∀ info, g' info.bare = g info) : (t.bare.info id >>= g') = (t.info id >>= g) := by
  rw [info_bare, map_bind]
  exact bind_congr h

/-- Neither does the type behind typedefs. -/
@[simp] theorem realType?_bare : t.bare.realType? id = t.realType? id := by
  have hfollow (steps : Nat) (id : TypeId) :
      t.bare.followTypedefs steps id = t.followTypedefs steps id := by
    induction steps generalizing id with
    | zero => rfl
    | succ steps ih =>
      rw [followTypedefs, followTypedefs]
      refine info_bind_bare fun info => ?_
      cases info with
      | typedef d => exact bind_congr fun real => ih real
      | _ => rfl
  rw [realType?, realType?, size_bare, hfollow]

@[simp] theorem realType_bare : t.bare.realType id = t.realType id := by
  rw [realType, realType, realType?_bare]
  simp only [nameOf_bare]

theorem realInfo_bind_bare {α : Type} {g g' : TypeInfo → Except Fault α}
    (h : ∀ info, g' info.bare = g info) : (t.bare.realInfo id >>= g') = (t.realInfo id >>= g) := by
  rw [realInfo, realInfo, realType_bare, bind_assoc, bind_assoc]
  exact bind_congr fun _ => info_bind_bare h

@[simp] theorem isVoid_bare : t.bare.isVoid id = t.isVoid id :=
  realInfo_bind_bare fun info => by cases info <;> rfl

@[simp] theorem isInteger_bare : t.bare.isInteger id = t.isInteger id :=
  realInfo_bind_bare fun info => by cases info <;> rfl

@[simp] theorem isSigned_bare : t.bare.isSigned id = t.isSigned id :=
  realInfo_bind_bare fun info => by cases info <;> rfl

@[simp] theorem isPointer_bare : t.bare.isPointer id = t.isPointer id :=
  realInfo_bind_bare fun info => by cases info <;> rfl

@[simp] theorem isArray_bare : t.bare.isArray id = t.isArray id :=
  realInfo_bind_bare fun info => by cases info <;> rfl

@[simp] theorem isComposite_bare : t.bare.isComposite id = t.isComposite id :=
  realInfo_bind_bare fun info => by cases info <;> rfl

@[simp] theorem isFunction_bare : t.bare.isFunction id = t.isFunction id :=
  realInfo_bind_bare fun info => by cases info <;> rfl

@[simp] theorem isScalar_bare : t.bare.isScalar id = t.isScalar id := by
  rw [isScalar, isScalar, isInteger_bare, isPointer_bare]

@[simp] theorem isAggregate_bare : t.bare.isAggregate id = t.isAggregate id := by
  rw [isAggregate, isAggregate, isComposite_bare, isArray_bare]

@[simp] theorem isPointerLike_bare : t.bare.isPointerLike id = t.isPointerLike id := by
  rw [isPointerLike, isPointerLike, isPointer_bare, isArray_bare]

@[simp] theorem baseType_bare : t.bare.baseType id = t.baseType id :=
  realInfo_bind_bare fun info => by cases info <;> simp [TypeInfo.bare]

theorem composite_bare : t.bare.composite id = (t.composite id).map (·.bare) := by
  rw [composite, composite, bind_map]
  exact realInfo_bind_bare fun info => by cases info <;> simp [TypeInfo.bare] <;> rfl

@[simp] theorem void_bare : t.bare.void = t.void := by
  rw [void, void, lookup?_bare]

@[simp] theorem int_bare : t.bare.int = t.int := by
  rw [int, int, integer, integer, lookup?_bare]

/-! ## Layouts -/

/-- Neither does a layout. -/
@[simp] theorem layout_bare : t.bare.layout id = t.layout id := by
  have hwithin (steps : Nat) (id : TypeId) :
      t.bare.layoutWithin steps id = t.layoutWithin steps id := by
    induction steps generalizing id with
    | zero => rfl
    | succ steps ih =>
      rw [layoutWithin, layoutWithin]
      refine info_bind_bare fun info => ?_
      cases info with
      | array => simp only [TypeInfo.bare, ih]
      | composite c =>
        simp only [TypeInfo.bare, Composite.bare, ih]
        cases c.kind with
        | struct => exact Layout.ofStruct_map ..
        | union => exact Layout.ofUnion_map ..
      | typedef d => exact bind_congr fun real => ih real
      | _ => rfl
  rw [layout, layout, size_bare, hwithin]

@[simp] theorem sizeOf_bare : t.bare.sizeOf id = t.sizeOf id := by
  rw [sizeOf, sizeOf, layout_bare]

@[simp] theorem alignmentOf_bare : t.bare.alignmentOf id = t.alignmentOf id := by
  rw [alignmentOf, alignmentOf, layout_bare]

@[simp] theorem elementSize_bare : t.bare.elementSize id = t.elementSize id := by
  simp only [elementSize, baseType_bare, sizeOf_bare]

/-- Members are found the same. -/
@[simp] theorem member?_bare (name : String) : t.bare.member? id name = t.member? id name := by
  rw [member?, member?, composite_bare, map_bind]
  refine bind_congr fun c => ?_
  have hindex : c.bare.memberIndex? name = c.memberIndex? name := by
    simp [Composite.memberIndex?, Composite.bare, Function.comp_def, Member.bare]
  rw [hindex]
  cases c.memberIndex? name with
  | none => rfl
  | some i =>
    rw [layout_bare]
    refine bind_congr fun l => ?_
    simp only [Composite.bare, List.getElem?_map]
    cases c.members[i]? with
    | none => rfl
    | some m => cases l.offsets[i]? <;> rfl

/-! ## The check -/

/-- Void parts are the same. -/
theorem isVoidPart_bare : t.bare.isVoidPart id = t.isVoidPart id := by
  rw [isVoidPart, isVoidPart, realType?_bare]
  refine bind_congr fun real => ?_
  cases real with
  | none => rfl
  | some real => exact info_bind_bare fun info => by cases info <;> rfl

/-- Types contain the same types. -/
theorem valueEdges_bare : t.bare.valueEdges id = t.valueEdges id := by
  rw [valueEdges, valueEdges]
  refine info_bind_bare fun info => ?_
  cases info with
  | composite c =>
    dsimp only [TypeInfo.bare, Composite.bare]
    rw [List.mapM_map]
    rfl
  | _ => rfl

/-- The same void members are reported. -/
theorem checkVoidMembers_bare (c : Composite) (ds : Diagnostics) :
    t.bare.checkVoidMembers c.bare ds.bare = (t.checkVoidMembers c ds).map (·.bare) := by
  refine foldlM_map (fun ds m => ?_) c.members ds
  rw [bind_map]
  refine bind_congr fun type => ?_
  rw [isVoidPart_bare, bind_map]
  refine bind_congr fun isVoid => ?_
  cases isVoid with
  | false => rfl
  | true => exact congrArg Except.ok (Diagnostics.bare_error ..).symm

/-- The same repeated names are reported. -/
theorem checkMemberNames_bare (c : Composite) (ds : Diagnostics) :
    checkMemberNames c.bare ds.bare = (checkMemberNames c ds).bare := by
  have hnames : c.bare.members.map (·.name) = c.members.map (·.name) := by
    simp [Composite.bare, Function.comp_def, Member.bare]
  rw [checkMemberNames, checkMemberNames, hnames]
  generalize repeatedNames [] (c.members.map (·.name)) = names
  induction names generalizing ds with
  | nil => rfl
  | cons name names ih =>
    rw [List.foldl_cons, List.foldl_cons, ← ih, Diagnostics.bare_error]
    rfl

/-- The same is reported about the parts of a type. -/
theorem checkParts_bare (ds : Diagnostics) :
    t.bare.checkParts id ds.bare = (t.checkParts id ds).map (·.bare) := by
  rw [checkParts, checkParts, bind_map]
  refine info_bind_bare fun info => ?_
  cases info with
  | composite c =>
    dsimp only [TypeInfo.bare]
    exact bind_bare (checkVoidMembers_bare c ds) fun ds =>
      congrArg Except.ok (checkMemberNames_bare c ds)
  | array base =>
    dsimp only [TypeInfo.bare]
    rw [isVoidPart_bare, bind_map]
    refine bind_congr fun isVoid => ?_
    cases isVoid with
    | false => rfl
    | true => exact congrArg Except.ok (Diagnostics.bare_error ..).symm
  | _ => rfl

end TypeTable

def CycleSearch.bare (s : CycleSearch) : CycleSearch :=
  { s with diagnostics := s.diagnostics.bare }

namespace TypeTable

variable {t : TypeTable} {id : TypeId}

/-- The same type of a circle is blamed. -/
theorem culprit_bare (path : List TypeId) : t.bare.culprit path id = t.culprit path id := by
  unfold culprit
  dsimp only
  congr 2
  funext p
  rw [getElem?_bare]
  cases t.entries[p.index]? with
  | none => rfl
  | some e => exact congrArg Option.isSome (TypeInfo.name?_bare e.info)

/-- The same circle is reported. -/
theorem reportRecursion_bare (ds : Diagnostics) :
    t.bare.reportRecursion id ds.bare = (t.reportRecursion id ds).bare := by
  rw [reportRecursion, reportRecursion, nameOf_bare, Diagnostics.bare_error, getElem?_bare]
  cases t.entries[id.index]? with
  | none => rfl
  | some e =>
    obtain ⟨ref, info⟩ := e
    cases info <;> rfl

/-- The search for circles goes the same way. -/
theorem searchCycles_bare (steps : Nat) (path : List TypeId) (s : CycleSearch) (id : TypeId) :
    t.bare.searchCycles steps path s.bare id = (t.searchCycles steps path s id).map (·.bare) := by
  induction steps generalizing path s id with
  | zero => rfl
  | succ steps ih =>
    rw [searchCycles, searchCycles, show s.bare.marks = s.marks from rfl]
    cases s.marks.getD id.index .visited with
    | visited => rfl
    | visiting =>
      dsimp only
      rw [culprit_bare]
      exact congrArg Except.ok (congrArg (CycleSearch.mk _) (reportRecursion_bare _))
    | unvisited =>
      dsimp only
      rw [valueEdges_bare, bind_map]
      refine bind_congr fun edges => ?_
      have hloop := foldlM_bare (f := t.searchCycles steps (path ++ [id]))
        (fun s part => ih (path ++ [id]) s part) edges (s.setMark id .visiting)
      exact bind_bare hloop fun _ => rfl

/-- The check of all types reports the same. -/
theorem check_bare (ds : Diagnostics) : t.bare.check ds.bare = (t.check ds).map (·.bare) := by
  rw [check, check, size_bare]
  have hloop := foldlM_bare (f := fun s i => t.checkType s ⟨i⟩)
    (k := fun s i => t.bare.checkType s ⟨i⟩) (b := (·.bare)) (fun s i => by
      rw [checkType, checkType, size_bare]
      exact bind_bare (checkParts_bare s.diagnostics) fun ds =>
        searchCycles_bare _ [] { s with diagnostics := ds } ⟨i⟩)
    (List.range t.size) { marks := List.replicate t.size .unvisited, diagnostics := ds }
  exact bind_bare hloop fun _ => rfl

end TypeTable

/-! ## Summaries -/

/-- A struct is laid out in the cache by what is measured of its members. -/
theorem Caching.ofStruct_map {α β : Type} (measure : β → Caching (Nat × Nat)) (f : α → β)
    (ms : List α) : ofStruct measure (ms.map f) = ofStruct (fun m => measure (f m)) ms := by
  have hplace (a : Allocator) :
      placeMembers measure a (ms.map f) = placeMembers (fun m => measure (f m)) a ms := by
    induction ms generalizing a with
    | nil => rfl
    | cons m ms ih => simp only [List.map_cons, placeMembers, ih]
  simp only [ofStruct, hplace]

theorem Caching.ofUnion_map {α β : Type} (measure : β → Caching (Nat × Nat)) (f : α → β)
    (ms : List α) : ofUnion measure (ms.map f) = ofUnion (fun m => measure (f m)) ms := by
  rw [ofUnion, ofUnion, List.mapM_map]
  rfl

theorem Caching.lift_map_bind {α β γ : Type} (x : Except Fault α) (f : α → β) (g : β → Caching γ) :
    ((liftM (x.map f) : Caching β) >>= g) = (liftM x : Caching α) >>= fun a => g (f a) := by
  cases x <;> rfl

namespace TypeTable

variable {t : TypeTable}

/-- Layouts are kept in the cache the same. -/
theorem cachedLayoutWithin_bare (steps : Nat) :
    t.bare.cachedLayoutWithin steps = t.cachedLayoutWithin steps := by
  -- induction on the steps that are left, as parts are computed with one step less
  induction steps with
  | zero => rfl
  | succ steps ih =>
    have hby (layouts : TypeId → Caching Layout) (info : TypeInfo) :
        t.bare.cachedLayoutBy layouts info.bare = t.cachedLayoutBy layouts info := by
      cases info with
      -- only the members of a composite have locations of their own
      | composite c =>
        cases hkind : c.kind with
        | struct =>
          simp only [TypeInfo.bare, Composite.bare, cachedLayoutBy, hkind]
          exact Caching.ofStruct_map ..
        | union =>
          simp only [TypeInfo.bare, Composite.bare, cachedLayoutBy, hkind]
          exact Caching.ofUnion_map ..
      | _ => rfl
    funext id
    rw [cachedLayoutWithin, cachedLayoutWithin, ih]
    refine bind_congr fun cells => ?_
    split
    · rfl
    · rw [info_bare, Caching.lift_map_bind]
      exact bind_congr fun info => by rw [hby]

end TypeTable

namespace LayoutCache

def bare (c : LayoutCache) : LayoutCache :=
  { c with types := c.types.bare }

variable {c : LayoutCache}

/-- A summary of a type is the same. -/
theorem summary_bare (id : TypeId) :
    c.bare.summary id = (c.summary id).map fun r => (r.1.bare, r.2) := by
  have hlayout : c.bare.layout id = (c.layout id).map fun r => (r.1.bare, r.2) := by
    rw [layout, layout, bare, TypeTable.size_bare, TypeTable.cachedLayoutWithin_bare, bind_map]
    rfl
  rw [summary, summary, hlayout, bare, TypeTable.nameOf_bare, TypeTable.isFunction_bare, bind_map]
  refine bind_congr fun isFunction => ?_
  cases isFunction with
  | true => rfl
  | false =>
    rw [if_neg Bool.false_ne_true, if_neg Bool.false_ne_true, map_bind, bind_map]
    rfl

/-- So are the summaries of several types. -/
theorem summaries_bare (ids : List TypeId) : c.bare.summaries ids = c.summaries ids := by
  induction ids generalizing c with
  | nil => rfl
  | cons id ids ih =>
    rw [summaries, summaries, summary_bare, map_bind]
    refine bind_congr fun ⟨c, summary⟩ => ?_
    dsimp only
    rw [ih]

end LayoutCache

theorem TypeTable.summaries_bare (t : TypeTable) : t.bare.summaries = t.summaries := by
  have hstart : LayoutCache.ofTypes t.bare = (LayoutCache.ofTypes t).bare := by
    rw [LayoutCache.ofTypes, size_bare]
    rfl
  rw [summaries, summaries, size_bare, hstart, LayoutCache.summaries_bare]

/-- The types that are checked and the problems found are the same, but for places. -/
theorem checkedTypes_bare (profile : WidthProfile) (definitions : List TypeDefinition) :
    checkedTypes profile (definitions.map (·.bare)) =
      (checkedTypes profile definitions).map fun r => (r.1.bare, r.2.bare) := by
  have hinitial : (TypeTable.initial profile).bare = TypeTable.initial profile := rfl
  have hdefine := TypeTable.defineAll_bare (t := .initial profile) definitions
  rw [hinitial] at hdefine
  rw [checkedTypes, checkedTypes]
  refine bind_bare hdefine fun t => bind_bare TypeTable.settleDefinitions_bare fun t => ?_
  exact bind_bare (t.check_bare []) fun _ => rfl

end Backend386
