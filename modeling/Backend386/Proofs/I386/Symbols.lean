import Backend386.Proofs.I386.Placed
import Backend386.Proofs.I386.Plain

/-!
# Symbols of a listing

A listing defines the symbols of its labels and of its common data. The addresses that it stores in
the data are those of string literals and of entities that initialize a variable.

* `Listing.defined`, `Listing.stored` — the symbols that are defined, and those whose addresses are
  stored;
* `Ir.Module.defined_symbol` — static variables and functions are defined;
* `Ir.Module.stored_cases` — what is stored.
-/

namespace Backend386

/-- The symbol that an item defines. -/
def Item.defined? : Item → Option String
  | .label name => some name
  | .directive (.comm symbol _ _) => some symbol
  | _ => none

/-- The symbol whose address an item stores in the data. -/
def Item.stored? : Item → Option String
  | .directive (.long (.symbol s)) | .directive (.quad (.symbol s)) => some s
  | _ => none

namespace Listing

/-- The symbols that are defined. -/
def defined (code : Listing) : List String :=
  code.filterMap Item.defined?

/-- The symbols whose addresses are stored in the data. -/
def stored (code : Listing) : List String :=
  code.filterMap Item.stored?

@[simp] theorem defined_append (a b : Listing) : defined (a ++ b) = defined a ++ defined b :=
  List.filterMap_append

@[simp] theorem stored_append (a b : Listing) : stored (a ++ b) = stored a ++ stored b :=
  List.filterMap_append

theorem defined_of_label {code : Listing} {s : String} (h : .label s ∈ code) : s ∈ code.defined :=
  List.mem_filterMap.2 ⟨_, h, rfl⟩

/-- Instructions store no addresses in the data. -/
theorem Plain.stored {code : Listing} (h : code.Plain) : code.stored = [] := by
  refine List.filterMap_eq_nil_iff.2 fun i hi => ?_
  have hplain := h i hi
  cases i <;> first | rfl | cases hplain

theorem defined_of_mem_flatten {part : Listing} {parts : List Listing} (h : part ∈ parts)
    {s : String}
    (hs : s ∈ part.defined) : s ∈ defined parts.flatten := by
  obtain ⟨i, hi, hdefined⟩ := List.mem_filterMap.1 hs
  exact List.mem_filterMap.2 ⟨i, List.mem_flatten.2 ⟨part, h, hi⟩, hdefined⟩

theorem stored_flatten {parts : List Listing} {s : String} (hs : s ∈ stored parts.flatten) :
    ∃ part ∈ parts, s ∈ part.stored := by
  obtain ⟨i, hi, hstored⟩ := List.mem_filterMap.1 hs
  obtain ⟨part, hpart, hi⟩ := List.mem_flatten.1 hi
  exact ⟨part, hpart, List.mem_filterMap.2 ⟨i, hi, hstored⟩⟩

/-- The items that are dropped are jumps. -/
theorem stored_dropJumps (epilogue : String) (code : Listing) :
    stored (dropJumps epilogue code) = code.stored := by
  induction code with
  | nil => rfl
  | cons i rest ih =>
    rw [dropJumps]
    split
    · next h =>
      obtain ⟨target, htarget⟩ := Option.isSome_iff_exists.1 h.1
      have hnone : i.stored? = none := by
        unfold Item.jumpTarget? at htarget
        split at htarget
        · rfl
        · cases htarget
      rw [ih, stored, stored, List.filterMap_cons_none hnone]
    · simp only [stored, List.filterMap_cons] at ih ⊢
      rw [ih]

end Listing

/-- A computation on a list gives one result for each element. -/
theorem mapM_eq_ok {α β : Type} {f : α → Except Fault β} {l : List α} {results : List β}
    (h : l.mapM f = .ok results) : (∀ a ∈ l, ∃ b ∈ results, f a = .ok b) ∧
      ∀ b ∈ results, ∃ a ∈ l, f a = .ok b := by
  induction l generalizing results with
  | nil =>
    obtain rfl := Except.ok.inj h
    exact ⟨by simp, by simp⟩
  | cons a l ih =>
    rw [List.mapM_cons] at h
    obtain ⟨b, hb, h⟩ := bind_eq_ok_iff.1 h
    obtain ⟨bs, hbs, h⟩ := bind_eq_ok_iff.1 h
    obtain rfl := Except.ok.inj h
    obtain ⟨hleft, hright⟩ := ih hbs
    refine ⟨List.forall_mem_cons.2 ⟨⟨b, List.mem_cons_self, hb⟩, fun a' ha' => ?_⟩,
      List.forall_mem_cons.2 ⟨⟨a, List.mem_cons_self, hb⟩, fun b' hb' => ?_⟩⟩
    · obtain ⟨b', hb', hf⟩ := hleft a' ha'
      exact ⟨b', List.mem_cons_of_mem _ hb', hf⟩
    · obtain ⟨a', ha', hf⟩ := hright b' hb'
      exact ⟨a', List.mem_cons_of_mem _ ha', hf⟩

namespace Placement

variable {p p' : Placement} {code : Listing} {types : TypeTable} {options : AssemblyOptions}
  {epilogue : Ir.Label}

/-! ## Functions -/

/-- Statements reserve no storage. -/
theorem stored_actionCode {a : Ir.Action} (h : p.actionCode epilogue a = .ok code) :
    code.stored = [] := by
  cases a with
  | eval e => exact ((exprCode_plain e).1 code h).stored
  | assign => exact (storeCode_plain h).stored
  | jump | label =>
    cases h
    rfl
  | branch =>
    obtain ⟨⟨ct, c⟩, hct, h⟩ := bind_eq_ok_iff.1 h
    cases h
    rw [Listing.stored_append, (testCode_plain hct).stored]
    rfl
  | ret e =>
    cases e with
    | none =>
      cases h
      rfl
    | some e =>
      obtain ⟨ce, hce, h⟩ := bind_eq_ok_iff.1 h
      cases h
      rw [Listing.stored_append, ((exprCode_plain e).1 ce hce).stored]
      rfl

/-- Neither does a body. -/
theorem stored_bodyCode {body : List Ir.Stmt} (h : p.bodyCode options epilogue body = .ok code) :
    code.stored = [] := by
  induction body generalizing code with
  | nil =>
    cases h
    rfl
  | cons s body ih =>
    obtain ⟨cs, hcs, h⟩ := bind_eq_ok_iff.1 h
    obtain ⟨cb, hcb, h⟩ := bind_eq_ok_iff.1 h
    cases h
    obtain ⟨ca, hca, h⟩ := bind_eq_ok_iff.1 hcs
    cases h
    rw [Listing.stored_append, Listing.stored_append, comment_plain.stored, stored_actionCode hca,
      ih hcb]
    rfl

/-- A loop relates the states at its two ends as its steps do. -/
theorem foldlM_relates {α σ : Type} {R : σ → σ → Prop} {step : σ → α → Except Fault σ}
    (hrefl : ∀ s, R s s) (htrans : ∀ {s₁ s₂ s₃}, R s₁ s₂ → R s₂ s₃ → R s₁ s₃)
    (hstep : ∀ {s a s'}, step s a = .ok s' → R s s') {l : List α} {s s' : σ}
    (h : l.foldlM step s = .ok s') : R s s' := by
  induction l generalizing s with
  | nil =>
    obtain rfl := Except.ok.inj h
    exact hrefl s
  | cons a l ih =>
    rw [List.foldlM_cons] at h
    obtain ⟨s₁, hs₁, h⟩ := bind_eq_ok_iff.1 h
    exact htrans (hstep hs₁) (ih h)

/-- A named constant that is placed has a value that the assembler knows. -/
theorem placeConstant_eq_ok {c : Ir.NamedConstant} (h : p.placeConstant c = .ok p') :
    ∃ value i, c.value = some value ∧ p.immediate? value = .ok (some i) ∧
      p.place c.entity (.immediate i) = .ok p' := by
  unfold Placement.placeConstant at h
  cases hvalue : c.value with
  | none =>
    simp only [hvalue] at h
    obtain ⟨found, hfound, h⟩ := bind_eq_ok_iff.1 h
    obtain rfl := Except.ok.inj hfound
    obtain ⟨e, -, h⟩ := bind_eq_ok_iff.1 h
    cases h
  | some value =>
    simp only [hvalue] at h
    obtain ⟨found, hfound, h⟩ := bind_eq_ok_iff.1 h
    cases found with
    | none =>
      obtain ⟨e, -, h⟩ := bind_eq_ok_iff.1 h
      cases h
    | some i => exact ⟨value, i, rfl, hfound, h⟩

/-- Entities are placed, and nothing else changes. -/
structure Places (p p' : Placement) : Prop where
  entities : EntityTable.Passes Entity.Stored p.entities p'.entities
  size : p'.entities.size = p.entities.size
  strings : p'.strings = p.strings

namespace Places

variable {α : Type} {p₁ : Placement}

theorem refl (p : Placement) : Places p p :=
  ⟨.refl .refl _, rfl, rfl⟩

theorem trans (h : Places p p₁) (h' : Places p₁ p') : Places p p' where
  entities := h.entities.trans (fun _ _ _ => .trans) h'.entities
  size := h'.size.trans h.size
  strings := h'.strings.trans h.strings

/-- An entity that has a place has had the same symbol before. -/
theorem get (h : Places p p') {id : EntityId} {e : Entity} (he : p'.entities.get id = .ok e) :
    ∃ e₀, p.entities.get id = .ok e₀ ∧ e₀.symbol = e.symbol := by
  obtain ⟨e₀, he₀⟩ := EntityTable.exists_get (h.size ▸ EntityTable.lt_of_get he)
  obtain ⟨e', he', storage, rfl⟩ := h.entities he₀
  obtain rfl := Except.ok.inj (he'.symm.trans he)
  exact ⟨e₀, he₀, rfl⟩

theorem of_place {id : EntityId} {storage : Storage} {t : EntityTable}
    (h : p.entities.place id storage = .ok t) : Places p { p with entities := t } := by
  obtain ⟨e, he, -, rfl⟩ := EntityTable.place_eq_ok h
  exact ⟨.set .refl he ⟨_, rfl⟩, EntityTable.size_set, rfl⟩

/-- What every step of a loop leaves as it was, the loop does. -/
theorem of_foldlM {σ : Type} (view : σ → Placement) {step : σ → α → Except Fault σ}
    (hstep : ∀ {s a s'}, step s a = .ok s' → Places (view s) (view s')) {l : List α} {s s' : σ}
    (h : l.foldlM step s = .ok s') : Places (view s) (view s') :=
  foldlM_relates (R := fun s s' => Places (view s) (view s')) (fun _ => .refl _) .trans hstep h

theorem place {id : EntityId} {storage : Storage} (h : p.place id storage = .ok p') :
    Places p p' := by
  obtain ⟨t, ht, h⟩ := bind_eq_ok_iff.1 h
  obtain rfl := Except.ok.inj h
  exact of_place ht

/-- Placing a unit gives symbols to its literals, and storage to its entities. -/
theorem module {m : Ir.Module} (h : m.place = .ok p) :
    Places ⟨m.entities, m.strings.labelAll⟩ p := by
  obtain ⟨p₁, h₁, h⟩ := bind_eq_ok_iff.1 h
  obtain ⟨p₂, h₂, h₃⟩ := bind_eq_ok_iff.1 h
  refine (of_foldlM (fun p => p) (fun hv => ?_) h₁).trans
    ((of_foldlM (fun p => p) (fun hid => ?_) h₂).trans
      (of_foldlM (fun p => p) (fun hc => ?_) h₃))
  · obtain ⟨symbol, -, hplace⟩ := bind_eq_ok_iff.1 hv
    exact place hplace
  · obtain ⟨e, -, hplace⟩ := bind_eq_ok_iff.1 hid
    exact place hplace
  · obtain ⟨_, _, -, -, hplace⟩ := placeConstant_eq_ok hc
    exact place hplace

end Places

/-- The code of a function stores no addresses in the data, and defines the function. -/
theorem symbols_functionCode {f : Ir.Function}
    (h : p.functionCode types options epilogue f = .ok (p', code)) :
    Places p p' ∧ code.stored = [] ∧
      ∃ e, p.entities.get f.entity = .ok e ∧ e.symbol ∈ code.defined := by
  obtain ⟨e, he, h⟩ := bind_eq_ok_iff.1 h
  dsimp only at h
  split at h
  · cases h
  obtain ⟨frame, -, h⟩ := bind_eq_ok_iff.1 h
  obtain ⟨t, ht, h⟩ := bind_eq_ok_iff.1 h
  obtain ⟨body, hbody, h⟩ := bind_eq_ok_iff.1 h
  obtain ⟨rfl, rfl⟩ := Prod.mk.inj (Except.ok.inj h)
  refine ⟨Places.of_foldlM (fun t => { p with entities := t })
    (fun hplace => Places.of_place (p := { p with entities := _ }) hplace) ht, ?_, e, he, ?_⟩
  · have hstored : Listing.stored (dropJumps epilogue.render body) = [] := by
      rw [Listing.stored_dropJumps, stored_bodyCode hbody]
    have hprologue : Listing.stored (prologue frame.size) = [] := by
      unfold prologue
      split <;> rfl
    simp only [Listing.stored_append, hstored, hprologue]
    split <;> rfl
  · exact Listing.defined_of_label (by simp)

/-- Each function is defined by its own symbol. -/
theorem symbols_functionsCode {fs : List Ir.Function} {labels : Ir.LabelSupply}
    (h : p.functionsCode types options labels fs = .ok code) :
    code.stored = [] ∧ ∀ f ∈ fs, ∃ e, p.entities.get f.entity = .ok e ∧
      e.symbol ∈ code.defined := by
  induction fs generalizing p labels code with
  | nil =>
    obtain rfl := Except.ok.inj h
    exact ⟨rfl, by simp⟩
  | cons f fs ih =>
    obtain ⟨⟨p₁, cf⟩, hf, h⟩ := bind_eq_ok_iff.1 h
    obtain ⟨rest, hrest, h⟩ := bind_eq_ok_iff.1 h
    obtain rfl := Except.ok.inj h
    obtain ⟨hplaces, hstored, e, he, hdefined⟩ := symbols_functionCode hf
    obtain ⟨hnone, hothers⟩ := ih hrest
    refine ⟨by rw [Listing.stored_append, hstored, hnone]; rfl, fun g hg => ?_⟩
    rw [Listing.defined_append]
    rcases List.mem_cons.1 hg with rfl | hg
    · exact ⟨e, he, List.mem_append_left _ hdefined⟩
    · obtain ⟨e', he', hdefined'⟩ := hothers g hg
      obtain ⟨e₀, he₀, hsymbol⟩ := hplaces.get he'
      exact ⟨e₀, he₀, hsymbol ▸ List.mem_append_right _ hdefined'⟩

/-! ## Data -/

/-- The address that a directive stores is that of its value. -/
theorem stored_dataDirective {init : Ir.Expr} {size : Nat} {d : Directive} {s : String}
    (h : p.dataDirective init size = .ok d) (hs : Item.stored? (.directive d) = some s) :
    (∃ w id, init = .str w id ∧ p.stringSymbol id = .ok s) ∨
      ∃ w id, init = .addr w id ∧ p.entitySymbol id = .ok s := by
  unfold dataDirective at h
  split at h
  case h_5 w id =>
    obtain ⟨symbol, hsymbol, h⟩ := bind_eq_ok_iff.1 h
    obtain rfl := Except.ok.inj h
    obtain rfl := Option.some.inj hs
    exact .inl ⟨w, id, rfl, hsymbol⟩
  case h_6 w id =>
    obtain ⟨symbol, hsymbol, h⟩ := bind_eq_ok_iff.1 h
    obtain rfl := Except.ok.inj h
    obtain rfl := Option.some.inj hs
    exact .inr ⟨w, id, rfl, hsymbol⟩
  case h_7 => cases h
  all_goals
    obtain rfl := Except.ok.inj h
    cases hs

/-- An initialized variable is defined, and the address it stores is that of its initializer. -/
theorem symbols_initializedVariable {entity : EntityId} {init : Ir.Expr}
    (h : p.initializedVariable types entity init = .ok code) :
    (∃ e, p.entities.get entity = .ok e ∧ e.symbol ∈ code.defined) ∧ ∀ s ∈ code.stored,
      (∃ w id, init = .str w id ∧ p.stringSymbol id = .ok s) ∨
      ∃ w id, init = .addr w id ∧ p.entitySymbol id = .ok s := by
  obtain ⟨e, he, h⟩ := bind_eq_ok_iff.1 h
  obtain ⟨type, -, h⟩ := bind_eq_ok_iff.1 h
  obtain ⟨size, -, h⟩ := bind_eq_ok_iff.1 h
  obtain ⟨alignment, -, h⟩ := bind_eq_ok_iff.1 h
  obtain ⟨value, hvalue, h⟩ := bind_eq_ok_iff.1 h
  obtain rfl := Except.ok.inj h
  refine ⟨⟨e, he, Listing.defined_of_label (by simp)⟩, fun s hs => ?_⟩
  refine stored_dataDirective hvalue ?_
  obtain ⟨i, hi, hstored⟩ := List.mem_filterMap.1 hs
  simp only [List.mem_append, List.mem_ite_nil_left, List.mem_cons, List.not_mem_nil,
    or_false] at hi
  rcases hi with ⟨-, rfl⟩ | rfl | rfl | rfl | rfl | rfl
  case inr.inr.inr.inr.inr => exact hstored
  all_goals cases hstored

/-- A variable without an initializer is defined or reserved by its own symbol. -/
theorem symbols_zeroedVariable {entity : EntityId}
    (h : p.zeroedVariable types entity = .ok code) :
    (∃ e, p.entities.get entity = .ok e ∧ e.symbol ∈ code.defined) ∧ code.stored = [] := by
  obtain ⟨e, he, h⟩ := bind_eq_ok_iff.1 h
  obtain ⟨type, -, h⟩ := bind_eq_ok_iff.1 h
  obtain ⟨size, -, h⟩ := bind_eq_ok_iff.1 h
  obtain ⟨alignment, -, h⟩ := bind_eq_ok_iff.1 h
  obtain rfl := Except.ok.inj h
  refine ⟨⟨e, he, ?_⟩, ?_⟩
  · rw [Listing.defined_append]
    exact List.mem_append_right _ List.mem_cons_self
  · rw [Listing.stored_append]
    split <;> rfl

/-- All static variables are defined, and the addresses that they store are those of their
initializers. -/
theorem symbols_variableData {vars : List Ir.StaticVariable}
    (h : p.variableData types vars = .ok code) :
    (∀ v ∈ vars, ∃ e, p.entities.get v.entity = .ok e ∧ e.symbol ∈ code.defined) ∧
    ∀ s ∈ code.stored, (∃ id, p.stringSymbol id = .ok s) ∨
      ∃ v ∈ vars, ∃ w id, v.init = some (.addr w id) ∧ p.entitySymbol id = .ok s := by
  obtain ⟨first, hfirst, h⟩ := bind_eq_ok_iff.1 h
  obtain ⟨second, hsecond, h⟩ := bind_eq_ok_iff.1 h
  obtain rfl := Except.ok.inj h
  have hfirst := mapM_eq_ok hfirst
  have hsecond := mapM_eq_ok hsecond
  constructor
  -- a variable is defined with the initialized ones or with the others
  · intro v hv
    simp only [Listing.defined_append, List.mem_append]
    cases hinit : v.init with
    | some init =>
      have hmem : (v.entity, init) ∈ initialized vars :=
        List.mem_filterMap.2 ⟨v, hv, by rw [hinit]; rfl⟩
      obtain ⟨part, hpart, hcode⟩ := hfirst.1 _ hmem
      obtain ⟨⟨e, he, hdefined⟩, -⟩ := symbols_initializedVariable hcode
      exact ⟨e, he, .inl (.inr (Listing.defined_of_mem_flatten hpart hdefined))⟩
    | none =>
      have hmem : v.entity ∈ zeroed vars :=
        List.mem_map_of_mem (List.mem_filter.2 ⟨hv, by rw [hinit]; rfl⟩)
      obtain ⟨part, hpart, hcode⟩ := hsecond.1 _ hmem
      obtain ⟨⟨e, he, hdefined⟩, -⟩ := symbols_zeroedVariable hcode
      exact ⟨e, he, .inr (Listing.defined_of_mem_flatten hpart hdefined)⟩
  -- only initializers store symbols
  · intro s hs
    simp only [Listing.stored_append, List.mem_append] at hs
    rcases hs with (hs | hs) | hs
    · split at hs <;> cases hs
    · obtain ⟨part, hpart, hs⟩ := Listing.stored_flatten hs
      obtain ⟨⟨entity, init⟩, hmem, hcode⟩ := hfirst.2 _ hpart
      obtain ⟨v, hv, hinit⟩ := List.mem_filterMap.1 hmem
      obtain ⟨x, hx, hpair⟩ := Option.map_eq_some_iff.1 hinit
      obtain ⟨rfl, rfl⟩ := Prod.mk.inj hpair
      rcases (symbols_initializedVariable hcode).2 s hs with
        ⟨w, id, -, hsymbol⟩ | ⟨w, id, rfl, hsymbol⟩
      · exact .inl ⟨id, hsymbol⟩
      · exact .inr ⟨v, hv, w, id, hx, hsymbol⟩
    · obtain ⟨part, hpart, hs⟩ := Listing.stored_flatten hs
      obtain ⟨entity, -, hcode⟩ := hsecond.2 _ hpart
      rw [(symbols_zeroedVariable hcode).2] at hs
      cases hs

/-- All string literals are defined. -/
theorem symbols_stringData (h : p.stringData = .ok code) :
    code.stored = [] ∧ ∀ id s, p.stringSymbol id = .ok s → s ∈ code.defined := by
  obtain ⟨literals, hliterals, h⟩ := bind_eq_ok_iff.1 h
  obtain rfl := Except.ok.inj h
  have hliterals := mapM_eq_ok hliterals
  constructor
  -- strings are their own bytes, and refer to nothing
  · refine List.eq_nil_iff_forall_not_mem.2 fun s hs => ?_
    rw [Listing.stored_append] at hs
    rcases List.mem_append.1 hs with hs | hs
    · split at hs <;> cases hs
    · obtain ⟨part, hpart, hs⟩ := Listing.stored_flatten hs
      obtain ⟨entry, -, hcode⟩ := hliterals.2 _ hpart
      obtain ⟨memory, -, hcode⟩ := bind_eq_ok_iff.1 hcode
      obtain rfl := Except.ok.inj hcode
      cases hs
  -- each entry of the table is written with its label in front
  · intro id s hs
    obtain ⟨memory, hmemory, hs⟩ := bind_eq_ok_iff.1 hs
    obtain rfl := Except.ok.inj hs
    obtain ⟨entry, hentry, hmemory⟩ := bind_eq_ok_iff.1 hmemory
    have hmem : entry ∈ p.strings.entries := by
      unfold StringTable.get at hentry
      split at hentry
      · next hget =>
        obtain rfl := Except.ok.inj hentry
        exact List.mem_of_getElem? hget
      · cases hentry
    obtain ⟨part, hpart, hcode⟩ := hliterals.1 _ hmem
    obtain ⟨memory', hmemory', hcode⟩ := bind_eq_ok_iff.1 hcode
    obtain rfl := Except.ok.inj hcode
    obtain rfl := Except.ok.inj (hmemory.symm.trans hmemory')
    rw [Listing.defined_append]
    exact List.mem_append_right _
      (Listing.defined_of_mem_flatten hpart (Listing.defined_of_label List.mem_cons_self))

end Placement

/-! ## Modules -/

namespace Ir.Module

variable {m : Ir.Module} {types : TypeTable} {options : AssemblyOptions} {code : Listing}

/-- The parts of the listing of a module. -/
theorem assemble_eq_ok (h : m.assemble types options = .ok code) :
    ∃ p vars strings functions, m.place = .ok p ∧ p.variableData types m.vars = .ok vars ∧
      p.stringData = .ok strings ∧
      p.functionsCode types options m.labels m.functions = .ok functions ∧
      code = fileCode options ++ vars ++ strings ++ functions := by
  unfold assemble at h
  dsimp only at h
  split at h
  · cases h
  · obtain ⟨p, hp, h⟩ := bind_eq_ok_iff.1 h
    obtain ⟨vars, hvars, h⟩ := bind_eq_ok_iff.1 h
    obtain ⟨strings, hstrings, h⟩ := bind_eq_ok_iff.1 h
    obtain ⟨functions, hfunctions, h⟩ := bind_eq_ok_iff.1 h
    exact ⟨p, vars, strings, functions, hp, hvars, hstrings, hfunctions, (Except.ok.inj h).symm⟩

/-- Whatever has static storage in this unit is defined in its listing. -/
theorem defined_symbol (h : m.assemble types options = .ok code) {id : EntityId} {e : Entity}
    (hid : id ∈ m.vars.map (·.entity) ∨ id ∈ m.functions.map (·.entity))
    (he : m.entities.get id = .ok e) : e.symbol ∈ code.defined := by
  obtain ⟨p, vars, strings, functions, hp, hvars, -, hfunctions, rfl⟩ := assemble_eq_ok h
  have hplaces := Placement.Places.module hp
  -- the symbol is that of the entity before it was placed
  suffices hfound : ∃ e', p.entities.get id = .ok e' ∧
      e'.symbol ∈ Listing.defined (fileCode options ++ vars ++ strings ++ functions) by
    obtain ⟨e', he', hdefined⟩ := hfound
    obtain ⟨e₀, he₀, hsymbol⟩ := hplaces.get he'
    obtain rfl := Except.ok.inj (he.symm.trans he₀)
    rwa [hsymbol]
  simp only [Listing.defined_append, List.mem_append]
  rcases hid with hid | hid
  · obtain ⟨v, hv, rfl⟩ := List.mem_map.1 hid
    obtain ⟨e', he', hdefined⟩ := (Placement.symbols_variableData hvars).1 v hv
    exact ⟨e', he', .inl (.inl (.inr hdefined))⟩
  · obtain ⟨f, hf, rfl⟩ := List.mem_map.1 hid
    obtain ⟨e', he', hdefined⟩ := (Placement.symbols_functionsCode hfunctions).2 f hf
    exact ⟨e', he', .inr hdefined⟩

/-- An address that is stored in the data is that of a string literal, which is defined, or that of
an entity that initializes a variable. -/
theorem stored_cases (h : m.assemble types options = .ok code) {s : String}
    (hs : s ∈ code.stored) : s ∈ code.defined ∨ ∃ v ∈ m.vars, ∃ w id e,
      v.init = some (.addr w id) ∧ m.entities.get id = .ok e ∧ e.symbol = s := by
  obtain ⟨p, vars, strings, functions, hp, hvars, hstrings, hfunctions, rfl⟩ := assemble_eq_ok h
  obtain ⟨hnone, hliterals⟩ := Placement.symbols_stringData hstrings
  have hfile : Listing.stored (fileCode options) = [] := by
    unfold fileCode
    split <;> rfl
  rw [Listing.stored_append, Listing.stored_append, Listing.stored_append, hfile, hnone,
    (Placement.symbols_functionsCode hfunctions).1, List.append_nil, List.append_nil] at hs
  rcases (Placement.symbols_variableData hvars).2 s hs with ⟨id, hid⟩ | ⟨v, hv, w, id, hinit, hid⟩
  · simp only [Listing.defined_append, List.mem_append]
    exact .inl (.inl (.inr (hliterals id s hid)))
  · obtain ⟨e', he', hid⟩ := bind_eq_ok_iff.1 hid
    obtain rfl := Except.ok.inj hid
    obtain ⟨e, he, hsymbol⟩ := (Placement.Places.module hp).get he'
    exact .inr ⟨v, hv, w, id, e, hinit, he, hsymbol⟩

end Ir.Module

end Backend386
