import Backend386.Proofs.I386.Jumps
import Backend386.Proofs.Strings.References
import Backend386.Proofs.Strings.Table

/-!
# String literals in a listing

The section of string literals holds the entries of the string table, each behind its label. The
rest of the listing refers to the labels of the literals in the module, and to entities.

* `Listing.rodata` — what a listing puts in the section of string literals;
* `Ir.Module.rodata_assemble` — it is the string table;
* `Ir.Module.cited` — the literals of a module, in the order of the listing;
* `Ir.Module.assemble_cites` — the references of the listing are to their labels.
-/

namespace Backend386

/-! ## Sections -/

/-- An item that begins a section, with the answer to whether it is that of the string literals. -/
def Item.section? : Item → Option Bool
  | .directive (.inSection name) => some (name = ".rodata")
  | .directive .text | .directive .data => some false
  | _ => none

namespace Listing

/-- What a listing puts in the section of string literals, when it starts there or elsewhere. -/
def rodataFrom : Bool → Listing → Listing
  | _, [] => []
  | here, i :: rest =>
    match i.section? with
    | some here => rodataFrom here rest
    | none => (if here then [i] else []) ++ rodataFrom here rest

/-- What a listing puts in the section of string literals. -/
def rodata (code : Listing) : Listing :=
  rodataFrom false code

/-- The items of the section of a table of string literals. -/
def literalItems (values : List String) : Listing :=
  (values.mapIdx fun k v => [.label (Symbol.literal k).render, .directive (.string v)]).flatten

variable {code rest : Listing}

/-- A literal is written as a label and a string. -/
theorem mem_literalItems {values : List String} {i : Item} (h : i ∈ literalItems values) :
    (∃ l, i = .label l) ∨ ∃ s, i = .directive (.string s) := by
  obtain ⟨part, hpart, hi⟩ := List.mem_flatten.1 h
  obtain ⟨k, hk, rfl⟩ := List.mem_mapIdx.1 hpart
  simp only [List.mem_cons, List.not_mem_nil, or_false] at hi
  exact hi.imp (fun h => ⟨_, h⟩) fun h => ⟨_, h⟩

/-- Outside the section, nothing else gets into it. -/
theorem rodataFrom_elsewhere (h : ∀ i ∈ code, i.section? ≠ some true) :
    rodataFrom false (code ++ rest) = rodataFrom false rest := by
  induction code with
  | nil => rfl
  | cons i code ih =>
    obtain ⟨hi, hcode⟩ := List.forall_mem_cons.1 h
    rw [List.cons_append, rodataFrom]
    split
    · next here hhere =>
      cases here with
      | true => exact absurd hhere hi
      | false => exact ih hcode
    · exact ih hcode

/-- In the section, everything gets into it until another one begins. -/
theorem rodataFrom_here (h : ∀ i ∈ code, i.section? = none) :
    rodataFrom true (code ++ rest) = code ++ rodataFrom true rest := by
  induction code with
  | nil => rfl
  | cons i code ih =>
    obtain ⟨hi, hcode⟩ := List.forall_mem_cons.1 h
    rw [List.cons_append, rodataFrom, hi]
    exact congrArg (i :: ·) (ih hcode)

end Listing

theorem Item.IsStraight.section? {i : Item} (h : i.IsStraight) : i.section? = none := by
  have hplain := h.plain
  cases i with
  | directive => cases hplain
  | _ => rfl

/-- Nothing in the code of a statement begins a section. -/
theorem Ir.Stmt.Gives.section? {s : Ir.Stmt} {epilogue : Ir.Label} {i : Item}
    (h : s.Gives epilogue i) : i.section? = none := by
  cases h with
  | straight h => exact h.section?
  | _ => rfl

namespace Placement

variable {p p' : Placement} {code : Listing} {types : TypeTable} {options : AssemblyOptions}
  {epilogue : Ir.Label}

/-- A directive for data changes no section. -/
theorem section?_dataDirective {init : Ir.Expr} {size : Nat} {d : Directive}
    (h : p.dataDirective init size = .ok d) : Item.section? (.directive d) = none := by
  unfold dataDirective at h
  split at h
  case h_5 | h_6 =>
    obtain ⟨symbol, -, h⟩ := bind_eq_ok_iff.1 h
    obtain rfl := Except.ok.inj h
    rfl
  case h_7 => cases h
  all_goals
    obtain rfl := Except.ok.inj h
    rfl

/-- Variables are not in the section of string literals. -/
theorem section?_variableData {vars : List Ir.StaticVariable}
    (h : p.variableData types vars = .ok code) : ∀ i ∈ code, i.section? ≠ some true := by
  obtain ⟨first, hfirst, h⟩ := bind_eq_ok_iff.1 h
  obtain ⟨second, hsecond, h⟩ := bind_eq_ok_iff.1 h
  obtain rfl := Except.ok.inj h
  refine List.forall_mem_append.2 ⟨List.forall_mem_append.2 ⟨?_, ?_⟩, ?_⟩
  · split <;> simp [Item.section?]
  · refine forall_mem_of_mapM hfirst fun v part hv => ?_
    obtain ⟨e, -, hv⟩ := bind_eq_ok_iff.1 hv
    obtain ⟨type, -, hv⟩ := bind_eq_ok_iff.1 hv
    obtain ⟨size, -, hv⟩ := bind_eq_ok_iff.1 hv
    obtain ⟨alignment, -, hv⟩ := bind_eq_ok_iff.1 hv
    obtain ⟨value, hvalue, hv⟩ := bind_eq_ok_iff.1 hv
    obtain rfl := Except.ok.inj hv
    have hnone := section?_dataDirective hvalue
    cases e.isPrivate <;> simp [hnone] <;> simp [Item.section?]
  · refine forall_mem_of_mapM hsecond fun v part hv => ?_
    obtain ⟨e, -, hv⟩ := bind_eq_ok_iff.1 hv
    obtain ⟨type, -, hv⟩ := bind_eq_ok_iff.1 hv
    obtain ⟨size, -, hv⟩ := bind_eq_ok_iff.1 hv
    obtain ⟨alignment, -, hv⟩ := bind_eq_ok_iff.1 hv
    obtain rfl := Except.ok.inj hv
    split <;> simp [Item.section?]

/-- The code of a function begins a section of its own, and no other. -/
theorem section?_functionCode {f : Ir.Function}
    (h : p.functionCode types options epilogue f = .ok (p', code)) :
    ∃ rest, code = .directive .text :: rest ∧ ∀ i ∈ rest, i.section? = none := by
  obtain ⟨-, e, -, ⟨parts⟩⟩ := functionParts h
  refine ⟨_, parts.code_eq.trans (by simp only [List.append_assoc, List.singleton_append]; rfl), ?_⟩
  refine List.forall_mem_append.2 ⟨?_, List.forall_mem_append.2 ⟨?_, List.forall_mem_append.2
    ⟨fun i hi => ?_, List.forall_mem_append.2 ⟨fun i hi => ?_, List.forall_mem_append.2 ⟨?_, ?_⟩⟩⟩⟩⟩
  · split <;> simp [Item.section?]
  · simp [Item.section?]
  · exact (straight_prologue _ i hi).section?
  · obtain ⟨s, -, hgives⟩ := gives_bodyCode parts.bodyCode i ((dropJumps_sublist ..).mem hi)
    exact hgives.section?
  · simp [epilogueCode, Item.section?, Item.mov]
  · simp [Item.section?]

/-- Functions are not in the section of string literals, and what comes before them does not go on.
-/
theorem rodataFrom_functionsCode {here : Bool} {labels : Ir.LabelSupply} {fs : List Ir.Function}
    (h : p.functionsCode types options labels fs = .ok code) : code.rodataFrom here = [] := by
  induction fs generalizing p labels code here with
  | nil =>
    obtain rfl := Except.ok.inj h
    rfl
  | cons f fs ih =>
    obtain ⟨⟨p₁, cf⟩, hf, h⟩ := bind_eq_ok_iff.1 h
    obtain ⟨others, hothers, h⟩ := bind_eq_ok_iff.1 h
    obtain rfl := Except.ok.inj h
    obtain ⟨rest, rfl, hrest⟩ := section?_functionCode hf
    refine (Listing.rodataFrom_elsewhere fun i hi => ?_).trans (ih hothers)
    rw [hrest i hi]
    exact (Option.some_ne_none true).symm

/-- A computation on a list whose steps give the values of a function. -/
theorem eq_map_of_mapM {α β : Type} {f : α → Except Fault β} {g : α → β} {l : List α} {bs : List β}
    (h : l.mapM f = .ok bs) (hf : ∀ a b, f a = .ok b → b = g a) : bs = l.map g := by
  induction l generalizing bs with
  | nil => exact (Except.ok.inj h).symm
  | cons a l ih =>
    rw [List.mapM_cons] at h
    obtain ⟨b, hb, h⟩ := bind_eq_ok_iff.1 h
    obtain ⟨others, hothers, h⟩ := bind_eq_ok_iff.1 h
    obtain rfl := Except.ok.inj h
    rw [List.map_cons, hf a b hb, ih hothers]

/-- The string table, each literal behind its label. -/
theorem stringData_labelAll {t : StringTable} (hp : p.strings = t.labelAll)
    (h : p.stringData = .ok code) :
    code = (if t.values.isEmpty then [] else [.directive (.inSection ".rodata")]) ++
      Listing.literalItems t.values := by
  obtain ⟨literals, hliterals, h⟩ := bind_eq_ok_iff.1 h
  obtain rfl := Except.ok.inj h
  -- every entry has been labelled, so its line of data is known
  have hgives : ∀ entry part, literalData entry = .ok part →
      part = [.label (entry.symbol.getD ""), .directive (.string entry.value)] := by
    intro entry part hentry
    obtain ⟨memory, hmemory, hentry⟩ := bind_eq_ok_iff.1 hentry
    obtain rfl := Except.ok.inj hentry
    unfold StringEntry.memory at hmemory
    split at hmemory
    · next symbol hsymbol =>
      obtain rfl := Except.ok.inj hmemory
      rw [MemRef.render_labelled, hsymbol]
      rfl
    · cases hmemory
  -- the symbol is numbered by the position of the entry
  obtain rfl := eq_map_of_mapM hliterals hgives
  have hitems : p.strings.entries.map
      (fun e => ([.label (e.symbol.getD ""), .directive (.string e.value)] : Listing)) =
      t.values.mapIdx fun k v => [.label (Symbol.literal k).render, .directive (.string v)] := by
    rw [hp, StringTable.labelAll, StringTable.values]
    refine List.ext_getElem (by simp) fun i hi hi' => ?_
    simp [Symbol.render]
  rw [hitems, Listing.literalItems]
  congr 1
  simp

end Placement

/-! ## References -/

namespace StringTable

variable {t : StringTable} {id : StringId} {v : String}

/-- Every literal gets the label of its number. -/
theorem memory_labelAll (h : t.value? id = some v) :
    t.labelAll.memory id = .ok (.labelled (Symbol.literal id.index).render) := by
  rw [value?, values, List.getElem?_map] at h
  obtain ⟨e, he, -⟩ := Option.map_eq_some_iff.1 h
  refine memory_eq_ok_iff.2 ⟨{ e with symbol := some (".LC" ++ id.index.repr) }, _, ?_, rfl, rfl⟩
  rw [labelAll, List.getElem?_mapIdx, he]
  rfl

/-- Only literals of the table are labelled. -/
theorem exists_value? {m : MemRef} (h : t.labelAll.memory id = .ok m) :
    ∃ v, t.value? id = some v := by
  obtain ⟨entry, -, hentry, -⟩ := memory_eq_ok_iff.1 h
  have hlt : id.index < t.values.length := by
    simpa [labelAll, values] using (List.getElem?_eq_some_iff.1 hentry).1
  exact ⟨t.values[id.index], List.getElem?_eq_getElem hlt⟩

end StringTable

namespace Ir.Module

variable {m : Ir.Module} {p p' : Placement} {types : TypeTable} {options : AssemblyOptions}
  {code : Listing}

/-- The label of a literal of a module. -/
def Labels (m : Ir.Module) (id : StringId) (s : String) : Prop :=
  (∃ v, m.strings.value? id = some v) ∧ s = (Symbol.literal id.index).render

/-- The symbol of an entity of a module, or the label of the literal that a named constant is. -/
def Mentions (m : Ir.Module) (s : String) : Prop :=
  (∃ v e, m.entities.get v = .ok e ∧ e.Mentions s) ∨
    ∃ c ∈ m.namedConstants, ∃ w id, c.value = some (.str w id) ∧ m.Labels id s

/-- The string literals that the listing of a module refers to, in order: those of initialized
variables, and those of the statements of each function, where the last one comes first. -/
def cited (m : Ir.Module) : List StringId :=
  ((Placement.initialized m.vars).flatMap fun v => v.2.literals.reverse) ++
    m.functions.flatMap fun f => f.body.toList.flatMap fun s => s.action.literals.reverse

/-- A placement of a module: the literals have their labels, and the symbols of the storages are
those of the module. -/
structure Explains (m : Ir.Module) (p : Placement) : Prop where
  strings : p.strings = m.strings.labelAll
  entities : ∀ s, p.MentionsEntity s → m.Mentions s

/-- The references of a module are to its literals, in order, and to its entities. -/
abbrev Cites (m : Ir.Module) : List String → List StringId → Prop :=
  Backend386.Cites m.Labels m.Mentions

namespace Explains

/-- A literal is mentioned by its label. -/
theorem symbol_eq (h : m.Explains p) {id : StringId} {s : String} (hs : p.stringSymbol id = .ok s) :
    m.Labels id s := by
  obtain ⟨memory, hmemory, hs⟩ := bind_eq_ok_iff.1 hs
  rw [h.strings] at hmemory
  obtain ⟨v, hv⟩ := StringTable.exists_value? hmemory
  obtain rfl := Except.ok.inj ((StringTable.memory_labelAll hv).symm.trans hmemory)
  obtain rfl := Except.ok.inj hs
  exact ⟨⟨v, hv⟩, MemRef.render_labelled _⟩

/-- A storage that mentions nothing else is taken. -/
theorem place {id : EntityId} {storage : Storage} {t : EntityTable} (h : m.Explains p)
    (hst : ∀ s, storage.Mentions s → m.Mentions s) (hplace : p.entities.place id storage = .ok t) :
    m.Explains { p with entities := t } := by
  obtain ⟨e, he, -, rfl⟩ := EntityTable.place_eq_ok hplace
  refine ⟨h.strings, ?_⟩
  rintro s ⟨v, e', he', hs⟩
  by_cases hv : v = id
  · subst hv
    obtain rfl := Except.ok.inj
      ((EntityTable.get_set_self (EntityTable.lt_of_get he)).symm.trans he')
    obtain rfl | ⟨st, hsettled, hs⟩ := hs
    · exact h.entities _ ⟨v, e, he, .inl rfl⟩
    · obtain rfl := Deferred.settled.inj hsettled
      exact hst s hs
  · rw [EntityTable.get_set_of_ne hv] at he'
    exact h.entities s ⟨v, e', he', hs⟩

/-- An entity that is placed keeps what symbols stand for. -/
theorem placeId {id : EntityId} {storage : Storage} (h : m.Explains p)
    (hst : ∀ s, storage.Mentions s → m.Mentions s) (hplace : p.place id storage = .ok p') :
    m.Explains p' := by
  obtain ⟨t, ht, hplace⟩ := bind_eq_ok_iff.1 hplace
  obtain rfl := Except.ok.inj hplace
  exact h.place hst ht

theorem mentions_symbol (h : m.Explains p) {v : EntityId} {e : Entity}
    (he : p.entities.get v = .ok e) : m.Mentions e.symbol :=
  h.entities _ ⟨v, e, he, .inl rfl⟩

/-- Data at a symbol mentions the symbol only. -/
theorem mentions_labelled {x : String} (hx : m.Mentions x) :
    ∀ s, (Storage.memory (.labelled x)).Mentions s → m.Mentions s := by
  rintro s ⟨y, hy, rfl | ⟨hoffset, -⟩⟩
  · exact Option.some.inj hy ▸ hx
  · exact absurd rfl hoffset

theorem mentions_immediate {x : String} (hx : m.Mentions x) :
    ∀ s, (Storage.immediate (.symbol x)).Mentions s → m.Mentions s := by
  intro s hs
  exact Immediate.symbol.inj hs ▸ hx

/-- So does a variable. -/
theorem placeVariable {v : Ir.StaticVariable} (h : m.Explains p) (hv : p.placeVariable v = .ok p') :
    m.Explains p' := by
  obtain ⟨symbol, hsymbol, hplace⟩ := bind_eq_ok_iff.1 hv
  obtain ⟨e, he, hsymbol⟩ := bind_eq_ok_iff.1 hsymbol
  obtain rfl := Except.ok.inj hsymbol
  exact h.placeId (mentions_labelled (h.mentions_symbol he)) hplace

/-- So does a symbol. -/
theorem placeSymbol {id : EntityId} (h : m.Explains p) (hid : p.placeSymbol id = .ok p') :
    m.Explains p' := by
  obtain ⟨e, he, hplace⟩ := bind_eq_ok_iff.1 hid
  have hsymbol := h.mentions_symbol he
  refine h.placeId ?_ hplace
  split
  · exact mentions_immediate hsymbol
  · exact mentions_labelled hsymbol

/-- So does a named constant. -/
theorem placeConstant {c : Ir.NamedConstant} (hc : c ∈ m.namedConstants) (h : m.Explains p)
    (hplace : p.placeConstant c = .ok p') : m.Explains p' := by
  obtain ⟨value, i, hvalue, hfound, hplace⟩ := Placement.placeConstant_eq_ok hplace
  refine h.placeId ?_ hplace
  cases value with
  | int w v =>
    obtain rfl := Option.some.inj (Except.ok.inj hfound)
    exact fun s hs => by cases hs
  | str w id =>
    obtain ⟨symbol, hsymbol, hi⟩ := bind_eq_ok_iff.1 hfound
    obtain rfl := Option.some.inj (Except.ok.inj hi)
    exact mentions_immediate (.inr ⟨c, hc, w, id, hvalue, h.symbol_eq hsymbol⟩)
  | addr w v =>
    obtain ⟨symbol, hsymbol, hi⟩ := bind_eq_ok_iff.1 hfound
    obtain rfl := Option.some.inj (Except.ok.inj hi)
    obtain ⟨e, he, hsymbol⟩ := bind_eq_ok_iff.1 hsymbol
    obtain rfl := Except.ok.inj hsymbol
    exact mentions_immediate (h.mentions_symbol he)
  | _ => cases hfound

/-- What every step of a loop keeps, the loop keeps. -/
theorem of_foldlM {α σ : Type} (view : σ → Placement) {step : σ → α → Except Fault σ} {l : List α}
    {s s' : σ} (hstep : ∀ a ∈ l, ∀ s s', m.Explains (view s) → step s a = .ok s' →
      m.Explains (view s')) (h : m.Explains (view s)) (hl : l.foldlM step s = .ok s') :
    m.Explains (view s') := by
  induction l generalizing s with
  | nil =>
    obtain rfl := Except.ok.inj hl
    exact h
  | cons a l ih =>
    obtain ⟨ha, hsteps⟩ := List.forall_mem_cons.1 hstep
    rw [List.foldlM_cons] at hl
    obtain ⟨s₁, hs₁, hl⟩ := bind_eq_ok_iff.1 hl
    exact ih hsteps (ha s s₁ h hs₁) hl

/-- The module is placed. -/
theorem module (h : m.place = .ok p) : m.Explains p := by
  obtain ⟨p₁, h₁, h⟩ := bind_eq_ok_iff.1 h
  obtain ⟨p₂, h₂, h₃⟩ := bind_eq_ok_iff.1 h
  have hstart : m.Explains ⟨m.entities, m.strings.labelAll⟩ :=
    ⟨rfl, fun s ⟨v, e, he, hs⟩ => .inl ⟨v, e, he, hs⟩⟩
  have hvars := of_foldlM id (fun _ _ _ _ h => h.placeVariable) hstart h₁
  have hsymbols := of_foldlM id (fun _ _ _ _ h => h.placeSymbol) hvars h₂
  exact of_foldlM id (fun _ hc _ _ h => h.placeConstant hc) hsymbols h₃

/-- Slots of a frame mention no symbols. -/
theorem assign {frame : Frame} {t : EntityTable} (h : m.Explains p)
    (ht : frame.assign p.entities = .ok t) : m.Explains { p with entities := t } := by
  refine of_foldlM (fun t => { p with entities := t }) (fun slot _ t t' h ht => ?_) h ht
  refine Explains.place (p := { p with entities := t }) h ?_ ht
  rintro s ⟨x, hx, -⟩
  cases hx

theorem cites (h : m.Explains p) {ss : List String} {ids : List StringId} (hp : p.Cites ss ids) :
    m.Cites ss ids :=
  hp.mono (fun _ _ => h.symbol_eq) h.entities

/-! ### Code -/

/-- A function cites the literals of its statements in their order. -/
theorem cites_functionCode {epilogue : Ir.Label} {f : Ir.Function} (h : m.Explains p)
    (hf : p.functionCode types options epilogue f = .ok (p', code)) : m.Explains p' ∧
      m.Cites code.references (f.body.toList.flatMap fun s => s.action.literals.reverse) := by
  obtain ⟨e, he, hf⟩ := bind_eq_ok_iff.1 hf
  dsimp only at hf
  split at hf
  · cases hf
  obtain ⟨frame, -, hf⟩ := bind_eq_ok_iff.1 hf
  obtain ⟨t, ht, hf⟩ := bind_eq_ok_iff.1 hf
  obtain ⟨body, hbody, hf⟩ := bind_eq_ok_iff.1 hf
  obtain ⟨rfl, rfl⟩ := Prod.mk.inj (Except.ok.inj hf)
  have hplaced := h.assign ht
  refine ⟨hplaced, ?_⟩
  -- nothing but the body cites a literal: the lines around it have no references
  have hprologue : Listing.references (prologue frame.size) = [] := by
    unfold prologue
    split <;> rfl
  have hglobal : Listing.references
      (if e.isPrivate then [] else [.directive (.globalSymbol e.symbol)]) = [] := by
    split <;> rfl
  have hrest : Listing.references (epilogueCode epilogue) = [] := rfl
  simp only [Listing.references_append, hprologue, hglobal, hrest, Listing.references_dropJumps,
    Listing.references_cons, Listing.references_nil, Item.references, List.append_nil,
    List.nil_append]
  exact hplaced.cites (Placement.bodyCode_cites _ body hbody)

/-- So do all functions. -/
theorem cites_functionsCode {labels : Ir.LabelSupply} {fs : List Ir.Function} (h : m.Explains p)
    (hfs : p.functionsCode types options labels fs = .ok code) :
    m.Cites code.references
      (fs.flatMap fun f => f.body.toList.flatMap fun s => s.action.literals.reverse) := by
  induction fs generalizing p labels code with
  | nil =>
    obtain rfl := Except.ok.inj hfs
    exact .nil
  | cons f fs ih =>
    obtain ⟨⟨p₁, cf⟩, hf, hfs⟩ := bind_eq_ok_iff.1 hfs
    obtain ⟨rest, hrest, hfs⟩ := bind_eq_ok_iff.1 hfs
    obtain rfl := Except.ok.inj hfs
    obtain ⟨hnext, hcites⟩ := h.cites_functionCode hf
    rw [Listing.references_append]
    exact hcites.append (ih hnext hrest)

/-! ### Data -/

/-- A variable cites those of its initializer. -/
theorem cites_initializedVariable {entity : EntityId} {init : Ir.Expr} (h : m.Explains p)
    (hv : p.initializedVariable types entity init = .ok code) :
    m.Cites code.references init.literals.reverse := by
  obtain ⟨e, -, hv⟩ := bind_eq_ok_iff.1 hv
  obtain ⟨type, -, hv⟩ := bind_eq_ok_iff.1 hv
  obtain ⟨size, -, hv⟩ := bind_eq_ok_iff.1 hv
  obtain ⟨alignment, -, hv⟩ := bind_eq_ok_iff.1 hv
  obtain ⟨value, hvalue, hv⟩ := bind_eq_ok_iff.1 hv
  obtain rfl := Except.ok.inj hv
  have hcites := h.cites (Placement.dataDirective_cites hvalue)
  cases e.isPrivate <;> simpa [Item.references] using hcites

/-- One without an initializer cites nothing. -/
theorem references_zeroedVariable {entity : EntityId}
    (hv : p.zeroedVariable types entity = .ok code) : code.references = [] := by
  obtain ⟨e, -, hv⟩ := bind_eq_ok_iff.1 hv
  obtain ⟨type, -, hv⟩ := bind_eq_ok_iff.1 hv
  obtain ⟨size, -, hv⟩ := bind_eq_ok_iff.1 hv
  obtain ⟨alignment, -, hv⟩ := bind_eq_ok_iff.1 hv
  obtain rfl := Except.ok.inj hv
  cases e.isPrivate <;> rfl

/-- A loop cites what its rounds cite. -/
theorem cites_of_mapM {α : Type} {f : α → Except Fault Listing} {g : α → List StringId} {l : List α}
    {parts : List Listing} (hparts : l.mapM f = .ok parts)
    (hf : ∀ a part, f a = .ok part → m.Cites part.references (g a)) :
    m.Cites (Listing.references parts.flatten) (l.flatMap g) := by
  induction l generalizing parts with
  | nil =>
    obtain rfl := Except.ok.inj hparts
    exact .nil
  | cons a l ih =>
    rw [List.mapM_cons] at hparts
    obtain ⟨part, hpart, hparts⟩ := bind_eq_ok_iff.1 hparts
    obtain ⟨others, hothers, hparts⟩ := bind_eq_ok_iff.1 hparts
    obtain rfl := Except.ok.inj hparts
    rw [List.flatten_cons, Listing.references_append, List.flatMap_cons]
    exact (hf a part hpart).append (ih hothers)

/-- The data cite the literals of the initializers. -/
theorem cites_variableData {vars : List Ir.StaticVariable} (h : m.Explains p)
    (hvars : p.variableData types vars = .ok code) :
    m.Cites code.references
      ((Placement.initialized vars).flatMap fun v => v.2.literals.reverse) := by
  obtain ⟨first, hfirst, hvars⟩ := bind_eq_ok_iff.1 hvars
  obtain ⟨second, hsecond, hvars⟩ := bind_eq_ok_iff.1 hvars
  obtain rfl := Except.ok.inj hvars
  have hstart : Listing.references
      (if (Placement.initialized vars).isEmpty then [] else [.directive .data]) = [] := by
    split <;> rfl
  have hinitialized := cites_of_mapM (m := m) (g := fun v => v.2.literals.reverse) hfirst
    fun v part hv => h.cites_initializedVariable hv
  have hzeroed : Listing.references second.flatten = [] := by
    rw [Listing.references_flatten, List.flatMap_eq_nil_iff]
    intro part hpart
    obtain ⟨v, -, hv⟩ := (mapM_eq_ok hsecond).2 part hpart
    exact references_zeroedVariable hv
  rwa [Listing.references_append, Listing.references_append, hstart, hzeroed, List.nil_append,
    List.append_nil]

end Explains

/-! ## Modules -/

/-- The section of string literals is the string table. -/
theorem rodata_assemble (h : m.assemble types options = .ok code) :
    code.rodata = Listing.literalItems m.strings.values := by
  obtain ⟨p, vars, strings, functions, hp, hvars, hstrings, hfunctions, rfl⟩ := assemble_eq_ok h
  have hbefore : ∀ i ∈ fileCode options ++ vars, i.section? ≠ some true := by
    refine List.forall_mem_append.2 ⟨?_, Placement.section?_variableData hvars⟩
    unfold fileCode
    split <;> simp [Item.section?]
  have hafter {here : Bool} : functions.rodataFrom here = [] :=
    Placement.rodataFrom_functionsCode hfunctions
  rw [Listing.rodata, List.append_assoc, Listing.rodataFrom_elsewhere hbefore,
    Placement.stringData_labelAll (Explains.module hp).strings hstrings]
  split
  · next hempty =>
    rw [List.isEmpty_iff.1 hempty]
    exact hafter
  · rw [List.append_assoc, List.singleton_append, Listing.rodataFrom]
    refine (Listing.rodataFrom_here fun i hi => ?_).trans ?_
    · obtain ⟨l, rfl⟩ | ⟨s, rfl⟩ := Listing.mem_literalItems hi <;> rfl
    · rw [hafter, List.append_nil]

/-- The listing refers to the string literals of the module by their labels, in order, and to
entities. -/
theorem assemble_cites (h : m.assemble types options = .ok code) :
    m.Cites code.references m.cited := by
  obtain ⟨p, vars, strings, functions, hp, hvars, hstrings, hfunctions, rfl⟩ := assemble_eq_ok h
  have hexplains := Explains.module hp
  have hfile : Listing.references (fileCode options) = [] := by
    unfold fileCode
    split <;> rfl
  have hnone : strings.references = [] := by
    rw [Placement.stringData_labelAll hexplains.strings hstrings, Listing.references_append,
      Listing.references, Listing.references, List.append_eq_nil_iff]
    constructor
    · split <;> rfl
    · refine List.flatMap_eq_nil_iff.2 fun i hi => ?_
      obtain ⟨l, rfl⟩ | ⟨s, rfl⟩ := Listing.mem_literalItems hi <;> rfl
  simpa [hfile, hnone, cited] using
    (hexplains.cites_variableData hvars).append (hexplains.cites_functionsCode hfunctions)

end Ir.Module

end Backend386
