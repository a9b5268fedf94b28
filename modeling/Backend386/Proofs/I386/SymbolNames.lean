import Mathlib.Data.List.Nodup
import Backend386.Proofs.I386.Jumps

/-!
# Kinds of symbols

The symbols that a listing defines come from four sources: names of the program, names with a number
for static local variables, string literals, and labels. Where no name holds a dot, symbols of
different kinds have different names, and a symbol can be read back from its name.

* `Symbol`, `Symbol.render_inj` — the kinds of symbols, and their names;
* `Ir.Module.symbols`, `Ir.Module.defined_perm` — the symbols of a listing, each as often as it is
  defined;
* `Ir.Module.addressed_nodup` — no entity is placed twice;
* `Ir.Module.symbols_nodup` — when the symbols are distinct.
-/

namespace Backend386

/-- What a symbol stands for. -/
inductive Symbol where
  /-- a variable or a function -/
  | named (name : String)
  /-- a static local variable -/
  | numbered (name : String) (n : Nat)
  /-- a string literal -/
  | literal (n : Nat)
  | label (l : Ir.Label)
deriving DecidableEq

/-- The assembler's name of a symbol. -/
def Symbol.render : Symbol → String
  | named name => name
  | numbered name n => name ++ "." ++ n.repr
  | literal n => ".LC" ++ n.repr
  | label l => l.render

/-- A name without dots. -/
def Dotless (name : String) : Prop :=
  '.' ∉ name.toList

instance (name : String) : Decidable (Dotless name) :=
  inferInstanceAs (Decidable ('.' ∉ name.toList))

namespace Symbol

/-- The names that the symbol is made from have no dots. -/
def Proper : Symbol → Prop
  | named name | numbered name _ => Dotless name
  | literal _ | label _ => True

/-! ## Reading a symbol back -/

/-- What stands in front of the first dot. -/
def stem : Symbol → List Char
  | named name | numbered name _ => name.toList
  | literal _ | label _ => []

/-- The first dot and what follows it. -/
def tail : Symbol → List Char
  | named _ => []
  | numbered _ n => '.' :: Nat.toDigits 10 n
  | literal n => '.' :: 'L' :: 'C' :: Nat.toDigits 10 n
  | label l => '.' :: 'L' :: Nat.toDigits 10 l.index

theorem toList_render (a : Symbol) : a.render.toList = a.stem ++ a.tail := by
  cases a <;> simp [render, stem, tail, Ir.Label.render]

theorem Proper.dot_not_mem_stem {a : Symbol} (h : a.Proper) : '.' ∉ a.stem := by
  cases a with
  | named | numbered => exact h
  | literal | label => exact List.not_mem_nil

theorem tail_cases (a : Symbol) : a.tail = [] ∨ ∃ rest, a.tail = '.' :: rest := by
  cases a with
  | named => exact .inl rfl
  | _ => exact .inr ⟨_, rfl⟩

/-- A dotless start and what begins with a dot can be told apart. -/
theorem Proper.takeWhile_render {a : Symbol} (h : a.Proper) :
    a.render.toList.takeWhile (· ≠ '.') = a.stem := by
  have hstem : ∀ c ∈ a.stem, decide (c ≠ '.') = true := by
    rintro c hc
    exact decide_eq_true fun heq => h.dot_not_mem_stem (heq ▸ hc)
  rw [toList_render, List.takeWhile_append_of_pos hstem]
  rcases a.tail_cases with htail | ⟨rest, htail⟩ <;> simp [htail]

theorem toDigits_injective : Function.Injective (Nat.toDigits 10) := by
  intro a b h
  have hindex := congrArg (Nat.ofDigitChars 10 · 0) h
  rwa [Nat.ofDigitChars_ten_toDigits, Nat.ofDigitChars_ten_toDigits] at hindex

/-- Numbers begin with digits. -/
theorem toDigits_ne_cons {n : Nat} {c : Char} (hc : c.isDigit = false) (rest : List Char) :
    Nat.toDigits 10 n ≠ c :: rest := by
  intro h
  have hmem : c ∈ Nat.toDigits 10 n := h ▸ List.mem_cons_self
  rw [Nat.isDigit_of_mem_toDigits (by decide) (by decide) hmem] at hc
  cases hc

/-- Different symbols have different names if no name holds a dot. -/
theorem render_inj {a b : Symbol} (ha : a.Proper) (hb : b.Proper) (h : a.render = b.render) :
    a = b := by
  have hstem : a.stem = b.stem := by
    rw [← ha.takeWhile_render, ← hb.takeWhile_render, h]
  have htail : a.tail = b.tail := by
    have hlist := congrArg String.toList h
    rw [toList_render, toList_render, hstem] at hlist
    exact List.append_cancel_left hlist
  cases a <;> cases b <;> simp only [tail, List.cons.injEq, true_and, reduceCtorEq] at htail
  case named.named => exact congrArg _ (String.toList_inj.1 hstem)
  case numbered.numbered =>
    obtain rfl := String.toList_inj.1 hstem
    rw [toDigits_injective htail]
  case literal.literal => rw [toDigits_injective htail]
  case label.label => exact congrArg _ (Ir.Label.render_injective h)
  -- a number does not begin with a letter
  case numbered.literal => exact absurd htail (toDigits_ne_cons rfl _)
  case numbered.label => exact absurd htail (toDigits_ne_cons rfl _)
  case literal.numbered => exact absurd htail.symm (toDigits_ne_cons rfl _)
  case literal.label => exact absurd htail.symm (toDigits_ne_cons rfl _)
  case label.numbered => exact absurd htail.symm (toDigits_ne_cons rfl _)
  case label.literal => exact absurd htail (toDigits_ne_cons rfl _)

end Symbol

/-! ## Entities -/

/-- The symbol of an entity. -/
def Entity.kindOfSymbol (e : Entity) : Symbol :=
  match e.sequence with
  | some n => .numbered e.name n
  | none => .named e.name

theorem Entity.render_kindOfSymbol (e : Entity) : e.kindOfSymbol.render = e.symbol := by
  unfold kindOfSymbol symbol
  cases e.sequence <;> rfl

/-- The symbol of an entity of the table. -/
def EntityTable.symbolOf (t : EntityTable) (id : EntityId) : Symbol :=
  match t.get id with
  | .ok e => e.kindOfSymbol
  | .error _ => .named ""

theorem EntityTable.symbolOf_eq {t : EntityTable} {id : EntityId} {e : Entity}
    (h : t.get id = .ok e) : t.symbolOf id = e.kindOfSymbol := by
  rw [symbolOf, h]

/-- An entity is never called like a literal or a label. -/
theorem EntityTable.symbolOf_ne (t : EntityTable) (id : EntityId) :
    (∀ n, t.symbolOf id ≠ .literal n) ∧ ∀ l, t.symbolOf id ≠ .label l := by
  unfold symbolOf Entity.kindOfSymbol
  split
  · split <;> simp
  · simp

/-! ## What a listing defines -/

namespace Listing

theorem defined_cons (i : Item) (code : Listing) :
    defined (i :: code) = i.defined?.toList ++ defined code := by
  cases hi : i.defined? <;> simp [defined, hi]

/-- Where nothing but labels is defined, the labels are. -/
theorem defined_eq_labels {code : Listing} (h : ∀ i ∈ code, ∀ d, i ≠ .directive d) :
    code.defined = code.labels := by
  refine List.filterMap_congr fun i hi => ?_
  cases i with
  | directive d => exact absurd rfl (h _ hi d)
  | _ => rfl

end Listing

/-- The labels that a supply hands out next. -/
def Ir.LabelSupply.upcoming (s : Ir.LabelSupply) (n : Nat) : List Ir.Label :=
  (List.range' s.next n).map .mk

theorem Ir.LabelSupply.upcoming_succ (s : Ir.LabelSupply) (n : Nat) :
    s.upcoming (n + 1) = ⟨s.next⟩ :: upcoming ⟨s.next + 1⟩ n := by
  rw [upcoming, List.range'_succ]
  rfl

theorem MemRef.render_labelled (s : String) : (MemRef.labelled s).render = s := by
  simp [render, labelled, renderDisplacement, renderRegisters]

namespace Placement

variable {p p' : Placement} {code : Listing} {types : TypeTable} {options : AssemblyOptions}
  {epilogue : Ir.Label}

/-- Storing entities does not change their symbols. -/
theorem Places.symbolOf (h : Places p p') (id : EntityId) :
    p'.entities.symbolOf id = p.entities.symbolOf id := by
  by_cases hlt : id.index < p.entities.size
  · obtain ⟨e, he⟩ := EntityTable.exists_get hlt
    obtain ⟨e', he', storage, rfl⟩ := h.entities he
    rw [EntityTable.symbolOf_eq he, EntityTable.symbolOf_eq he']
    rfl
  · have hnone {t : EntityTable} (ht : t.size ≤ id.index) : t.symbolOf id = .named "" := by
      rw [EntityTable.symbolOf]
      split
      · next he => exact absurd (EntityTable.lt_of_get he) (not_lt.2 ht)
      · rfl
    rw [hnone (not_lt.1 hlt), hnone (h.size ▸ not_lt.1 hlt)]

/-! ### Data -/

/-- Where each step defines one symbol, all of them define theirs, in order. -/
theorem defined_of_mapM {α : Type} {f : α → Except Fault Listing} {g : α → String} {l : List α}
    {parts : List Listing} (h : l.mapM f = .ok parts)
    (hf : ∀ a part, f a = .ok part → part.defined = [g a]) :
    Listing.defined parts.flatten = l.map g := by
  induction l generalizing parts with
  | nil =>
    obtain rfl := Except.ok.inj h
    rfl
  | cons a l ih =>
    rw [List.mapM_cons] at h
    obtain ⟨part, hpart, h⟩ := bind_eq_ok_iff.1 h
    obtain ⟨others, hothers, h⟩ := bind_eq_ok_iff.1 h
    obtain rfl := Except.ok.inj h
    rw [List.flatten_cons, Listing.defined_append, hf a part hpart, ih hothers]
    rfl

/-- Data define no symbol besides the one that is written in front of them. -/
theorem defined_dataDirective {init : Ir.Expr} {size : Nat} {d : Directive}
    (h : p.dataDirective init size = .ok d) : Item.defined? (.directive d) = none := by
  unfold dataDirective at h
  split at h
  case h_5 | h_6 =>
    obtain ⟨symbol, -, h⟩ := bind_eq_ok_iff.1 h
    obtain rfl := Except.ok.inj h
    rfl
  case h_7 => cases h
  all_goals
    obtain rfl := Except.ok.inj h
    rfl

/-- A variable that is initialized defines its own symbol. -/
theorem defined_initializedVariable {entity : EntityId} {init : Ir.Expr}
    (h : p.initializedVariable types entity init = .ok code) :
    code.defined = [(p.entities.symbolOf entity).render] := by
  obtain ⟨e, he, h⟩ := bind_eq_ok_iff.1 h
  obtain ⟨type, -, h⟩ := bind_eq_ok_iff.1 h
  obtain ⟨size, -, h⟩ := bind_eq_ok_iff.1 h
  obtain ⟨alignment, -, h⟩ := bind_eq_ok_iff.1 h
  obtain ⟨value, hvalue, h⟩ := bind_eq_ok_iff.1 h
  obtain rfl := Except.ok.inj h
  have hnone := defined_dataDirective hvalue
  rw [EntityTable.symbolOf_eq he, e.render_kindOfSymbol]
  cases e.isPrivate <;> simp only [Listing.defined_append, Listing.defined_cons, hnone] <;> rfl

/-- So does one that is zeroed. -/
theorem defined_zeroedVariable {entity : EntityId}
    (h : p.zeroedVariable types entity = .ok code) :
    code.defined = [(p.entities.symbolOf entity).render] := by
  obtain ⟨e, he, h⟩ := bind_eq_ok_iff.1 h
  obtain ⟨type, -, h⟩ := bind_eq_ok_iff.1 h
  obtain ⟨size, -, h⟩ := bind_eq_ok_iff.1 h
  obtain ⟨alignment, -, h⟩ := bind_eq_ok_iff.1 h
  obtain rfl := Except.ok.inj h
  rw [EntityTable.symbolOf_eq he, e.render_kindOfSymbol]
  cases e.isPrivate <;> rfl

/-- Variables are initialized or zeroed. -/
theorem initialized_zeroed_perm (vars : List Ir.StaticVariable) :
    ((initialized vars).map (·.1) ++ zeroed vars).Perm (vars.map (·.entity)) := by
  induction vars with
  | nil => rfl
  | cons v vars ih =>
    obtain ⟨entity, init⟩ := v
    cases init with
    | some init => exact ih.cons entity
    | none => exact List.perm_middle.trans (ih.cons entity)

/-- The data define the symbol of each variable once, in some order. -/
theorem defined_variableData {vars : List Ir.StaticVariable}
    (h : p.variableData types vars = .ok code) :
    code.defined.Perm (((vars.map (·.entity)).map p.entities.symbolOf).map (·.render)) := by
  obtain ⟨first, hfirst, h⟩ := bind_eq_ok_iff.1 h
  obtain ⟨second, hsecond, h⟩ := bind_eq_ok_iff.1 h
  obtain rfl := Except.ok.inj h
  have hfirst := defined_of_mapM (g := fun v => (p.entities.symbolOf v.1).render) hfirst
    fun v part hv => defined_initializedVariable hv
  have hsecond := defined_of_mapM (g := fun v => (p.entities.symbolOf v).render) hsecond
    fun v part hv => defined_zeroedVariable hv
  have hstart :
      Listing.defined (if (initialized vars).isEmpty then [] else [.directive .data]) = [] := by
    split <;> rfl
  have hperm := (initialized_zeroed_perm vars).map fun v => (p.entities.symbolOf v).render
  rw [List.map_append, List.map_map] at hperm
  rwa [Listing.defined_append, Listing.defined_append, hfirst, hsecond, hstart, List.nil_append,
    List.map_map]

/-- The literals are numbered from 0. -/
theorem defined_stringData {t : StringTable} (hp : p.strings = t.labelAll)
    (h : p.stringData = .ok code) :
    code.defined = ((List.range t.size).map Symbol.literal).map (·.render) := by
  obtain ⟨literals, hliterals, h⟩ := bind_eq_ok_iff.1 h
  obtain rfl := Except.ok.inj h
  have hdefined := defined_of_mapM (g := fun e => e.symbol.getD "") hliterals
      fun entry part hentry => by
    obtain ⟨memory, hmemory, hentry⟩ := bind_eq_ok_iff.1 hentry
    obtain rfl := Except.ok.inj hentry
    unfold StringEntry.memory at hmemory
    split at hmemory
    · next symbol hsymbol =>
      obtain rfl := Except.ok.inj hmemory
      rw [MemRef.render_labelled, hsymbol]
      rfl
    · cases hmemory
  have hstart : Listing.defined
      (if literals.isEmpty then [] else [.directive (.inSection ".rodata")]) = [] := by
    split <;> rfl
  rw [Listing.defined_append, hstart, List.nil_append, hdefined, hp, StringTable.labelAll]
  refine List.ext_getElem (by simp [StringTable.size]) fun i hi hi' => ?_
  simp [Symbol.render]

/-! ### Functions -/

/-- A body defines its labels. -/
theorem defined_bodyCode {body : List Ir.Stmt} (h : p.bodyCode options epilogue body = .ok code) :
    (dropJumps epilogue.render code).defined = (dropJumps epilogue.render code).labels := by
  refine Listing.defined_eq_labels fun i hi d => ?_
  obtain ⟨s, -, hgives⟩ := gives_bodyCode h i ((dropJumps_sublist ..).mem hi)
  rintro rfl
  cases hgives with
  | straight hstraight => cases hstraight.plain

/-- A function defines its symbol, and the labels of its body and its epilogue. -/
theorem defined_functionCode {f : Ir.Function}
    (h : p.functionCode types options epilogue f = .ok (p', code)) :
    code.defined = (p.entities.symbolOf f.entity).render ::
      (f.placedLabels ++ [epilogue]).map (·.render) := by
  obtain ⟨-, e, he, ⟨parts⟩⟩ := functionParts h
  rw [EntityTable.symbolOf_eq he, e.render_kindOfSymbol, ← parts.labels, parts.code_eq]
  have hprologue : Listing.defined (prologue parts.frame) = Listing.labels (prologue parts.frame) :=
    Listing.defined_eq_labels fun i hi d => by
      rintro rfl
      cases (straight_prologue _ _ hi).plain
  simp only [Listing.defined_append, Listing.labels_append, defined_bodyCode parts.bodyCode,
    hprologue]
  cases e.isPrivate <;> rfl

/-- The functions define their names, their labels and the labels that are taken for their
epilogues. -/
theorem defined_functionsCode {fs : List Ir.Function} {labels : Ir.LabelSupply}
    (h : p.functionsCode types options labels fs = .ok code) :
    code.defined.Perm (((fs.map (·.entity)).map p.entities.symbolOf).map (·.render) ++
      (fs.flatMap (·.placedLabels) ++ labels.upcoming fs.length).map (·.render)) := by
  induction fs generalizing p labels code with
  | nil =>
    obtain rfl := Except.ok.inj h
    rfl
  | cons f fs ih =>
    obtain ⟨⟨p₁, cf⟩, hf, h⟩ := bind_eq_ok_iff.1 h
    obtain ⟨rest, hrest, h⟩ := bind_eq_ok_iff.1 h
    obtain rfl := Except.ok.inj h
    have hsymbols : p₁.entities.symbolOf = p.entities.symbolOf :=
      funext (symbols_functionCode hf).1.symbolOf
    have hothers := ih hrest
    rw [hsymbols] at hothers
    refine List.perm_iff_count.2 fun x => ?_
    have hcount := hothers.count_eq x
    rw [Listing.defined_append, defined_functionCode hf, List.length_cons,
      Ir.LabelSupply.upcoming_succ]
    simp only [List.map_append, List.map_cons, List.map_nil, List.flatMap_cons, List.count_append,
      List.count_cons, List.count_nil] at hcount ⊢
    omega

end Placement

/-! ## Placing -/

/-- What is placed was not placed before, and is afterwards. -/
theorem EntityTable.place_placed {t t' : EntityTable} {id : EntityId} {storage : Storage}
    (h : t.place id storage = .ok t') : t.Unplaced id ∧ ¬ t'.Unplaced id ∧
      ∀ x, t'.Unplaced x → t.Unplaced x := by
  obtain ⟨e, he, hpending, rfl⟩ := place_eq_ok h
  have hself : ¬ (t.set id { e with storage := .settled storage }).Unplaced id := fun hnone => by
    cases hnone _ (get_set_self (lt_of_get he))
  have hid : t.Unplaced id := fun e' he' => by
    obtain rfl := Except.ok.inj (he.symm.trans he')
    exact hpending
  refine ⟨hid, hself, fun x hx => ?_⟩
  by_cases heq : x = id
  · rwa [heq]
  · intro e' he'
    exact hx e' (by rwa [get_set_of_ne heq])

namespace Placement

/-- A loop that places something in each round places nothing twice, and nothing that was placed
before. -/
theorem nodup_of_foldlM {α : Type} {k : α → EntityId}
    {step : Placement → α → Except Fault Placement}
    (hstep : ∀ {p a p'}, step p a = .ok p' → ∃ storage, p.place (k a) storage = .ok p')
    {l : List α} {p p' : Placement} (h : l.foldlM step p = .ok p') :
    (l.map k).Nodup ∧ (∀ id ∈ l.map k, p.entities.Unplaced id) ∧
      ∀ id, p'.entities.Unplaced id → p.entities.Unplaced id ∧ id ∉ l.map k := by
  -- by induction on the list: what one step places is not pending for the steps behind it
  induction l generalizing p with
  | nil =>
    obtain rfl := Except.ok.inj h
    exact ⟨.nil, by simp, fun _ hid => ⟨hid, by simp⟩⟩
  | cons a l ih =>
    rw [List.foldlM_cons] at h
    obtain ⟨p₁, hp₁, h⟩ := bind_eq_ok_iff.1 h
    obtain ⟨storage, hplace⟩ := hstep hp₁
    obtain ⟨t, ht, hplace⟩ := bind_eq_ok_iff.1 hplace
    obtain rfl := Except.ok.inj hplace
    obtain ⟨hbefore, hafter, hkept⟩ := EntityTable.place_placed ht
    obtain ⟨hnodup, hall, hrest⟩ := ih h
    refine ⟨List.nodup_cons.2 ⟨fun hmem => hafter (hall _ hmem), hnodup⟩, ?_, fun id hid => ?_⟩
    · exact List.forall_mem_cons.2 ⟨hbefore, fun id hid => hkept id (hall id hid)⟩
    · obtain ⟨hunplaced, hnot⟩ := hrest id hid
      refine ⟨hkept id hunplaced, fun hmem => ?_⟩
      rcases List.mem_cons.1 hmem with rfl | hmem
      · exact hafter hunplaced
      · exact hnot hmem

end Placement

namespace Ir.Module

variable {m : Ir.Module} {types : TypeTable} {options : AssemblyOptions} {code : Listing}
  {p : Placement}

/-- No entity is placed twice. -/
theorem addressed_nodup (h : m.place = .ok p) : m.addressed.Nodup := by
  obtain ⟨p₁, h₁, h⟩ := bind_eq_ok_iff.1 h
  obtain ⟨p₂, h₂, -⟩ := bind_eq_ok_iff.1 h
  obtain ⟨hvars, -, hfirst⟩ := Placement.nodup_of_foldlM (k := (·.entity)) (fun hv => by
    obtain ⟨symbol, -, hplace⟩ := bind_eq_ok_iff.1 hv
    exact ⟨_, hplace⟩) h₁
  obtain ⟨hothers, hunplaced, -⟩ := Placement.nodup_of_foldlM (k := id) (fun hid => by
    obtain ⟨e, -, hplace⟩ := bind_eq_ok_iff.1 hid
    exact ⟨_, hplace⟩) h₂
  rw [List.map_id] at hothers hunplaced
  refine List.nodup_append.2 ⟨hvars, hothers, fun v hv w hw heq => ?_⟩
  exact (hfirst w (hunplaced w hw)).2 (heq ▸ hv)

/-- The entities that the listing defines. -/
def definedEntities (m : Ir.Module) : List EntityId :=
  m.vars.map (·.entity) ++ m.functions.map (·.entity)

/-- The labels that the listing places, those of the epilogues last. -/
def definedLabels (m : Ir.Module) : List Ir.Label :=
  m.functions.flatMap (·.placedLabels) ++ m.labels.upcoming m.functions.length

/-- The symbols that the listing defines. -/
def symbols (m : Ir.Module) : List Symbol :=
  m.definedEntities.map m.entities.symbolOf ++
    ((List.range m.strings.size).map .literal ++ m.definedLabels.map .label)

/-- A listing defines the symbols of its variables and functions, its literals and its labels, and
nothing else. -/
theorem defined_perm (h : m.assemble types options = .ok code) :
    code.defined.Perm (m.symbols.map (·.render)) := by
  obtain ⟨p, vars, strings, functions, hp, hvars, hstrings, hfunctions, rfl⟩ := assemble_eq_ok h
  have hplaces := Placement.Places.module hp
  have hsymbols : p.entities.symbolOf = m.entities.symbolOf := funext hplaces.symbolOf
  have hfile : Listing.defined (fileCode options) = [] := by
    unfold fileCode
    split <;> rfl
  have hvars := Placement.defined_variableData hvars
  have hfunctions := Placement.defined_functionsCode hfunctions
  rw [hsymbols] at hvars hfunctions
  rw [Listing.defined_append, Listing.defined_append, Listing.defined_append, hfile,
    Placement.defined_stringData hplaces.strings hstrings]
  -- the parts define their symbols in an order of their own, so that they are counted
  refine List.perm_iff_count.2 fun x => ?_
  have hvars := hvars.count_eq x
  have hfunctions := hfunctions.count_eq x
  simp only [symbols, definedEntities, definedLabels, List.map_append, List.map_map,
    List.count_append, List.count_nil] at hvars hfunctions ⊢
  rw [hvars, hfunctions]
  simp only [Function.comp_def, Symbol.render]
  omega

/-- The symbols are distinct if those of the entities and the labels are. -/
theorem symbols_nodup (hentities : (m.definedEntities.map m.entities.symbolOf).Nodup)
    (hlabels : m.definedLabels.Nodup) : m.symbols.Nodup := by
  refine List.nodup_append.2 ⟨hentities, List.nodup_append.2 ⟨?_, ?_, ?_⟩, ?_⟩
  · exact List.nodup_range.map fun _ _ h => Symbol.literal.inj h
  · exact hlabels.map fun _ _ h => Symbol.label.inj h
  · simp
  · intro a ha b hb
    obtain ⟨id, -, rfl⟩ := List.mem_map.1 ha
    obtain ⟨hliteral, hlabel⟩ := m.entities.symbolOf_ne id
    rcases List.mem_append.1 hb with hb | hb
    · obtain ⟨n, -, rfl⟩ := List.mem_map.1 hb
      exact hliteral n
    · obtain ⟨l, -, rfl⟩ := List.mem_map.1 hb
      exact hlabel l

/-- A listing defines no symbol twice if the symbols of its entities are distinct and made from
dotless names, and no label is placed twice. -/
theorem defined_nodup (h : m.assemble types options = .ok code)
    (hentities : (m.definedEntities.map m.entities.symbolOf).Nodup)
    (hproper : ∀ id ∈ m.definedEntities, (m.entities.symbolOf id).Proper)
    (hlabels : m.definedLabels.Nodup) : code.defined.Nodup := by
  refine (defined_perm h).nodup_iff.2 ((symbols_nodup hentities hlabels).map_on ?_)
  have hall : ∀ a ∈ m.symbols, a.Proper := by
    intro a ha
    simp only [symbols, List.mem_append, List.mem_map] at ha
    obtain ⟨id, hid, rfl⟩ | ⟨n, -, rfl⟩ | ⟨l, -, rfl⟩ := ha
    · exact hproper id hid
    · trivial
    · trivial
  exact fun a ha b hb => Symbol.render_inj (hall a ha) (hall b hb)

end Ir.Module

end Backend386
