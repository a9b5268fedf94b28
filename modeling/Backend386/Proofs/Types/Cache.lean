import Backend386.Proofs.Types.Growth
import Backend386.Types.Cache

/-!
# A cached layout is the layout

Every layout in a cell is the layout of its type. So a computation that reads and fills the cells
finds what one without cells finds, and stops with the same fault.

* `TypeTable.Keeping` — what is in a cell is the layout of its type;
* `Caching.Computes` — a computation that finds what one without cells finds;
* `LayoutCache.Query`, `LayoutCache.HoldsLayouts.answerAll` — lookups and layouts, in any order;
* `LayoutCache.HoldsLayouts.layout_eq` — the layout of a type, whatever was asked for before.
-/

namespace Backend386

/-- There is a cell for each type, and what is in it is the layout of the type. -/
structure TypeTable.Keeping (t : TypeTable) (cells : List (Option Layout)) : Prop where
  length_eq : cells.length = t.size
  layout : ∀ {id : TypeId} {l : Layout}, cells[id.index]? = some (some l) → t.layout id = .ok l

namespace TypeTable.Keeping

variable {t t' : TypeTable} {cells : List (Option Layout)} {id : TypeId} {l : Layout}

theorem empty (t : TypeTable) : t.Keeping (List.replicate t.size none) where
  length_eq := List.length_replicate
  layout := by
    intro id l h
    cases List.eq_of_mem_replicate (List.mem_of_getElem? h)

/-- A cell is filled. -/
theorem set (h : t.Keeping cells) (hl : t.layout id = .ok l) :
    t.Keeping (cells.set id.index (some l)) where
  length_eq := by rw [List.length_set, h.length_eq]
  layout := by
    intro id' l' hl'
    rw [List.getElem?_set] at hl'
    split at hl'
    · next heq =>
      split at hl'
      · obtain rfl := Option.some.inj (Option.some.inj hl')
        obtain rfl : id = id' := by cases id; cases id'; cases heq; rfl
        exact hl
      · cases hl'
    · exact h.layout hl'

/-- A table that has grown has an empty cell for each type that is new. -/
theorem of_extends (h : t.Keeping cells) (hext : t.Extends t') :
    t'.Keeping (cells ++ List.replicate (t'.size - t.size) none) where
  length_eq := by
    have := hext.size_le
    simp only [List.length_append, List.length_replicate, h.length_eq]
    omega
  layout := by
    intro id l hl
    rw [List.getElem?_append] at hl
    split at hl
    · exact hext.lasts (·.layout id) (h.layout hl)
    · cases List.eq_of_mem_replicate (List.mem_of_getElem? hl)

end TypeTable.Keeping

/-! ## Computations with cells -/

namespace Caching

variable {t : TypeTable} {α β : Type} {c : Caching α} {x : Except Fault α} {f : α → Caching β}
  {g : α → Except Fault β}

/-- A computation finds what one without cells finds, and keeps the cells right. -/
def Computes (t : TypeTable) (c : Caching α) (x : Except Fault α) : Prop :=
  ∀ cells, t.Keeping cells →
    (∃ a cells', x = .ok a ∧ c cells = .ok (a, cells') ∧ t.Keeping cells') ∨
    ∃ fault, x = .error fault ∧ c cells = .error fault

namespace Computes

theorem pure (a : α) : Computes t (Pure.pure a) (.ok a) :=
  fun cells hcells => .inl ⟨a, cells, rfl, rfl, hcells⟩

theorem throw (fault : Fault) : Computes t (MonadExcept.throw fault : Caching α) (.error fault) :=
  fun _ _ => .inr ⟨fault, rfl, rfl⟩

/-- What needs no cells. -/
theorem lift (x : Except Fault α) : Computes t (monadLift x) x := by
  intro cells hcells
  cases x with
  | ok a => exact .inl ⟨a, cells, rfl, rfl, hcells⟩
  | error fault => exact .inr ⟨fault, rfl, rfl⟩

/-- Computations with the cache follow one another like those without it. -/
theorem bind (h : Computes t c x) (hf : ∀ a, x = .ok a → Computes t (f a) (g a)) :
    Computes t (c >>= f) (x >>= g) := by
  intro cells hcells
  rcases h cells hcells with ⟨a, cells₁, rfl, hc, hcells₁⟩ | ⟨fault, rfl, hc⟩
  · rcases hf a rfl cells₁ hcells₁ with ⟨b, cells₂, hx, hc', hcells₂⟩ | ⟨fault, hx, hc'⟩
    · refine .inl ⟨b, cells₂, hx, ?_, hcells₂⟩
      change (c cells >>= fun r => f r.1 r.2) = _
      rw [hc]
      exact hc'
    · refine .inr ⟨fault, hx, ?_⟩
      change (c cells >>= fun r => f r.1 r.2) = _
      rw [hc]
      exact hc'
  · refine .inr ⟨fault, rfl, ?_⟩
    change (c cells >>= fun r => f r.1 r.2) = _
    rw [hc]
    rfl

end Computes

variable {measure : α → Caching (Nat × Nat)} {measure' : α → Except Fault (Nat × Nat)}
  {members : List α}

/-- Members are placed the same with the cache. -/
theorem placeMembers_computes (h : ∀ m ∈ members, Computes t (measure m) (measure' m))
    (a : Allocator) :
    Computes t (placeMembers measure a members) (Layout.placeMembers measure' a members) := by
  induction members generalizing a with
  | nil => exact .pure _
  | cons m ms ih =>
    refine (h m List.mem_cons_self).bind fun e _ => ?_
    refine (Computes.lift (a.placeUp e.1 e.2)).bind fun r _ => ?_
    exact (ih (fun m hm => h m (List.mem_cons_of_mem _ hm)) r.1).bind fun _ _ => .pure _

theorem ofStruct_computes (h : ∀ m ∈ members, Computes t (measure m) (measure' m)) :
    Computes t (ofStruct measure members) (Layout.ofStruct measure' members) :=
  (placeMembers_computes h _).bind fun r _ =>
    (Computes.lift r.1.size).bind fun _ _ => .pure _

/-- So is a union. -/
theorem ofUnion_computes (h : ∀ m ∈ members, Computes t (measure m) (measure' m)) :
    Computes t (ofUnion measure members) (Layout.ofUnion measure' members) := by
  have hmap : Computes t (members.mapM measure) (members.mapM measure') := by
    induction members with
    | nil => exact .pure _
    | cons m ms ih =>
      rw [List.mapM_cons, List.mapM_cons]
      refine (h m List.mem_cons_self).bind fun e _ => ?_
      exact (ih fun m hm => h m (List.mem_cons_of_mem _ hm)).bind fun _ _ => .pure _
  exact hmap.bind fun extents _ => (Computes.lift (align _ _)).bind fun _ _ => .pure _

end Caching

/-! ## Layouts -/

namespace TypeTable

open Caching (Computes)

variable {t : TypeTable} {id : TypeId} {info : TypeInfo}

/-- One level of a layout, where the layouts of the parts are found. -/
theorem Complete.cachedLayoutBy_computes (hc : t.Complete) (hi : t.info id = .ok info)
    {f : TypeId → Caching Layout} {g : TypeId → Except Fault Layout}
    (h : ∀ part, t.Contains id part → Computes t (f part) (g part)) :
    Computes t (t.cachedLayoutBy f info) (t.layoutBy g info) := by
  -- a layout is computed from those of the parts, each one at most once
  cases info with
  | void | integer | pointer => exact .pure _
  | array base length =>
    refine (h base (.element hi)).bind fun element _ => ?_
    exact (Computes.lift (Checked.mul _ _)).bind fun _ _ => .pure _
  | composite c =>
    have hmembers : ∀ m ∈ c.members, Computes t
        (do let l ← f (← m.typeId); return (l.size, l.alignment)) (memberExtent g m) := by
      intro m hm
      refine (Computes.lift m.typeId).bind fun part hpart => ?_
      obtain ⟨part', hp, -⟩ := hc.member_type hi hm
      obtain rfl : part' = part := by simpa [Member.typeId, hp] using hpart
      exact (h part' (.member hi hm hp)).bind fun _ _ => .pure _
    rw [cachedLayoutBy, layoutBy]
    cases c.kind with
    | struct => exact Caching.ofStruct_computes hmembers
    | union => exact Caching.ofUnion_computes hmembers
  | function => exact .throw _
  | typedef d =>
    refine (Computes.lift d.realId).bind fun real hreal => ?_
    obtain ⟨real', hr, -⟩ := hc.typedef_real hi
    obtain rfl : real' = real := by simpa [Typedef.realId, hr] using hreal
    exact h real' (.typedef hi hr)

/-- The layout of a type is looked up, or computed and kept. -/
theorem cachedLayoutWithin_succ {n : Nat} {cells : List (Option Layout)} :
    t.cachedLayoutWithin (n + 1) id cells = (match cells[id.index]? with
      | some (some l) => return l
      | _ => do
        let l ← t.cachedLayoutBy (t.cachedLayoutWithin n) (← t.info id)
        modify (·.set id.index (some l))
        return l : Caching Layout) cells := rfl

theorem cachedLayoutWithin_hit {n : Nat} {cells : List (Option Layout)} {l : Layout}
    (h : cells[id.index]? = some (some l)) :
    t.cachedLayoutWithin (n + 1) id cells = .ok (l, cells) := by
  rw [cachedLayoutWithin_succ, h]
  rfl

/-- It is computed if it is not there. -/
theorem cachedLayoutWithin_miss {n : Nat} {cells : List (Option Layout)}
    (h : ∀ l, cells[id.index]? ≠ some (some l)) :
    t.cachedLayoutWithin (n + 1) id cells = (do
      let l ← t.cachedLayoutBy (t.cachedLayoutWithin n) (← t.info id)
      modify (·.set id.index (some l))
      return l : Caching Layout) cells := by
  rw [cachedLayoutWithin_succ]
  cases hcell : cells[id.index]? with
  | none => rfl
  | some cell =>
    cases cell with
    | none => rfl
    | some l => exact (h l hcell).elim

/-- A layout that was computed is put into its cell. -/
theorem fill_computes {l : Layout} (h : t.layout id = .ok l) :
    Computes t (do modify (·.set id.index (some l)); return l) (.ok l) :=
  fun _ hcells => .inl ⟨l, _, rfl, rfl, hcells.set h⟩

/-- The layout that is found within the nesting of a type: by induction on the nesting. -/
theorem Shallow.cachedLayoutWithin_computes {n : Nat} (h : t.Shallow n id) (hc : t.Complete)
    (hid : id.index < t.size) :
    Computes t (t.cachedLayoutWithin n id) (t.layout id) := by
  -- induction on how deep the type is nested, which bounds the steps that are needed
  induction h with
  | @mk n id _ ih =>
    obtain ⟨info, hi⟩ := exists_info_iff.2 hid
    have hparts : Computes t (t.cachedLayoutBy (t.cachedLayoutWithin n) info) (t.layout id) := by
      rw [hc.layout_eq hi]
      exact hc.cachedLayoutBy_computes hi fun part hpart => ih part hpart (hpart.part_lt hc)
    have hcompute : Computes t (do
        let l ← t.cachedLayoutBy (t.cachedLayoutWithin n) (← t.info id)
        modify (·.set id.index (some l))
        return l) (t.layout id) := by
      have hfresh : t.layout id = t.info id >>= fun _ => t.layout id >>= .ok := by
        rw [hi]
        cases t.layout id <;> rfl
      rw [hfresh]
      refine (Computes.lift (t.info id)).bind fun info' hi' => ?_
      obtain rfl := Except.ok.inj (hi.symm.trans hi')
      exact hparts.bind fun l hl => fill_computes hl
    -- the cell is filled and nothing is computed, or it is filled now
    intro cells hcells
    by_cases hfilled : ∃ l, cells[id.index]? = some (some l)
    · obtain ⟨l, hl⟩ := hfilled
      exact .inl ⟨l, cells, hcells.layout hl, cachedLayoutWithin_hit hl, hcells⟩
    · rw [cachedLayoutWithin_miss fun l hl => hfilled ⟨l, hl⟩]
      exact hcompute cells hcells

/-- The layout of any number, also of one beyond the table. -/
theorem Acyclic.cachedLayout_computes (ha : t.Acyclic) (hc : t.Complete) (id : TypeId) :
    Computes t (t.cachedLayoutWithin t.size id) (t.layout id) := by
  by_cases hid : id.index < t.size
  · exact (ha.shallow hc hid).cachedLayoutWithin_computes hc hid
  · have hinfo : t.info id = .error (.unknownType id.index) := by
      rw [TypeTable.info, entry, List.getElem?_eq_none (not_lt.1 hid)]
      rfl
    rw [layout]
    cases t.size with
    | zero => exact .throw _
    | succ n =>
      intro cells hcells
      have hmiss : ∀ l, cells[id.index]? ≠ some (some l) := fun l hl =>
        hid (hcells.length_eq ▸ (List.getElem?_eq_some_iff.1 hl).1)
      refine .inr ⟨.unknownType id.index, ?_, ?_⟩
      · rw [layoutWithin_succ, hinfo]
        rfl
      · rw [cachedLayoutWithin_miss hmiss, hinfo]
        rfl

end TypeTable

/-! ## Questions in any order -/

namespace LayoutCache

variable {c c' : LayoutCache} {id : TypeId}

/-- The number of a reference. What it adds to the table gets empty cells. -/
def intern (c : LayoutCache) (ref : TypeRef) : Except Fault (LayoutCache × TypeId) := do
  let (types, id) ← c.types.intern ref
  return ({ types, cells := c.cells ++ List.replicate (types.size - c.types.size) none }, id)

/-- A question to a table with cells. -/
inductive Query where
  | intern (ref : TypeRef)
  | layout (id : TypeId)

/-- What a question leaves behind. -/
def answer (c : LayoutCache) : Query → Except Fault LayoutCache
  | .intern ref => return (← c.intern ref).1
  | .layout id => return (← c.layout id).1

/-- What questions leave behind, one after another. -/
def answerAll (c : LayoutCache) (queries : List Query) : Except Fault LayoutCache :=
  queries.foldlM answer c

/-- Every layout of the table can be computed, and the cells hold nothing else than the layouts of
their types. -/
structure HoldsLayouts (c : LayoutCache) : Prop where
  complete : c.types.Complete
  acyclic : c.types.Acyclic
  cells : c.types.Keeping c.cells

theorem HoldsLayouts.ofTypes {t : TypeTable} (hc : t.Complete) (ha : t.Acyclic) :
    (LayoutCache.ofTypes t).HoldsLayouts :=
  ⟨hc, ha, .empty t⟩

/-- The layout of a type is found, or both ways to it stop with the same fault. -/
theorem HoldsLayouts.layout (h : c.HoldsLayouts) (id : TypeId) :
    (∃ l c', c.types.layout id = .ok l ∧ c.layout id = .ok (c', l) ∧ c'.types = c.types ∧
      c'.HoldsLayouts) ∨
    ∃ fault, c.types.layout id = .error fault ∧ c.layout id = .error fault := by
  rw [LayoutCache.layout]
  rcases h.acyclic.cachedLayout_computes h.complete id c.cells h.cells with
    ⟨l, cells, hl, hrun, hcells⟩ | ⟨fault, hl, hrun⟩
  · exact .inl ⟨l, { c with cells }, hl, by rw [hrun]; rfl, rfl, h.complete, h.acyclic, hcells⟩
  · exact .inr ⟨fault, hl, by rw [hrun]; rfl⟩

/-- What the cache answers is the layout. -/
theorem HoldsLayouts.layout_eq (h : c.HoldsLayouts) (id : TypeId) :
    Prod.snd <$> c.layout id = c.types.layout id := by
  rcases h.layout id with ⟨l, c', hl, hrun, -⟩ | ⟨fault, hl, hrun⟩ <;> rw [hl, hrun] <;> rfl

/-- A lookup numbers the reference as it does in a table without cells. -/
theorem HoldsLayouts.intern {ref : TypeRef} (h : c.HoldsLayouts)
    (hi : c.intern ref = .ok (c', id)) :
    c'.HoldsLayouts ∧ c.types.intern ref = .ok (c'.types, id) := by
  obtain ⟨⟨types, id'⟩, hintern, hi⟩ := bind_eq_ok_iff.1 hi
  obtain ⟨rfl, rfl⟩ := Prod.mk.inj (Except.ok.inj hi)
  have hext := (TypeTable.intern_extends hintern).1
  exact ⟨⟨h.complete.of_extends hext, h.acyclic.of_extends hext h.complete,
    h.cells.of_extends hext⟩, hintern⟩

/-- A question leaves layouts in the cells, and the table as it was or after a lookup. -/
theorem HoldsLayouts.answer {q : Query} (h : c.HoldsLayouts) (hq : c.answer q = .ok c') :
    c'.HoldsLayouts ∧ Relation.ReflTransGen TypeTable.Interns c.types c'.types := by
  cases q with
  | intern ref =>
    obtain ⟨⟨c₁, id⟩, hi, hq⟩ := bind_eq_ok_iff.1 hq
    obtain rfl := Except.ok.inj hq
    obtain ⟨hr, hintern⟩ := h.intern hi
    exact ⟨hr, .single ⟨ref, id, hintern⟩⟩
  | layout id =>
    obtain ⟨⟨c₁, l⟩, hl, hq⟩ := bind_eq_ok_iff.1 hq
    obtain rfl := Except.ok.inj hq
    rcases h.layout id with ⟨l', c₂, -, hrun, htypes, hr⟩ | ⟨fault, -, hrun⟩
    · obtain ⟨rfl, -⟩ := Prod.mk.inj (Except.ok.inj (hrun.symm.trans hl))
      exact ⟨hr, by rw [htypes]⟩
    · rw [hrun] at hl
      cases hl

/-- So do any questions, one after another. -/
theorem HoldsLayouts.answerAll {queries : List Query} (h : c.HoldsLayouts)
    (hq : c.answerAll queries = .ok c') :
    c'.HoldsLayouts ∧ Relation.ReflTransGen TypeTable.Interns c.types c'.types := by
  induction queries generalizing c with
  | nil =>
    obtain rfl := Except.ok.inj hq
    exact ⟨h, .refl⟩
  | cons q queries ih =>
    rw [LayoutCache.answerAll, List.foldlM_cons] at hq
    obtain ⟨c₁, h₁, hq⟩ := bind_eq_ok_iff.1 hq
    obtain ⟨hr₁, hsteps₁⟩ := h.answer h₁
    obtain ⟨hr, hsteps⟩ := ih hr₁ hq
    exact ⟨hr, hsteps₁.trans hsteps⟩

end LayoutCache

end Backend386
