import Mathlib.Algebra.Group.Nat.Defs
import Backend386.I386.Frame
import Backend386.Proofs.Types.TypeLayout

/-!
# Stack frames are sound

Locals are placed downward from the frame base, one below the other, and parameters upward from
above the saved base and the return address. So no two slots share a byte.

* `Scope.Declares` — the variables of a scope tree, at any depth;
* `Frame.Stacked` — locals that stand one below the other;
* `Frame.Sound` — what a frame promises, and `Frame.compute_sound` — it keeps it.
-/

namespace Backend386

/-! ## Variables of a scope tree -/

namespace Scope

/-- A variable is declared in a scope or in one that is nested in it. -/
inductive Declares : Scope → EntityId → Prop where
  | here {s : Scope} {id : EntityId} (h : id ∈ s.vars) : Declares s id
  | nested {s child : Scope} {id : EntityId} (hc : child ∈ s.children) (h : Declares child id) :
    Declares s id

theorem mem_variablesOfTrees {id : EntityId} {ss : List Scope} :
    id ∈ variablesOfTrees ss ↔ ∃ s ∈ ss, id ∈ s.variablesOfTree := by
  induction ss with
  | nil => simp [variablesOfTrees]
  | cons s ss ih => simp [variablesOfTrees, ih]

/-- What a scope lists is declared in it, or in a scope inside. -/
theorem declares_of_mem {id : EntityId} : ∀ (s : Scope), id ∈ s.variablesOfTree → s.Declares id
  | ⟨vars, children⟩, h => by
    rw [variablesOfTree, List.mem_append, mem_variablesOfTrees] at h
    rcases h with h | ⟨child, hc, h⟩
    · exact .here h
    · have : sizeOf child < sizeOf children := List.sizeOf_lt_of_mem hc
      exact .nested hc (declares_of_mem child h)
termination_by s => sizeOf s

/-- Nothing else is declared. -/
theorem Declares.mem {id : EntityId} {s : Scope} (h : s.Declares id) : id ∈ s.variablesOfTree := by
  induction h with
  | @here s id h =>
    cases s
    rw [variablesOfTree]
    exact List.mem_append_left _ h
  | @nested s child id hc _ ih =>
    cases s
    rw [variablesOfTree]
    exact List.mem_append_right _ (mem_variablesOfTrees.2 ⟨child, hc, ih⟩)

theorem mem_variablesOfTree {id : EntityId} {s : Scope} :
    id ∈ s.variablesOfTree ↔ s.Declares id :=
  ⟨declares_of_mem s, Declares.mem⟩

/-- The variables that are selected are those of the given privacy, in order. -/
theorem selectPrivate_eq_ok {entities : EntityTable} {isPrivate : Bool} {ids found : List EntityId}
    (h : selectPrivate entities isPrivate ids = .ok found) :
    found.Sublist ids ∧ ∀ id, id ∈ found ↔
      id ∈ ids ∧ ∃ e, entities.get id = .ok e ∧ e.isPrivate = isPrivate := by
  induction ids generalizing found with
  | nil =>
    obtain rfl := Except.ok.inj h
    simp
  | cons id ids ih =>
    obtain ⟨e, he, h⟩ := bind_eq_ok_iff.1 h
    obtain ⟨rest, hrest, h⟩ := bind_eq_ok_iff.1 h
    obtain rfl := Except.ok.inj h
    obtain ⟨hsub, hmem⟩ := ih hrest
    split
    · next hp =>
      refine ⟨hsub.cons_cons id, fun x => ?_⟩
      rw [List.mem_cons, List.mem_cons, hmem]
      constructor
      · rintro (rfl | ⟨hx, hp⟩)
        · exact ⟨.inl rfl, e, he, hp⟩
        · exact ⟨.inr hx, hp⟩
      · rintro ⟨rfl | hx, hp⟩
        · exact .inl rfl
        · exact .inr ⟨hx, hp⟩
    · next hp =>
      refine ⟨hsub.cons id, fun x => ?_⟩
      rw [hmem, List.mem_cons]
      constructor
      · rintro ⟨hx, hp⟩
        exact ⟨.inr hx, hp⟩
      · rintro ⟨rfl | hx, e', he', hp'⟩
        · obtain rfl := Except.ok.inj (he.symm.trans he')
          exact (hp hp').elim
        · exact ⟨hx, e', he', hp'⟩

end Scope

namespace Frame

variable {entities : EntityTable} {types : TypeTable} {f : Ir.Function} {frame : Frame}

/-! ## Locals -/

/-- The layout of the type of an entity. -/
def LayoutOf (entities : EntityTable) (types : TypeTable) (id : EntityId) (l : Layout) : Prop :=
  ∃ e type, entities.get id = .ok e ∧ e.typeId = .ok type ∧ types.layout type = .ok l

/-- The layout of an entity is that of its type, of which there is one. -/
theorem LayoutOf.unique {id : EntityId} {l l' : Layout} (h : LayoutOf entities types id l)
    (h' : LayoutOf entities types id l') : l = l' := by
  obtain ⟨e, type, he, ht, hl⟩ := h
  obtain ⟨e', type', he', ht', hl'⟩ := h'
  obtain rfl := Except.ok.inj (he.symm.trans he')
  obtain rfl := Except.ok.inj (ht.symm.trans ht')
  exact Except.ok.inj (hl.symm.trans hl')

/-- Locals that stand one below the other, between two distances from the frame base. -/
inductive Stacked (entities : EntityTable) (types : TypeTable) : Nat → List Slot → Nat → Prop where
  | nil {used : Nat} : Stacked entities types used [] used
  | cons {used depth bottom : Nat} {id : EntityId} {l : Layout} {slots : List Slot}
    (hl : LayoutOf entities types id l) (hle : used + l.size ≤ depth) (hdvd : l.alignment ∣ depth)
    (rest : Stacked entities types depth slots bottom) :
    Stacked entities types used (⟨id, -Int64.ofNat depth⟩ :: slots) bottom

/-- Local variables are placed in their order, each below the last one. -/
theorem placeLocals_eq_ok {a a' : Allocator} {ids : List EntityId} {slots : List Slot}
    (h : placeLocals entities types a ids = .ok (a', slots)) :
    slots.map (·.entity) = ids ∧ Stacked entities types a.used slots a'.used := by
  induction ids generalizing a slots with
  | nil =>
    obtain ⟨rfl, rfl⟩ := Prod.mk.inj (Except.ok.inj h)
    exact ⟨rfl, .nil⟩
  | cons id ids ih =>
    obtain ⟨e, he, h⟩ := bind_eq_ok_iff.1 h
    obtain ⟨type, htype, h⟩ := bind_eq_ok_iff.1 h
    obtain ⟨size, hsize, h⟩ := bind_eq_ok_iff.1 h
    obtain ⟨alignment, halignment, h⟩ := bind_eq_ok_iff.1 h
    obtain ⟨⟨a₁, depth⟩, hplace, h⟩ := bind_eq_ok_iff.1 h
    obtain ⟨offset, hoffset, h⟩ := bind_eq_ok_iff.1 h
    obtain ⟨⟨a₂, rest⟩, hrest, h⟩ := bind_eq_ok_iff.1 h
    obtain ⟨rfl, rfl⟩ := Prod.mk.inj (Except.ok.inj h)
    -- the size and the alignment are those of one layout
    obtain ⟨l, hl, h⟩ := bind_eq_ok_iff.1 hsize
    obtain rfl := Except.ok.inj h
    obtain ⟨l', hl', h⟩ := bind_eq_ok_iff.1 halignment
    obtain rfl := Except.ok.inj h
    obtain rfl := Except.ok.inj (hl.symm.trans hl')
    obtain ⟨sum, hsum, hplace⟩ := bind_eq_ok_iff.1 hplace
    obtain ⟨used, hused, hplace⟩ := bind_eq_ok_iff.1 hplace
    obtain ⟨rfl, rfl⟩ := Prod.mk.inj (Except.ok.inj hplace)
    obtain ⟨rfl, -⟩ := Checked.add_eq_ok_iff.1 hsum
    obtain ⟨-, hle, hdvd⟩ := align_eq_ok hused
    obtain ⟨rfl, -⟩ := Checked.negInt_eq_ok_iff.1 hoffset
    obtain ⟨hentities, hstacked⟩ := ih hrest
    exact ⟨by simp [hentities], .cons ⟨e, type, he, htype, hl⟩ hle hdvd hstacked⟩

namespace Stacked

variable {used bottom : Nat} {slots : List Slot}

theorem le (h : Stacked entities types used slots bottom) : used ≤ bottom := by
  induction h with
  | nil => exact Nat.le_refl _
  | cons _ hle _ _ ih => omega

theorem toInt_neg_ofNat {n : Nat} (h : n < 2 ^ 63) : (-Int64.ofNat n).toInt = -n := by
  rw [Int64.toInt_neg, Int64.toInt_ofNat_of_lt h, Int.bmod_eq_of_le_mul_two] <;> omega

/-- A local is below what was taken before it, and above the bottom. -/
theorem slot (h : Stacked entities types used slots bottom) (hbottom : bottom < 2 ^ 63)
    {s : Slot} (hs : s ∈ slots) : ∃ l, LayoutOf entities types s.entity l ∧
      -(bottom : Int) ≤ s.offset.toInt ∧ s.offset.toInt + (l.size : Int) ≤ -(used : Int) ∧
      (l.alignment : Int) ∣ s.offset.toInt := by
  induction h with
  | nil => cases hs
  | cons hl hle hdvd rest ih =>
    rcases List.mem_cons.1 hs with rfl | hs
    · have hdepth := rest.le
      refine ⟨_, hl, ?_⟩
      rw [toInt_neg_ofNat (by omega)]
      exact ⟨by omega, by omega, Int.dvd_neg.2 (Int.natCast_dvd_natCast.2 hdvd)⟩
    · obtain ⟨l, hl, hlo, hhi, hdvd⟩ := ih hbottom hs
      exact ⟨l, hl, hlo, by omega, hdvd⟩

/-- Each local is below those before it. -/
theorem pairwise (h : Stacked entities types used slots bottom) (hbottom : bottom < 2 ^ 63) :
    slots.Pairwise fun s s' => ∀ l, LayoutOf entities types s'.entity l →
      s'.offset.toInt + (l.size : Int) ≤ s.offset.toInt := by
  induction h with
  | nil => exact .nil
  | cons hl hle hdvd rest ih =>
    refine .cons (fun s' hs' l' hl' => ?_) (ih hbottom)
    obtain ⟨l, hl, -, hhi, -⟩ := rest.slot hbottom hs'
    have hdepth := rest.le
    rw [toInt_neg_ofNat (by omega), hl'.unique hl]
    exact hhi

end Stacked

/-! ## Parameters -/

/-- Parameters are one word apart from each other. -/
theorem placeParams_eq_ok {words : Nat} {ids : List EntityId} {slots : List Slot}
    (h : placeParams words ids = .ok slots) : slots.map (·.entity) = ids ∧
      ∀ (i : Nat) (s : Slot), slots[i]? = some s → s.offset.toInt = 4 * ((words : Int) + i) := by
  induction ids generalizing words slots with
  | nil =>
    obtain rfl := Except.ok.inj h
    simp
  | cons id ids ih =>
    obtain ⟨offset, hoffset, h⟩ := bind_eq_ok_iff.1 h
    obtain ⟨rest, hrest, h⟩ := bind_eq_ok_iff.1 h
    obtain rfl := Except.ok.inj h
    obtain ⟨rfl, hlt⟩ := Checked.signed_eq_ok_iff.1 hoffset
    obtain ⟨hentities, hslots⟩ := ih hrest
    refine ⟨by simp [hentities], fun i s hs => ?_⟩
    cases i with
    | zero =>
      obtain rfl := Option.some.inj hs
      rw [Int64.toInt_ofNat_of_lt hlt, stackWord]
      omega
    | succ i =>
      have := hslots i s hs
      omega

/-! ## Frames -/

/-- What the frame of a function promises.

* Exactly the variables of the scope tree that are not static have slots, one each if they are
  distinct.
* A local is between the bottom of the frame and the base, aligned, and below the locals before it.
  The size is a multiple of its alignment and of the stack word.
* Parameter `i` is `8 + 4 * i` above the base: above the saved base, the return address and the
  parameters before it. -/
structure Sound (f : Ir.Function) (entities : EntityTable) (types : TypeTable) (frame : Frame) :
    Prop where
  locals_iff : ∀ id, (∃ s ∈ frame.locals, s.entity = id) ↔
    f.scope.Declares id ∧ ∃ e, entities.get id = .ok e ∧ e.isPrivate = false
  locals_once : f.scope.variablesOfTree.Nodup → (frame.locals.map (·.entity)).Nodup
  slot : ∀ s ∈ frame.locals, ∃ l, LayoutOf entities types s.entity l ∧
    -(frame.size : Int) ≤ s.offset.toInt ∧ s.offset.toInt + (l.size : Int) ≤ 0 ∧
    (l.alignment : Int) ∣ s.offset.toInt ∧ l.alignment ∣ frame.size
  apart : frame.locals.Pairwise fun s s' => ∀ l, LayoutOf entities types s'.entity l →
    s'.offset.toInt + (l.size : Int) ≤ s.offset.toInt
  size_dvd : 4 ∣ frame.size
  params_eq : frame.params.map (·.entity) = f.params
  param : ∀ (i : Nat) (s : Slot), frame.params[i]? = some s → s.offset.toInt = 8 + 4 * (i : Int)
  params_apart : frame.params.Pairwise fun s s' => s.offset.toInt + 4 ≤ s'.offset.toInt
  params_above : ∀ s ∈ frame.params, 8 ≤ s.offset.toInt

/-- With integers and pointers of at most 4 bytes, every alignment divides the stack word. -/
theorem scalarSizes_ilp32 : TypeTable.ScalarSizes (· ∣ stackWord) .ilp32 :=
  ⟨by decide, fun rank => by cases rank <;> decide, by decide⟩

/-- Frames keep their promises, as long as their size is a signed number. -/
theorem compute_sound (ht : TypeTable.Reachable .ilp32 types)
    (h : compute f entities types = .ok frame) (hsize : frame.size < 2 ^ 63) :
    frame.Sound f entities types := by
  obtain ⟨params, hparams, h⟩ := bind_eq_ok_iff.1 h
  obtain ⟨vars, hvars, h⟩ := bind_eq_ok_iff.1 h
  obtain ⟨⟨a, locals⟩, hlocals, h⟩ := bind_eq_ok_iff.1 h
  obtain ⟨reserved, hreserved, h⟩ := bind_eq_ok_iff.1 h
  obtain ⟨size, halign, h⟩ := bind_eq_ok_iff.1 h
  obtain rfl := Except.ok.inj h
  obtain ⟨hsub, hmem⟩ := Scope.selectPrivate_eq_ok hvars
  obtain ⟨hentities, hstacked⟩ := placeLocals_eq_ok hlocals
  obtain ⟨hparamEntities, hparamOffsets⟩ := placeParams_eq_ok hparams
  obtain ⟨-, hused, -⟩ := align_eq_ok hreserved
  obtain ⟨-, hle, hword⟩ := align_eq_ok halign
  -- no depth leaves the range, since the frame is the largest one
  have hbottom : a.used < 2 ^ 63 := (hused.trans hle).trans_lt hsize
  have hparam (i : Nat) (s : Slot) (hs : params[i]? = some s) :
      s.offset.toInt = 8 + 4 * (i : Int) := by
    rw [hparamOffsets i s hs]
    omega
  constructor
  case locals_iff =>
    intro id
    rw [← Scope.mem_variablesOfTree, ← hmem, ← hentities, List.mem_map]
  case locals_once => exact fun hnodup => hentities ▸ hnodup.sublist hsub
  case slot =>
    intro s hs
    obtain ⟨l, hl, hlo, hhi, hdvd⟩ := hstacked.slot hbottom hs
    -- alignments divide the word, by which the frame is aligned
    obtain ⟨hw, hprofile⟩ := ht.wellFormed
    obtain ⟨e, type, he, htype, hlayout⟩ := hl
    have hscalar : TypeTable.ScalarSizes (· ∣ stackWord) types.profile :=
      hprofile ▸ scalarSizes_ilp32
    have halignment := (hw.layoutWithin_alignment hscalar hlayout).1
    have hlow : -(size : Int) ≤ s.offset.toInt := by omega
    exact ⟨l, ⟨e, type, he, htype, hlayout⟩, hlow, by simpa using hhi, hdvd,
      Nat.dvd_trans halignment hword⟩
  case apart => exact hstacked.pairwise hbottom
  case size_dvd => exact hword
  case params_eq => exact hparamEntities
  case param => exact hparam
  case params_apart =>
    -- parameters are a word apart
    rw [List.pairwise_iff_getElem]
    intro i j hi hj hij
    rw [hparam i _ (List.getElem?_eq_getElem hi), hparam j _ (List.getElem?_eq_getElem hj)]
    omega
  case params_above =>
    intro s hs
    obtain ⟨i, hi⟩ := List.mem_iff_getElem?.1 hs
    have := hparam i s hi
    omega

/-- The entities of `void f(int p) { char c; { static int s; int x; } }`. -/
def nestedEntities : EntityTable where
  entries := [
    { name := "f", ref := default, kind := .definedFunction [⟨1⟩] (.mk [] []) },
    { name := "p", ref := default, kind := .parameter, type := .settled ⟨5⟩ },
    { name := "c", ref := default, kind := .definedVariable none, type := .settled ⟨1⟩ },
    { name := "s", ref := default, kind := .definedVariable none, type := .settled ⟨5⟩,
      isPrivate := true },
    { name := "x", ref := default, kind := .definedVariable none, type := .settled ⟨5⟩ }]

/-- The function itself. -/
def nestedFunction : Ir.Function where
  entity := ⟨0⟩
  params := [⟨1⟩]
  scope := ⟨[⟨2⟩], [⟨[⟨3⟩, ⟨4⟩], []⟩]⟩

/-- The byte is in the topmost word, and the word of the inner block below it. -/
theorem compute_sound_nested :
    compute nestedFunction nestedEntities (.initial .ilp32) =
      .ok ⟨8, [⟨⟨1⟩, 8⟩], [⟨⟨2⟩, -1⟩, ⟨⟨4⟩, -8⟩]⟩ ∧
    Sound nestedFunction nestedEntities (.initial .ilp32)
      ⟨8, [⟨⟨1⟩, 8⟩], [⟨⟨2⟩, -1⟩, ⟨⟨4⟩, -8⟩]⟩ := by
  have h : compute nestedFunction nestedEntities (.initial .ilp32) =
      .ok ⟨8, [⟨⟨1⟩, 8⟩], [⟨⟨2⟩, -1⟩, ⟨⟨4⟩, -8⟩]⟩ := rfl
  exact ⟨h, compute_sound .initial h (by decide)⟩

end Frame

end Backend386
