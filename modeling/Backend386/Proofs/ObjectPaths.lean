import Backend386.Proofs.AccessWidths
import Backend386.Proofs.I386.Env
import Backend386.Proofs.Lowering.Nodes
import Backend386.Proofs.Types.SelectedParts

/-!
# Objects that are reached by a path

An object is selected by a path of members, elements and dereferenced pointers that begins at a
variable or at the value of a pointer. Every step of the path moves the address by what the types
say, or goes on at an address that is read from memory.

* `Source.Path` — the object that an expression selects, and the object that a pointer points to;
* `TypeTable.Stands` — what a value says of the object that it stands for;
* `Source.Path.leads` — what the expression is lowered to stands for the object, or is the pointer;
* `Source.Path.read`, `Source.Path.addr` — the value and the address of an object;
* `Source.Inside` — paths that stay inside of an object, with the part that they lead to;
* `Source.objects_addressed` — objects have the addresses that their paths say, and parts that are
  apart have no byte in common.
-/

namespace Backend386

open Lower (Grown LooksUp)
open Relation (ReflTransGen)
open Source (Expr Note)
open TypeTable (Interns)

/-! ## Types of nodes -/

/-- A reference is registered as a type, up to typedefs, and values of that type have a width. -/
def TypeTable.Registers (t : TypeTable) (ref : TypeRef) (τ : TypeId) : Prop :=
  ∃ type, t.lookup? ref = some type ∧ t.SameType type τ ∧ ∃ w, t.registerWidth type = .ok w

theorem TypeTable.SameType.mono {t t' : TypeTable} {a b : TypeId} (h : t.Extends t')
    (hs : t.SameType a b) : t'.SameType a b :=
  let ⟨real, ha, hb⟩ := hs
  ⟨real, h.lasts (·.realType a) ha, h.lasts (·.realType b) hb⟩

theorem TypeTable.Registers.mono {t t' : TypeTable} {ref : TypeRef} {τ : TypeId}
    (h : t.Extends t') (hr : t.Registers ref τ) : t'.Registers ref τ :=
  let ⟨type, hl, hsame, w, hw⟩ := hr
  ⟨type, h.lookup? hl, hsame.mono h, w, h.lasts (·.registerWidth type) hw⟩

/-- The value of a variable is what the memory at its address holds. -/
def Ir.Env.Flat (m : Ir.Env) (v : EntityId) : Prop :=
  ∀ a, m.address v = some a → ∀ w, m.var v w = m.load a w

/-- In a state of the machine, all variables are in memory. -/
theorem Placement.flat_env {p : Placement} {σ : Symbols} {s : Machine} {n : Nat} {v : EntityId}
    {e : Entity} (he : p.entities.get v = .ok e) (hf : e.isFunction = false) :
    (p.env σ s n).Flat v := by
  intro a ha w
  obtain ⟨spot, hspot, rfl⟩ := Option.map_eq_some_iff.1 ha
  obtain ⟨e', he', hspot'⟩ := spot?_eq_some_iff.1 hspot
  obtain rfl := Except.ok.inj (he.symm.trans he')
  have hload : ((spot.address σ (s.regs .bp)).setWidth 64).setWidth 32 =
      spot.address σ (s.regs .bp) := by
    rw [BitVec.setWidth_setWidth_of_le _ (by decide), BitVec.setWidth_eq]
  change (p.spot? v).bind _ = Memory.load? _ _ _ w
  rw [hspot, Option.bind_some, hload]
  cases spot with
  | slot | data => rfl
  | code f => cases hf.symm.trans (Entity.storage_of_code hspot').2

/-! ## Values that stand for objects -/

namespace TypeTable

variable {t : TypeTable} {m : Ir.Env} {ptr w : Width} {type : TypeId} {x y : Ir.Expr}
  {a b : BitVec ptr.bits} {s : LowerState}

/-- A value stands for the object of a type at an address: the address can be told from the value,
and what is no struct, union, array or function is read there. -/
structure Stands (t : TypeTable) (m : Ir.Env) (ptr : Width) (type : TypeId) (y : Ir.Expr)
    (a : BitVec ptr.bits) : Prop where
  address : ∃ x, t.AddressOf type y x ∧ x.result? m = some ⟨ptr, a⟩
  read : t.isByAddress type = .ok false → ∃ w, t.registerWidth type = .ok w ∧ y.width = w ∧
    y.result? m = (m.load (a.setWidth 64) w).map (⟨w, ·⟩)

/-- What stands for its address has the address as its value. -/
theorem Stands.result?_eq (h : t.Stands m ptr type y a) (hb : t.isByAddress type = .ok true) :
    y.result? m = some ⟨ptr, a⟩ := by
  obtain ⟨x, ⟨-, rfl⟩ | ⟨hb', -⟩, hx⟩ := h.address
  · exact hx
  · cases hb.symm.trans hb'

/-- Typedefs make no difference. -/
theorem Stands.of_sameType {τ : TypeId} (h : t.Stands m ptr τ y a) (hsame : t.SameType type τ)
    (ht : t.Measured) : t.Stands m ptr type y a where
  address := by
    unfold AddressOf
    rw [hsame.isByAddress_eq]
    exact h.address
  read := by
    rw [hsame.isByAddress_eq, hsame.registerWidth_eq ht]
    exact h.read

/-- An object that is reached by its address. -/
theorem stands_load (hptr : s.types.pointerWidth = .ok ptr)
    (hw : s.types.registerWidth type = .ok w) (hx : x.result? m = some ⟨ptr, a⟩) :
    ∃ y, Lower.load type x s = .ok (y, s) ∧ s.types.Stands m ptr type y a := by
  obtain ⟨byAddress, hb, -⟩ := bind_eq_ok_iff.1 hw
  cases byAddress with
  | true =>
    refine ⟨x, Lower.load_byAddress hb, ⟨x, .inl ⟨hb, rfl⟩, hx⟩, fun h => ?_⟩
    cases hb.symm.trans h
  | false =>
    exact ⟨.mem w x, Lower.load_value hb hw,
      ⟨x, .inr ⟨hb, ptr, hptr, rfl⟩, hx⟩, fun _ => ⟨w, hw, rfl, Ir.Expr.result?_mem w hx⟩⟩

/-- A variable. -/
theorem stands_designated {v : EntityId} (hptr : s.types.pointerWidth = .ok ptr)
    (hw : s.types.registerWidth type = .ok w) (ha : m.address v = some (a.setWidth 64))
    (hv : s.types.isByAddress type = .ok false → m.Flat v) :
    ∃ y, Lower.designated type v s = .ok (y, s) ∧ s.types.Stands m ptr type y a := by
  obtain ⟨byAddress, hb, -⟩ := bind_eq_ok_iff.1 hw
  have hask := Lower.isByAddress_of hb
  have hx : (Ir.Expr.addr ptr v).result? m = some ⟨ptr, a⟩ := Ir.Expr.result?_addr ha
  cases byAddress with
  | true =>
    refine ⟨.addr ptr v, ?_, ⟨_, .inl ⟨hb, rfl⟩, hx⟩, fun h => ?_⟩
    · rw [Lower.designated, Lower.bind_ok hask, if_pos rfl,
        Lower.bind_ok (Lower.pointerWidth_of hptr)]
      rfl
    · cases hb.symm.trans h
  | false =>
    refine ⟨.var w v, ?_, ⟨_, .inr ⟨hb, ptr, hptr, rfl⟩, hx⟩, fun _ => ⟨w, hw, rfl, ?_⟩⟩
    · rw [Lower.designated, Lower.bind_ok hask, if_neg Bool.false_ne_true,
        Lower.bind_ok (Lower.width_of hw)]
      rfl
    · exact congrArg (Option.map _) (hv hb _ ha w)

end TypeTable

/-! ## Paths -/

namespace Source

/-- An expression selects an object, or points to one. -/
inductive View where
  | object
  | pointer
deriving DecidableEq

/-- The type and the address of the object that an expression selects or points to, where memory
looks like `m`. The expression is lowered from a first state to a last one. On the way types are
looked up, and an index is lowered, or a pointer at which the path begins. -/
inductive Path (depth : Nat) (m : Ir.Env) (ptr : Width) :
    View → LowerState → Expr → TypeId → BitVec ptr.bits → LowerState → Prop where
  | entity {s s' : LowerState} {n : Note} {v : EntityId} {e : Entity} {τ : TypeId}
    {a : BitVec ptr.bits} (hs : LooksUp [n.type] s s') (hn : s'.types.Registers n.type τ)
    (he : s'.entities.get v = .ok e) (hc : e.constantValue? = none) (hτ : e.type = .settled τ)
    (ha : m.address v = some (a.setWidth 64))
    (hv : s'.types.isByAddress τ = .ok false → m.Flat v) :
    Path depth m ptr .object s (.var n v) τ a s'
  | deref {s s₀ s' : LowerState} {n : Note} {e : Expr} {τ : TypeId} {a : BitVec ptr.bits}
    (hs : LooksUp [n.type] s s₀) (hn : s₀.types.Registers n.type τ)
    (h : Path depth m ptr .pointer s₀ e τ a s') : Path depth m ptr .object s (.deref n e) τ a s'
  /-- a function, which points to itself -/
  | function {s s₀ s' : LowerState} {n : Note} {e : Expr} {τ : TypeId} {a : BitVec ptr.bits}
    (hs : LooksUp [n.type] s s₀) (hn : s₀.types.Registers n.type τ)
    (hτ : s'.types.isFunction τ = .ok true) (h : Path depth m ptr .object s₀ e τ a s') :
    Path depth m ptr .object s (.deref n e) τ a s'
  | member {s s₀ s' : LowerState} {n : Note} {e : Expr} {name : String} {τ part : TypeId}
    {a : BitVec ptr.bits} {offset : Nat} (hs : LooksUp [n.type, e.type] s s₀)
    (hn : s₀.types.Registers n.type part)
    (hm : s'.types.member? τ name = .ok (some (part, offset)))
    (h : Path depth m ptr .object s₀ e τ a s') :
    Path depth m ptr .object s (.member n e name) part (a + BitVec.ofNat ptr.bits offset) s'
  | ptrMember {s s₀ s' : LowerState} {n : Note} {e : Expr} {name : String} {τ part : TypeId}
    {a : BitVec ptr.bits} {offset : Nat} (hs : LooksUp [n.type, e.type] s s₀)
    (hn : s₀.types.Registers n.type part)
    (hm : s'.types.member? τ name = .ok (some (part, offset)))
    (h : Path depth m ptr .pointer s₀ e τ a s') :
    Path depth m ptr .object s (.ptrMember n e name) part (a + BitVec.ofNat ptr.bits offset) s'
  | index {s s₀ s₁ s' : LowerState} {n : Note} {e i : Expr} {y : Ir.Expr} {τ : TypeId}
    {a v : BitVec ptr.bits} {size : Nat} (hs : LooksUp [n.type, e.type] s s₀)
    (hn : s₀.types.Registers n.type τ) (hsize : s₀.types.sizeOf τ = .ok size)
    (hi : i.LowersTo depth s₀ y s₁) (hv : y.result? m = some ⟨ptr, v⟩)
    (h : Path depth m ptr .pointer s₁ e τ a s') :
    Path depth m ptr .object s (.index n e i) τ (a + v * BitVec.ofNat ptr.bits size) s'
  /-- any expression that has a pointer as its value -/
  | value {s s' : LowerState} {e : Expr} {x : Ir.Expr} {type τ : TypeId} {a : BitVec ptr.bits}
    (htype : s'.types.lookup? e.type = some type) (hτ : s'.types.baseType type = .ok τ)
    (hx : e.LowersTo depth s x s') (ha : x.result? m = some ⟨ptr, a⟩) :
    Path depth m ptr .pointer s e τ a s'
  /-- a pointer that is an object itself -/
  | stored {s s' : LowerState} {e : Expr} {σ τ : TypeId} {a b : BitVec ptr.bits}
    (hτ : s'.types.realInfo σ = .ok (.pointer τ)) (h : Path depth m ptr .object s e σ a s')
    (hb : m.load (a.setWidth 64) ptr = some b) : Path depth m ptr .pointer s e τ b s'
  /-- an array, which points to its first element -/
  | decayed {s s' : LowerState} {e : Expr} {σ τ : TypeId} {length : Option UInt64}
    {a : BitVec ptr.bits} (hτ : s'.types.realInfo σ = .ok (.array τ length))
    (h : Path depth m ptr .object s e σ a s') : Path depth m ptr .pointer s e τ a s'

/-- What an expression on a path is lowered to: it stands for the object, or is the pointer. -/
def Leads (depth : Nat) (m : Ir.Env) (ptr : Width) (s : LowerState) (e : Expr) (τ : TypeId)
    (a : BitVec ptr.bits) (s' : LowerState) : View → Prop
  | .object => ∃ type y, s'.types.lookup? e.type = some type ∧ s'.types.SameType type τ ∧
    e.LowersTo depth s y s' ∧ s'.types.Stands m ptr type y a
  | .pointer => ∃ type x, s'.types.lookup? e.type = some type ∧ s'.types.baseType type = .ok τ ∧
    e.LowersTo depth s x s' ∧ x.result? m = some ⟨ptr, a⟩

section

variable {depth : Nat} {m : Ir.Env} {ptr : Width} {s s₀ s' : LowerState} {e : Expr} {n : Note}
  {τ : TypeId} {a : BitVec ptr.bits} {view : View}

/-- Lowering a path only adds. -/
theorem Path.grown (h : Path depth m ptr view s e τ a s') : Grown s s' := by
  induction h with
  | entity hs => exact hs.grown
  | deref hs _ _ ih | function hs _ _ _ ih | member hs _ _ _ ih | ptrMember hs _ _ _ ih =>
    exact hs.grown.trans ih
  | index hs _ _ hi _ _ ih => exact (hs.grown.trans hi.grown).trans ih
  | value _ _ hx => exact hx.grown
  | stored _ _ _ ih | decayed _ _ ih => exact ih

/-- The object of a node, at the address that its operands lead to. -/
theorem leads_load {x : Ir.Expr} {e' : Expr} (hs : Grown s₀ s')
    (hptr : s'.types.pointerWidth = .ok ptr) (hn : s₀.types.Registers e'.type τ)
    (hx : x.result? m = some ⟨ptr, a⟩)
    (hlower : ∀ type y, s₀.types.lookup? e'.type = some type →
      Lower.load type x s' = .ok (y, s') → e'.LowersTo depth s y s') :
    Leads depth m ptr s e' τ a s' .object := by
  obtain ⟨type, hlookup, hsame, w, hw⟩ := hn
  obtain ⟨y, hy, hstands⟩ :=
    TypeTable.stands_load hptr (hs.types.lasts (·.registerWidth type) hw) hx
  exact ⟨type, y, hs.types.lookup? hlookup, hsame.mono hs.types, hlower type y hlookup hy, hstands⟩

/-- Each step of a path moves the address, or goes on at an address that was read. -/
theorem Path.leads (h : Path depth m ptr view s e τ a s') (ht : s.types.Measured)
    (hptr : s.types.pointerWidth = .ok ptr) : Leads depth m ptr s e τ a s' view := by
  have hptr' {s s' : LowerState} (hs : Grown s s') (hptr : s.types.pointerWidth = .ok ptr) :
      s'.types.pointerWidth = .ok ptr := hs.types.lasts TypeTable.pointerWidth hptr
  -- a step that selects an object moves the address and loads there; the types that the nodes carry
  -- answer every question as the types on the path do
  induction h with
  | entity hs hn he hc hτ ha hv =>
    obtain ⟨type, hlookup, hsame, w, hw⟩ := hn
    have ht' := ht.of_interns hs.steps.interns
    obtain ⟨y, hy, hstands⟩ := TypeTable.stands_designated (hptr' hs.grown hptr)
      (hsame.registerWidth_eq ht' ▸ hw) ha hv
    exact ⟨type, y, hlookup, hsame, .var hs he hc hτ hy, hstands.of_sameType hsame ht'⟩
  | deref hs hn h ih =>
    obtain ⟨left, x, -, -, hx, ha⟩ := ih (ht.of_interns hs.steps.interns) (hptr' hs.grown hptr)
    exact leads_load h.grown (hptr' (hs.grown.trans h.grown) hptr) hn ha fun type y hlookup hy =>
      .deref hs hlookup hx hy
  | function hs hn hτ h ih =>
    obtain ⟨left, x, -, hleft, hx, hstands⟩ :=
      ih (ht.of_interns hs.steps.interns) (hptr' hs.grown hptr)
    have hb := hleft.isByAddress_eq.trans (TypeTable.isByAddress_of_isFunction hτ)
    exact leads_load h.grown (hptr' (hs.grown.trans h.grown) hptr) hn (hstands.result?_eq hb)
      fun type y hlookup hy => .deref hs hlookup hx hy
  | @member s s₀ s' n e name τ part a offset hs hn hm h ih =>
    have ht₀ := ht.of_interns hs.steps.interns
    obtain ⟨left, x, hleft, hleftτ, hx, hstands⟩ := ih ht₀ (hptr' hs.grown hptr)
    have hptr := hptr' (hs.grown.trans h.grown) hptr
    have hm := hleftτ.member?_eq (ht₀.of_interns hx.steps.interns) hm
    have hmoved : (Ir.Expr.offsetBy ptr x offset).result? m =
        some ⟨ptr, a + BitVec.ofNat ptr.bits offset⟩ :=
      Ir.Expr.result?_offsetBy (hstands.result?_eq (TypeTable.isByAddress_of_member? hm))
    have hleft₀ := hs.lookup?_of_extends (by simp) h.grown.types hleft
    exact leads_load h.grown hptr hn hmoved fun type y hlookup hy =>
      .member hs hlookup hleft₀ hx (Lower.member_ok hm hptr hy)
  | @ptrMember s s₀ s' n e name τ part a offset hs hn hm h ih =>
    have ht₀ := ht.of_interns hs.steps.interns
    obtain ⟨left, x, hleft, hbase, hx, ha⟩ := ih ht₀ (hptr' hs.grown hptr)
    have hptr := hptr' (hs.grown.trans h.grown) hptr
    have hmoved : (Ir.Expr.offsetBy ptr x offset).result? m =
        some ⟨ptr, a + BitVec.ofNat ptr.bits offset⟩ := Ir.Expr.result?_offsetBy ha
    -- the struct is asked for before the pointer is lowered
    have hleft₀ := hs.lookup?_of_extends (by simp) h.grown.types hleft
    have hbase₀ := ht₀.baseType_of_extends h.grown.types (TypeTable.lt_of_lookup? hleft₀) hbase
    exact leads_load h.grown hptr hn hmoved fun type y hlookup hy =>
      .ptrMember hs hlookup hleft₀ hbase₀ hx (Lower.member_ok hm hptr hy)
  | @index s s₀ s₁ s' n e i y τ a v size hs hn hsize hi hv h ih =>
    have ht₀ := ht.of_interns hs.steps.interns
    have hptr₀ := hptr' hs.grown hptr
    obtain ⟨left, x, hleft, hbase, hx, ha⟩ :=
      ih (ht₀.of_interns hi.steps.interns) (hptr' hi.grown hptr₀)
    have hgrown := hi.grown.trans h.grown
    -- the size of the elements is asked for before the index is lowered
    have hleft₀ := hs.lookup?_of_extends (by simp) hgrown.types hleft
    have hbase₀ := ht₀.baseType_of_extends hgrown.types (TypeTable.lt_of_lookup? hleft₀) hbase
    have hmoved : (Ir.Expr.displaced .inc ptr x y size).result? m =
        some ⟨ptr, a + v * BitVec.ofNat ptr.bits size⟩ := by
      rw [Ir.Expr.result?_displaced ha hv, BitVec.setWidth_eq]
      rfl
    exact leads_load hgrown (hptr' hgrown hptr₀) hn hmoved fun type z hlookup hz =>
      .index hs hlookup hleft₀ (bind_eq_ok_iff.2 ⟨τ, hbase₀, hsize⟩) hptr₀ hi hx hz
  | value htype hτ hx ha => exact ⟨_, _, htype, hτ, hx, ha⟩
  | stored hτ h hb ih =>
    obtain ⟨type, y, hlookup, hsame, hy, hstands⟩ := ih ht hptr
    have htype := hsame.realInfo_eq.trans hτ
    obtain ⟨hin, hw⟩ := (ht.of_interns hy.steps.interns).registerWidth_pointer htype
    -- the pointer is read as wide as any pointer, whatever typedefs its type is reached through
    obtain ⟨w, hw', -, hread⟩ := hstands.read hin.1
    obtain rfl := Except.ok.inj ((hw.trans (hptr' h.grown hptr)).symm.trans hw')
    rw [hb] at hread
    exact ⟨type, y, hlookup, bind_eq_ok_iff.2 ⟨_, htype, rfl⟩, hy, hread⟩
  | decayed hτ h ih =>
    obtain ⟨type, y, hlookup, hsame, hy, hstands⟩ := ih ht hptr
    have htype := hsame.realInfo_eq.trans hτ
    exact ⟨type, y, hlookup, bind_eq_ok_iff.2 ⟨_, htype, rfl⟩, hy,
      hstands.result?_eq (TypeTable.kinds_of_realInfo htype).1⟩

end

/-! ## Parts -/

/-- A path that stays inside of an object of the type `root` at the address `A`, with the part of
the object that it leads to: its selectors, its offset and its type. An array stands for its first
element when it is dereferenced. The table `t` is what the parts are known from. -/
inductive Inside (depth : Nat) (m : Ir.Env) (ptr : Width) (t : TypeTable) (root : TypeId)
    (A : BitVec ptr.bits) :
    LowerState → Expr → List Selector → Nat → TypeId → LowerState → Prop where
  | whole {s s' : LowerState} {e : Expr} (h : Path depth m ptr .object s e root A s') :
    Inside depth m ptr t root A s e [] 0 root s'
  | member {s s₀ s' : LowerState} {n : Note} {e : Expr} {path : List Selector} {k offset i : Nat}
    {τ part : TypeId} {c : Composite} {name : String} (hs : LooksUp [n.type, e.type] s s₀)
    (hn : s₀.types.Registers n.type part) (hc : t.composite τ = .ok c)
    (hi : c.memberIndex? name = some i) (hm : t.member? τ name = .ok (some (part, offset)))
    (h : Inside depth m ptr t root A s₀ e path k τ s') :
    Inside depth m ptr t root A s (.member n e name) (path ++ [.member i]) (k + offset) part s'
  | index {s s₀ s₁ s' : LowerState} {n : Note} {e i : Expr} {y : Ir.Expr} {path : List Selector}
    {k size : Nat} {σ τ : TypeId} {length : UInt64} {v : BitVec ptr.bits}
    (hs : LooksUp [n.type, e.type] s s₀) (hn : s₀.types.Registers n.type τ)
    (hσ : t.realInfo σ = .ok (.array τ (some length))) (hsize : t.sizeOf τ = .ok size)
    (hi : i.LowersTo depth s₀ y s₁) (hv : y.result? m = some ⟨ptr, v⟩)
    (hlt : v.toNat < length.toNat) (h : Inside depth m ptr t root A s₁ e path k σ s') :
    Inside depth m ptr t root A s (.index n e i) (path ++ [.index v.toNat])
      (k + v.toNat * size) τ s'
  | deref {s s₀ s' : LowerState} {n : Note} {e : Expr} {path : List Selector} {k size : Nat}
    {σ τ : TypeId} {length : UInt64} (hs : LooksUp [n.type] s s₀)
    (hn : s₀.types.Registers n.type τ) (hσ : t.realInfo σ = .ok (.array τ (some length)))
    (hsize : t.sizeOf τ = .ok size) (hlt : 0 < length.toNat)
    (h : Inside depth m ptr t root A s₀ e path k σ s') :
    Inside depth m ptr t root A s (.deref n e) (path ++ [.index 0]) k τ s'
  | ptrMember {s s₀ s' : LowerState} {n : Note} {e : Expr} {path : List Selector}
    {k size offset i : Nat} {σ τ part : TypeId} {length : UInt64} {c : Composite} {name : String}
    (hs : LooksUp [n.type, e.type] s s₀) (hn : s₀.types.Registers n.type part)
    (hσ : t.realInfo σ = .ok (.array τ (some length))) (hsize : t.sizeOf τ = .ok size)
    (hlt : 0 < length.toNat) (hc : t.composite τ = .ok c) (hi : c.memberIndex? name = some i)
    (hm : t.member? τ name = .ok (some (part, offset)))
    (h : Inside depth m ptr t root A s₀ e path k σ s') :
    Inside depth m ptr t root A s (.ptrMember n e name) (path ++ [.index 0, .member i]) (k + offset)
      part s'

section

variable {depth : Nat} {m : Ir.Env} {ptr : Width} {t : TypeTable} {root τ : TypeId}
  {A : BitVec ptr.bits} {s s' : LowerState} {e : Expr} {path : List Selector} {k : Nat}

/-- The address of a part is so many bytes behind the beginning of the object. -/
theorem Inside.toPath (h : Inside depth m ptr t root A s e path k τ s') (ht : t.Extends s.types) :
    Path depth m ptr .object s e τ (A + BitVec.ofNat ptr.bits k) s' := by
  have hmove (k d : Nat) : A + BitVec.ofNat ptr.bits (k + d) =
      A + BitVec.ofNat ptr.bits k + BitVec.ofNat ptr.bits d := by
    rw [BitVec.ofNat_add, BitVec.add_assoc]
  -- one rule of the path for each rule of the way inside; only the offset is added up
  induction h with
  | whole h =>
    rw [BitVec.add_zero]
    exact h
  | @member s s₀ s' n e path k offset i τ part c name hs hn hc hi hm h ih =>
    have hpath := ih (ht.trans hs.grown.types)
    have ht' := ht.trans (hs.grown.trans hpath.grown).types
    rw [hmove]
    exact .member hs hn (ht'.lasts (·.member? τ name) hm) hpath
  | @index s s₀ s₁ s' n e i y path k size σ τ length v hs hn hσ hsize hi hv hlt h ih =>
    have ht₀ := ht.trans hs.grown.types
    have hpath := ih (ht₀.trans hi.grown.types)
    have ht' := ht₀.trans (hi.grown.trans hpath.grown).types
    rw [hmove, BitVec.ofNat_mul, BitVec.ofNat_toNat, BitVec.setWidth_eq]
    exact .index hs hn (ht₀.lasts (·.sizeOf τ) hsize) hi hv
      (.decayed (ht'.lasts (·.realInfo σ) hσ) hpath)
  | @deref s s₀ s' n e path k size σ τ length hs hn hσ hsize hlt h ih =>
    have hpath := ih (ht.trans hs.grown.types)
    have ht' := ht.trans (hs.grown.trans hpath.grown).types
    exact .deref hs hn (.decayed (ht'.lasts (·.realInfo σ) hσ) hpath)
  | @ptrMember s s₀ s' n e path k size offset i σ τ part length c name hs hn hσ hsize hlt hc hi hm h
      ih =>
    have hpath := ih (ht.trans hs.grown.types)
    have ht' := ht.trans (hs.grown.trans hpath.grown).types
    rw [hmove]
    exact .ptrMember hs hn (ht'.lasts (·.member? τ name) hm)
      (.decayed (ht'.lasts (·.realInfo σ) hσ) hpath)

/-- What is inside of an object is a part of its type. -/
theorem Inside.part (h : Inside depth m ptr t root A s e path k τ s') (ht : t.Measured) :
    t.Part root path k τ := by
  induction h with
  | whole => exact .whole
  | member hs hn hc hi hm h ih => exact ih.append (ht.part_of_member? hm hc hi)
  | index hs hn hσ hsize hi hv hlt h ih => exact ih.append (TypeTable.part_of_element hσ hlt hsize)
  | deref hs hn hσ hsize hlt h ih =>
    have hfirst := TypeTable.part_of_element hσ hlt hsize
    rw [Nat.zero_mul] at hfirst
    exact ih.append hfirst
  | ptrMember hs hn hσ hsize hlt hc hi hm h ih =>
    have hfirst := TypeTable.part_of_element hσ hlt hsize
    rw [Nat.zero_mul] at hfirst
    have hmember := ih.append (hfirst.append (ht.part_of_member? hm hc hi))
    rwa [Nat.zero_add] at hmember

/-- Bytes of pieces that are apart have different addresses, if there are as many addresses as there
are bytes in the object. -/
theorem address_ne {n : Nat} {A : BitVec n} {k size k' size' total i j : Nat}
    (h : TypeTable.Apart k size k' size') (hk : k + size ≤ total) (hk' : k' + size' ≤ total)
    (htotal : total ≤ 2 ^ n) (hi : i < size) (hj : j < size') :
    A + BitVec.ofNat n k + BitVec.ofNat n i ≠ A + BitVec.ofNat n k' + BitVec.ofNat n j := by
  rw [BitVec.add_assoc, BitVec.add_assoc, ← BitVec.ofNat_add, ← BitVec.ofNat_add, ne_eq,
    BitVec.add_right_inj, ← BitVec.toNat_inj, BitVec.toNat_ofNat, BitVec.toNat_ofNat,
    Nat.mod_eq_of_lt (by omega), Nat.mod_eq_of_lt (by omega)]
  rcases h with h | h <;> omega

/-- Parts whose paths split have no byte in common. -/
theorem Inside.apart {s₁ s₁' : LowerState} {e' : Expr} {path' : List Selector} {k' total : Nat}
    {τ' : TypeId} (h : Inside depth m ptr t root A s e path k τ s')
    (h' : Inside depth m ptr t root A s₁ e' path' k' τ' s₁') (ht : t.Measured)
    (hsplit : t.Split root path path') (htotal : t.sizeOf root = .ok total) :
    ∃ size size', t.sizeOf τ = .ok size ∧ t.sizeOf τ' = .ok size' ∧
      TypeTable.Apart k size k' size' ∧ (total ≤ 2 ^ ptr.bits → ∀ i < size, ∀ j < size',
        A + BitVec.ofNat _ k + BitVec.ofNat _ i ≠ A + BitVec.ofNat _ k' + BitVec.ofNat _ j) := by
  obtain ⟨l, hl, heq⟩ := bind_eq_ok_iff.1 htotal
  obtain rfl := Except.ok.inj heq
  obtain ⟨sub, hsub, -, hinside, -⟩ := (h.part ht).inside ht.acyclic ht.complete ht.sizes hl
  obtain ⟨sub', hsub', -, hinside', -⟩ := (h'.part ht).inside ht.acyclic ht.complete ht.sizes hl
  have hapart := hsplit.apart ht.acyclic ht.complete ht.sizes (h.part ht) (h'.part ht) hsub hsub'
  exact ⟨sub.size, sub'.size, bind_eq_ok_iff.2 ⟨_, hsub, rfl⟩, bind_eq_ok_iff.2 ⟨_, hsub', rfl⟩,
    hapart, fun hfits i hi j hj => address_ne hapart hinside hinside' hfits hi hj⟩

end

/-! ## Objects -/

section

variable {depth : Nat} {m : Ir.Env} {ptr : Width} {s s₀ s' : LowerState} {e : Expr} {τ : TypeId}
  {a : BitVec ptr.bits} {n : Note} {x y : Ir.Expr}

/-- The address of an object, as an expression. -/
theorem Path.addr (h : Path depth m ptr .object s₀ e τ a s') (ht : s₀.types.Measured)
    (hptr : s₀.types.pointerWidth = .ok ptr) (hs : LooksUp [n.type, e.type] s s₀) :
    ∃ z, (Expr.addr n e).LowersTo depth s z s' ∧ z.result? m = some ⟨ptr, a⟩ := by
  obtain ⟨left, y, hleft, -, hy, hstands⟩ := h.leads ht hptr
  obtain ⟨z, hz, ha⟩ := hstands.address
  have hleft₀ := hs.lookup?_of_extends (by simp) h.grown.types hleft
  exact ⟨z, .addr hs hleft₀ hy hz, ha⟩

/-- The value of an object: its address, or what is read there. -/
theorem Path.read (h : Path depth m ptr .object s e τ a s') (ht : s.types.Measured)
    (hptr : s.types.pointerWidth = .ok ptr) :
    ∃ y, e.LowersTo depth s y s' ∧
      (s'.types.isByAddress τ = .ok true → y.result? m = some ⟨ptr, a⟩) ∧
      (s'.types.InRegister τ → ∃ w, s'.types.sizeOf τ = .ok w.bytes ∧ y.width = w ∧
        y.result? m = (m.load (a.setWidth 64) w).map (⟨w, ·⟩)) := by
  obtain ⟨left, y, hleft, hsame, hy, hstands⟩ := h.leads ht hptr
  refine ⟨y, hy, fun hb => hstands.result?_eq (hsame.isByAddress_eq.trans hb), fun hin => ?_⟩
  obtain ⟨w, hw, hread⟩ := hstands.read (hsame.isByAddress_eq.trans hin.1)
  have ht' := ht.of_interns hy.steps.interns
  exact ⟨w, TypeTable.sizeOf_eq_bytes hin (hsame.registerWidth_eq ht' ▸ hw), hread⟩

/-- `&*p` is lowered to what `p` is lowered to. -/
theorem addr_deref {n' : Note} (hptr : s₀.types.pointerWidth = .ok ptr)
    (hs : LooksUp [n.type, n'.type] s s₀) (hn' : s₀.types.Registers n'.type τ)
    (hx : e.LowersTo depth s₀ x s') : (Expr.addr n (.deref n' e)).LowersTo depth s x s' := by
  obtain ⟨left, hleft, -, w, hw⟩ := hn'
  have hgrown := hx.grown.types
  obtain ⟨y, hy, haddress⟩ := Lower.load_address (x := x)
    (hgrown.lasts TypeTable.pointerWidth hptr) (hgrown.lasts (·.registerWidth left) hw)
  exact .addr hs hleft (.deref (.again hleft rfl) hleft hx hy) haddress

end

/-- **Objects have the addresses that their paths say**, where memory looks like `m`, and after any
types were looked up in a table `t` that passed the check.

* An expression that selects an object is lowered to the address, if the object is a struct, a
  union, an array or a function. Any other object is read at its address, exactly as wide as it is.
  Its address is the value of the expression behind an `&`.
* `&*p` is lowered to what `p` is lowered to.
* Paths that stay inside of an object lead to the offsets of its parts. Parts whose paths split at a
  struct or at an array have no byte in common. -/
theorem objects_addressed {depth : Nat} {m : Ir.Env} {ptr : Width} {t : TypeTable}
    (ht : t.Measured) (hptr : t.pointerWidth = .ok ptr) :
    (∀ {s s' : LowerState} {e : Expr} {τ : TypeId} {a : BitVec ptr.bits},
      ReflTransGen Interns t s.types → Path depth m ptr .object s e τ a s' →
        (∃ y, e.LowersTo depth s y s' ∧
          (s'.types.isByAddress τ = .ok true → y.result? m = some ⟨ptr, a⟩) ∧
          (s'.types.InRegister τ → ∃ w, s'.types.sizeOf τ = .ok w.bytes ∧ y.width = w ∧
            y.result? m = (m.load (a.setWidth 64) w).map (⟨w, ·⟩))) ∧
        ∀ {n : Note} {s₀ : LowerState}, LooksUp [n.type, e.type] s₀ s →
          ∃ z, (Expr.addr n e).LowersTo depth s₀ z s' ∧ z.result? m = some ⟨ptr, a⟩) ∧
    (∀ {s s₀ s' : LowerState} {p : Expr} {x : Ir.Expr} {n n' : Note} {τ : TypeId},
      ReflTransGen Interns t s.types → LooksUp [n.type, n'.type] s s₀ →
        s₀.types.Registers n'.type τ → p.LowersTo depth s₀ x s' →
        (Expr.addr n (.deref n' p)).LowersTo depth s x s') ∧
    ∀ {root τ τ' : TypeId} {A : BitVec ptr.bits} {e e' : Expr} {path path' : List Selector}
      {k k' total : Nat} {s s' s₁ s₁' : LowerState}, ReflTransGen Interns t s.types →
        ReflTransGen Interns t s₁.types → Inside depth m ptr t root A s e path k τ s' →
        Inside depth m ptr t root A s₁ e' path' k' τ' s₁' → t.Split root path path' →
        t.sizeOf root = .ok total →
        Path depth m ptr .object s e τ (A + BitVec.ofNat ptr.bits k) s' ∧
        Path depth m ptr .object s₁ e' τ' (A + BitVec.ofNat ptr.bits k') s₁' ∧
        ∃ size size', t.sizeOf τ = .ok size ∧ t.sizeOf τ' = .ok size' ∧
          TypeTable.Apart k size k' size' ∧ (total ≤ 2 ^ ptr.bits → ∀ i < size, ∀ j < size',
            A + BitVec.ofNat _ k + BitVec.ofNat _ i ≠
              A + BitVec.ofNat _ k' + BitVec.ofNat _ j) := by
  have hptr' {t' : TypeTable} (ht' : t.Extends t') : t'.pointerWidth = .ok ptr :=
    ht'.lasts TypeTable.pointerWidth hptr
  -- three parts: what is read at a path, its address, and two paths that part inside one object
  refine ⟨fun hs h => ?_, fun hs hlooked hn' hx => ?_, fun hs hs₁ h h' hsplit htotal => ?_⟩
  · have hptr := hptr' (TypeTable.extends_of_interns hs)
    exact ⟨h.read (ht.of_interns hs) hptr, fun hlooked => h.addr (ht.of_interns hs) hptr hlooked⟩
  · have hext := (TypeTable.extends_of_interns hs).trans hlooked.grown.types
    exact addr_deref (hptr' hext) hlooked hn' hx
  · exact ⟨h.toPath (TypeTable.extends_of_interns hs), h'.toPath (TypeTable.extends_of_interns hs₁),
      h.apart h' ht hsplit htotal⟩

/-- The name of the type of pointers to nodes. -/
def linkName : String := "link"

/-- The types of nodes that are linked, and of arrays of three of them. -/
def nodeTypes : TypeTable where
  profile := .ilp32
  entries := TypeTable.basicEntries .ilp32 ++ [
    ⟨.struct "node", .composite ⟨.struct, "node",
      [⟨"value", .integer .int true, .settled ⟨5⟩, none⟩,
        ⟨"next", .typedef linkName, .settled ⟨10⟩, none⟩], none⟩⟩,
    ⟨.typedef linkName, .typedef ⟨linkName, .pointer (.struct "node"), .settled ⟨11⟩, none⟩⟩,
    ⟨.pointer (.struct "node"), .pointer ⟨9⟩⟩,
    ⟨.array (.struct "node") (some 3), .array ⟨9⟩ (some 3)⟩]

/-- The types of the example are measured. -/
theorem measured_nodeTypes : nodeTypes.Measured := by
  -- arrays of nodes are looked up after the check
  let checked : TypeTable := ⟨.ilp32, nodeTypes.entries.take 12⟩
  have hcheck : checkedTypes .ilp32 TypeTable.linkedList = .ok (checked, []) := rfl
  have harray : checked.intern (.array (.struct "node") (some 3)) = .ok (nodeTypes, ⟨12⟩) := rfl
  exact (checkedTypes_measured (by decide) hcheck rfl).of_extends
    (TypeTable.intern_extends harray).1 ((checkedTypes_reachable hcheck).intern harray).coherent

/-- Variables `struct node nodes[3]` and `link head`, on the stack. -/
def nodeState : LowerState where
  types := nodeTypes
  entities := {
    entries := [
      { name := "nodes", ref := .array (.struct "node") (some 3), kind := .definedVariable none,
        type := .settled ⟨12⟩, storage := .settled (.memory (.based .ebp (-24))) },
      { name := "head", ref := .typedef linkName, kind := .definedVariable none,
        type := .settled ⟨10⟩, storage := .settled (.memory (.based .ebp (-28))) }] }

/-- An annotation with the type of nodes. -/
def Note.node : Note where
  type := .struct "node"

/-- An annotation with the type of pointers to nodes. -/
def Note.link : Note where
  type := .typedef linkName

/-- An annotation with the type of arrays of nodes. -/
def Note.nodes : Note where
  type := .array (.struct "node") (some 3)

/-- The expression `head`. -/
def headVar : Expr := .var .link ⟨1⟩

/-- The expression `nodes[1]`. -/
def secondNode : Expr := .index .node (.var .nodes ⟨0⟩) (.int .int 1)

/-- The expression `nodes[1].value`. -/
def secondValue : Expr := .member .int secondNode "value"

/-- The expression `nodes[1].next`. -/
def secondNext : Expr := .member .link secondNode "next"

/-- The nodes stand at 8168, and `nodes[1].next` and `head` hold 4096, where 7 stands. -/
def nodeMemory : Ir.Env :=
  Placement.env ⟨nodeState.entities, ⟨[]⟩⟩ (fun _ => 0) {
    regs := fun c => if c = .sp then 4096 else 8192
    memory := fun a => if a = 8165 ∨ a = 8181 then 16 else if a = 4096 then 7 else 0
    flags := none } 16

/-- An annotation with the type of pointers to `int`, which has not been looked up. -/
def Note.intPointer : Note where
  type := .pointer (.integer .int true)

theorem lookup?_int : nodeTypes.lookup? Note.int.type = some ⟨5⟩ := by
  decide

theorem lookup?_node : nodeTypes.lookup? Note.node.type = some ⟨9⟩ := by
  decide

theorem lookup?_link : nodeTypes.lookup? Note.link.type = some ⟨10⟩ := by
  decide

theorem lookup?_nodes : nodeTypes.lookup? Note.nodes.type = some ⟨12⟩ := by
  decide

theorem registers_int : nodeTypes.Registers Note.int.type ⟨5⟩ :=
  ⟨⟨5⟩, lookup?_int, ⟨⟨5⟩, by decide, by decide⟩, .w32, by decide⟩

theorem registers_node : nodeTypes.Registers Note.node.type ⟨9⟩ :=
  ⟨⟨9⟩, lookup?_node, ⟨⟨9⟩, by decide, by decide⟩, .w32, by decide⟩

theorem registers_link : nodeTypes.Registers Note.link.type ⟨10⟩ :=
  ⟨⟨10⟩, lookup?_link, ⟨⟨11⟩, by decide, by decide⟩, .w32, by decide⟩

theorem member?_value : nodeTypes.member? ⟨9⟩ "value" = .ok (some (⟨5⟩, 0)) := by
  decide

theorem member?_next : nodeTypes.member? ⟨9⟩ "next" = .ok (some (⟨10⟩, 4)) := by
  decide

section

variable {s : LowerState} (hs : nodeTypes.Extends s.types) (he : s.entities = nodeState.entities)

include hs he

/-- The second node of the array is eight bytes into it. -/
theorem inside_secondNode : Inside 0 nodeMemory .w32 nodeTypes ⟨12⟩ 8168#32 s secondNode
    [.index 1] 8 ⟨9⟩ s := by
  have hentity : s.entities.get ⟨0⟩ = nodeState.entities.get ⟨0⟩ := by rw [he]
  have harray : nodeTypes.Registers Note.nodes.type ⟨12⟩ :=
    ⟨⟨12⟩, lookup?_nodes, ⟨⟨12⟩, by decide, by decide⟩, .w32, by decide⟩
  have hbyAddress : nodeTypes.isByAddress ⟨12⟩ = .ok true := by decide
  have hnodes : Path 0 nodeMemory .w32 .object s (.var .nodes ⟨0⟩) ⟨12⟩ 8168#32 s := by
    refine .entity (.again (hs.lookup? lookup?_nodes) rfl) (harray.mono hs) (hentity.trans rfl) rfl
      rfl (by decide) fun h => ?_
    cases (hs.lasts (·.isByAddress ⟨12⟩) hbyAddress).symm.trans h
  have hinfo : nodeTypes.realInfo ⟨12⟩ = .ok (.array ⟨9⟩ (some 3)) := by decide
  have hsize : nodeTypes.sizeOf ⟨9⟩ = .ok 8 := by decide
  have hwidth : nodeTypes.HasWidth Note.int.type .w32 := ⟨⟨5⟩, lookup?_int, by decide⟩
  have hone : (Expr.int .int 1).LowersTo 0 s (.int .w32 1) s :=
    .int (.again (hs.lookup? lookup?_int) rfl) (hwidth.mono hs)
  have hvalue : (Ir.Expr.int .w32 1).result? nodeMemory = some ⟨.w32, 1#32⟩ := rfl
  have hlooked : LooksUp [Note.node.type, Note.nodes.type] s s :=
    .again (hs.lookup? lookup?_node) (.again (hs.lookup? lookup?_nodes) rfl)
  exact .index (e := .var .nodes ⟨0⟩) hlooked (registers_node.mono hs) hinfo hsize hone hvalue
    (by decide) (.whole hnodes)

/-- Its pointer is a member of it. -/
theorem inside_secondNext : Inside 0 nodeMemory .w32 nodeTypes ⟨12⟩ 8168#32 s secondNext
    [.index 1, .member 1] 12 ⟨10⟩ s :=
  have hlooked : LooksUp [Note.link.type, Note.node.type] s s :=
    .again (hs.lookup? lookup?_link) (.again (hs.lookup? lookup?_node) rfl)
  .member (e := secondNode) hlooked (registers_link.mono hs) rfl rfl member?_next
    (inside_secondNode hs he)

/-- Its value stands at its start. -/
theorem inside_secondValue : Inside 0 nodeMemory .w32 nodeTypes ⟨12⟩ 8168#32 s secondValue
    [.index 1, .member 0] 8 ⟨5⟩ s :=
  have hlooked : LooksUp [Note.int.type, Note.node.type] s s :=
    .again (hs.lookup? lookup?_int) (.again (hs.lookup? lookup?_node) rfl)
  .member (e := secondNode) hlooked (registers_int.mono hs) rfl rfl member?_value
    (inside_secondNode hs he)

/-- What the pointer leads to lies outside of the array. -/
theorem path_beyond : Path 0 nodeMemory .w32 .object s (.ptrMember .int secondNext "value") ⟨5⟩
    4096#32 s := by
  have hlink : nodeTypes.realInfo ⟨10⟩ = .ok (.pointer ⟨9⟩) := by decide
  have hpointer : Path 0 nodeMemory .w32 .pointer s secondNext ⟨9⟩ 4096#32 s :=
    .stored (hs.lasts (·.realInfo ⟨10⟩) hlink) ((inside_secondNext hs he).toPath hs) (by decide)
  have hlooked : LooksUp [Note.int.type, Note.link.type] s s :=
    .again (hs.lookup? lookup?_int) (.again (hs.lookup? lookup?_link) rfl)
  exact .ptrMember (e := secondNext) hlooked (registers_int.mono hs)
    (hs.lasts (·.member? ⟨9⟩ "value") member?_value) hpointer

end

/-- `nodes[1].next->value` is read at 4096, which is the value of `&nodes[1].next->value` and of
`&*head`. The members of `nodes[1]` have no byte in common. -/
theorem objects_addressed_nodes :
    let beyond : Expr := .ptrMember .int secondNext "value"
    (∃ y, beyond.LowersTo 0 nodeState y nodeState ∧ y.result? nodeMemory = some ⟨.w32, 7#32⟩) ∧
      nodeTypes.lookup? Note.intPointer.type = none ∧
      (∃ z s', (Expr.addr .intPointer beyond).LowersTo 0 nodeState z s' ∧
        z.result? nodeMemory = some ⟨.w32, 4096#32⟩) ∧
      (∃ x, (Expr.addr .link (.deref .node headVar)).LowersTo 0 nodeState x nodeState ∧
        x.result? nodeMemory = some ⟨.w32, 4096#32⟩) ∧
      ∀ i < 4, ∀ j < 4, 8168#32 + 8#32 + BitVec.ofNat 32 i ≠
        8168#32 + 12#32 + BitVec.ofNat 32 j := by
  intro beyond
  have hintern : nodeTypes.intern Note.intPointer.type =
      .ok (nodeTypes.append Note.intPointer.type (.pointer ⟨5⟩), ⟨13⟩) := rfl
  have hgrown := (TypeTable.intern_extends hintern).1
  -- the type of the address is looked up before the path is lowered
  let s : LowerState :=
    { nodeState with types := nodeTypes.append Note.intPointer.type (.pointer ⟨5⟩) }
  have hlooked : LooksUp [Note.intPointer.type, beyond.type] nodeState s :=
    ⟨⟨13⟩, s, rfl, .again (hgrown.lookup? lookup?_int) rfl⟩
  have hhead : Path 0 nodeMemory .w32 .object nodeState headVar ⟨10⟩ 8164#32 nodeState :=
    .entity (.again lookup?_link rfl) registers_link rfl rfl rfl (by decide)
      fun _ => Placement.flat_env rfl rfl
  have hsplit : nodeTypes.Split ⟨12⟩ [.index 1, .member 0] [.index 1, .member 1] := by
    have harray : nodeTypes.info ⟨12⟩ = .ok (.array ⟨9⟩ (some 3)) := by decide
    exact .index harray (.struct rfl rfl (by decide))
  have hptr : nodeTypes.pointerWidth = .ok .w32 := by decide
  have hint : nodeTypes.sizeOf ⟨5⟩ = .ok 4 := by decide
  have hlink : nodeTypes.sizeOf ⟨10⟩ = .ok 4 := by decide
  have hnodes : nodeTypes.sizeOf ⟨12⟩ = .ok 24 := by decide
  have hwidth {w : Width} (h : 4 = w.bytes) : w = .w32 := by
    cases w <;> first | rfl | cases h
  obtain ⟨hobject, hpointed, hapart⟩ :=
    @objects_addressed 0 nodeMemory .w32 nodeTypes measured_nodeTypes hptr
  obtain ⟨⟨y, hy, -, hread⟩, -⟩ := hobject .refl (path_beyond .refl rfl)
  obtain ⟨w, hw, -, hseven⟩ := hread ⟨by decide, by decide⟩
  obtain rfl := hwidth (Except.ok.inj (hint.symm.trans hw))
  obtain ⟨-, haddress⟩ := hobject (.single ⟨_, _, hintern⟩) (path_beyond (s := s) hgrown rfl)
  obtain ⟨z, hz, hvalue⟩ := haddress hlooked
  obtain ⟨⟨x, hx, -, hread⟩, -⟩ := hobject .refl hhead
  obtain ⟨w, hw, -, hstored⟩ := hread ⟨by decide, by decide⟩
  obtain rfl := hwidth (Except.ok.inj (hlink.symm.trans hw))
  have hderef := hpointed .refl (.again lookup?_link (.again lookup?_node rfl)) registers_node hx
  obtain ⟨-, -, size, size', hsize, hsize', -, hne⟩ := hapart .refl .refl
    (inside_secondValue .refl rfl) (inside_secondNext .refl rfl) hsplit hnodes
  obtain rfl := Except.ok.inj (hint.symm.trans hsize)
  obtain rfl := Except.ok.inj (hlink.symm.trans hsize')
  exact ⟨⟨y, hy, hseven.trans (by decide)⟩, by decide, ⟨z, s, hz, hvalue⟩,
    ⟨x, hderef, hstored.trans (by decide)⟩, hne (by decide)⟩

end Source

end Backend386
