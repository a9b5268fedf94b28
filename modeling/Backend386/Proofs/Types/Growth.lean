import Mathlib.Order.Basic
import Backend386.Proofs.Types.Table
import Backend386.Proofs.Types.TypeLayout

/-!
# Answers that last

A table that grows by derived types gives the answers that it gave before. The bounds on the depth
of a search grow with the table, and do not matter for a search that came to an end.

* `TypeTable.Lasting` — a question whose answers last, with one instance for each question that the
  lowering asks;
* `TypeTable.isByAddress`, `TypeTable.registerWidth` — how values of a type are represented.
-/

namespace Backend386.TypeTable

variable {α β : Type} {t t' : TypeTable} {id : TypeId} {ref : TypeRef}

/-- A question whose answers stay the same when the table grows. -/
class Lasting (question : TypeTable → Except Fault α) : Prop where
  lasts : ∀ ⦃t t' : TypeTable⦄ ⦃a : α⦄, t.Extends t' → question t = .ok a → question t' = .ok a

namespace Lasting

variable {question : TypeTable → Except Fault α} {next : α → TypeTable → Except Fault β}

instance const (x : Except Fault α) : Lasting fun _ => x where
  lasts := fun _ _ _ _ h => h

/-- A question that is asked with the answer to another one. -/
instance bind [hq : Lasting question] [hn : ∀ a, Lasting (next a)] :
    Lasting fun t => question t >>= fun a => next a t where
  lasts := fun t t' b hext h => by
    obtain ⟨a, ha, hb⟩ := bind_eq_ok_iff.1 h
    exact bind_eq_ok_iff.2 ⟨a, hq.lasts hext ha, (hn a).lasts hext hb⟩

instance ite {c : Prop} [Decidable c] {question' : TypeTable → Except Fault α}
    [hq : Lasting question]
    [hq' : Lasting question'] : Lasting fun t => if c then question t else question' t where
  lasts := fun t t' a hext h => by
    by_cases hc : c
    · rw [if_pos hc] at h ⊢
      exact hq.lasts hext h
    · rw [if_neg hc] at h ⊢
      exact hq'.lasts hext h

end Lasting

/-- What a question was answered is what it is answered in a table that has grown. -/
theorem Extends.lasts (h : t.Extends t') (question : TypeTable → Except Fault α)
    [hq : Lasting question] {a : α} (ha : question t = .ok a) : question t' = .ok a :=
  hq.lasts h ha

/-! ## Entries -/

/-- Entries stay where they are. -/
theorem Extends.entry (h : t.Extends t') {e : TypeEntry} (he : t.entry id = .ok e) :
    t'.entry id = .ok e := by
  induction h with
  | refl => exact he
  | put _ _ _ ih =>
    rw [entry_eq_ok_iff] at ih ⊢
    rw [append, List.getElem?_append_left (List.getElem?_eq_some_iff.1 ih).1, ih]

instance : Lasting (·.entry id) where
  lasts := fun _ _ _ hext h => hext.entry h

instance : Lasting (·.info id) :=
  inferInstanceAs (Lasting fun t => t.entry id >>= fun e => Pure.pure e.info)

instance : Lasting (·.refOf id) :=
  inferInstanceAs (Lasting fun t => t.entry id >>= fun e => Pure.pure e.ref)

/-- A reference that is registered stays registered. -/
theorem Extends.lookup? (h : t.Extends t') (hl : t.lookup? ref = some id) :
    t'.lookup? ref = some id := by
  induction h with
  | refl => exact hl
  | put _ _ _ ih =>
    obtain ⟨i, hi, rfl⟩ := Option.map_eq_some_iff.1 ih
    rw [TypeTable.lookup?, append, List.findIdx?_append, hi]
    rfl

/-- A reference that was looked up is registered. -/
theorem intern_lookup? (h : t.intern ref = .ok (t', id)) : t'.lookup? ref = some id := by
  have hput {t₁ : TypeTable} {info : TypeInfo} (hp : t₁.put ref info = .ok (t', id)) :
      t'.lookup? ref = some id := by
    obtain ⟨hnew, rfl, rfl⟩ := put_eq_ok_iff.1 hp
    have hnone := Option.map_eq_none_iff.1 hnew
    simp [TypeTable.lookup?, append, List.findIdx?_append, hnone, size, List.findIdx?_cons]
  rw [intern.eq_def] at h
  cases hl : t.lookup? ref with
  | some found =>
    rw [hl] at h
    obtain ⟨rfl, rfl⟩ := Prod.mk.inj (Except.ok.inj h)
    exact hl
  | none =>
    rw [hl] at h
    cases ref with
    | pointer base | array base length =>
      obtain ⟨⟨t₁, b⟩, -, hp⟩ := bind_eq_ok_iff.1 h
      exact hput hp
    | function ret params vararg =>
      obtain ⟨⟨t₁, r⟩, -, h⟩ := bind_eq_ok_iff.1 h
      obtain ⟨⟨t₂, ps⟩, -, hp⟩ := bind_eq_ok_iff.1 h
      exact hput hp
    | _ => cases h

instance {rank : IntegerRank} {signed : Bool} : Lasting (·.integer rank signed) where
  lasts := fun t t' id hext h => by
    unfold integer at h ⊢
    split at h
    · next found hl =>
      rw [hext.lookup? hl]
      exact h
    · cases h

instance : Lasting int :=
  inferInstanceAs (Lasting (·.integer .int true))

instance : Lasting void where
  lasts := fun t t' id hext h => by
    unfold void at h ⊢
    split at h
    · next found hl =>
      rw [hext.lookup? hl]
      exact h
    · cases h

/-! ## Typedefs -/

/-- Typedefs lead to the same type in a larger table, with more steps to go. -/
theorem Extends.followTypedefs (h : t.Extends t') {n m : Nat} (hnm : n ≤ m) {real : TypeId}
    (hf : t.followTypedefs n id = .ok (some real)) :
    t'.followTypedefs m id = .ok (some real) := by
  induction n generalizing m id with
  | zero => cases hf
  | succ n ih =>
    obtain ⟨m, rfl⟩ := Nat.exists_eq_add_of_le' hnm
    obtain ⟨info, hi, hf⟩ := bind_eq_ok_iff.1 hf
    rw [← Nat.add_assoc, TypeTable.followTypedefs, h.lasts (·.info id) hi]
    cases info with
    | typedef d =>
      obtain ⟨next, hnext, hf⟩ := bind_eq_ok_iff.1 hf
      exact bind_eq_ok_iff.2 ⟨_, rfl, bind_eq_ok_iff.2 ⟨next, hnext, ih (Nat.le_add_left ..) hf⟩⟩
    | _ => exact hf

instance : Lasting (·.realType id) where
  lasts := fun t t' real hext h => by
    obtain ⟨found, hfound, h⟩ := bind_eq_ok_iff.1 h
    cases found with
    | none => cases h
    | some found =>
      have hle : t.size + 1 ≤ t'.size + 1 := Nat.succ_le_succ hext.size_le
      rw [realType, realType?, hext.followTypedefs hle hfound]
      exact h

instance : Lasting (·.realInfo id) :=
  inferInstanceAs (Lasting fun t => t.realType id >>= t.info)

/-- A question about what the table knows of the real type. -/
theorem lasting_realInfo (answer : TypeInfo → Except Fault α) :
    Lasting fun t => t.realInfo id >>= answer :=
  inferInstance

instance : Lasting (·.isVoid id) := lasting_realInfo _
instance : Lasting (·.isInteger id) := lasting_realInfo _
instance : Lasting (·.isSigned id) := lasting_realInfo _
instance : Lasting (·.isPointer id) := lasting_realInfo _
instance : Lasting (·.isArray id) := lasting_realInfo _
instance : Lasting (·.isComposite id) := lasting_realInfo _
instance : Lasting (·.isFunction id) := lasting_realInfo _

instance : Lasting (·.isScalar id) :=
  inferInstanceAs (Lasting fun t => t.isInteger id >>= fun a => t.isPointer id >>= fun b =>
    Pure.pure (a || b))

instance : Lasting (·.isAggregate id) :=
  inferInstanceAs (Lasting fun t => t.isComposite id >>= fun a => t.isArray id >>= fun b =>
    Pure.pure (a || b))

instance : Lasting (·.isPointerLike id) :=
  inferInstanceAs (Lasting fun t => t.isPointer id >>= fun a => t.isArray id >>= fun b =>
    Pure.pure (a || b))

instance : Lasting (·.baseType id) where
  lasts := fun t t' base hext h => by
    obtain ⟨info, hinfo, h⟩ := bind_eq_ok_iff.1 h
    refine bind_eq_ok_iff.2 ⟨info, hext.lasts (·.realInfo id) hinfo, ?_⟩
    -- the name of the type stands in the fault only
    cases info <;> first | exact h | cases h

/-! ## Layouts -/

theorem Extends.layoutWithin (h : t.Extends t') {n m : Nat} (hnm : n ≤ m) {l : Layout}
    (hl : t.layoutWithin n id = .ok l) : t'.layoutWithin m id = .ok l := by
  have hinfo (id : TypeId) : AgreesUnless (fun _ => True) (t.info id) (t'.info id) :=
    .of_ok fun _ => h.lasts (·.info id)
  exact (layoutWithin_agrees h.profile hinfo trivial hnm id).ok hl

instance : Lasting (·.layout id) where
  lasts := fun _ _ _ hext h => hext.layoutWithin hext.size_le h

instance : Lasting (·.sizeOf id) :=
  inferInstanceAs (Lasting fun t => t.layout id >>= fun l => Pure.pure l.size)

instance : Lasting (·.alignmentOf id) :=
  inferInstanceAs (Lasting fun t => t.layout id >>= fun l => Pure.pure l.alignment)

instance : Lasting (·.elementSize id) :=
  inferInstanceAs (Lasting fun t => t.baseType id >>= fun base => t.sizeOf base)

instance : Lasting (·.composite id) where
  lasts := fun t t' c hext h => by
    obtain ⟨info, hinfo, h⟩ := bind_eq_ok_iff.1 h
    refine bind_eq_ok_iff.2 ⟨info, hext.lasts (·.realInfo id) hinfo, ?_⟩
    cases info <;> first | exact h | cases h

instance {name : String} : Lasting (·.member? id name) where
  lasts := fun t t' found hext h => by
    obtain ⟨c, hcomposite, h⟩ := bind_eq_ok_iff.1 h
    refine bind_eq_ok_iff.2 ⟨c, hext.lasts (·.composite id) hcomposite, ?_⟩
    cases hindex : c.memberIndex? name with
    | none =>
      simp only [hindex] at h ⊢
      exact h
    | some i =>
      simp only [hindex] at h ⊢
      obtain ⟨l, hl, h⟩ := bind_eq_ok_iff.1 h
      exact bind_eq_ok_iff.2 ⟨l, hext.lasts (·.layout id) hl, h⟩

/-! ## Representation -/

/-- Whether values of a type are represented by their address. -/
def isByAddress (t : TypeTable) (id : TypeId) : Except Fault Bool := do
  return (← t.isAggregate id) || (← t.isFunction id)

/-- The width of a pointer. -/
def pointerWidth (t : TypeTable) : Except Fault Width :=
  Width.ofBytes t.profile.pointerSize

/-- The width of the register that an expression of a type is evaluated into. -/
def registerWidth (t : TypeTable) (id : TypeId) : Except Fault Width := do
  if (← t.isByAddress id) || (← t.isVoid id) then
    t.pointerWidth
  else
    Width.ofBytes (← t.sizeOf id)

instance : Lasting (·.isByAddress id) :=
  inferInstanceAs (Lasting fun t => t.isAggregate id >>= fun a => t.isFunction id >>= fun b =>
    Pure.pure (a || b))

instance : Lasting pointerWidth where
  lasts := fun t t' w hext h => by rwa [pointerWidth, hext.profile]

instance : Lasting (·.registerWidth id) :=
  inferInstanceAs (Lasting fun t => t.isByAddress id >>= fun a => t.isVoid id >>= fun b =>
    if a || b then t.pointerWidth else t.sizeOf id >>= fun size => Width.ofBytes size)

end Backend386.TypeTable
