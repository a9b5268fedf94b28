import Backend386.Proofs.Types.Widths

/-!
# Parts that are selected

A member that a name selects, and an element that an index selects, are parts of a type. Which
member a name selects does not depend on the typedefs that a type is reached through.

* `TypeTable.Part.append` — a path behind a path;
* `TypeTable.Measured.part_of_member?`, `TypeTable.part_of_element` — what a name and an index
  select;
* `TypeTable.SameType.member?_eq` — the same member, whatever typedefs there are.
-/

namespace Backend386.TypeTable

variable {t : TypeTable} {id part part' real base : TypeId} {path path' : List Selector}
  {offset offset' size : Nat} {name : String}

/-! ## Paths -/

/-- A part of a part is a part. -/
theorem Part.append (h : t.Part id path offset part) (h' : t.Part part path' offset' part') :
    t.Part id (path ++ path') (offset + offset') part' := by
  induction h with
  | whole => rwa [List.nil_append, Nat.zero_add]
  | member hi hm hn hl hs _ ih =>
    rw [List.cons_append, Nat.add_assoc]
    exact .member hi hm hn hl hs (ih h')
  | index hi hlt he _ ih =>
    rw [List.cons_append, Nat.add_assoc]
    exact .index hi hlt he (ih h')
  | typedef hi hr _ ih => exact .typedef hi hr (ih h')

/-- A path into the real type is a path into the type. -/
theorem Part.of_realType (h : t.RealType id real) (hp : t.Part real path offset part) :
    t.Part id path offset part := by
  induction h with
  | self => exact hp
  | follow hi hr _ ih => exact .typedef hi hr (ih hp)

theorem Measured.layout_realType (h : t.Measured) (hr : t.RealType id real) :
    t.layout id = t.layout real := by
  obtain ⟨info, hinfo, -⟩ := hr.exists_info
  rw [hr.layout_eq h.complete, h.complete.layout_eq hinfo]

/-- A member is a part. -/
theorem Measured.part_of_member? (h : t.Measured) {c : Composite} {i : Nat}
    (hm : t.member? id name = .ok (some (part, offset))) (hc : t.composite id = .ok c)
    (hi : c.memberIndex? name = some i) : t.Part id [.member i] offset part := by
  obtain ⟨c', i', m, l, hc', hi', hmember, htype, hl, hs⟩ := member?_eq_some hm
  obtain rfl := Except.ok.inj (hc.symm.trans hc')
  obtain rfl := Option.some.inj (hi.symm.trans hi')
  obtain ⟨info, hinfo, hc⟩ := bind_eq_ok_iff.1 hc
  obtain ⟨real, hreal, hinfo⟩ := exists_realType hinfo
  cases info with
  | composite c'' =>
    obtain rfl := Except.ok.inj hc
    rw [h.layout_realType hreal] at hl
    exact .of_realType hreal (.member hinfo hmember htype hl hs .whole)
  | _ => cases hc

/-- An element of an array is a part. -/
theorem part_of_element {length : UInt64} {j : Nat}
    (hi : t.realInfo id = .ok (.array base (some length))) (hj : j < length.toNat)
    (hsize : t.sizeOf base = .ok size) : t.Part id [.index j] (j * size) base := by
  obtain ⟨real, hreal, hinfo⟩ := exists_realType hi
  obtain ⟨l, hl, hsize⟩ := bind_eq_ok_iff.1 hsize
  obtain rfl := Except.ok.inj hsize
  exact .of_realType hreal (.index hinfo hj hl .whole)

/-! ## Typedefs -/

namespace SameType

variable {a b : TypeId}

/-- Types that are the same have the same members. -/
theorem member?_eq {found : TypeId × Nat} (h : t.SameType a b) (ht : t.Measured)
    (hm : t.member? b name = .ok (some found)) : t.member? a name = .ok (some found) := by
  obtain ⟨c, hinfo⟩ := realInfo_of_member? hm
  have hb : t.composite b = .ok c := bind_eq_ok_iff.2 ⟨_, hinfo, rfl⟩
  have ha : t.composite a = .ok c := bind_eq_ok_iff.2 ⟨_, h.realInfo_eq ▸ hinfo, rfl⟩
  rw [← hm, member?, member?, ha, hb, h.layout_eq ht]

end SameType

end Backend386.TypeTable
