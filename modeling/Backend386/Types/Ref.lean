/-!
# Type references

A type reference is the structural name of a type: it is what declarations and expressions carry,
and the key under which the type table registers a type. Structs, unions and typedefs are referred
to by name; pointers, arrays and functions are built from other references.

* `TypeRef` — the references, with decidable equality;
* `TypeRef.render` — their text in diagnostics.
-/

namespace Backend386

/-- The ranks of integer types. How many bytes a rank takes is decided by a width profile. -/
inductive IntegerRank where
  | char
  | short
  | int
  | long
deriving DecidableEq, Inhabited, Repr

/-- The spelling of a rank. -/
def IntegerRank.render : IntegerRank → String
  | .char => "char"
  | .short => "short"
  | .int => "int"
  | .long => "long"

/-- A structural reference to a type. -/
inductive TypeRef where
  | void
  | integer (rank : IntegerRank) (signed : Bool)
  | struct (name : String)
  | union (name : String)
  | typedef (name : String)
  | pointer (base : TypeRef)
  /-- an array; one without a length is a flexible last member or a parameter -/
  | array (base : TypeRef) (length : Option UInt64)
  | function (ret : TypeRef) (params : List TypeRef) (vararg : Bool)
deriving Inhabited, Repr

namespace TypeRef

/-! ## Equality -/

mutual

/-- Decides whether two references are the same. -/
def same : TypeRef → TypeRef → Bool
  | void, void => true
  | integer r s, integer r' s' => r == r' && s == s'
  | struct n, struct n' => n == n'
  | union n, union n' => n == n'
  | typedef n, typedef n' => n == n'
  | pointer b, pointer b' => same b b'
  | array b l, array b' l' => same b b' && l == l'
  | function r ps v, function r' ps' v' => same r r' && sameAll ps ps' && v == v'
  | _, _ => false

/-- Decides whether two lists of references are the same. -/
def sameAll : List TypeRef → List TypeRef → Bool
  | [], [] => true
  | p :: ps, q :: qs => same p q && sameAll ps qs
  | _, _ => false

end

mutual

/-- References that are found to be the same are equal. -/
theorem eq_of_same : ∀ {a b : TypeRef}, same a b = true → a = b
  | void, b, h => by cases b <;> simp_all [same]
  | integer r s, b, h => by cases b <;> simp_all [same]
  | struct n, b, h => by cases b <;> simp_all [same]
  | union n, b, h => by cases b <;> simp_all [same]
  | typedef n, b, h => by cases b <;> simp_all [same]
  | pointer a, b, h => by
    cases b <;> simp [same] at h
    rw [eq_of_same h]
  | array a l, b, h => by
    cases b <;> simp [same] at h
    rw [eq_of_same h.1, h.2]
  | function r ps v, b, h => by
    cases b <;> simp [same] at h
    rw [eq_of_same h.1.1, eq_of_sameAll h.1.2, h.2]

theorem eq_of_sameAll : ∀ {as bs : List TypeRef}, sameAll as bs = true → as = bs
  | [], bs, h => by cases bs <;> simp_all [sameAll]
  | a :: as, bs, h => by
    cases bs <;> simp [sameAll] at h
    rw [eq_of_same h.1, eq_of_sameAll h.2]

end

mutual

/-- A reference is the same as itself. -/
theorem same_self : ∀ a : TypeRef, same a a = true
  | void => rfl
  | integer _ _ => by simp [same]
  | struct _ => by simp [same]
  | union _ => by simp [same]
  | typedef _ => by simp [same]
  | pointer a => by simp [same, same_self a]
  | array a _ => by simp [same, same_self a]
  | function r ps _ => by simp [same, same_self r, sameAll_self ps]

theorem sameAll_self : ∀ as : List TypeRef, sameAll as as = true
  | [] => rfl
  | a :: as => by simp [sameAll, same_self a, sameAll_self as]

end

/-- `same` decides equality. -/
theorem same_iff {a b : TypeRef} : same a b = true ↔ a = b :=
  ⟨eq_of_same, fun h => h ▸ same_self a⟩

instance : DecidableEq TypeRef := fun _ _ =>
  decidable_of_iff _ same_iff

/-! ## Queries and text -/

/-- A reference to a struct, a union or a typedef: a type that has to be registered before use. -/
def isNamed : TypeRef → Bool
  | struct _ | union _ | typedef _ => true
  | _ => false

mutual

/-- The text of a reference in diagnostics. -/
def render : TypeRef → String
  | void => "void"
  | integer r true => r.render
  | integer r false => "unsigned " ++ r.render
  | struct n => "struct " ++ n
  | union n => "union " ++ n
  | typedef n => n
  | pointer b => render b ++ "*"
  | array b (some n) => render b ++ "[" ++ n.toNat.repr ++ "]"
  | array b none => render b ++ "[]"
  | function r ps v =>
    render r ++ "(" ++ ", ".intercalate (renderAll ps) ++ (if v then ", ..." else "") ++ ")"

/-- The texts of a list of references. -/
def renderAll : List TypeRef → List String
  | [] => []
  | p :: ps => render p :: renderAll ps

end

/-- `renderAll` renders each reference of a list. -/
theorem renderAll_eq_map (ps : List TypeRef) : renderAll ps = ps.map render := by
  induction ps with
  | nil => rfl
  | cons p ps ih => simp [renderAll, ih]

end TypeRef

end Backend386
