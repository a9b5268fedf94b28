import Backend386.Checked

/-!
# How a computation can fail

Every part of the back end can stop with some faults and not with others. `FaultsIn` bounds the
faults of a computation, and `AgreesUnless` compares two computations that differ in some faults of
the first one only. Both follow the structure of a computation.
-/

namespace Backend386

/-- A number left its 64 bit range. -/
def Fault.IsOverflow : Fault → Prop
  | addOverflow | multiplyOverflow => True
  | _ => False

/-- Something goes round without an end. -/
def Fault.IsCircle : Fault → Prop
  | cyclicTypedef _ | endlessType => True
  | _ => False

/-- A computation stops with no other faults than these. -/
def FaultsIn (faults : Fault → Prop) {α : Type} (x : Except Fault α) : Prop :=
  ∀ fault, x = .error fault → faults fault

namespace FaultsIn

variable {α β σ : Type} {faults : Fault → Prop} {x : Except Fault α}

theorem ok (a : α) : FaultsIn faults (.ok a : Except Fault α) :=
  nofun

theorem error {fault : Fault} (h : faults fault) :
    FaultsIn faults (.error fault : Except Fault α) := by
  rintro _ ⟨rfl⟩
  exact h

theorem mono {faults' : Fault → Prop} (h : FaultsIn faults x)
    (hf : ∀ fault, faults fault → faults' fault) : FaultsIn faults' x :=
  fun fault hx => hf fault (h fault hx)

/-- The second step runs only on what the first one gives. -/
theorem bind {f : α → Except Fault β} (hx : FaultsIn faults x)
    (hf : ∀ a, x = .ok a → FaultsIn faults (f a)) : FaultsIn faults (x >>= f) := by
  cases x with
  | error fault => exact error (hx fault rfl)
  | ok a => exact hf a rfl

/-- A loop faults only as its steps do. -/
theorem foldlM {f : σ → α → Except Fault σ} {l : List α}
    (h : ∀ s, ∀ a ∈ l, FaultsIn faults (f s a)) (s : σ) : FaultsIn faults (l.foldlM f s) := by
  induction l generalizing s with
  | nil => exact ok s
  | cons a l ih =>
    rw [List.foldlM_cons]
    exact (h s a (by simp)).bind fun s' _ => ih (fun s a ha => h s a (by simp [ha])) s'

/-- So does a function that is applied to each element. -/
theorem mapM {f : α → Except Fault β} {l : List α} (h : ∀ a ∈ l, FaultsIn faults (f a)) :
    FaultsIn faults (l.mapM f) := by
  induction l with
  | nil => exact ok []
  | cons a l ih =>
    rw [List.mapM_cons]
    exact (h a (by simp)).bind fun _ _ => (ih fun a ha => h a (by simp [ha])).bind fun _ _ => ok _

end FaultsIn

/-- The second computation ends as the first one does, unless that stops with one of some faults. -/
def AgreesUnless (stops : Fault → Prop) {α : Type} (x y : Except Fault α) : Prop :=
  y = x ∨ ∃ fault, x = .error fault ∧ stops fault

namespace AgreesUnless

variable {α β : Type} {stops : Fault → Prop} {x y : Except Fault α}

theorem refl (x : Except Fault α) : AgreesUnless stops x x :=
  .inl rfl

theorem of_eq (h : x = y) : AgreesUnless stops x y :=
  .inl h.symm

theorem error {fault : Fault} (h : stops fault) : AgreesUnless stops (.error fault) y :=
  .inr ⟨fault, rfl, h⟩

/-- A value is found by both. -/
theorem ok (h : AgreesUnless stops x y) {a : α} (hx : x = .ok a) : y = .ok a := by
  rcases h with rfl | ⟨fault, hfault, -⟩
  · exact hx
  · cases hx.symm.trans hfault

theorem of_ok (h : ∀ a, x = .ok a → y = .ok a) : AgreesUnless (fun _ => True) x y := by
  cases x with
  | ok a => exact .inl (h a rfl)
  | error fault => exact .error trivial

/-- If no fault counts, the two are the same. -/
theorem eq (h : AgreesUnless (fun _ => False) x y) : x = y := by
  rcases h with h | ⟨_, -, hfalse⟩
  · exact h.symm
  · exact hfalse.elim

/-- Computations that agree up to some faults may be run one after another. -/
theorem bind {f g : α → Except Fault β} (hx : AgreesUnless stops x y)
    (hf : ∀ a, x = .ok a → AgreesUnless stops (f a) (g a)) :
    AgreesUnless stops (x >>= f) (y >>= g) := by
  rcases hx with rfl | ⟨fault, rfl, h⟩
  · cases y with
    | error fault => exact .refl _
    | ok a => exact hf a rfl
  · exact .error h

/-- The same for each element of a list. -/
theorem mapM {f g : α → Except Fault β} {l : List α} (h : ∀ a ∈ l, AgreesUnless stops (f a) (g a)) :
    AgreesUnless stops (l.mapM f) (l.mapM g) := by
  induction l with
  | nil => exact .refl _
  | cons a l ih =>
    rw [List.mapM_cons, List.mapM_cons]
    refine (h a List.mem_cons_self).bind fun _ _ => ?_
    exact (ih fun a ha => h a (List.mem_cons_of_mem _ ha)).bind fun _ _ => .refl _

end AgreesUnless

/-! ## Arithmetic -/

theorem Checked.add_faults (a b : Nat) : FaultsIn Fault.IsOverflow (Checked.add a b) := by
  rw [Checked.add]
  split
  · exact .ok _
  · exact .error trivial

theorem Checked.mul_faults (a b : Nat) : FaultsIn Fault.IsOverflow (Checked.mul a b) := by
  rw [Checked.mul]
  split
  · exact .ok _
  · exact .error trivial

end Backend386
