import Mathlib.Data.List.Nodup
import Backend386.Proofs.Json.Scanning
import Backend386.Text.Json.Reader
import Backend386.Text.Json.Record

/-!
# Reading what was written

The reader takes the tokens of a value back to the value, whatever arrays and objects are open
around it. Together with the scanner it reads every text that was printed. Each way of writing typed
values is the inverse of the way they are read: scalars, records, tags, lists and values that may be
absent.

* `Json.foldlM_tokens` — the reader on the tokens of a value;
* `Json.parse?_render` — a text that was printed is read;
* `Json.IsPlain`, `Json.IsPlain.same` — the values that are read as they were;
* `Json.record?_obj` — the fields of a record whose names are all different;
* `Json.taggedBy?_obj` — a tag in front of a record;
* `Json.list?_list`, `Json.optional?_option` — lists and values that may be absent.
-/

namespace Backend386.Json

/-! ## Tokens -/

/-- The first item of an array is read like a further one. -/
theorem foldlM_firstItem {js : List Json} (h : js ≠ []) (stack : List Frame) :
    ([.comma].intercalate (itemTokens js)).foldlM Reader.step { expect := .firstItem, stack } =
      ([.comma].intercalate (itemTokens js)).foldlM Reader.step { expect := .value, stack } := by
  obtain ⟨j, js, rfl⟩ := List.exists_cons_of_ne_nil h
  have htokens : ∃ t ts, j.tokens = t :: ts ∧
      Reader.step { expect := .firstItem, stack } t =
        Reader.step { expect := .value, stack } t := by
    cases j <;> exact ⟨_, _, by rw [tokens], rfl⟩
  obtain ⟨t, ts, ht, hstep⟩ := htokens
  rw [itemTokens, ht]
  cases itemTokens js with
  | nil => rw [List.intercalate_singleton, List.foldlM_cons, List.foldlM_cons, hstep]
  | cons =>
    rw [List.intercalate_cons_cons, List.cons_append, List.cons_append, List.foldlM_cons,
      List.foldlM_cons, hstep]

/-- The first field of an object is read like a further one. -/
theorem foldlM_firstField {fs : List (String × Json)} (h : fs ≠ []) (stack : List Frame) :
    ([.comma].intercalate (fieldTokens fs)).foldlM Reader.step { expect := .firstField, stack } =
      ([.comma].intercalate (fieldTokens fs)).foldlM Reader.step { expect := .field, stack } := by
  obtain ⟨⟨name, j⟩, fs, rfl⟩ := List.exists_cons_of_ne_nil h
  rw [fieldTokens]
  cases fieldTokens fs with
  | nil => rw [List.intercalate_singleton]; rfl
  | cons => rw [List.intercalate_cons_cons]; rfl

mutual

/-- The reader on the tokens of a value, with any arrays and objects open around it. -/
theorem foldlM_tokens : ∀ (j : Json) (stack : List Frame),
    j.tokens.foldlM Reader.step { expect := .value, stack } = some (.accept stack j.reread)
  -- by recursion on the value: behind its tokens the reader has accepted it, with the stack as it
  -- was
  | null, _ | bool _, _ | int _, _ | decimal _, _ | str _, _ | unreadable, _ => by
    rw [tokens, reread]
    rfl
  | arr items, stack => by
    have hitems := foldlM_items items [] stack
    rw [tokens, reread]
    change ([Token.comma].intercalate (itemTokens items) ++ [Token.closeBracket]).foldlM Reader.step
      { expect := .firstItem, stack := .arr [] :: stack } = _
    -- an empty list closes at once, any other one behind its items
    cases items with
    | nil => rfl
    | cons j js =>
      have hne : j :: js ≠ [] := List.cons_ne_nil j js
      rw [List.foldlM_append, foldlM_firstItem hne, hitems hne, List.append_nil]
      simp only [Option.bind_eq_bind, Option.bind_some, List.foldlM_cons, List.foldlM_nil,
        bind_pure,
        Reader.step, Reader.closeArray, List.reverse_reverse]
  | obj fields, stack => by
    have hfields := foldlM_fields fields [] stack
    rw [tokens, reread]
    change ([Token.comma].intercalate (fieldTokens fields) ++ [Token.closeBrace]).foldlM Reader.step
      { expect := .firstField, stack := .obj (some []) none :: stack } = _
    -- the same for the fields of a record
    cases fields with
    | nil => rfl
    | cons f fs =>
      have hne : f :: fs ≠ [] := List.cons_ne_nil f fs
      rw [List.foldlM_append, foldlM_firstField hne, hfields hne, List.append_nil]
      simp only [Option.bind_eq_bind, Option.bind_some, List.foldlM_cons, List.foldlM_nil,
        bind_pure,
        Reader.step, Reader.closeObject, List.reverse_reverse]

/-- The items of an array, behind those that are kept in front. -/
theorem foldlM_items : ∀ (js acc : List Json) (stack : List Frame), js ≠ [] →
    ([.comma].intercalate (itemTokens js)).foldlM Reader.step
        { expect := .value, stack := .arr acc :: stack } =
      some { expect := .more, stack := .arr ((rereadItems js).reverse ++ acc) :: stack }
  | [], _, _, h => absurd rfl h
  | j :: js, acc, stack, _ => by
    have hitem := foldlM_tokens j (.arr acc :: stack)
    have hitems := foldlM_items js (j.reread :: acc) stack
    rw [itemTokens, rereadItems]
    cases js with
    | nil =>
      rw [itemTokens, List.intercalate_singleton, hitem]
      rfl
    | cons j' js =>
      specialize hitems (List.cons_ne_nil j' js)
      rw [itemTokens] at hitems
      rw [itemTokens, List.intercalate_cons_cons, List.append_assoc, List.foldlM_append, hitem,
        List.reverse_cons, List.append_assoc]
      exact hitems

/-- The fields of an object, behind those that are kept in front. -/
theorem foldlM_fields : ∀ (fs acc : List (String × Json)) (stack : List Frame), fs ≠ [] →
    ([.comma].intercalate (fieldTokens fs)).foldlM Reader.step
        { expect := .field, stack := .obj (some acc) none :: stack } =
      some { expect := .more,
             stack := .obj (some ((rereadFields fs).reverse ++ acc)) none :: stack }
  | [], _, _, h => absurd rfl h
  | (name, j) :: fs, acc, stack, _ => by
    have hvalue := foldlM_tokens j (.obj (some acc) (some name) :: stack)
    have hfields := foldlM_fields fs ((name, j.reread) :: acc) stack
    rw [fieldTokens, rereadFields]
    have hfield : (.text (some name) :: .colon :: j.tokens).foldlM Reader.step
        { expect := .field, stack := .obj (some acc) none :: stack } =
        some { expect := .more, stack := .obj (some ((name, j.reread) :: acc)) none :: stack } :=
      hvalue
    -- the last field has no comma behind it
    cases fs with
    | nil =>
      rw [fieldTokens, List.intercalate_singleton, hfield]
      rfl
    | cons f fs =>
      specialize hfields (List.cons_ne_nil f fs)
      rw [fieldTokens] at hfields
      rw [fieldTokens, List.intercalate_cons_cons, List.append_assoc, List.foldlM_append, hfield,
        List.reverse_cons, List.append_assoc]
      exact hfields

end

theorem ofTokens?_tokens (j : Json) : ofTokens? j.tokens = some j.reread := by
  have h : j.tokens.foldlM Reader.step {} = some (.accept [] j.reread) := foldlM_tokens j []
  rw [ofTokens?, h]
  rfl

/-- A value without decimals is read again from its text. -/
theorem parse?_render {j : Json} (h : j.isWhole = true) : parse? j.render = some j.reread := by
  rw [parse?, scan?_render h, Option.bind_some, ofTokens?_tokens]

/-! ## Values that are read as they were -/

mutual

/-- No number in a value is anything but an integer of 64 bits, and nothing is unreadable. -/
def IsPlain : Json → Prop
  | int n => InRange n
  | arr items => ArePlain items
  | obj fields => AreFieldsPlain fields
  | decimal _ | unreadable => False
  | null | bool _ | str _ => True

/-- The items of a list are plain. -/
def ArePlain : List Json → Prop
  | [] => True
  | j :: js => IsPlain j ∧ ArePlain js

/-- The values of a list of fields are plain. -/
def AreFieldsPlain : List (String × Json) → Prop
  | [] => True
  | (_, j) :: fs => IsPlain j ∧ AreFieldsPlain fs

end

mutual

/-- A plain value is printed and read without a change. -/
theorem IsPlain.same : ∀ {j : Json}, j.IsPlain →
    j.isWhole = true ∧ j.isReadable = true ∧ j.reread = j
  | null, _ | bool _, _ | str _, _ => by
    rw [isWhole, isReadable, reread]
    exact ⟨rfl, rfl, rfl⟩
  | int n, h => by
    rw [IsPlain] at h
    rw [isWhole, isReadable]
    exact ⟨rfl, rfl, (number?_repr n).2 h⟩
  | decimal _, h | unreadable, h => by
    rw [IsPlain] at h
    exact h.elim
  | arr items, h => by
    rw [IsPlain] at h
    rw [isWhole, isReadable, reread]
    obtain ⟨hwhole, hreadable, hsame⟩ := ArePlain.same h
    exact ⟨hwhole, hreadable, congrArg arr hsame⟩
  | obj fields, h => by
    rw [IsPlain] at h
    rw [isWhole, isReadable, reread]
    obtain ⟨hwhole, hreadable, hsame⟩ := AreFieldsPlain.same h
    exact ⟨hwhole, hreadable, congrArg obj hsame⟩

/-- A list of plain values is read back as it is. -/
theorem ArePlain.same : ∀ {js : List Json}, ArePlain js →
    areWhole js = true ∧ areReadable js = true ∧ rereadItems js = js
  | [], _ => ⟨rfl, rfl, rfl⟩
  | j :: js, h => by
    rw [ArePlain] at h
    obtain ⟨hwhole, hreadable, hsame⟩ := h.1.same
    obtain ⟨hwholes, hreadables, hsames⟩ := ArePlain.same h.2
    rw [areWhole, areReadable, rereadItems, hwhole, hreadable, hsame, hsames]
    exact ⟨hwholes, hreadables, rfl⟩

/-- So are the fields of a record. -/
theorem AreFieldsPlain.same : ∀ {fs : List (String × Json)}, AreFieldsPlain fs →
    areFieldsWhole fs = true ∧ areFieldsReadable fs = true ∧ rereadFields fs = fs
  | [], _ => ⟨rfl, rfl, rfl⟩
  | (name, j) :: fs, h => by
    rw [AreFieldsPlain] at h
    obtain ⟨hwhole, hreadable, hsame⟩ := h.1.same
    obtain ⟨hwholes, hreadables, hsames⟩ := AreFieldsPlain.same h.2
    rw [areFieldsWhole, areFieldsReadable, rereadFields, hwhole, hreadable, hsame, hsames]
    exact ⟨hwholes, hreadables, rfl⟩

end

/-! ## Typed values -/

/-! ## Scalars -/

theorem natBelow?_nat {bound n : Nat} (h : n < bound) : natBelow? bound (nat n) = some n := by
  have hrange : (0 : Int) ≤ n ∧ (n : Int) < bound := by omega
  rw [nat, natBelow?, if_pos hrange, Int.toNat_natCast]

theorem uint32?_nat (n : UInt32) : uint32? (nat n.toNat) = some n := by
  rw [uint32?, natBelow?_nat n.toNat_lt, Option.map_some, UInt32.ofNat_toNat]

theorem uint64?_nat (n : UInt64) : uint64? (nat n.toNat) = some n := by
  rw [uint64?, natBelow?_nat n.toNat_lt, Option.map_some, UInt64.ofNat_toNat]

/-- A signed number is read back. -/
theorem int64?_int (n : Int64) : int64? (int n.toInt) = some n := by
  have hrange : Int64.minValue.toInt ≤ n.toInt ∧ n.toInt ≤ Int64.maxValue.toInt := by
    have hlow := n.le_toInt
    have hhigh := n.toInt_lt
    have hmin : Int64.minValue.toInt = -2 ^ 63 := rfl
    have hmax : Int64.maxValue.toInt = 2 ^ 63 - 1 := rfl
    omega
  rw [int64?, if_pos hrange, Int64.ofInt_toInt]

theorem inRange_nat {n : Nat} (h : n < UInt64.size) : InRange (n : Int) := by
  unfold InRange
  omega

/-- A signed number is in range. -/
theorem inRange_int64 (n : Int64) : InRange n.toInt := by
  have hlow := n.le_toInt
  have hhigh := n.toInt_lt
  have hsize : UInt64.size = 2 ^ 64 := rfl
  unfold InRange
  omega

/-! ## Depths -/

theorem depthOfItems_le_iff {js : List Json} {n : Nat} :
    depthOfItems js ≤ n ↔ ∀ j ∈ js, j.depth ≤ n := by
  induction js with
  | nil => simp [depthOfItems]
  | cons j js ih => rw [depthOfItems, Nat.max_le, ih, List.forall_mem_cons]

/-! ## Plain values -/

theorem arePlain_iff {js : List Json} : ArePlain js ↔ ∀ j ∈ js, j.IsPlain := by
  induction js with
  | nil => simp [ArePlain]
  | cons j js ih => simp [ArePlain, ih]

theorem areFieldsPlain_iff {fs : List (String × Json)} :
    AreFieldsPlain fs ↔ ∀ f ∈ fs, f.2.IsPlain := by
  induction fs with
  | nil => simp [AreFieldsPlain]
  | cons f fs ih => simp [AreFieldsPlain, ih]

@[simp] theorem isPlain_null : null.IsPlain := trivial

@[simp] theorem isPlain_bool (b : Bool) : (bool b).IsPlain := trivial

@[simp] theorem isPlain_str (s : String) : (str s).IsPlain := trivial

@[simp] theorem isPlain_int {n : Int} : (int n).IsPlain ↔ InRange n := by
  rw [IsPlain]

@[simp] theorem isPlain_arr {js : List Json} : (arr js).IsPlain ↔ ∀ j ∈ js, j.IsPlain := by
  rw [IsPlain, arePlain_iff]

@[simp] theorem isPlain_obj {fs : List (String × Json)} :
    (obj fs).IsPlain ↔ ∀ f ∈ fs, f.2.IsPlain := by
  rw [IsPlain, areFieldsPlain_iff]

theorem isPlain_nat {n : Nat} (h : n < UInt64.size) : (nat n).IsPlain :=
  isPlain_int.2 (inRange_nat h)

/-! ## Values without decimals -/

theorem areWhole_iff {js : List Json} : areWhole js = true ↔ ∀ j ∈ js, j.isWhole = true := by
  induction js with
  | nil => simp [areWhole]
  | cons j js ih => simp [areWhole, ih]

theorem areFieldsWhole_iff {fs : List (String × Json)} :
    areFieldsWhole fs = true ↔ ∀ f ∈ fs, f.2.isWhole = true := by
  induction fs with
  | nil => simp [areFieldsWhole]
  | cons f fs ih => simp [areFieldsWhole, ih]

@[simp] theorem isWhole_null : null.isWhole = true := rfl

@[simp] theorem isWhole_str (s : String) : (str s).isWhole = true := rfl

@[simp] theorem isWhole_int (n : Int) : (int n).isWhole = true := rfl

@[simp] theorem isWhole_nat (n : Nat) : (nat n).isWhole = true := rfl

@[simp] theorem isWhole_arr {js : List Json} :
    (arr js).isWhole = true ↔ ∀ j ∈ js, j.isWhole = true := by
  rw [isWhole, areWhole_iff]

@[simp] theorem isWhole_obj {fs : List (String × Json)} :
    (obj fs).isWhole = true ↔ ∀ f ∈ fs, f.2.isWhole = true := by
  rw [isWhole, areFieldsWhole_iff]

theorem IsPlain.isWhole {j : Json} (h : j.IsPlain) : j.isWhole = true :=
  h.same.1

section

variable {α : Type} {f : α → Json} {read : Json → Option α}

theorem isWhole_list {as : List α} (h : ∀ a ∈ as, (f a).isWhole = true) :
    (list f as).isWhole = true := by
  rw [list, isWhole_arr]
  exact List.forall_mem_map.2 h

theorem isWhole_option {o : Option α} (h : ∀ a, (f a).isWhole = true) :
    (option f o).isWhole = true := by
  cases o with
  | none => exact isWhole_null
  | some a => exact h a

theorem isPlain_list {as : List α} (h : ∀ a ∈ as, (f a).IsPlain) : (list f as).IsPlain := by
  rw [list, isPlain_arr]
  exact List.forall_mem_map.2 h

theorem isPlain_option {o : Option α} (h : ∀ a, o = some a → (f a).IsPlain) :
    (option f o).IsPlain := by
  cases o with
  | none => exact isPlain_null
  | some a => exact h a rfl

/-! ## Lists and values that may be absent -/

/-- A list is read back if each of its elements is. -/
theorem list?_map {β : Type} {read : Json → Option β} {g : α → β} {as : List α}
    (h : ∀ a ∈ as, read (f a) = some (g a)) : list? read (list f as) = some (as.map g) := by
  rw [list, list?]
  induction as with
  | nil => rfl
  | cons a as ih =>
    obtain ⟨ha, has⟩ := List.forall_mem_cons.1 h
    rw [List.map_cons, List.map_cons, List.mapM_cons, ha, ih has]
    rfl

theorem list?_list {as : List α} (h : ∀ a ∈ as, read (f a) = some a) :
    list? read (list f as) = some as := by
  simpa using list?_map (g := id) h

/-- An optional value that is there is read back. -/
theorem optional?_some {j : Json} (hnull : j ≠ null) :
    optional? read (some j) = (read j).map some := by
  unfold optional?
  split
  · contradiction
  · next hj => exact absurd (Option.some.inj hj) hnull
  · next hj => rw [Option.some.inj hj]

/-- A value that is not written as null may be absent. -/
theorem optional?_option {o : Option α} (hnull : ∀ a, f a ≠ null)
    (h : ∀ a, o = some a → read (f a) = some a) : optional? read (some (option f o)) = some o := by
  cases o with
  | none => rfl
  | some a => rw [option, optional?_some (hnull a), h a rfl, Option.map_some]

end

/-! ## Fields -/

/-- A field that stands in a record once is found. -/
theorem fieldOnce?_of_mem {fields : List (String × Json)} {f : String × Json}
    (hnodup : (fields.map (·.1)).Nodup) (hf : f ∈ fields) :
    fieldOnce? fields f.1 = some (some f.2) := by
  have hfilter : fields.filter (·.1 = f.1) = [f] := by
    induction fields with
    | nil => cases hf
    | cons g fields ih =>
      obtain ⟨hnew, hnodup⟩ := List.nodup_cons.1 hnodup
      obtain rfl | hf := List.mem_cons.1 hf
      · have hnone : fields.filter (·.1 = f.1) = [] := by
          exact List.filter_eq_nil_iff.2 fun g hg hname =>
            hnew (List.mem_map.2 ⟨g, hg, of_decide_eq_true hname⟩)
        rw [List.filter_cons_of_pos (by simp), hnone]
      · have hname : g.1 ≠ f.1 := fun hname => hnew (List.mem_map.2 ⟨f, hf, hname.symm⟩)
        rw [List.filter_cons_of_neg (by simpa using hname), ih hnodup hf]
  rw [fieldOnce?, hfilter]

/-- The fields of a record are read in the order in which they were written. -/
theorem record?_obj {names : List String} {fields : List (String × Json)}
    (hnames : fields.map (·.1) = names) (hnodup : names.Nodup) :
    record? names (obj fields) = some (fields.map fun f => some f.2) := by
  have hfound (fs : List (String × Json)) (hsub : ∀ f ∈ fs, f ∈ fields) :
      (fs.map (·.1)).mapM (fieldOnce? fields) = some (fs.map fun f => some f.2) := by
    induction fs with
    | nil => rfl
    | cons f fs ih =>
      obtain ⟨hf, hfs⟩ := List.forall_mem_cons.1 hsub
      rw [List.map_cons, List.mapM_cons, fieldOnce?_of_mem (hnames ▸ hnodup) hf, ih hfs]
      rfl
  subst hnames
  exact hfound fields fun f hf => hf

/-- A tag is taken off the record that it stands in front of. -/
theorem taggedBy?_obj {read : Json → Option String} {tag name : String} {j : Json}
    {fields : List (String × Json)} (hread : read j = some name)
    (htag : tag ∉ fields.map (·.1)) :
    taggedBy? read tag (obj ((tag, j) :: fields)) = some (name, obj fields) := by
  have hne : ∀ f ∈ fields, f.1 ≠ tag := fun f hf h => htag (h ▸ List.mem_map_of_mem hf)
  have hnone : fields.filter (·.1 = tag) = [] :=
    List.filter_eq_nil_iff.2 fun f hf h => hne f hf (of_decide_eq_true h)
  have hrest : fields.filter (·.1 ≠ tag) = fields :=
    List.filter_eq_self.2 fun f hf => decide_eq_true (hne f hf)
  have honce : fieldOnce? ((tag, j) :: fields) tag = some (some j) := by
    rw [fieldOnce?, List.filter_cons_of_pos (by simp), hnone]
  have hothers : ((tag, j) :: fields).filter (·.1 ≠ tag) = fields := by
    rw [List.filter_cons_of_neg (by simp), hrest]
  rw [taggedBy?, honce, hothers]
  change (do
    let name ← read j
    pure (name, obj fields)) = _
  rw [hread]
  rfl

end Backend386.Json
