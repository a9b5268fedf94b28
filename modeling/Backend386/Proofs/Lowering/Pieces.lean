import Backend386.Proofs.Lowering.Accesses

/-!
# Widths of the pieces of lowered code

Where the types that a part of a program carries fit each other, each piece of lowered code is as
wide as its type, and stores inside its object.

* `TypeTable.Measured.chunk_dvd` — the pieces in which an object is copied fill it;
* `Lower.Course.Sound` — the types fit each other;
* `Lower.Course.Pointing`, `Lower.Course.Valued` — addresses, and values of a type;
* `Lower.Course.leads_load`, `Lower.Course.leads_stable`, … — what the pieces lead to.
-/

namespace Backend386

/-- The size of the pieces in which an object is copied divides its alignment, and so its size. -/
theorem TypeTable.Measured.chunk_dvd {t : TypeTable} {type : TypeId} {size : Nat} (h : t.Measured)
    (hsize : t.sizeOf type = .ok size) :
    ∃ alignment, t.alignmentOf type = .ok alignment ∧
      (Lower.chunkWidth alignment).bytes ∣ size := by
  obtain ⟨l, hl, heq⟩ := bind_eq_ok_iff.1 hsize
  obtain rfl := Except.ok.inj heq
  obtain ⟨hpower, hdvd⟩ := h.complete.layoutWithin_alignment h.sizes hl
  have hchunk : (Lower.chunkWidth l.alignment).bytes ∣ l.alignment := by
    simp only [IsAlignment, List.mem_cons, List.not_mem_nil, or_false] at hpower
    rcases hpower with h | h | h | h <;> rw [h] <;> decide
  exact ⟨l.alignment, bind_eq_ok_iff.2 ⟨l, hl, rfl⟩, hchunk.trans hdvd⟩

/-- The offsets of pieces that fill an object. -/
theorem Lower.chunkOffsets_mul (q : Nat) (w : Width) :
    chunkOffsets (q * w.bytes) w.bytes = (List.range q).map (· * w.bytes) := by
  have hpos : 0 < w.bytes := by cases w <;> decide
  rw [chunkOffsets, Nat.add_sub_assoc hpos, Nat.mul_comm, Nat.mul_add_div hpos,
    Nat.div_eq_of_lt (Nat.sub_lt hpos Nat.one_pos), Nat.add_zero]

namespace Lower.Course

variable {c : Course} {s s' : LowerState} {code : List Ir.Stmt} {type type' : TypeId}
  {x y a base target value : Ir.Expr} {w ptr : Width} {location : Option Location}
  {e l : Source.Expr} {v : EntityId}

/-- The types that the part carries fit each other, and can be measured. -/
structure Sound (c : Course) : Prop where
  measured : c.types.Measured
  typed : ∀ id e, c.last.entities.get id = .ok e → ∃ type, e.type = .settled type
  closed : c.part.Closed c.last.entities
  annotated : c.part.Annotated c.types c.last.entities
  proper : c.part.Proper c.types c.last.entities

/-- All that an expression reads fits the types. -/
abbrev ReadsAll (c : Course) (x : Ir.Expr) : Prop :=
  ∀ r ∈ x.reads, c.Reads [] r

/-- What is read in memory is read from an address, and a variable that an expression stands for has
a number below those of the temporaries to come. -/
def Located (c : Course) (s : LowerState) : Ir.Expr → Prop
  | .mem _ a => c.types.pointerWidth = .ok a.width ∧ Located c s a
  | .var _ v | .addr _ v => v.index < s.entities.size
  | _ => True

/-- An address: it is as wide as a pointer, and what it reads fits the types. -/
structure Pointing (c : Course) (a : Ir.Expr) (s : LowerState) : Prop where
  width : c.types.pointerWidth = .ok a.width
  reads : c.ReadsAll a
  located : c.Located s a

/-- A value of a type: it is as wide as the type, and what it reads fits the types. -/
structure Valued (c : Course) (type : TypeId) (x : Ir.Expr) (s : LowerState) : Prop where
  width : c.types.registerWidth type = .ok x.width
  reads : c.ReadsAll x
  located : c.Located s x

theorem Located.mono (hg : Grown s s') : ∀ {x : Ir.Expr}, c.Located s x → c.Located s' x
  | .mem _ _, h => ⟨h.1, Located.mono hg h.2⟩
  | .var _ _, h | .addr _ _, h => Nat.lt_of_lt_of_le h hg.carried.size_le
  | .int .., _ | .str .., _ | .uni .., _ | .bin .., _ | .call .., _ => trivial

theorem Pointing.mono (h : c.Pointing a s) (hg : Grown s s') : c.Pointing a s' :=
  { h with located := .mono hg h.located }

theorem Valued.mono (h : c.Valued type x s) (hg : Grown s s') : c.Valued type x s' :=
  { h with located := .mono hg h.located }

/-- The type of a value matters only for its width. -/
theorem Valued.retype (h : c.Valued type x s)
    (hw : c.types.registerWidth type' = c.types.registerWidth type) : c.Valued type' x s :=
  { h with width := hw.trans h.width }

/-- A value that is as wide as a pointer is an address. -/
theorem Valued.pointing (h : c.Valued type x s)
    (hw : c.types.registerWidth type = c.types.pointerWidth) : c.Pointing x s :=
  ⟨hw ▸ h.width, h.reads, h.located⟩

theorem Pointing.valued (h : c.Pointing x s)
    (hw : c.types.registerWidth type = c.types.pointerWidth) : c.Valued type x s :=
  ⟨hw ▸ h.width, h.reads, h.located⟩

theorem readsAll_bin {op : Ir.Op} (hx : c.ReadsAll x) (hy : c.ReadsAll y) :
    c.ReadsAll (.bin w op x y) :=
  fun r hr => (List.mem_append.1 hr).elim (hx r) (hy r)

/-- A variable or a temporary of the type is read. -/
theorem readsAll_var (hv : c.TypeOf v type) (hb : c.types.isByAddress type = .ok false)
    (hw : c.types.registerWidth type = .ok w) : c.ReadsAll (.var w v) := by
  intro r hr
  obtain rfl := List.mem_singleton.1 hr
  exact ⟨type, hv, hb, hw⟩

/-- An expression of the part selects what is read in memory. -/
theorem readsAll_mem (he : c.part.exprs e) (htype : c.HasType e type)
    (hb : c.types.isByAddress type = .ok false) (hw : c.types.registerWidth type = .ok w)
    (ha : c.ReadsAll a) (hgives : c.Gives e (.mem w a)) : c.ReadsAll (.mem w a) := by
  intro r hr
  rcases List.mem_cons.1 hr with rfl | hr
  · exact ⟨e, type, a, he, htype, hb, hw, hgives, .self⟩
  · exact ha r hr

/-! ## Addresses -/

/-- A load gives the object at an address of its type. -/
theorem leads_load (he : c.part.exprs e) (htype : c.HasType e type) (ha : c.Pointing a s) :
    c.Leads s (load type a) fun x s' =>
      (c.Gives e x → c.Valued type x s') ∧ c.types.AddressOf type x a := by
  unfold load
  refine .isByAddress fun b hb => .ite (fun hbyAddress => ?_) fun hbyAddress => ?_
  · subst hbyAddress
    exact .pure ⟨fun _ => ha.valued (TypeTable.registerWidth_of_isByAddress hb), .inl ⟨hb, rfl⟩⟩
  · rw [Bool.not_eq_true] at hbyAddress
    subst hbyAddress
    refine .width fun w hw => .pure ⟨fun hgives => ?_, .inr ⟨hb, _, ha.width, rfl⟩⟩
    exact ⟨hw, readsAll_mem he htype hb hw ha.reads hgives, ha.width, ha.located⟩

/-- An offset is added to an address without writing code. -/
theorem leads_offsetAddress {k : Nat} (hb : c.Pointing base s) :
    c.Leads s (offsetAddress base k) fun a s' => s' = s ∧ c.Pointing a s ∧
      (∀ code, Ir.Reaches code base k a) ∧ ∀ w v, a = .addr w v → base = .addr w v := by
  unfold offsetAddress
  refine .ite (fun hk => ?_) fun _ => ?_
  · exact .pure ⟨rfl, hb, fun _ => hk ▸ .self, fun _ _ => id⟩
  · refine .pointerWidth fun ptr hptr => .pure ⟨rfl, ⟨hptr, ?_, trivial⟩, fun _ => ?_, nofun⟩
    · exact readsAll_bin hb.reads nofun
    · simpa using Ir.Reaches.add .self k

theorem leads_scale {size : Nat} (hx : c.ReadsAll x) :
    c.Leads s (scale x size) fun y s' => s' = s ∧ c.ReadsAll y := by
  unfold scale
  refine .ite (fun _ => .pure ⟨rfl, hx⟩) fun _ => .pointerWidth fun ptr _ => .pure ⟨rfl, ?_⟩
  exact readsAll_bin hx nofun

/-- A member stands at its offset in the object. -/
theorem leads_member {composite : TypeId} {name : String} (he : c.part.exprs e)
    (htype : c.HasType e type)
    (hb : c.types.isByAddress composite = .ok true → c.Pointing base s) :
    c.Leads s (member type composite base name) fun x s' =>
      (c.Gives e x → c.Valued type x s') ∧ ∃ part offset a,
        c.types.member? composite name = .ok (some (part, offset)) ∧
        Ir.Reaches [] base offset a ∧ c.types.AddressOf type x a := by
  unfold member
  refine .ask fun found hfound => ?_
  cases found with
  | none => exact .get (.fail _)
  | some found =>
    refine .bind (leads_offsetAddress (hb (TypeTable.isByAddress_of_member? hfound)))
      fun a s₁ _ ⟨hs, ha, hreach, _⟩ => ?_
    subst hs
    refine (leads_load he htype ha).mono fun x s' ⟨hx, haddress⟩ => ⟨hx, ?_⟩
    exact ⟨found.1, found.2, a, hfound, hreach [], haddress⟩

/-- A variable that is named, or a function. -/
theorem leads_designated (hv : c.TypeOf v type) (hlt : v.index < s.entities.size) :
    c.Leads s (designated type v) fun x s' => c.Valued type x s' ∧
      ∀ a, c.types.AddressOf type x a → ∃ ptr, a = .addr ptr v := by
  unfold designated
  refine .isByAddress fun b hb => .ite (fun hbyAddress => ?_) fun hbyAddress => ?_
  · subst hbyAddress
    refine .pointerWidth fun ptr hptr => .pure ⟨?_, fun a ha => ?_⟩
    · exact ⟨(TypeTable.registerWidth_of_isByAddress hb).trans hptr, nofun, hlt⟩
    · rcases ha with ⟨-, rfl⟩ | ⟨hfalse, -⟩
      · exact ⟨ptr, rfl⟩
      · rw [hb] at hfalse
        cases hfalse
  · rw [Bool.not_eq_true] at hbyAddress
    subst hbyAddress
    refine .width fun w hw => .pure ⟨⟨hw, readsAll_var hv hb hw, hlt⟩, fun a ha => ?_⟩
    rcases ha with ⟨htrue, -⟩ | ⟨-, ptr, -, ha⟩
    · rw [hb] at htrue
      cases htrue
    · exact ⟨ptr, (Option.some.inj ha).symm⟩

/-- The object that a value was read from. -/
theorem leads_objectAddress {place : Option Location} (hx : c.Valued type x s) :
    c.Leads s (objectAddress place type x) fun a s' =>
      s' = s ∧ c.types.AddressOf type x a ∧ c.Pointing a s := by
  unfold objectAddress
  refine .isByAddress fun b hb => .ite (fun hbyAddress => ?_) fun hbyAddress => ?_
  · subst hbyAddress
    exact .pure ⟨rfl, .inl ⟨hb, rfl⟩, hx.pointing (TypeTable.registerWidth_of_isByAddress hb)⟩
  · rw [Bool.not_eq_true] at hbyAddress
    subst hbyAddress
    refine .pointerWidth fun ptr hptr => ?_
    have haddress (a : Ir.Expr) (ha : x.addressOf? ptr = some a) : c.types.AddressOf type x a :=
      .inr ⟨hb, ptr, hptr, ha⟩
    cases x with
    | var w v => exact .pure ⟨rfl, haddress _ rfl, hptr, nofun, hx.located⟩
    | mem w a =>
      have hreads : c.ReadsAll a := fun r hr => hx.reads r (List.mem_cons_of_mem _ hr)
      exact .pure ⟨rfl, haddress _ rfl, hx.located.1, hreads, hx.located.2⟩
    | _ => exact .fail _

/-! ## Temporaries -/

/-- A value that is held in a register fills its object. -/
theorem fills_of_inRegister (h : c.types.InRegister type)
    (hw : c.types.registerWidth type = .ok w) : c.types.Fills type w :=
  ⟨h.1, TypeTable.sizeOf_eq_bytes h hw⟩

/-- A temporary of a type. -/
structure IsTemporary (c : Course) (v : EntityId) (type : TypeId) : Prop where
  new : c.first.entities.size ≤ v.index
  typeOf : c.TypeOf v type
  inRegister : c.types.InRegister type

/-- A value is stored in a temporary of its type. -/
theorem typedAction_store_temporary (hv : c.IsTemporary v type)
    (hw : c.types.registerWidth type = .ok value.width)
    (hreads : ∀ r ∈ value.reads, c.Reads code r) :
    c.TypedAction code (.assign (.addr ptr v) value) := by
  refine .plain hreads ?_
  rintro _ _ h
  obtain ⟨rfl, rfl⟩ := Ir.Action.assign.inj h
  exact .temporary hv.new hv.typeOf (fills_of_inRegister hv.inRegister hw)

/-- A temporary is written in its own width. -/
theorem leads_storeTemporary (hin : c.types.InRegister type)
    (hw : c.types.registerWidth type = .ok value.width) (hreads : c.ReadsAll value) :
    c.Leads s (storeTemporary location type value) fun v s' =>
      c.IsTemporary v type ∧ v.index = s.entities.size ∧ v.index < s'.entities.size ∧
      ∃ ptr, s'.function.body.toList =
        s.function.body.toList ++ [⟨.assign (.addr ptr v) value, location⟩] := by
  unfold storeTemporary
  refine .bind .temporary fun v s₁ _ ⟨hnew, htype, hv, hsize, hbody⟩ => .pointerWidth
    fun ptr _ => ?_
  have htemp : c.IsTemporary v type := ⟨hnew, htype, hin⟩
  refine .bind (.emit (typedAction_store_temporary htemp hw fun r hr => (hreads r hr).of_nil))
    fun _ s₂ _ ⟨hsize', hbody'⟩ => .pure ⟨htemp, hv, ?_, ptr, hbody ▸ hbody'⟩
  rw [hsize', hsize, hv]
  exact Nat.lt_succ_self _

/-! ## Copies -/

/-- An expression stands for an address: it is the address, or a temporary from a number on that
holds it. -/
def Kept (lo : Nat) (s : LowerState) (a x : Ir.Expr) : Prop :=
  x = a ∨ ∃ v w, x = .var w v ∧ lo ≤ v.index ∧ v.index < s.entities.size ∧
    Ir.Held s.function.body.toList v a

theorem Kept.reaches {lo : Nat} (h : Kept lo s a x) :
    Ir.Reaches s.function.body.toList a 0 x := by
  rcases h with rfl | ⟨v, w, rfl, -, -, hheld⟩
  · exact .self
  · exact .held .self hheld

theorem Kept.mono {lo lo' : Nat} (h : Kept lo s a x) (hle : lo' ≤ lo) : Kept lo' s a x := by
  rcases h with rfl | ⟨v, w, hx, hlo, hlt, hheld⟩
  · exact .inl rfl
  · exact .inr ⟨v, w, hx, hle.trans hlo, hlt, hheld⟩

/-- Temporaries are kept by stores to somewhere else. -/
theorem Kept.push {lo : Nat} {st : Ir.Stmt} (h : Kept lo s a x)
    (hsize : s.entities.size ≤ s'.entities.size)
    (hbody : s'.function.body.toList = s.function.body.toList ++ [st])
    (hst : ∀ v, lo ≤ v.index → v.index < s.entities.size → st.Keeps v) : Kept lo s' a x := by
  rcases h with rfl | ⟨v, w, hx, hlo, hlt, hheld⟩
  · exact .inl rfl
  · exact .inr ⟨v, w, hx, hlo, hlt.trans_le hsize, hbody ▸ hheld.push (hst v hlo hlt)⟩

/-- An expression stands for an address wherever it is evaluated. What was kept before is kept on.
-/
structure Stable (c : Course) (s : LowerState) (a x : Ir.Expr) (s' : LowerState) : Prop where
  pointing : c.Pointing x s'
  kept : Kept s.entities.size s' a x
  old : ∀ w v, x = .addr w v → v.index < s.entities.size
  others : ∀ lo b y, Kept lo s b y → Kept lo s' b y

/-- An address that is computed once points to the same object afterwards. -/
theorem leads_stable (hm : c.types.Measured) (ha : c.Pointing a s) :
    c.Leads s (stable location a) (c.Stable s a) := by
  have hsame : c.Leads s (pure a) (c.Stable s a) := by
    refine .pure ⟨ha, .inl rfl, fun w v hx => ?_, fun _ _ _ => id⟩
    subst hx
    exact ha.located
  have hstored : c.Leads s (do
      let type ← pointerTo (← Lower.ask (·.void))
      let tmp ← storeTemporary location type a
      return .var (← pointerWidth) tmp) (c.Stable s a) := by
    refine .ask fun void _ => .bind .pointerTo fun type s₁ _ ⟨⟨ref, href⟩, hsize, hbody₁⟩ => ?_
    obtain ⟨hin, hw⟩ := hm.registerWidth_of_lookup? href
    refine .bind (leads_storeTemporary hin (hw.trans ha.width) ha.reads)
      fun v s₂ _ ⟨htemp, hv, hlt, ptr, hbody⟩ => .pointerWidth fun ptr' hptr => .pure ?_
    rw [hsize] at hv
    rw [hbody₁] at hbody
    refine ⟨⟨hptr, readsAll_var htemp.typeOf hin.1 (hw.trans hptr), hlt⟩, .inr ?_, nofun, ?_⟩
    · exact ⟨v, _, rfl, hv.ge, hlt, hbody ▸ .of_store⟩
    · intro lo b y hkept
      refine Kept.push hkept (hv ▸ hlt.le) hbody fun v' _ hv' => ⟨_, _, rfl, fun w h => ?_⟩
      -- the temporary is newer
      rw [← (Ir.Expr.addr.inj h).2, hv] at hv'
      exact Nat.lt_irrefl _ hv'
  cases a with
  | addr | str | var => exact hsame
  | _ => exact hstored

/-- The chunks in which an object is copied are inside of it: their size divides its alignment. -/
theorem chunk_inside (hm : c.types.Measured) {size alignment k : Nat}
    (hsize : c.types.sizeOf type = .ok size) (halignment : c.types.alignmentOf type = .ok alignment)
    (hk : k ∈ chunkOffsets size (chunkWidth alignment).bytes) :
    k + (chunkWidth alignment).bytes ≤ size := by
  obtain ⟨alignment', halignment', q, rfl⟩ := hm.chunk_dvd hsize
  obtain rfl := Except.ok.inj (halignment.symm.trans halignment')
  rw [Nat.mul_comm, chunkOffsets_mul] at hk
  obtain ⟨i, hi, rfl⟩ := List.mem_map.1 hk
  calc i * (chunkWidth alignment).bytes + (chunkWidth alignment).bytes
      = (chunkWidth alignment).bytes * (i + 1) := by rw [Nat.mul_add, Nat.mul_one, Nat.mul_comm]
    _ ≤ (chunkWidth alignment).bytes * q := Nat.mul_le_mul_left _ (List.mem_range.1 hi)

/-- An aggregate is copied in chunks to the object that is given its value. -/
theorem leads_copyAggregate {dst src : Ir.Expr} (hm : c.types.Measured)
    (haggregate : c.types.isAggregate type = .ok true) (hdst : c.Pointing dst s)
    (hsrc : c.Pointing src s) (hreceives : c.Receives type dst e) (hgives : c.Gives e src) :
    c.Leads s (copyAggregate location type dst src) fun x s' => c.Pointing x s' := by
  unfold copyAggregate
  dsimp only
  refine .bind (leads_stable hm hdst) fun dst' s₁ hg₁ hdst' => ?_
  refine .bind (leads_stable hm (hsrc.mono hg₁)) fun src' s₂ hg₂ hsrc' => ?_
  refine .ask fun size hsize => .ask fun alignment halignment => ?_
  -- both addresses stay where they are from one chunk to the next
  refine .bind (Q := fun _ s' => c.Pointing dst' s' ∧ c.Pointing src' s' ∧
    Kept s.entities.size s' dst dst' ∧ Kept s.entities.size s' src src') ?_
    fun _ s₃ _ h => .pure h.1
  refine .forM ⟨hdst'.pointing.mono hg₂, hsrc'.pointing, hsrc'.others _ _ _ hdst'.kept,
    hsrc'.kept.mono hg₁.carried.size_le⟩ fun k hk s₃ ⟨hd, hs, hkd, hks⟩ => ?_
  refine .bind (leads_offsetAddress hd) fun target s₄ _ ⟨heq, htarget, hreach, haddr⟩ => ?_
  subst heq
  refine .bind (leads_offsetAddress hs) fun source s₅ _ ⟨heq, hsource, hreach', _⟩ => ?_
  subst heq
  have hchunk : c.types.Chunk type k (chunkWidth alignment) :=
    ⟨haggregate, size, alignment, hsize, halignment, rfl, hk, chunk_inside hm hsize halignment hk⟩
  have htargets := hkd.reaches.trans (hreach _)
  have hsources := hks.reaches.trans (hreach' _)
  rw [Nat.zero_add] at htargets hsources
  refine (Leads.emit (.copy ?_ (.chunk hreceives hgives hchunk htargets hsources))).grown
    fun _ s₆ hg ⟨hsize, hbody⟩ => ?_
  · intro r hr
    rcases List.mem_append.1 hr with hr | hr
    · exact (htarget.reads r hr).of_nil
    · exact (hsource.reads r hr).of_nil
  · have hkeeps (v : EntityId) (hlo : s.entities.size ≤ v.index) (_ : v.index < s₅.entities.size) :
        (⟨.assign target (.mem (chunkWidth alignment) source), location⟩ : Ir.Stmt).Keeps v := by
      refine ⟨target, _, rfl, fun w h => ?_⟩
      exact absurd (hdst'.old w v (haddr w v h)) (not_lt.2 hlo)
    exact ⟨hd.mono hg, hs.mono hg, hkd.push hsize.ge hbody hkeeps, hks.push hsize.ge hbody hkeeps⟩

/-! ## Operations -/

/-- An operation gives a value of its type. -/
theorem leads_binary {op : Source.BinaryOp} {leftType rightType : TypeId} (hx : c.ReadsAll x)
    (hy : c.ReadsAll y) :
    c.Leads s (binary type op leftType rightType x y) fun z s' => c.Valued type z s' := by
  refine .ask fun signed _ => .width fun w hw => ?_
  have hplain : c.Leads s (pure (.bin w (.ofBinary op signed) x y)) fun z s' =>
    c.Valued type z s' :=
    .pure ⟨hw, readsAll_bin hx hy, trivial⟩
  -- the branches from the last one on, since each goes on with the next where it does not apply
  have hright : c.Leads s (do
      if op = .add then
        if ← ask (·.isPointerLike rightType) then
          return .bin w (.ofBinary op signed) (← scale x (← ask (·.elementSize rightType))) y
      return .bin w (.ofBinary op signed) x y) fun z s' => c.Valued type z s' := by
    refine .ite (fun _ => .ask fun _ _ => .ite (fun _ => .ask fun size _ => ?_) fun _ => hplain)
      fun _ => hplain
    exact .bind (leads_scale hx) fun _ _ _ h => .pure ⟨hw, readsAll_bin h.2 hy, trivial⟩
  have hleft : c.Leads s (do
      if op = .add ∨ op = .sub then
        if ← ask (·.isPointerLike leftType) then
          return .bin w (.ofBinary op signed) x (← scale y (← ask (·.elementSize leftType)))
      if op = .add then
        if ← ask (·.isPointerLike rightType) then
          return .bin w (.ofBinary op signed) (← scale x (← ask (·.elementSize rightType))) y
      return .bin w (.ofBinary op signed) x y) fun z s' => c.Valued type z s' := by
    refine .ite (fun _ => .ask fun _ _ => .ite (fun _ => .ask fun size _ => ?_) fun _ => hright)
      fun _ => hright
    exact .bind (leads_scale hy) fun _ _ _ h => .pure ⟨hw, readsAll_bin hx h.2, trivial⟩
  refine .ite (fun _ => .ask fun _ _ => .ite (fun _ => .ask fun _ _ => .ite
    (fun _ => .ask fun size _ => ?_) fun _ => hleft) fun _ => hleft) fun _ => hleft
  refine .ite (fun _ => .pure ⟨hw, readsAll_bin hx hy, trivial⟩) fun _ => ?_
  exact .pure ⟨hw, readsAll_bin (readsAll_bin hx hy) nofun, trivial⟩

/-- The operation is as wide as its left operand. Nothing is read but the operands. -/
theorem leads_arithmetic {op : Ir.Op} (hx : ∀ r ∈ x.reads, c.Reads code r) (hy : c.ReadsAll y) :
    c.Leads s (arithmetic op type x y) fun z s' =>
      s' = s ∧ z.width = x.width ∧ ∀ r ∈ z.reads, c.Reads code r := by
  have hbin {y' : Ir.Expr} (hy' : c.ReadsAll y') : ∀ r ∈ (Ir.Expr.bin x.width op x y').reads,
      c.Reads code r :=
    fun r hr => (List.mem_append.1 hr).elim (hx r) fun hr => (hy' r hr).of_nil
  unfold arithmetic
  refine .ite (fun _ => .ask fun b _ => .ite (fun _ => .ask fun size _ => ?_) fun _ => ?_)
    fun _ => ?_
  · refine .bind (leads_scale hy) fun y' s₁ _ ⟨hs, hy'⟩ => .pure ⟨hs, rfl, hbin hy'⟩
  · exact .pure ⟨rfl, rfl, hbin hy⟩
  · exact .pure ⟨rfl, rfl, hbin hy⟩

/-! ## Assignments -/

/-- An object that is assigned to: a node of the part selects it, and its value was read. -/
structure Assigned (c : Course) (e l : Source.Expr) (type : TypeId) (x : Ir.Expr)
    (s : LowerState) : Prop where
  node : c.part.exprs e
  object : e.assigned? = some l
  operand : c.part.exprs l
  hasType : c.HasType l type
  gives : c.Gives l x
  valued : c.Valued type x s

theorem Assigned.mono (h : c.Assigned e l type x s) (hg : Grown s s') :
    c.Assigned e l type x s' :=
  { h with valued := h.valued.mono hg }

/-- A value of the type is stored at the address of the object. -/
theorem Assigned.typedAction_store (h : c.Assigned e l type x s) (hin : c.types.InRegister type)
    (ha : c.types.AddressOf type x a) (hreach : Ir.Reaches code a 0 target)
    (hw : c.types.registerWidth type = .ok value.width)
    (htarget : ∀ r ∈ target.reads, c.Reads code r) (hvalue : ∀ r ∈ value.reads, c.Reads code r) :
    c.TypedAction code (.assign target value) := by
  refine .plain (fun r hr => (List.mem_append.1 hr).elim (htarget r) (hvalue r)) ?_
  rintro _ _ heq
  obtain ⟨rfl, rfl⟩ := Ir.Action.assign.inj heq
  exact .object h.node h.object h.hasType ⟨x, type, h.gives, h.hasType, ha⟩ hreach
    (fills_of_inRegister hin hw)

/-- The object that a temporary points to is read. -/
theorem Assigned.reads_held {w : Width} (h : c.Assigned e l type (.mem w a) s)
    (hin : c.types.InRegister type) (hreach : Ir.Reaches code a 0 (.var ptr v))
    (hv : c.ReadsAll (.var ptr v)) : ∀ r ∈ (Ir.Expr.mem w (.var ptr v)).reads, c.Reads code r := by
  intro r hr
  rcases List.mem_cons.1 hr with rfl | hr
  · exact ⟨l, type, a, h.operand, h.hasType, hin.1, h.valued.width, h.gives, hreach⟩
  · exact (hv r hr).of_nil

/-- What the node itself becomes, where its type is that of the object. -/
def Answers (c : Course) (e : Source.Expr) (type : TypeId) (result : Option Ir.Expr)
    (s : LowerState) : Prop :=
  ∀ x, result = some x → c.Gives e x → c.Valued type x s

theorem Answers.retype {result : Option Ir.Expr} (h : c.Answers e type result s)
    (hw : c.types.registerWidth type' = c.types.registerWidth type) : c.Answers e type' result s :=
  fun x hx hgives => (h x hx hgives).retype hw

theorem answers_none : c.Answers e type none s :=
  nofun

theorem answers_of_valued (h : c.Gives e x → c.Valued type x s) : c.Answers e type (some x) s := by
  intro y hy
  obtain rfl := Option.some.inj hy
  exact h

theorem answers_answer {d : Demand} (h : c.Gives e x → c.Valued type x s) :
    c.Answers e type (d.answer x) s := by
  cases d with
  | effects => exact answers_none
  | value => exact answers_of_valued h

/-- An assignment with an operation answers with the value that was stored. -/
theorem leads_opAssign {d : Demand} {op : Ir.Op} (hm : c.types.Measured)
    (h : c.Assigned e l type x s) (hin : c.types.InRegister type) (he : c.HasType e type')
    (hsame : c.types.SameType type' type) (hy : c.ReadsAll y) :
    c.Leads s (opAssign d location op type x y) (c.Answers e type) := by
  unfold opAssign
  refine .pointerWidth fun ptr hptr => ?_
  -- the object is where the expression reads it from
  have haddress (a : Ir.Expr) (ha : x.addressOf? ptr = some a) : c.types.AddressOf type x a :=
    .inr ⟨hin.1, ptr, hptr, ha⟩
  -- a variable is at its address; memory is found through an address that is held in a temporary
  cases x with
  | var w v =>
    have hx : ∀ r ∈ (Ir.Expr.var w v).reads, c.Reads s.function.body.toList r :=
      fun r hr => (h.valued.reads r hr).of_nil
    refine .bind (leads_arithmetic hx hy) fun z s₁ _ ⟨hs, hz, hreads⟩ => ?_
    subst hs
    refine .bind (.emit
      (h.typedAction_store hin (haddress _ rfl) .self (hz ▸ h.valued.width) nofun hreads))
      fun _ s₂ hg _ => .pure (answers_answer fun _ => h.valued.mono hg)
  | mem w a =>
    refine .bind .pointerTo fun pointer s₁ _ ⟨⟨ref, href⟩, _⟩ => ?_
    obtain ⟨hpin, hpw⟩ := hm.registerWidth_of_lookup? href
    have hreads : c.ReadsAll a := fun r hr => h.valued.reads r (List.mem_cons_of_mem _ hr)
    refine .bind (leads_storeTemporary hpin (hpw.trans h.valued.located.1) hreads)
      fun v s₂ hg₂ ⟨htemp, _, hlt, ptr', hbody⟩ => ?_
    have hvar := readsAll_var htemp.typeOf hpin.1 (hpw.trans hptr)
    have hreach : Ir.Reaches s₂.function.body.toList a 0 (.var ptr v) :=
      .held .self (hbody ▸ .of_store)
    have hobject := h.reads_held hin hreach hvar
    refine .bind (leads_arithmetic hobject hy) fun z s₃ _ ⟨hs, hz, hreads⟩ => ?_
    subst hs
    refine .bind (.emit (h.typedAction_store hin (haddress _ rfl) hreach (hz ▸ h.valued.width)
      (fun r hr => (hvar r hr).of_nil) hreads)) fun _ s₄ hg _ => .pure ?_
    refine answers_answer fun hgives => ⟨h.valued.width, ?_, hptr, ?_⟩
    · exact readsAll_mem h.node he (hsame.isByAddress_eq.trans hin.1)
        ((hsame.registerWidth_eq hm).trans h.valued.width) hvar hgives
    · exact hlt.trans_le hg.carried.size_le
  | _ => exact .fail _

/-- The old value is kept in a temporary while the object is stored into. -/
theorem leads_postStep {d : Demand} {op : Ir.Op} (hm : c.types.Measured)
    (h : c.Assigned e l type x s) (hin : c.types.InRegister type) (he : c.HasType e type')
    (hsame : c.types.SameType type' type) (hw : c.types.registerWidth type = .ok w) :
    c.Leads s (postStep d location op type w x) (c.Answers e type) := by
  have hone : c.ReadsAll (.int w 1) := nofun
  have hwidth : x.width = w := Except.ok.inj (h.valued.width.symm.trans hw)
  unfold postStep
  refine .pointerWidth fun ptr hptr => ?_
  have haddress (a : Ir.Expr) (ha : x.addressOf? ptr = some a) : c.types.AddressOf type x a :=
    .inr ⟨hin.1, ptr, hptr, ha⟩
  cases d with
  | effects => exact leads_opAssign hm h hin he hsame hone
  | value =>
    cases x with
    | var w' v =>
      refine .bind (leads_storeTemporary hin h.valued.width h.valued.reads)
        fun old s₁ hg₁ ⟨htemp, _, hlt, _⟩ => ?_
      have hvar := readsAll_var htemp.typeOf hin.1 hw
      have hx : ∀ r ∈ (Ir.Expr.var w old).reads, c.Reads s₁.function.body.toList r :=
        fun r hr => (hvar r hr).of_nil
      refine .bind (leads_arithmetic hx hone) fun z s₂ _ ⟨hs, hz, hreads⟩ => ?_
      subst hs
      refine .bind (.emit ((h.mono hg₁).typedAction_store hin (haddress _ rfl) .self
        (hw.trans (by rw [hz]; rfl)) nofun hreads)) fun _ s₃ hg _ => .pure ?_
      exact answers_of_valued fun _ => ⟨hw, hvar, hlt.trans_le hg.carried.size_le⟩
    | mem w' a =>
      obtain rfl : w' = w := hwidth
      refine .bind .pointerTo fun pointer s₁ _ ⟨⟨ref, href⟩, _⟩ => ?_
      obtain ⟨hpin, hpw⟩ := hm.registerWidth_of_lookup? href
      refine .bind .temporary fun holder s₂ _ ⟨hnew, htypeOf, hholder, hsize, _⟩ => ?_
      refine .bind .temporary fun old s₃ _ ⟨hnew', htypeOf', hold, hsize', _⟩ => ?_
      have hreads : c.ReadsAll a := fun r hr => h.valued.reads r (List.mem_cons_of_mem _ hr)
      have hvar := readsAll_var htypeOf hpin.1 (hpw.trans hptr)
      refine .bind (.emit (typedAction_store_temporary ⟨hnew, htypeOf, hpin⟩
        (hpw.trans h.valued.located.1) fun r hr => (hreads r hr).of_nil))
        fun _ s₄ _ ⟨hsize₄, hbody₄⟩ => ?_
      have hheld : Ir.Held s₄.function.body.toList holder a := hbody₄ ▸ .of_store
      refine .bind (.emit (typedAction_store_temporary ⟨hnew', htypeOf', hin⟩ hw
        (h.reads_held hin (.held .self hheld) hvar))) fun _ s₅ _ ⟨hsize₅, hbody₅⟩ => ?_
      -- storing the old value leaves the address where it is
      have hheld' : Ir.Held s₅.function.body.toList holder a := by
        rw [hbody₅]
        refine hheld.push ⟨_, _, rfl, fun w heq => ?_⟩
        rw [(Ir.Expr.addr.inj heq).2, hholder, hsize] at hold
        omega
      have hreach : Ir.Reaches s₅.function.body.toList a 0 (.var ptr holder) := .held .self hheld'
      refine .bind (leads_arithmetic (h.reads_held hin hreach hvar) hone)
        fun z s₆ _ ⟨hs, hz, hreads⟩ => ?_
      subst hs
      refine .bind (.emit (h.typedAction_store hin (haddress _ rfl) hreach
        (hw.trans (by rw [hz]; rfl))
        (fun r hr => (hvar r hr).of_nil) hreads)) fun _ s₇ _ ⟨hsize₇, _⟩ => .pure ?_
      have hlt : old.index < s₇.entities.size := by omega
      exact answers_of_valued fun _ => ⟨hw, readsAll_var htypeOf' hin.1 hw, hlt⟩
    | _ => exact .fail _

/-! ## Calls -/

theorem leads_refuseComposite {fault : String → Fault} :
    c.Leads s (refuseComposite type fault) fun _ s' => s' = s := by
  unfold refuseComposite
  exact .ask fun b _ => .ite (fun _ => .bind_fail) fun _ => .pure rfl

/-- The result of a call is kept in a temporary. -/
theorem leads_call {d : Demand} {args : List Ir.Expr}
    (htype : c.types.isScalar type = .ok true ∨ c.types.isVoid type = .ok true)
    (hx : c.ReadsAll x) (hargs : ∀ r ∈ Ir.Expr.readsOfAll args, c.Reads [] r) :
    c.Leads s (call d location type x args) (c.Answers e type) := by
  unfold call
  refine .width fun w hw => ?_
  have hreads : c.ReadsAll (.call w x args) :=
    fun r hr => (List.mem_append.1 hr).elim (hx r) (hargs r)
  refine .ask fun b hvoid => .ite (fun _ => ?_) fun hvalue => ?_
  · exact .bind (.emit (.plain (fun r hr => (hreads r hr).of_nil) nofun))
      fun _ _ _ _ => .pure answers_none
  · have hscalar : c.types.isScalar type = .ok true := by
      refine htype.resolve_right fun htrue => ?_
      obtain rfl := Except.ok.inj (hvoid.symm.trans htrue)
      simp at hvalue
    have hin := TypeTable.inRegister_of_isScalar hscalar
    refine .bind (leads_storeTemporary hin hw hreads)
      fun v s₁ _ ⟨htemp, _, hlt, _⟩ => .pure (answers_of_valued fun _ => ?_)
    exact ⟨hw, readsAll_var htemp.typeOf hin.1 hw, hlt⟩

end Lower.Course

end Backend386
