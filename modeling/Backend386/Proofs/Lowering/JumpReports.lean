import Backend386.Proofs.Lowering.UnitLabels

/-!
# What is reported about jumps

The statements of a function are told one after another. A break or a continue that is enclosed by
nothing, and a label that was placed before, are reported where they stand. The names that are left
over at the end were used and never placed.

* `Lower.Reported` — the problems of jumping statements that are reported on the way from one state
  to another;
* `Lower.Beside` — states between which no label of the program was met;
* `Lower.Told` — what the state says about the statements that were lowered since a function was
  started;
* `Lower.Tells` — a computation lowers statements that jump;
* `Lower.tells_block` — blocks, statements and cases;
* `Lower.function_reported` — what is reported about a function.
-/

namespace Backend386

/-- The names that are placed. -/
def placedNames (entries : List NamedLabel) : List String :=
  (entries.filter (·.isPlaced)).map (·.name)

/-- The names that are not placed, each with the place of its entry. -/
def unplacedUses (entries : List NamedLabel) : List (Option Location × String) :=
  (entries.filter (!·.isPlaced)).map fun e => (e.location, e.name)

section

variable {entries : List NamedLabel} {e : NamedLabel} {name n : String} {here : Option Location}

/-- A name is used or placed. -/
theorem mem_names_iff : n ∈ entries.map (·.name) ↔
    n ∈ (unplacedUses entries).map (·.2) ∨ n ∈ placedNames entries := by
  simp only [unplacedUses, placedNames, List.map_map, List.mem_map, List.mem_filter,
    Function.comp_apply]
  constructor
  · rintro ⟨e, he, rfl⟩
    cases hp : e.isPlaced with
    | true => exact .inr ⟨e, ⟨he, hp⟩, rfl⟩
    | false => exact .inl ⟨e, ⟨he, by simp [hp]⟩, rfl⟩
  · rintro (⟨e, ⟨he, -⟩, rfl⟩ | ⟨e, ⟨he, -⟩, rfl⟩) <;> exact ⟨e, he, rfl⟩

theorem names_placed :
    (entries.map (Lower.placedEntry name here)).map (·.name) = entries.map (·.name) := by
  rw [List.map_map]
  exact List.map_congr_left fun _ _ => Lower.placedEntry_name

/-- The use of a name is closed when it is placed. -/
theorem unplacedUses_placed : unplacedUses (entries.map (Lower.placedEntry name here)) =
    (unplacedUses entries).filter (·.2 ≠ name) := by
  induction entries with
  | nil => rfl
  | cons e es ih =>
    simp only [unplacedUses] at ih
    by_cases hname : e.name = name <;> cases hp : e.isPlaced <;>
      simp [unplacedUses, Lower.placedEntry, hname, hp, ih]

/-- A name that is placed is noted, and the others stay as they are. -/
theorem mem_placedNames_placed (hmem : name ∈ entries.map (·.name)) :
    n ∈ placedNames (entries.map (Lower.placedEntry name here)) ↔
      n ∈ placedNames entries ∨ n = name := by
  simp only [placedNames, List.mem_map, List.mem_filter]
  constructor
  · rintro ⟨_, ⟨⟨e, he, rfl⟩, hp⟩, rfl⟩
    rw [Lower.placedEntry_name]
    rw [Lower.placedEntry] at hp
    split at hp
    · next heq => exact .inr heq
    · exact .inl ⟨e, ⟨he, hp⟩, rfl⟩
  · rintro (⟨e, ⟨he, hp⟩, rfl⟩ | rfl)
    · refine ⟨_, ⟨⟨e, he, rfl⟩, ?_⟩, Lower.placedEntry_name⟩
      rw [Lower.placedEntry]
      split
      · rfl
      · exact hp
    · obtain ⟨e, he, hname⟩ := List.mem_map.1 hmem
      exact ⟨_, ⟨⟨e, he, rfl⟩, by rw [Lower.placedEntry, if_pos hname]⟩,
        Lower.placedEntry_name.trans hname⟩

/-- The entry of a name says whether it is placed. -/
theorem mem_placedNames_iff (hnames : (entries.map (·.name)).Nodup) (he : e ∈ entries) :
    e.name ∈ placedNames entries ↔ e.isPlaced = true := by
  rw [placedNames, List.mem_map]
  constructor
  · rintro ⟨e', he', hname⟩
    obtain ⟨he', hp⟩ := List.mem_filter.1 he'
    exact List.inj_on_of_nodup_map hnames he' he hname ▸ hp
  · exact fun hp => ⟨e, List.mem_filter.2 ⟨he, hp⟩, rfl⟩

end

namespace Lower

open Source (JumpSite siteFindings labelNames gotoNames openUses)

variable {α β : Type} {s₀ s s' s₁ : LowerState} {function name : String} {sites : List JumpSite}
  {here : Option Location} {a b : List Finding}

/-! ## Reports -/

/-- These problems of jumping statements are reported on the way from one state to another, in this
order and perhaps with problems of initializers in between. -/
def Reported (control : List Finding) (s s' : LowerState) : Prop :=
  ∃ found : List Finding, s'.diagnostics = s.diagnostics ++ found.map Finding.diagnostic ∧
    found.filter Finding.isControl = control

namespace Reported

theorem of_same (h : s'.diagnostics = s.diagnostics) : Reported [] s s' :=
  ⟨[], by simp [h], rfl⟩

theorem trans (h : Reported a s s₁) (h' : Reported b s₁ s') : Reported (a ++ b) s s' := by
  obtain ⟨found, hdiagnostics, rfl⟩ := h
  obtain ⟨found', hdiagnostics', rfl⟩ := h'
  refine ⟨found ++ found', ?_, List.filter_append ..⟩
  rw [hdiagnostics', hdiagnostics, List.map_append, List.append_assoc]

end Reported

/-- One problem more is reported. -/
theorem reported_report {problem : LoweringProblem} {u : Unit}
    (h : report here problem s = .ok (u, s')) :
    Reported ([⟨here, problem⟩].filter Finding.isControl) s s' := by
  obtain ⟨-, rfl⟩ := Prod.mk.inj (Except.ok.inj h)
  exact ⟨[⟨here, problem⟩], rfl, rfl⟩

/-! ## Away from the names -/

/-- Two states between which no label of the program was met. -/
structure Beside (s s' : LowerState) : Prop where
  named : s'.named = s.named
  /-- the same function is being made -/
  function : ∀ ⦃e⦄, s.entities.get s.function.entity = .ok e →
    s'.entities.get s'.function.entity = .ok e
  reported : Reported [] s s'

namespace Beside

theorem trans (h : Beside s s₁) (h' : Beside s₁ s') : Beside s s' where
  named := h'.named.trans h.named
  function := fun _ he => h'.function (h.function he)
  reported := h.reported.trans h'.reported

/-- The state changes elsewhere. -/
theorem of_same (hnamed : s'.named = s.named) (hentity : s'.function.entity = s.function.entity)
    (hentities : s.entities.entries <+: s'.entities.entries)
    (hdiagnostics : s'.diagnostics = s.diagnostics) : Beside s s' where
  named := hnamed
  function := fun e he => by
    obtain ⟨new, hnew⟩ := hentities
    rw [EntityTable.get_eq_ok_iff] at he ⊢
    rw [hentity, ← hnew, List.getElem?_append_left (List.getElem?_eq_some_iff.1 he).1, he]
  reported := .of_same hdiagnostics

theorem refl (s : LowerState) : Beside s s :=
  .of_same rfl rfl List.prefix_rfl rfl

end Beside

/-- Away from the names, only problems of initializers are reported. -/
theorem Move.reported {w : Walk} (h : Move w s s') (hn : ¬ w.hasNames) : Reported [] s s' := by
  cases h with
  | @report here problem hl hcontrol =>
    exact ⟨[⟨here, problem⟩], rfl, by simp [hcontrol.resolve_left hn]⟩
  | _ => exact .of_same rfl

/-- A move that does not touch names leaves them as they are. -/
theorem Move.beside {w : Walk} (h : Move w s s') (hn : ¬ w.hasNames) : Beside s s' := by
  have hreported := h.reported hn
  cases h with
  | report => exact { Beside.refl s with reported := hreported }
  | name hnames => exact absurd hnames hn
  | temporary => exact .of_same rfl rfl (List.prefix_append ..) rfl
  | _ => exact .of_same rfl rfl List.prefix_rfl rfl

theorem Moves.beside {w : Walk} (h : Moves w s s') (hn : ¬ w.hasNames) : Beside s s' := by
  induction h with
  | refl => exact .refl s
  | tail _ h ih => exact ih.trans (h.beside hn)

/-- A computation that meets no label of the program. -/
theorem Stepwise.beside [Refers α] {m : Lower α} {es : List Source.Expr} {x : α}
    (h : Stepwise .unnamed .always m es) (hm : m s = .ok (x, s')) : Beside s s' :=
  (h.walked (Source.Part.closed_all _) trivial hm).moves.beside id

/-! ## The account -/

/-- What the state says about the statements of a function that were lowered since `s₀`: what was
wrong with them is reported, and the names of labels are noted as they are placed and used. -/
structure Told (s₀ : LowerState) (function : String) (sites : List JumpSite) (s : LowerState) :
    Prop where
  made : ∃ e, s.entities.get s.function.entity = .ok e ∧ e.name = function
  reported : Reported (siteFindings function sites) s₀ s
  names : (s.named.map (·.name)).Nodup
  placed : ∀ n, n ∈ placedNames s.named ↔ n ∈ labelNames sites
  unplaced : unplacedUses s.named = openUses sites

namespace Told

/-- What has been told stays so. -/
theorem beside (h : Told s₀ function sites s) (hb : Beside s s') : Told s₀ function sites s' where
  made := by
    obtain ⟨e, he, hname⟩ := h.made
    exact ⟨e, hb.function he, hname⟩
  reported := by simpa using h.reported.trans hb.reported
  names := hb.named ▸ h.names
  placed := hb.named ▸ h.placed
  unplaced := hb.named ▸ h.unplaced

/-- The names that are noted are those that were used or placed. -/
theorem mem_names (h : Told s₀ function sites s) :
    name ∈ s.named.map (·.name) ↔ name ∈ gotoNames sites ∨ name ∈ labelNames sites := by
  rw [mem_names_iff, h.placed, h.unplaced, Source.mem_openUses]
  tauto

end Told

/-- A computation lowers statements that jump. -/
def Tells (sites : List JumpSite) (m : Lower α) : Prop :=
  ∀ ⦃s₀ function before s x s'⦄, Told s₀ function before s → m s = .ok (x, s') →
    Told s₀ function (before ++ sites) s'

namespace Tells

variable {m : Lower α} {f : α → Lower β} {a b : List JumpSite} {es : List Source.Expr}

theorem of_unnamed [Refers α] [hm : Stepwise .unnamed .always m es] : Tells [] m := by
  intro s₀ function before s x s' hs h
  rw [List.append_nil]
  exact hs.beside (hm.beside h)

theorem bind (hm : Tells a m) (hf : ∀ x, Tells b (f x)) : Tells (a ++ b) (m >>= f) := by
  intro s₀ function before s y s' hs h
  obtain ⟨x, s₁, hx, hy⟩ := bind_eq_ok_iff.1 h
  rw [← List.append_assoc]
  exact hf x (hm hs hx) hy

/-- A first step that meets no label of the program, and whose results are of a certain form. -/
theorem keep_of [Refers α] {P : α → Prop} [hm : Stepwise .unnamed .always m es]
    (hP : ∀ ⦃s x s'⦄, m s = .ok (x, s') → P x)
    (hf : ∀ x, P x → Tells b (f x)) : Tells b (m >>= f) := by
  intro s₀ function before s y s' hs h
  obtain ⟨x, s₁, hx, hy⟩ := bind_eq_ok_iff.1 h
  exact hf x (hP hx) (hs.beside (hm.beside hx)) hy

theorem keep [Refers α] [Stepwise .unnamed .always m es] (hf : ∀ x, Tells b (f x)) :
    Tells b (m >>= f) :=
  keep_of (P := fun _ => True) (fun _ _ _ _ => trivial) fun x _ => hf x

/-- What follows meets no label of the program. -/
theorem close [Refers β] (hm : Tells a m) [∀ x, Stepwise .unnamed .always (f x) es] :
    Tells a (m >>= f) :=
  List.append_nil a ▸ hm.bind fun _ => of_unnamed

end Tells

/-! ## Statements that jump -/

/-- A break or a continue is reported where it is enclosed by nothing. -/
theorem tells_jumpOut {target : Option Ir.Label} {problem : LoweringProblem} {site : JumpSite}
    (hplaced : site.placed? = none) (hused : site.used? = none)
    (hreport : ∀ function sites, site.finding? function sites =
      if target.isSome then none else some ⟨here, problem⟩)
    (hcontrol : Finding.isControl ⟨here, problem⟩ = true) :
    Tells [site] (jumpOut here target problem) := by
  intro s₀ function sites s x s' hs h
  -- nothing changes but the statements and the reports
  obtain ⟨hnamed, hentities, hentity, hreported⟩ : s'.named = s.named ∧ s'.entities = s.entities ∧
      s'.function.entity = s.function.entity ∧
      Reported (site.finding? function sites).toList s s' := by
    rw [hreport]
    cases target with
    | some l =>
      obtain ⟨-, rfl⟩ := Prod.mk.inj (Except.ok.inj h)
      exact ⟨rfl, rfl, rfl, .of_same rfl⟩
    | none =>
      have hreported := reported_report h
      obtain ⟨-, rfl⟩ := Prod.mk.inj (Except.ok.inj h)
      exact ⟨rfl, rfl, rfl, by simpa [hcontrol] using hreported⟩
  constructor
  case made => rw [hentities, hentity]; exact hs.made
  case reported =>
    rw [Source.siteFindings_append_singleton]
    exact hs.reported.trans hreported
  case names => exact hnamed ▸ hs.names
  case placed => simpa [hnamed, labelNames, hplaced] using hs.placed
  case unplaced =>
    rw [hnamed, Source.openUses_append_singleton hplaced, Source.JumpSite.firstUse?_eq_none hused]
    simpa using hs.unplaced

/-- What the state says after the entry of a name was looked up: the name is noted as one that is
used, unless it was noted before. -/
structure Noted (here : Option Location) (name : String) (e : NamedLabel) (s s' : LowerState) :
    Prop where
  mem : e ∈ s'.named
  same : e.name = name
  names : (s'.named.map (·.name)).Nodup
  placed : placedNames s'.named = placedNames s.named
  unplaced : unplacedUses s'.named = unplacedUses s.named ++
    if name ∈ s.named.map (·.name) then [] else [(here, name)]
  entities : s'.entities = s.entities
  function : s'.function = s.function
  diagnostics : s'.diagnostics = s.diagnostics

/-- A name is noted as soon as it is looked up. -/
theorem labelNamed_noted {e : NamedLabel} (hnames : (s.named.map (·.name)).Nodup)
    (h : labelNamed name here s = .ok (e, s')) : Noted here name e s s' := by
  rcases labelNamed_eq_ok h with ⟨hmem, rfl, rfl⟩ | ⟨hnew, rfl, rfl⟩
  · refine ⟨hmem, rfl, hnames, rfl, ?_, rfl, rfl, rfl⟩
    rw [if_pos (List.mem_map_of_mem hmem), List.append_nil]
  · refine ⟨?_, rfl, nodup_addName hnames hnew, ?_, ?_, rfl, rfl, rfl⟩
    · exact List.mem_append_right _ (List.mem_singleton_self _)
    · simp [placedNames, addName, LowerState.takeLabel]
    · rw [if_neg hnew]
      simp [unplacedUses, addName, LowerState.takeLabel]

/-- A goto uses a name. -/
theorem tells_goto : Tells [.goto here name] (do
    let entry ← labelNamed name here
    jump here entry.label) := by
  intro s₀ function sites s x s' hs h
  obtain ⟨e, s₁, he, h⟩ := bind_eq_ok_iff.1 h
  have hnoted := labelNamed_noted hs.names he
  refine Told.beside (s := s₁) ?_ (Stepwise.beside inferInstance h)
  constructor
  case made => rw [hnoted.entities, hnoted.function]; exact hs.made
  case reported =>
    rw [Source.siteFindings_append_singleton]
    exact hs.reported.trans (.of_same hnoted.diagnostics)
  case names => exact hnoted.names
  case placed => simpa [hnoted.placed, labelNames, JumpSite.placed?] using hs.placed
  case unplaced =>
    rw [Source.openUses_append_goto, ← hs.unplaced]
    simpa only [hs.mem_names] using hnoted.unplaced

/-- The function that is lowered has a name. -/
theorem functionName_eq_ok {e : Entity} {n : String}
    (he : s.entities.get s.function.entity = .ok e) (h : functionName s = .ok (n, s')) :
    n = e.name ∧ s' = s := by
  obtain ⟨e', s₁, hget, hname⟩ := bind_eq_ok_iff.1 (get_bind_eq_ok h)
  obtain ⟨he', rfl⟩ := lift_eq_ok (get_bind_eq_ok hget)
  obtain ⟨rfl, rfl⟩ := Prod.mk.inj (Except.ok.inj hname)
  obtain rfl := Except.ok.inj (he.symm.trans he')
  exact ⟨rfl, rfl⟩

/-- A label places a name, unless the name is placed already. -/
theorem tells_placeNamed : Tells [.label here name] (placeNamed name here) := by
  intro s₀ function sites s x s' hs h
  obtain ⟨e, s₁, he, h⟩ := bind_eq_ok_iff.1 h
  have hnoted := labelNamed_noted hs.names he
  obtain ⟨e₀, hmade, rfl⟩ := hs.made
  rw [← hnoted.entities, ← hnoted.function] at hmade
  obtain rfl := hnoted.same
  have hplaced : e.name ∈ labelNames sites ↔ e.isPlaced = true := by
    rw [← hs.placed, ← hnoted.placed, mem_placedNames_iff hnoted.names hnoted.mem]
  have hmem : e.name ∈ s₁.named.map (·.name) := List.mem_map_of_mem hnoted.mem
  split at h
  · next hp =>
    -- the name was placed before, which is reported
    have hagain := hplaced.2 hp
    obtain ⟨n, s₂, hn, hrest⟩ := bind_eq_ok_iff.1 h
    obtain ⟨rfl, rfl⟩ := functionName_eq_ok hmade hn
    obtain ⟨u, s₃, hreport, hlabel⟩ := bind_eq_ok_iff.1 hrest
    refine Told.beside (s := s₃) ?_ (Stepwise.beside inferInstance hlabel)
    have hreported := (Reported.of_same hnoted.diagnostics).trans (reported_report hreport)
    obtain ⟨-, rfl⟩ := Prod.mk.inj (Except.ok.inj hreport)
    constructor
    case made => exact ⟨e₀, hmade, rfl⟩
    case reported =>
      rw [Source.siteFindings_append_singleton, JumpSite.finding?, if_pos hagain]
      exact hs.reported.trans hreported
    case names => exact hnoted.names
    case placed =>
      intro n
      rw [hnoted.placed, hs.placed, Source.labelNames_append, List.mem_append,
        Source.labelNames_label, List.mem_singleton]
      exact ⟨.inl, fun h => h.elim id fun h => h ▸ hagain⟩
    case unplaced =>
      rw [Source.openUses_append_again hagain, hnoted.unplaced,
        if_pos (hs.mem_names.2 (.inr hagain)), List.append_nil, hs.unplaced]
  · next hp =>
    obtain ⟨u, s₂, hmark, hlabel⟩ := bind_eq_ok_iff.1 h
    obtain ⟨-, rfl⟩ := Prod.mk.inj (Except.ok.inj hmark)
    obtain ⟨-, rfl⟩ := Prod.mk.inj (Except.ok.inj hlabel)
    have hfirst := mt hplaced.1 hp
    constructor
    case made => exact ⟨e₀, hmade, rfl⟩
    case reported =>
      rw [Source.siteFindings_append_singleton, JumpSite.finding?, if_neg hfirst]
      exact hs.reported.trans (.of_same hnoted.diagnostics)
    case names => exact (congrArg List.Nodup names_placed).mpr hnoted.names
    case placed =>
      intro n
      rw [Source.labelNames_append, List.mem_append, Source.labelNames_label, List.mem_singleton,
        ← hs.placed, ← hnoted.placed]
      exact mem_placedNames_placed hmem
    case unplaced =>
      rw [Source.openUses_append_label, ← hs.unplaced]
      refine unplacedUses_placed.trans ?_
      rw [hnoted.unplaced, List.filter_append]
      split <;> simp

/-! ## Statements -/

open Source (Block Stmt Case lowerStmts lowerCases sitesOfStmts sitesOfCases)

mutual

/-- Blocks are told statement by statement. -/
theorem tells_block (exits : Exits) (b : Block) :
    Tells (b.jumpSites exits.breakTo.isSome exits.continueTo.isSome) (b.lower exits) := by
  cases b with
  | mk vars stmts =>
    rw [Block.lower, Block.jumpSites]
    exact .keep fun _ => tells_stmts exits stmts

/-- A statement tells of the jumps that stand in it. -/
theorem tells_stmt (exits : Exits) (st : Stmt) :
    Tells (st.jumpSites exits.breakTo.isSome exits.continueTo.isSome) (st.lower exits) := by
  cases st with
  | expr here e =>
    rw [Stmt.lower, Stmt.jumpSites]
    exact .of_unnamed
  | block here body =>
    rw [Stmt.lower, Stmt.jumpSites]
    exact tells_block exits body
  | ifThen here test yes =>
    rw [Stmt.lower, Stmt.jumpSites]
    refine .keep fun _ => .keep fun _ => .keep fun _ => .keep fun _ => .keep fun _ => ?_
    exact (tells_stmt exits yes).close
  | ifElse here test yes no =>
    rw [Stmt.lower, Stmt.jumpSites]
    refine .keep fun _ => .keep fun _ => .keep fun _ => .keep fun _ => .keep fun _ => ?_
    refine .keep fun _ => .bind (tells_stmt exits yes) fun _ => .keep fun _ => .keep fun _ => ?_
    exact (tells_stmt exits no).close
  | whileLoop here test body =>
    rw [Stmt.lower, Stmt.jumpSites]
    refine .keep fun start => .keep fun inner => .keep fun fin => .keep fun _ => ?_
    refine .keep fun _ => .keep fun _ => .keep fun _ => ?_
    exact (tells_stmt ⟨some fin, some start⟩ body).close
  | doLoop here body test =>
    rw [Stmt.lower, Stmt.jumpSites]
    refine .keep fun start => .keep fun again => .keep fun fin => .keep fun _ => ?_
    exact (tells_stmt ⟨some fin, some again⟩ body).close
  | forLoop here init test step body =>
    rw [Stmt.lower, Stmt.jumpSites]
    refine .keep fun start => .keep fun inner => .keep fun next => .keep fun fin => ?_
    refine .keep fun _ => .keep fun _ => .keep fun _ => .keep fun _ => ?_
    exact (tells_stmt ⟨some fin, some next⟩ body).close
  | switch here value cases =>
    rw [Stmt.lower, Stmt.jumpSites]
    -- every case has a label, so that no body is left out
    refine .keep fun _ => .keep fun fin => .keep_of (fun _ _ _ h => length_testCases h)
      fun ls hls => .keep fun _ => ?_
    exact (tells_cases { exits with breakTo := some fin } cases ls hls).close
  | breakOut here =>
    rw [Stmt.lower, Stmt.jumpSites]
    exact tells_jumpOut rfl rfl (fun _ _ => rfl) rfl
  | continueOn here =>
    rw [Stmt.lower, Stmt.jumpSites]
    exact tells_jumpOut rfl rfl (fun _ _ => rfl) rfl
  | goto here target =>
    rw [Stmt.lower, Stmt.jumpSites]
    exact tells_goto
  | label here name body =>
    rw [Stmt.lower, Stmt.jumpSites]
    exact tells_placeNamed.bind fun _ => .keep fun _ => tells_stmt exits body
  | ret here value =>
    cases value with
    | none =>
      rw [Stmt.lower, Stmt.jumpSites]
      exact .of_unnamed
    | some e =>
      rw [Stmt.lower, Stmt.jumpSites]
      exact .of_unnamed

/-- So does a list of statements. -/
theorem tells_stmts (exits : Exits) (ss : List Stmt) :
    Tells (sitesOfStmts exits.breakTo.isSome exits.continueTo.isSome ss)
      (lowerStmts exits ss) := by
  cases ss with
  | nil =>
    rw [lowerStmts, sitesOfStmts]
    exact .of_unnamed
  | cons st ss =>
    rw [lowerStmts, sitesOfStmts]
    exact .bind (tells_stmt exits st) fun _ => tells_stmts exits ss

/-- So do the cases of a switch. -/
theorem tells_cases (exits : Exits) (cs : List Case) (ls : List Ir.Label)
    (hlength : ls.length = cs.length) :
    Tells (sitesOfCases exits.breakTo.isSome exits.continueTo.isSome cs)
      (lowerCases exits cs ls) := by
  cases cs with
  | nil =>
    rw [lowerCases, sitesOfCases]
    · exact .of_unnamed
    · exact nofun
  | cons c cs =>
    cases c with
    | mk values body =>
      obtain ⟨l, ls, rfl⟩ := List.exists_cons_of_length_eq_add_one hlength
      rw [lowerCases, sitesOfCases]
      refine .keep fun _ => .bind (tells_block exits body) fun _ => ?_
      exact tells_cases exits cs ls (by simpa using hlength)

end

/-! ## Functions -/

/-- A function reports what is wrong with the jumps of its body, and problems of initializers. -/
theorem function_reported {id : EntityId} {f : Ir.Function}
    (h : Lower.function id s = .ok (f, s')) :
    ∃ e params body, s.entities.get id = .ok e ∧ e.kind = .definedFunction params body ∧
      Reported (body.controlFindings e.name) s s' := by
  obtain ⟨e, params, body, s₁, he, hkind, hbody, rfl, rfl⟩ := function_eq_body h
  have hstart : Told s e.name [] (entered s id params body) := by
    refine ⟨⟨e, he, rfl⟩, .of_same rfl, .nil, fun n => Iff.rfl, rfl⟩
  have htold : Told s e.name (body.jumpSites false false) s₁ := tells_block {} body hstart hbody
  refine ⟨e, params, body, he, hkind, htold.reported.trans ?_⟩
  -- the names that are left over are reported last
  refine ⟨(unplacedUses s₁.named).map fun use => ⟨use.1, .undefinedLabel use.2⟩, ?_, ?_⟩
  · rw [undefinedLabels, unplacedUses, List.map_map, List.map_map]
    rfl
  · rw [htold.unplaced]
    refine List.filter_eq_self.2 fun r hr => ?_
    obtain ⟨use, -, rfl⟩ := List.mem_map.1 hr
    rfl

end Lower

end Backend386
