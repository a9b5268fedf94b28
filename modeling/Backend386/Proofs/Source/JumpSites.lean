import Mathlib.Data.List.Infix
import Backend386.Diagnostics
import Backend386.Lowering.State
import Backend386.Source.Entity

/-!
# Where a function jumps

The statements of a function that break, continue, go to a label or stand behind one, in source
order, and what is wrong with them. Whether a break or a continue leads anywhere is a matter of the
statements around it; whether a label stands twice, of those before it; and whether a goto leads
anywhere, of all of them.

* `Source.JumpSite`, `Source.Block.jumpSites` — these statements;
* `Source.siteFindings` — what is wrong where it stands, and `Source.openUses` — the names that are
  used and never placed;
* `Source.Block.controlFindings` — all that is wrong in the body of a function.
-/

namespace Backend386

/-- A problem and the place where it is reported. -/
structure Finding where
  location : Option Location
  problem : LoweringProblem
deriving DecidableEq

/-- The error that is reported. -/
def Finding.diagnostic (f : Finding) : Diagnostic :=
  ⟨.error, f.problem.message, f.location⟩

/-- A problem of statements that jump. All others are problems of initializers. -/
def Finding.isControl (f : Finding) : Bool :=
  match f.problem with
  | .breakOutsideLoop | .continueOutsideLoop | .duplicatedLabel .. | .undefinedLabel _ => true
  | .nonConstantInitializer _ | .initializerTooLong _ => false

namespace Source

/-- A statement that jumps, or that is jumped to. -/
inductive JumpSite where
  /-- a break, and whether it is in a loop or a switch -/
  | breakOut (place : Option Location) (isEnclosed : Bool)
  /-- a continue, and whether it is in a loop -/
  | continueOn (place : Option Location) (isEnclosed : Bool)
  | goto (place : Option Location) (target : String)
  | label (place : Option Location) (name : String)
deriving DecidableEq

/-! ## Statements -/

mutual

/-- The sites in a block, given whether a break and a continue lead anywhere from it. -/
def Block.jumpSites (breaks continues : Bool) : Block → List JumpSite
  | .mk _ stmts => sitesOfStmts breaks continues stmts

/-- The sites in a statement. Loops enclose both, and a switch encloses breaks alone. -/
def Stmt.jumpSites (breaks continues : Bool) : Stmt → List JumpSite
  | .expr .. | .ret .. => []
  | .block _ body => body.jumpSites breaks continues
  | .ifThen _ _ yes => yes.jumpSites breaks continues
  | .ifElse _ _ yes no => yes.jumpSites breaks continues ++ no.jumpSites breaks continues
  | .whileLoop _ _ body | .doLoop _ body _ | .forLoop _ _ _ _ body => body.jumpSites true true
  | .switch _ _ cases => sitesOfCases true continues cases
  | .breakOut here => [.breakOut here breaks]
  | .continueOn here => [.continueOn here continues]
  | .goto here target => [.goto here target]
  | .label here name body => .label here name :: body.jumpSites breaks continues

/-- The sites in a list of statements. -/
def sitesOfStmts (breaks continues : Bool) : List Stmt → List JumpSite
  | [] => []
  | s :: ss => s.jumpSites breaks continues ++ sitesOfStmts breaks continues ss

/-- The sites in the cases of a switch. -/
def sitesOfCases (breaks continues : Bool) : List Case → List JumpSite
  | [] => []
  | .mk _ body :: cs => body.jumpSites breaks continues ++ sitesOfCases breaks continues cs

end

/-! ## Problems -/

/-- The name that a statement places. -/
def JumpSite.placed? : JumpSite → Option String
  | label _ name => some name
  | _ => none

/-- The name that a statement uses. -/
def JumpSite.used? : JumpSite → Option String
  | goto _ target => some target
  | _ => none

/-- The names that some statements place. -/
def labelNames (sites : List JumpSite) : List String :=
  sites.filterMap JumpSite.placed?

/-- The names that some statements use. -/
def gotoNames (sites : List JumpSite) : List String :=
  sites.filterMap JumpSite.used?

/-- Each of some statements, behind those before it. -/
def inTurn (sites : List JumpSite) : List (List JumpSite × JumpSite) :=
  sites.inits.zip sites

/-- What is wrong with a statement of a function, given those before it. -/
def JumpSite.finding? (function : String) (before : List JumpSite) : JumpSite → Option Finding
  | breakOut here isEnclosed => if isEnclosed then none else some ⟨here, .breakOutsideLoop⟩
  | continueOn here isEnclosed => if isEnclosed then none else some ⟨here, .continueOutsideLoop⟩
  | goto .. => none
  | label here name =>
    if name ∈ labelNames before then some ⟨here, .duplicatedLabel function name⟩ else none

/-- The first use of a name, given the statements before it. -/
def JumpSite.firstUse? (before : List JumpSite) : JumpSite → Option (Option Location × String)
  | goto here target => if target ∈ gotoNames before then none else some (here, target)
  | _ => none

/-- What is wrong with the statements of a function where they stand. -/
def siteFindings (function : String) (sites : List JumpSite) : List Finding :=
  (inTurn sites).filterMap fun site => site.2.finding? function site.1

/-- The names that are used, each where it is used first. -/
def firstUses (sites : List JumpSite) : List (Option Location × String) :=
  (inTurn sites).filterMap fun site => site.2.firstUse? site.1

/-- The names that are used and never placed, each where it is used first. -/
def openUses (sites : List JumpSite) : List (Option Location × String) :=
  (firstUses sites).filter (·.2 ∉ labelNames sites)

/-- All that is wrong with how the statements of a function jump: what is wrong where it stands, and
then the names that no statement of the function places. -/
def Block.controlFindings (body : Block) (function : String) : List Finding :=
  let sites := body.jumpSites false false
  siteFindings function sites ++ (openUses sites).map fun use => ⟨use.1, .undefinedLabel use.2⟩

/-! ## One statement more -/

variable {sites : List JumpSite} {function : String} {here : Option Location} {name : String}

/-- The last jump comes after all others. -/
theorem inTurn_append_singleton (sites : List JumpSite) (site : JumpSite) :
    inTurn (sites ++ [site]) = inTurn sites ++ [(sites, site)] := by
  induction sites with
  | nil => rfl
  | cons s ss ih =>
    rw [inTurn, inTurn] at ih
    simp only [inTurn, List.cons_append, List.inits, List.zip_cons_cons, List.zip_map_left, ih,
      List.map_append, List.map_singleton, Prod.map_apply, id]

@[simp] theorem labelNames_append (a b : List JumpSite) :
    labelNames (a ++ b) = labelNames a ++ labelNames b :=
  List.filterMap_append

@[simp] theorem labelNames_label : labelNames [.label here name] = [name] := rfl

@[simp] theorem gotoNames_append (a b : List JumpSite) :
    gotoNames (a ++ b) = gotoNames a ++ gotoNames b :=
  List.filterMap_append

@[simp] theorem gotoNames_goto : gotoNames [.goto here name] = [name] := rfl

theorem siteFindings_append_singleton (sites : List JumpSite) (site : JumpSite) :
    siteFindings function (sites ++ [site]) =
      siteFindings function sites ++ (site.finding? function sites).toList := by
  rw [siteFindings, inTurn_append_singleton, List.filterMap_append]
  cases h : site.finding? function sites <;> simp [siteFindings, h]

theorem firstUses_append_singleton (sites : List JumpSite) (site : JumpSite) :
    firstUses (sites ++ [site]) = firstUses sites ++ (site.firstUse? sites).toList := by
  rw [firstUses, inTurn_append_singleton, List.filterMap_append]
  cases h : site.firstUse? sites <;> simp [firstUses, h]

theorem JumpSite.firstUse?_eq_none {site : JumpSite} (h : site.used? = none) :
    site.firstUse? sites = none := by
  cases site with
  | goto => cases h
  | _ => rfl

/-- Every name that is used has a first use. -/
theorem mem_firstUses : name ∈ (firstUses sites).map (·.2) ↔ name ∈ gotoNames sites := by
  induction sites using List.reverseRecOn with
  | nil => rfl
  | append_singleton sites site ih =>
    rw [firstUses_append_singleton, List.map_append, List.mem_append, ih, gotoNames_append,
      List.mem_append]
    cases site with
    | goto place target =>
      rw [gotoNames_goto, JumpSite.firstUse?]
      split
      · next hmem =>
        simp only [Option.toList_none, List.map_nil, List.not_mem_nil, or_false,
          List.mem_singleton]
        exact ⟨.inl, fun h => h.elim id fun h => h ▸ hmem⟩
      · rfl
    | _ => rfl

/-- The names that are used and never placed. -/
theorem mem_openUses :
    name ∈ (openUses sites).map (·.2) ↔ name ∈ gotoNames sites ∧ name ∉ labelNames sites := by
  rw [← mem_firstUses]
  simp only [openUses, List.mem_map, List.mem_filter, decide_eq_true_eq]
  constructor
  · rintro ⟨use, ⟨huse, hopen⟩, rfl⟩
    exact ⟨⟨use, huse, rfl⟩, hopen⟩
  · rintro ⟨⟨use, huse, rfl⟩, hopen⟩
    exact ⟨use, ⟨huse, hopen⟩, rfl⟩

/-- A statement that places no name leaves the uses before it as they are. -/
theorem openUses_append_singleton {site : JumpSite} (h : site.placed? = none) :
    openUses (sites ++ [site]) =
      openUses sites ++ (site.firstUse? sites).toList.filter (·.2 ∉ labelNames sites) := by
  have hnames : labelNames [site] = [] := by simp [labelNames, h]
  rw [openUses, firstUses_append_singleton, labelNames_append, hnames, List.append_nil,
    List.filter_append, openUses]

/-- A jump to a name is open unless the name was used or placed before. -/
theorem openUses_append_goto : openUses (sites ++ [.goto here name]) =
    openUses sites ++
      if name ∈ gotoNames sites ∨ name ∈ labelNames sites then [] else [(here, name)] := by
  rw [openUses_append_singleton rfl, JumpSite.firstUse?]
  by_cases hused : name ∈ gotoNames sites <;> by_cases hplaced : name ∈ labelNames sites <;>
    simp [hused, hplaced]

/-- The uses of a name are closed when it is placed. -/
theorem openUses_append_label :
    openUses (sites ++ [.label here name]) = (openUses sites).filter (·.2 ≠ name) := by
  rw [openUses, firstUses_append_singleton, labelNames_append, labelNames_label]
  simp [openUses, JumpSite.firstUse?, List.filter_filter, and_comm]

/-- A name that is placed again has no open uses. -/
theorem openUses_append_again (h : name ∈ labelNames sites) :
    openUses (sites ++ [.label here name]) = openUses sites := by
  rw [openUses_append_label, List.filter_eq_self]
  intro use huse
  have hopen := (mem_openUses.1 (List.mem_map_of_mem (f := (·.2)) huse)).2
  rw [decide_eq_true_eq]
  rintro rfl
  exact hopen h

end Source

end Backend386
