import Backend386.Proofs.Lowering.Expr
import Backend386.Proofs.Strings.Sections
import Backend386.Proofs.Strings.Units

/-!
# String literals are emitted once

The literals of a unit are numbered in the order in which its expressions are lowered, however often
one is met. The listing has an entry for each of them, and refers to a literal by the label of its
entry, wherever the literal is used: in the code of a function, in the initial value of a variable,
or through a named constant.

* `Lowering.Quoting` — the literals in what a program is lowered to are those of the program;
* `Source.ProgramUnit.literals_once` — what becomes of the literals of a unit.
-/

namespace Backend386

open Lower (Carried)
open Source (Visits Meets literals)

variable {p : Source.Program} {types : TypeTable} {ds : Diagnostics} {lowered : Lowered}

/-- An entry of the string table for a literal that is met when some expressions are evaluated. -/
def Lowering.Quotes (_ : Lowering p types ds lowered) (es : List Source.Expr)
    (id : StringId) : Prop :=
  ∃ n v, Meets p.entities es (.str n v) ∧ lowered.module.strings.value? id = some v

/-- The literals in what a program is lowered to are those that are met when the expressions are
evaluated that it comes from. -/
structure Lowering.Quoting (l : Lowering p types ds lowered) : Prop where
  /-- an expression, wherever in the unit it is lowered -/
  value : ∀ e x depth d s s', Carried l.start s → e.lowerWithin depth d s = .ok (some x, s') →
    Carried s' l.final → ∀ id ∈ x.literals, l.Quotes [e] id
  function : ∀ f ∈ lowered.module.functions, ∃ body, p.entities.body? f.entity = some body ∧
    ∀ stmt ∈ f.body.toList, ∀ id ∈ stmt.action.literals, l.Quotes (body.evaluated p.entities) id
  initial : ∀ v ∈ lowered.module.vars, ∀ x, v.init = some x →
    ∃ init, p.entities.initializer? v.entity = some init ∧ ∀ id ∈ x.literals, l.Quotes [init] id
  constant : ∀ c ∈ lowered.module.namedConstants, ∀ x, c.value = some x →
    ∃ value, p.entities.constant? c.entity = some value ∧ ∀ id ∈ x.literals, l.Quotes [value] id

/-- Without errors, each literal stands for what is written in its node. -/
theorem Lowering.quoting (l : Lowering p types ds lowered)
    (hquiet : lowered.diagnostics.hasErrors = false) : l.Quoting where
  value _ _ _ _ _ _ hs hrun hs' := l.literals_of_value hquiet hs hrun hs'
  function _ hf := l.literals_of_function hquiet hf
  initial _ hv _ hx := l.literals_of_variable hquiet hv hx
  constant _ hc _ hx := l.literals_of_constant hquiet hc hx

/-- Each distinct string literal of a unit is emitted once, and is referred to by its label.

The section of string literals has a label and a string for each distinct literal, in the order in
which they are first lowered. Each literal in the lowered unit has the number of an entry that holds
a literal of the expression it comes from. The listing refers to the literals of the module by the
labels of their entries, one reference for each and in order; all other references are to entities.
Interning keeps the entries that are there, and a literal is found exactly at the number of its
entry. -/
theorem Source.ProgramUnit.literals_once {unit : Source.ProgramUnit} {options : Options}
    {compiled : Compiled} {code : Listing} (h : compile unit options = .ok compiled)
    (hcode : compiled.result = .ok (.asm code)) :
    (∃ (types : TypeTable) (ds : Diagnostics) (lowered : Lowered)
      (l : Lowering unit.program types ds lowered) (visited : List Source.Expr),
      checkedTypes options.profile unit.types = .ok (types, ds) ∧
      lowerProgram unit.program types ds = .ok lowered ∧
      Visits unit.program.entities unit.program.evaluated visited ∧
      lowered.module.strings.values = (literals visited).eraseDups ∧
      code.rodata = Listing.literalItems (literals visited).eraseDups ∧
      l.Quoting ∧ lowered.module.Cites code.references lowered.module.cited) ∧
    (∀ (t : StringTable) (vs : List String), t.entries <+: (t.internAll vs).entries) ∧
    (∀ (t : StringTable) (s : String), (t.intern s).1.value? (t.intern s).2 = some s) ∧
    ∀ (vs : List String) (s : String) (id : StringId),
      (StringTable.internAll {} vs).find? s = some id ↔
        (StringTable.internAll {} vs).value? id = some s := by
  obtain ⟨types, ds, lowered, htypes, -, hlower, hquiet, hresult⟩ :=
    compile_stages h hcode (emit_of_listing h hcode)
  -- what was emitted is the listing of the module
  obtain ⟨-, hmir⟩ | ⟨code', hassemble, hout⟩ := hresult
  · cases hmir
  obtain rfl := Output.asm.inj hout
  obtain ⟨l⟩ := lowering_of_ok hlower
  obtain ⟨visited, hvisits, hstrings⟩ := l.strings_eq hquiet
  -- the table is what interning the literals in the order of their visits leaves
  have hvalues : lowered.module.strings.values = (literals visited).eraseDups := by
    rw [hstrings, StringTable.values_internAll]
  refine ⟨⟨types, ds, lowered, l, visited, htypes, hlower, hvisits, hvalues, ?_, l.quoting hquiet,
    Ir.Module.assemble_cites hassemble⟩, StringTable.prefix_internAll,
    fun t s => StringTable.value?_intern, fun vs s id => ?_⟩
  · rw [Ir.Module.rodata_assemble hassemble, hvalues]
  · have hnone : StringTable.values {} = [] := rfl
    exact StringTable.find?_eq_some_iff (StringTable.nodup_internAll (hnone ▸ List.nodup_nil) vs)

/-- The unit `char *const motto = "carpe"; char *saved = "diem"; char *pick(int n) { static char
*other = "carpe"; char copy[3] = "di"; if (n) return motto; return other + *"x"; }`. -/
def mottos : Source.ProgramUnit where
  program :=
    let int : TypeRef := .integer .int true
    let char : TypeRef := .integer .char true
    let text : TypeRef := .pointer char
    let str (s : String) : Source.Expr := .str { type := text } s
    { entities := ⟨[
        { name := "motto", ref := text, kind := .constant (str "carpe") },
        { name := "saved", ref := text, kind := .definedVariable (some (str "diem")) },
        { name := "pick", ref := .function text [int] false,
          kind := .definedFunction [⟨3⟩] (.mk [⟨4⟩, ⟨5⟩] [
            .ifThen none (.var .int ⟨3⟩) (.ret none (some (.var { type := text } ⟨0⟩))),
            .ret none (some (.binary { type := text } .add (.var { type := text } ⟨4⟩)
              (.deref { type := char } (str "x"))))]) },
        { name := "n", ref := int, kind := .parameter },
        { name := "other", ref := text, isPrivate := true,
          kind := .definedVariable (some (str "carpe")) },
        { name := "copy", ref := .array char (some 3),
          kind := .definedVariable (some (str "di")) }]⟩
      declarations := [⟨0⟩, ⟨1⟩, ⟨2⟩] }

/-- Five literals have four values. One of them is in a named constant and initializes a static
variable, and another is copied into an array. -/
theorem Source.ProgramUnit.literals_once_mottos :
    ∃ compiled code, compile mottos {} = .ok compiled ∧ compiled.result = .ok (.asm code) ∧
      code.rodata = Listing.literalItems ["carpe", "diem", "di", "x"] ∧
      code.references = [".LC1", ".LC0", ".LC2", ".LC2", ".LC2", ".LC0", ".LC3", "other.0"] ∧
      ∃ (lowered : Lowered) (visited : List Source.Expr),
        Visits mottos.program.entities mottos.program.evaluated visited ∧
        code.rodata = Listing.literalItems (literals visited).eraseDups ∧
        lowered.module.Cites code.references lowered.module.cited := by
  obtain ⟨compiled, code, hcompile, hcode, hseen⟩ := mottos.exists_listing {}
    (fun code => (code.rodata, code.references))
    (Listing.literalItems ["carpe", "diem", "di", "x"],
      [".LC1", ".LC0", ".LC2", ".LC2", ".LC2", ".LC0", ".LC3", "other.0"]) (by decide +kernel)
  obtain ⟨hrodata, hreferences⟩ := Prod.mk.inj hseen
  obtain ⟨⟨types, ds, lowered, l, visited, -, -, hvisits, -, hsection, -, hcites⟩, -⟩ :=
    literals_once hcompile hcode
  exact ⟨compiled, code, hcompile, hcode, hrodata, hreferences, lowered, visited, hvisits, hsection,
    hcites⟩

end Backend386
