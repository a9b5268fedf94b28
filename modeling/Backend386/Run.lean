import Backend386.CommandLine

/-!
# A run of the program

What the program does with files is stated for any way of reading and writing them, so that a run
can be reasoned about without an operating system. The same goes for the reader of YAML texts.

* `Files` — reading and writing, and the reader of YAML texts;
* `CommandLine.Invocation.run` — reads the unit, compiles it and writes the result.
-/

namespace Backend386

/-- A way of reading and writing files; both may fail with a text. A unit that is written in YAML is
read by a reader of its own. Every JSON text is one in YAML too, and means the same there: the
reader that is taken without another one accepts these. -/
structure Files (m : Type → Type) where
  read : String → m (Except String String)
  write : String → String → m (Except String Unit)
  readYaml : String → Option Source.ProgramUnit := Source.ProgramUnit.parse?

/-- The unit in a text of the given format, if there is one. -/
def Files.unit? {m : Type → Type} (files : Files m) (format : Format) (text : String) :
    Option Source.ProgramUnit :=
  match format with
  | .json => Source.ProgramUnit.parse? text
  | .yaml => files.readYaml text

/-- The exit codes that are reported for failures. -/
inductive Failure where
  | input
  | typeCheck
  | semantic
  | output
deriving DecidableEq, Inhabited, Repr

/-- The number of a failure. -/
def Failure.code : Failure → Nat
  | input => 1
  | typeCheck => 2
  | semantic => 3
  | output => 4

/-- The failure that an error of the pipeline amounts to. -/
def PipelineError.failure : PipelineError → Failure
  | typeCheck _ => .typeCheck
  | semantic _ => .semantic
  | unsupportedProfile _ => .input

/-- How a run ends. -/
inductive Ending where
  | done
  | failed (failure : Failure)
  | fault (f : Fault)
deriving DecidableEq

/-- What a run prints, and how it ends. -/
structure Report where
  stdout : String := ""
  stderr : String := ""
  ending : Ending := .done

namespace Report

/-- The exit status: every failure has the same, and faults have one of their own. -/
def exitStatus (r : Report) : UInt32 :=
  match r.ending with
  | .done => 0
  | .failed _ => 1
  | .fault _ => 101

/-- A failure: lines on the error channel, the last of which gives its number. -/
def failed (lines : List String) (failure : Failure) : Report where
  stderr := String.join ((lines ++ ["Error: " ++ failure.code.repr]).map (· ++ "\n"))
  ending := .failed failure

end Report

namespace CommandLine.Invocation

/-- Prints or writes a result; `notes` are the lines for the error channel. -/
def deliver {m : Type → Type} [Monad m] (files : Files m) (i : Invocation) (notes : List String)
    (text : String) : m Report := do
  let stderr := String.join (notes.map (· ++ "\n"))
  match i.output with
  | none => return { stdout := text, stderr }
  | some path =>
    match ← files.write path text with
    | .ok () => return { stderr := stderr }
    | .error e => return .failed (notes ++ ["Could not write " ++ path ++ ": " ++ e]) .output

/-- Reads the unit, compiles it and writes the result. -/
def run {m : Type → Type} [Monad m] (files : Files m) (i : Invocation) : m Report := do
  match ← files.read i.input with
  | .error e => return .failed ["Could not read " ++ i.input ++ ": " ++ e] .input
  | .ok text =>
    match files.unit? i.format text with
    | none => return .failed ["Invalid program unit"] .input
    | some unit =>
      match compile unit i.options with
      -- a fault is not one of the failures that are reported: nothing else is written
      | .error f => return { stderr := f.message ++ "\n", ending := .fault f }
      | .ok ⟨diagnostics, result⟩ =>
        let notes := diagnostics.map (·.render)
        match result with
        | .error e => return .failed (notes ++ [e.message]) e.failure
        | .ok output => i.deliver files notes (output.render i.format)

end CommandLine.Invocation

end Backend386
