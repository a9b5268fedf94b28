import Backend386.Text.Json.Record

/-!
# What is read of a unit

A record ignores the fields that it does not have, and what they hold matters only as far as it is
JSON: it may be nested to any depth, and need not be readable. A tagged record is different: its
tag may come last, so all of it is looked at before it is known which fields it has. What an entity
is, and the definition of a type, are tagged records.

* `relevantTypeRef`, `relevantLocation` — the parts of a type reference and of a place;
* `Source.relevantEntity`, `Source.relevantUnit` — those of an entity and of a unit.
-/

namespace Backend386

open Json

/-- How deep the text of a unit may nest arrays and objects, ignored fields apart. -/
def maxUnitDepth : Nat := 127

/-- The part of a place that is read. -/
def relevantLocation : Json → Json :=
  keepFields [("line", id), ("column", id)]

/-- The part of a type reference that is read, down to a depth of `steps`. -/
def relevantTypeRefWithin : Nat → Json → Json
  | _ + 1, .obj [("integer", c)] =>
    .variant "integer" (keepFields [("rank", id), ("signed", id)] c)
  | steps + 1, .obj [("pointer", c)] =>
    .variant "pointer" (relevantTypeRefWithin steps c)
  | steps + 1, .obj [("array", .arr [base, length])] =>
    .variant "array" (.arr [relevantTypeRefWithin steps base, length])
  | steps + 1, .obj [("function", c)] =>
    .variant "function" (keepFields [("ret", relevantTypeRefWithin steps),
      ("params", mapItems (relevantTypeRefWithin steps)), ("vararg", id)] c)
  | _, j => j

/-- The part of a type reference that is read. What is nested deeper than a unit may be is left
alone, as there is no need to tell what of it is ignored. -/
def relevantTypeRef : Json → Json :=
  relevantTypeRefWithin maxUnitDepth

namespace Source

/-- The part of an entity that is read. -/
def relevantEntity : Json → Json :=
  keepFields [("name", id), ("type", relevantTypeRef), ("private", id),
    ("location", relevantLocation), ("kind", id)]

/-- The part of the entities and declarations that is read. -/
def relevantProgram : Json → Json :=
  keepFields [("entities", mapItems relevantEntity), ("declarations", id)]

/-- The part of a unit that is read. -/
def relevantUnit : Json → Json :=
  keepFields [("types", id), ("program", relevantProgram)]

end Source

end Backend386
