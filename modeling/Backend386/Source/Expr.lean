import Backend386.Location
import Backend386.Source.Operator
import Backend386.Types.Ref

/-!
# Expressions of the source program

Names are bound to entities, and every expression carries the type of its value and the place it
comes from.

* `Source.Expr` — the expressions;
* `Source.Expr.uses` — the entities that an expression mentions, in order of evaluation.
-/

namespace Backend386

/-- The number of an entity: of a variable, a parameter, a function or a constant. -/
structure EntityId where
  index : Nat
deriving DecidableEq, Inhabited, Repr

/-- The spelling of an entity number. -/
def EntityId.render (id : EntityId) : String :=
  "E" ++ id.index.repr

namespace Source

/-- What every expression carries. -/
structure Note where
  /-- the type of the value -/
  type : TypeRef
  location : Option Location := none
deriving Inhabited, DecidableEq

/-- An expression of a resolved program. -/
inductive Expr where
  | int (note : Note) (value : Int64)
  | str (note : Note) (value : String)
  /-- a variable, parameter, function or constant -/
  | var (note : Note) (entity : EntityId)
  | sizeofType (note : Note) (type : TypeRef)
  | sizeofExpr (note : Note) (e : Expr)
  | unary (note : Note) (op : UnaryOp) (e : Expr)
  | binary (note : Note) (op : BinaryOp) (lhs rhs : Expr)
  | logical (note : Note) (op : LogicalOp) (lhs rhs : Expr)
  | assign (note : Note) (lhs rhs : Expr)
  /-- `lhs op= rhs` -/
  | opAssign (note : Note) (op : BinaryOp) (lhs rhs : Expr)
  /-- `++e` and `--e`, whose value is the new one -/
  | preStep (note : Note) (op : StepOp) (e : Expr)
  /-- `e++` and `e--`, whose value is the old one -/
  | postStep (note : Note) (op : StepOp) (e : Expr)
  | cond (note : Note) (test yes no : Expr)
  /-- converts `e` to the type of the node -/
  | cast (note : Note) (e : Expr)
  | addr (note : Note) (e : Expr)
  | deref (note : Note) (e : Expr)
  | member (note : Note) (e : Expr) (name : String)
  | ptrMember (note : Note) (e : Expr) (name : String)
  | index (note : Note) (e index : Expr)
  | call (note : Note) (callee : Expr) (args : List Expr)
deriving Inhabited

namespace Expr

/-- What the expression carries. -/
def note : Expr → Note
  | int n _ | str n _ | var n _ | sizeofType n _ | sizeofExpr n _ | unary n _ _ | binary n _ _ _
  | logical n _ _ _ | assign n _ _ | opAssign n _ _ _ | preStep n _ _ | postStep n _ _
  | cond n _ _ _ | cast n _ | addr n _ | deref n _ | member n _ _ | ptrMember n _ _
  | index n _ _ | call n _ _ => n

/-- The type of the value. -/
def type (e : Expr) : TypeRef :=
  e.note.type

/-- The place the expression comes from. -/
def location (e : Expr) : Option Location :=
  e.note.location

mutual

/-- The entities an expression mentions. -/
def uses : Expr → List EntityId
  | int .. | str .. | sizeofType .. => []
  | var _ entity => [entity]
  | sizeofExpr _ e | unary _ _ e | preStep _ _ e | postStep _ _ e | cast _ e | addr _ e
  | deref _ e | member _ e _ | ptrMember _ e _ => uses e
  | binary _ _ l r | logical _ _ l r | assign _ l r | opAssign _ _ l r => uses l ++ uses r
  | cond _ c y n => uses c ++ uses y ++ uses n
  | index _ e i => uses e ++ uses i
  | call _ f args => uses f ++ usesAll args

/-- The entities a list of expressions mentions. -/
def usesAll : List Expr → List EntityId
  | [] => []
  | e :: es => uses e ++ usesAll es

end

end Expr

end Source

end Backend386
