import TypeSpelling.Alias.Table
import TypeSpelling.Canonical.NormalizeError
import TypeSpelling.Canonical.Union

/-!
# Canonical form

`normalize` brings a tree into its canonical form under an alias table.
Spellings become canonical, a subscripted identifier becomes the shape it stands
for, an optional becomes a union with the null literal, and unions are built by
`unionOf`.  A node's own use of the ellipsis is checked first, then its children
are brought into their canonical forms from left to right, then its number of
arguments is checked, and last whether the arguments of a literal form are
literals.
-/

namespace TypeSpelling.TypeExpr

/-! ## Checks of a single node -/

/-- A list without the ellipsis at its end. -/
def dropLastEllipsis : List TypeExpr → List TypeExpr
  | [] => []
  | [last] => if last.isEllipsis then [] else [last]
  | first :: rest => first :: dropLastEllipsis rest

/-- The elements of a tuple without the ellipsis that may close it.  An ellipsis
that is the only element closes nothing. -/
def fixedElements : List TypeExpr → List TypeExpr
  | [] => []
  | first :: rest => first :: dropLastEllipsis rest

/-- Refuses an ellipsis among the given children of a node. -/
def refuseEllipsis (node : TypeExpr) (args : List TypeExpr) : Except NormalizeError Unit :=
  if args.any isEllipsis then .error (.misplacedEllipsis node) else .ok ()

/-- Refuses a number of arguments that the arity does not accept. -/
def requireArity (node : TypeExpr) (expected : Arity) (actual : Nat) :
    Except NormalizeError Unit :=
  if expected.accepts actual then .ok () else .error (.arity node expected actual)

/-- The values of all arguments of a literal form, which have to be literals. -/
def literalValues (node : TypeExpr) : List TypeExpr → Except NormalizeError (List LiteralValue)
  | [] => .ok []
  | .literal values :: rest => do return values ++ (← literalValues node rest)
  | found :: _ => .error (.nonLiteralArgument node found)

/-! ## Identifiers -/

/-- What an identifier stands for on its own. -/
def resolveName (table : AliasTable) (path : String) : TypeExpr :=
  match table.resolve? path with
  | none => .name path
  | some entry => if entry.form = .wildcard then .wildcard else .name entry.canonical

/-- What a known identifier stands for with canonical arguments.  The node is
the one that errors are reported in. -/
def applyEntry (node : TypeExpr) (entry : Entry) (args : List TypeExpr) :
    Except NormalizeError TypeExpr :=
  match entry.form with
  | .plain => .ok (.generic entry.canonical args)
  | .wildcard => .ok .wildcard
  | .container kind => .ok (.container kind args)
  | .tuple => .ok (.tuple args)
  | .union => .ok (unionOf args)
  | .optional => .ok (unionOf (null :: args))
  | .literal => do return .literal (← literalValues node args)

/-- The arguments of a known identifier among which no ellipsis may stand. -/
def guardedArgs (entry : Entry) (args : List TypeExpr) : List TypeExpr :=
  if entry.form = .tuple then fixedElements args else args

/-! ## Trees -/

mutual

/-- The canonical form of a tree. -/
def normalize (table : AliasTable) : TypeExpr → Except NormalizeError TypeExpr
  | .name path => .ok (resolveName table path)
  | .wildcard => .ok .wildcard
  | .generic base args =>
      match table.resolve? base with
      | none => do
          refuseEllipsis (.generic base args) args
          return .generic base (← normalizeAll table args)
      | some entry => do
          refuseEllipsis (.generic base args) (guardedArgs entry args)
          let normalArgs ← normalizeAll table args
          requireArity (.generic base args) entry.arity normalArgs.length
          applyEntry (.generic base args) entry normalArgs
  | .container kind args => do
      refuseEllipsis (.container kind args) args
      let normalArgs ← normalizeAll table args
      requireArity (.container kind args) (.exactly kind.arity) normalArgs.length
      return .container kind normalArgs
  | .tuple elements => do
      refuseEllipsis (.tuple elements) (fixedElements elements)
      return .tuple (← normalizeAll table elements)
  | .union members => do
      refuseEllipsis (.union members) members
      return unionOf (← normalizeAll table members)
  | .optional inner => do
      refuseEllipsis (.optional inner) [inner]
      return unionOf [null, ← normalize table inner]
  | .literal values => .ok (.literal values)
  | .ellipsis => .error (.misplacedEllipsis .ellipsis)

/-- The canonical forms of the children of a node.  An ellipsis that the node
has let pass stays. -/
def normalizeAll (table : AliasTable) :
    List TypeExpr → Except NormalizeError (List TypeExpr)
  | [] => .ok []
  | first :: rest => do
      let normal ← if first.isEllipsis then .ok .ellipsis else normalize table first
      return normal :: (← normalizeAll table rest)

end

end TypeSpelling.TypeExpr
