import Rcc.Node

/-!
# Names in the parser

The ordinary identifiers are kept in four lists, the newest entry first: `locals`,
`globals`, `typedefs` and `enum_consts`. Each has its own search.
-/

namespace Rcc.Parser

structure Typedef where
  name : String
  ty : Ty
deriving DecidableEq

structure EnumConst where
  name : String
  val : BitVec 64
deriving DecidableEq

structure Names where
  locals : List LVar
  globals : List LVar
  typedefs : List Typedef
  enumConsts : List EnumConst

/-- `find_var` -/
def Names.findVar (s : Names) (name : String) : Option LVar :=
  (s.locals.find? fun var => var.name = name).or (s.globals.find? fun var => var.name = name)

/-- `find_typedef` -/
def Names.findTypedef (s : Names) (name : String) : Option Typedef := s.typedefs.find? fun td => td.name = name

/-- `find_enum_const` -/
def Names.findEnumConst (s : Names) (name : String) : Option EnumConst :=
  s.enumConsts.find? fun ec => ec.name = name

end Rcc.Parser
