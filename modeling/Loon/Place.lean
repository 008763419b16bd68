namespace Loon

structure Span where
  offset : Nat
  length : Nat
deriving DecidableEq, Repr, Inhabited

structure Source where
  name : String
  text : String
deriving DecidableEq, Repr, Inhabited

structure Place where
  source : Source
  span : Span
deriving DecidableEq, Repr, Inhabited

end Loon
