/-!
What the owner of a session may choose.
-/
namespace Provenance

/-- What becomes of a logic error: a failure of the one operation, or a fatal stop. -/
inductive Strictness where
  | lenient
  | strict
deriving DecidableEq, Repr

structure Config where
  strictness : Strictness
  maxArrayDimensions : UInt32
deriving DecidableEq, Repr

namespace Config

/-- The deepest nesting that a class file can express. -/
def defaultArrayDimensions : UInt32 := 255

def default : Config := ⟨.lenient, defaultArrayDimensions⟩

def withStrictness (c : Config) (s : Strictness) : Config := { c with strictness := s }

def withMaxArrayDimensions (c : Config) (n : UInt32) : Config := { c with maxArrayDimensions := n }

def strict : Config := default.withStrictness .strict

def assertionsAreFatal (c : Config) : Bool := c.strictness = .strict

end Config

instance : Inhabited Config := ⟨Config.default⟩

end Provenance
