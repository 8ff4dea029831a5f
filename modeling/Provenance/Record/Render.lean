import Provenance.Record.Fields

/-!
The text of a record: its kind, then its fields by name in their order.
-/
namespace Provenance

variable {T P : Type} [ToString T] [ToString P]

def Shape.render : (s : Shape) → s.Value T P → String
  | .type, t => toString (α := T) t
  | .procedure, p => toString (α := P) p
  | .text, v => v
  | .digest, d => d.brief
  | .index, n => toString n.toNat
  | .offset, n => toString n.toInt
  | .flag, b => if b then "true" else "false"

def Values.render : (fs : List FieldSpec) → Values T P fs → List String
  | [], _ => []
  | f :: fs, (v, vs) => s!"{f.name}={f.shape.render v}" :: Values.render fs vs

def Record.render (r : Record T P) : String :=
  let fields := ", ".intercalate (Values.render _ r.values)
  s!"{r.kind.name} \x7b {fields} \x7d"

instance : ToString (Record T P) := ⟨Record.render⟩

end Provenance
