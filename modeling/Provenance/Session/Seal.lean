import Provenance.Session.Basic

/-!
Sealing a session: its records with every symbol replaced by its ID, in their order.
-/
namespace Provenance.Session

/-- No region may be open, for what was found in it is not recorded. -/
def sealRecords : Action (List SealedRecord) := do
  gate .seal [.building]
  let s ← get
  if s.region.isOpen then violate (.openRegions s.region.depth)
  let records ← s.ledger.records.mapM fun r =>
    r.mapM (fun t => requireId (.type t)) (fun p => requireId (.procedure p))
  modify fun s => { s with phase := .sealed }
  return records

end Provenance.Session
