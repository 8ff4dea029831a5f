import Provenance.World.Speculation

/-!
A world as a model: every query is answered from its declarations.
-/
namespace Provenance.World

theorem finiteNesting (w : World) :
    WellFounded fun component array => w.component array = some component :=
  Subrelation.wf (fun h => w.component_lt h) (InvImage.wf TypeRef.index Nat.lt_wfRel.wf)

def model (w : World) : Model where
  rootType := rootType
  metaType := metaType
  typeName t := (w.typeDecl t).name
  procedureName p := (w.procDecl p).name
  procedureSignature p := (w.procDecl p).signature
  typeByName := w.typeByName
  systemTypeByName := w.systemTypeByName
  typeByChain := w.typeByChain
  chainDigest := w.chainDigest
  entryType := w.entryType
  entryDefiningType := w.entryDefiningType
  entryStaticType := w.entryStaticType
  entryDeclaringType := w.entryDeclaringType
  entryDispatchType := w.entryDispatchType
  entryProcedure := w.entryProcedure
  entryInterfaceProcedure := w.entryInterfaceProcedure
  entryImproperProcedure := w.entryImproperProcedure
  ownerOf p := (w.procDecl p).owner
  superType := w.superType
  componentType := w.component
  arrayType t := (w.typeDecl t).array
  isInstanceOf object cast objectFixed _ := w.isInstanceOf object cast objectFixed
  singleConcreteSubtype := w.singleConcreteSubtype
  isInitialized t := (w.typeDecl t).isInitialized
  procedureAt := w.procedureAt
  virtualProcedureAt := w.virtualProcedureAt
  procedureBySignature := w.procedureBySignature
  singleImplementer thisType slot _ := w.singleImplementer thisType slot
  singleInterfaceImplementer := w.singleInterfaceImplementer
  singleAbstractImplementer thisType slot _ := w.singleAbstractImplementer thisType slot
  maySkipFrames := w.maySkipFrames
  finiteNesting := w.finiteNesting

end Provenance.World
