import ProductLine.Model.Build

/-!
A server with drive slots: each slot holds either a solid-state or a hard disk, and a hard disk has
a speed. Mirroring needs a hard disk, and backups need a slot.
-/
namespace ProductLine.Example.Server

inductive SlotError where
  | noSlots
  | crossedBounds (least most : UInt32)
  deriving DecidableEq, Repr

def SlotError.message : SlotError → String
  | noSlots => "Number of slots must be at least 1"
  | crossedBounds least most =>
    "Minimum number of slots (" ++ toString least.toNat ++ ") exceeds the maximum (" ++
      toString most.toNat ++ ")"

def build (least most : UInt32) : Build Unit := do
  let server ← Build.addRootFeature "Server"
  Build.makeMandatory server
  let slot ← Build.addChildFeature server "Slot"
  Build.setCardinality slot least most
  Build.setGroupKind slot .alternative
  let _ ← Build.addChildFeature slot "Ssd"
  let hdd ← Build.addChildFeature slot "Hdd"
  let rpm ← Build.addChild hdd (← Build.declare "rpm" .integer)
  Build.makeMandatory rpm
  let _ ← Build.addChildFeature server "Raid"
  let _ ← Build.addChildFeature server "Backup"
  let _ ← Build.addConstraint (.implies (.literal "Raid") (.literal "Hdd"))
  let _ ← Build.addConstraint (.implies (.literal "Backup") (.literal "Slot"))

def model (least most : UInt32) : Except SlotError FeatureModel :=
  if most = 0 then .error .noSlots
  else if most < least then .error (.crossedBounds least most)
  else .ok ((build least most).apply .empty).2

end ProductLine.Example.Server
