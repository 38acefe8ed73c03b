/-
  The port graph the manifest declares.
-/
import Aegir.Director.Names
import Aegir.Lib.Fallible

namespace Aegir.Director

open Aegir.Lib Aegir.Lib.Fallible

/-! ## The manifest -/

/-- An entry, as far as the graph reads it. -/
structure Entry where
  owns : Text
  needs : Text

/-- The entries of one text.  The values are separate parts of it, and its length and the count are
    `uint32_t`. -/
structure Manifest where
  entries : List Entry
  count : entries.length < 2 ^ 32
  length : (entries.map fun e => e.owns.length + e.needs.length).sum < 2 ^ 32

namespace Manifest

variable (m : Manifest)

def size : ℕ := m.entries.length

def entry (i : ℕ) : Entry := m.entries.getD i ⟨[], []⟩

end Manifest

/-! ## Rights and badges -/

/-- `seL4_CapRights_new(grantReply, grant, read, write)` -/
structure CapRights where
  grantReply : Bool
  grant : Bool
  read : Bool
  write : Bool
  deriving DecidableEq

def allRights : CapRights := ⟨true, true, true, true⟩

def canRead : CapRights := ⟨false, false, true, false⟩

structure Rights where
  owner : CapRights
  caller : CapRights

/-- The ports that need other rights than the rule's. -/
def rightsTable : List (String × Rights) :=
  [("vfs.namespace", ⟨allRights, ⟨true, true, false, true⟩⟩),
   ("mem.main", ⟨allRights, ⟨true, true, false, true⟩⟩),
   ("signal.smoke", ⟨allRights, ⟨true, true, false, true⟩⟩),
   ("vol.initrd", ⟨⟨true, true, true, true⟩, ⟨true, false, false, true⟩⟩),
   ("vol.nil", ⟨⟨true, true, true, true⟩, ⟨true, false, false, true⟩⟩),
   ("vol.pipe", ⟨⟨true, false, true, true⟩, ⟨true, false, false, true⟩⟩),
   ("vol.net", ⟨⟨true, true, true, true⟩, ⟨true, false, false, true⟩⟩),
   ("devmgr.registry", ⟨allRights, ⟨true, false, false, true⟩⟩),
   ("timer.main", ⟨canRead, ⟨true, true, false, true⟩⟩),
   ("console.gui", ⟨allRights, ⟨true, true, false, true⟩⟩),
   ("bureau.menu", ⟨allRights, ⟨true, true, false, true⟩⟩),
   ("font.main", ⟨canRead, ⟨true, true, false, true⟩⟩),
   ("net.socket", ⟨canRead, ⟨true, true, false, true⟩⟩),
   ("process.registry", ⟨allRights, ⟨true, true, false, true⟩⟩),
   ("vol.hostfs", ⟨⟨true, true, true, true⟩, ⟨true, false, false, true⟩⟩)]

def rightsFor (name : Name) : Rights :=
  match rightsTable.find? fun row => sameName name row.1.toList with
  | some row => row.2
  | none => ⟨canRead, ⟨true, false, false, true⟩⟩

theorem rightsFor_read (name : Name) : (rightsFor name).owner.read = true ∧ (rightsFor name).caller.read = false := by
  have htable : ∀ row ∈ rightsTable, row.2.owner.read = true ∧ row.2.caller.read = false := by decide
  rw [rightsFor]
  cases hfind : rightsTable.find? fun row => sameName name row.1.toList with
  | some row => exact htable row (List.mem_of_find?_eq_some hfind)
  | none => exact ⟨rfl, rfl⟩

def kCallMark : ℕ := 2 ^ 63

def callerBadgeFor (name : Name) (caller : ℕ) : ℕ :=
  if sameName name "devmgr.registry".toList then caller ||| kCallMark else caller

theorem callerBadgeFor_mod (name : Name) {caller : ℕ} (h : caller < 2 ^ 63) :
    callerBadgeFor name caller % 2 ^ 63 = caller := by
  unfold callerBadgeFor
  split
  · rw [kCallMark, Nat.or_mod_two_pow, Nat.mod_self, Nat.or_zero, Nat.mod_eq_of_lt h]
  · exact Nat.mod_eq_of_lt h

def kSlotFirstDeclared : ℕ := 8

/-! ## The graph -/

structure Port where
  name : Name
  owner : ℕ
  endpoint : ℕ

structure PortGrant where
  name : Name
  slot : ℕ
  capability : ℕ
  rights : CapRights
  badge : ℕ

structure PortGraph where
  ports : ℕ → Port
  ownNames : ℕ → Name
  needNames : ℕ → Name
  ownOffset : ℕ → ℕ
  needOffset : ℕ → ℕ
  ownCount : ℕ → ℕ
  needCount : ℕ → ℕ
  needPort : ℕ → ℕ
  grants : ℕ → PortGrant
  grantOffset : ℕ → ℕ
  order : ℕ → ℕ
  entryCount : ℕ
  portCount : ℕ
  problem : String

/-- What the arena's and the allocator's calls answer, in order; an endpoint of zero is none. -/
structure Memory where
  arena : ℕ → Bool
  endpoint : ℕ → ℕ

/-- The graph, beside the locals of `build`. -/
structure Building extends PortGraph where
  ownsTotal : ℕ
  needsTotal : ℕ
  grantsTotal : ℕ
  placed : ℕ → Bool
  slot : ℕ

abbrev M := Fallible Building

namespace PortGraph

def portIndex (g : PortGraph) (name : Name) : ℕ :=
  ((List.range g.portCount).find? fun i => sameName (g.ports i).name name).getD g.portCount

/-- What an entry holds, in slot order. -/
def grantsOf (g : PortGraph) (entry : ℕ) : List PortGrant :=
  (List.range (g.ownCount entry + g.needCount entry)).map fun j => g.grants (g.grantOffset entry + j)

end PortGraph

def Building.start : Building :=
  { ports := fun _ => ⟨[], 0, 0⟩
    ownNames := fun _ => [], needNames := fun _ => []
    ownOffset := fun _ => 0, needOffset := fun _ => 0
    ownCount := fun _ => 0, needCount := fun _ => 0
    needPort := fun _ => 0
    grants := fun _ => ⟨[], 0, 0, ⟨false, false, false, false⟩, 0⟩
    grantOffset := fun _ => 0
    order := fun _ => 0
    entryCount := 0, portCount := 0
    problem := "no problem"
    ownsTotal := 0, needsTotal := 0, grantsTotal := 0
    placed := fun _ => false
    slot := 0 }

/-! ## Building it -/

/-- `return fail(what);` -/
def refuse (what : String) : M Unit := do
  modify fun s => { s with problem := what }
  fail

/-- `if (c) return fail(what);` -/
def refuseIf (c : Bool) (what : String) : M Unit := if c then refuse what else pure ()

def countEntry (m : Manifest) (i : ℕ) : M Unit := modify fun s =>
  let own := (splitNames (m.entry i).owns 0 0 0 s.ownNames).1
  let need := (splitNames (m.entry i).needs 0 0 0 s.needNames).1
  { s with
    ownOffset := Function.update s.ownOffset i s.ownsTotal
    needOffset := Function.update s.needOffset i s.needsTotal
    grantOffset := Function.update s.grantOffset i s.grantsTotal
    ownCount := Function.update s.ownCount i own
    needCount := Function.update s.needCount i need
    ownsTotal := (s.ownsTotal + own) % 2 ^ 32
    needsTotal := (s.needsTotal + need) % 2 ^ 32
    grantsTotal := (s.grantsTotal + (own + need) % 2 ^ 32) % 2 ^ 32 }

def fillOwns (m : Manifest) (i : ℕ) : M Unit := do
  let s ← get
  let filled := splitNames (m.entry i).owns (s.ownOffset i) (s.ownCount i) 0 s.ownNames
  modify fun s => { s with ownNames := filled.2 }
  refuseIf (filled.1 != s.ownCount i) "a service's ports do not read the same way twice"

def fillNeeds (m : Manifest) (i : ℕ) : M Unit := do
  let s ← get
  let filled := splitNames (m.entry i).needs (s.needOffset i) (s.needCount i) 0 s.needNames
  modify fun s => { s with needNames := filled.2 }
  refuseIf (filled.1 != s.needCount i) "a service's needs do not read the same way twice"

def fillEntry (m : Manifest) (i : ℕ) : M Unit := do
  fillOwns m i
  fillNeeds m i

/-- One owner per port: the port written, and the ones before it looked through for its name. -/
def declarePort (i j : ℕ) : M Unit := do
  let s ← get
  let place := s.ownOffset i + j
  let name := s.ownNames place
  modify fun s => { s with ports := Function.update s.ports place ⟨name, i, 0⟩ }
  let s ← get
  forRange place fun k =>
    refuseIf (sameName (s.ports k).name name) "two services declare the same port"

def declarePorts (i : ℕ) : M Unit := do
  let s ← get
  forRange (s.ownCount i) (declarePort i)

def resolveNeed (i j : ℕ) : M Unit := do
  let s ← get
  let place := s.needOffset i + j
  let found := s.portIndex (s.needNames place)
  refuseIf (found == s.portCount) "a service needs a port nobody declares it owns"
  refuseIf ((s.ports found).owner == i) "a service needs a port it owns itself"
  modify fun s => { s with needPort := Function.update s.needPort place found }

def resolveNeeds (i : ℕ) : M Unit := do
  let s ← get
  forRange (s.needCount i) (resolveNeed i)

/-- The owners of what an entry needs are placed. -/
def ready (s : Building) (i : ℕ) : Bool :=
  (List.range (s.needCount i)).all fun j => s.placed (s.ports (s.needPort (s.needOffset i + j))).owner

/-- A pass: the first entry that is not placed and is ready takes the next place. -/
def placeNext (next : ℕ) : M Unit := do
  let s ← get
  match (List.range s.entryCount).find? fun i => !s.placed i && ready s i with
  | some i => modify fun s =>
      { s with order := Function.update s.order next i, placed := Function.update s.placed i true }
  | none => refuse "the services' needs form a cycle, so none of them can start"

def makeEndpoint (mem : Memory) (i : ℕ) : M Unit := do
  modify fun s => { s with ports := Function.update s.ports i { s.ports i with endpoint := mem.endpoint i } }
  refuseIf (mem.endpoint i == 0) "no memory for a port's endpoint"

def grantOwned (i j : ℕ) : M Unit := modify fun s =>
  let port := s.ports (s.ownOffset i + j)
  { s with
    grants := Function.update s.grants (s.grantOffset i + j)
      ⟨port.name, s.slot, port.endpoint, (rightsFor port.name).owner, 0⟩
    slot := (s.slot + 1) % 2 ^ 64 }

def grantNeeded (i j : ℕ) : M Unit := modify fun s =>
  let port := s.ports (s.needPort (s.needOffset i + j))
  { s with
    grants := Function.update s.grants (s.grantOffset i + s.ownCount i + j)
      ⟨port.name, s.slot, port.endpoint, (rightsFor port.name).caller, callerBadgeFor port.name ((i + 1) % 2 ^ 32)⟩
    slot := (s.slot + 1) % 2 ^ 64 }

def grantEntry (i : ℕ) : M Unit := do
  modify fun s => { s with slot := kSlotFirstDeclared }
  let s ← get
  forRange (s.ownCount i) (grantOwned i)
  forRange (s.needCount i) (grantNeeded i)

def build (m : Manifest) (mem : Memory) : M Unit := do
  modify fun s => { s with entryCount := m.size }
  refuseIf (m.size == 0) "the manifest declares no service"
  refuseIf (!((List.range 6).all mem.arena)) "no memory for the port graph"
  modify fun s => { s with ownsTotal := 0, needsTotal := 0, grantsTotal := 0 }
  forRange m.size (countEntry m)
  let s ← get
  refuseIf (s.ownsTotal == 0) "no service declares a port, so there is nothing to call"
  refuseIf (!mem.arena 6 || !mem.arena 8 || !mem.arena 10 || (decide (0 < s.needsTotal) && (!mem.arena 7 || !mem.arena 9)))
    "no memory for the port graph"
  forRange m.size (fillEntry m)
  modify fun s' => { s' with portCount := s.ownsTotal }
  forRange m.size declarePorts
  forRange m.size resolveNeeds
  refuseIf (!mem.arena 11) "no memory for the creation order"
  modify fun s => { s with placed := fun _ => false }
  forRange m.size placeNext
  let s ← get
  forRange s.portCount (makeEndpoint mem)
  forRange m.size grantEntry

end Aegir.Director
