/-
  The port graph is built exactly when it can be.
-/
import Aegir.Director.Order

namespace Aegir.Director

open Aegir.Lib Aegir.Lib.Fallible

variable {m : Manifest} {mem : Memory} {i j n : ℕ} {s : Building} {name : Name}

/-! ## Endpoints -/

/-- The first `n` ports have their endpoints. -/
structure Endowed (m : Manifest) (mem : Memory) (n : ℕ) (s : Building) : Prop extends Placed m m.size s where
  endpoints : ∀ p < n, (s.ports p).endpoint = mem.endpoint p

theorem endpoints_post (halloc : ∀ p, mem.endpoint p ≠ 0) (h : Placed m m.size s) :
    Post (fun _ => Endowed m mem m.owned.length) (fun _ => ¬ m.Buildable) (forRange m.owned.length (makeEndpoint mem) s) := by
  refine Post.forRange (Endowed m mem) { h with endpoints := fun p hp => absurd hp (Nat.not_lt_zero p) } ?_
  intro p _ s hs
  simp only [makeEndpoint, modify_bind_run]
  refine refuseIf_post (fun hzero => absurd (beq_iff_eq.1 hzero) (halloc p)) fun _ => ?_
  have howned : Building.owned { s with ports := Function.update s.ports p { s.ports p with endpoint := mem.endpoint p } } =
      s.owned := (s.owned_update p _).trans (Function.update_eq_self p s.owned)
  refine { hs with ports := by rw [howned]; exact hs.ports, endpoints := fun q hq => ?_ }
  show (Function.update s.ports p _ q).endpoint = _
  by_cases hat : q = p
  · rw [hat, Function.update_self]
  · rw [Function.update_of_ne hat]
    exact hs.endpoints q (by omega)

/-! ## Grants -/

namespace Manifest

/-- The ports an entry owns, read and unbadged. -/
def ownGrants (m : Manifest) (mem : Memory) (i : ℕ) : List PortGrant := (m.owns i).mapIdx fun j name =>
  ⟨name, kSlotFirstDeclared + j, mem.endpoint (m.portOf name), (rightsFor name).owner, 0⟩

/-- The ports an entry may call, with its number on each. -/
def needGrants (m : Manifest) (mem : Memory) (i : ℕ) : List PortGrant := (m.needs i).mapIdx fun j name =>
  ⟨name, kSlotFirstDeclared + (m.owns i).length + j, mem.endpoint (m.portOf name), (rightsFor name).caller,
    callerBadgeFor name (i + 1)⟩

def grantRow (m : Manifest) (mem : Memory) (i : ℕ) : List PortGrant := m.ownGrants mem i ++ m.needGrants mem i

theorem length_grantRow (mem : Memory) (i : ℕ) : (m.grantRow mem i).length = (m.owns i).length + (m.needs i).length := by
  simp [grantRow, ownGrants, needGrants]

theorem offset_grantRow (mem : Memory) (n : ℕ) : offset (m.grantRow mem) n = offset m.owns n + offset m.needs n := by
  induction n with
  | zero => rfl
  | succ n ih =>
    rw [offset_succ, offset_succ, offset_succ, ih, length_grantRow]
    omega

theorem grantRow_own (hj : (m.owns i)[j]? = some name) : (m.grantRow mem i)[j]? =
    some ⟨name, kSlotFirstDeclared + j, mem.endpoint (m.portOf name), (rightsFor name).owner, 0⟩ := by
  have hlt := (List.getElem?_eq_some_iff.1 hj).1
  rw [grantRow, List.getElem?_append_left (by simpa [ownGrants] using hlt), ownGrants, List.getElem?_mapIdx, hj]
  rfl

theorem grantRow_need (hj : (m.needs i)[j]? = some name) : (m.grantRow mem i)[(m.owns i).length + j]? =
    some ⟨name, kSlotFirstDeclared + (m.owns i).length + j, mem.endpoint (m.portOf name), (rightsFor name).caller,
      callerBadgeFor name (i + 1)⟩ := by
  have hlen : (m.ownGrants mem i).length = (m.owns i).length := by simp [ownGrants]
  rw [grantRow, List.getElem?_append_right (by omega), hlen, Nat.add_sub_cancel_left, needGrants, List.getElem?_mapIdx, hj]
  rfl

end Manifest

structure Granted (m : Manifest) (mem : Memory) (l : List PortGrant) (s : Building) : Prop
    extends Endowed m mem m.owned.length s where
  grants : Holds s.grants l

theorem Endowed.port_eq (h : Endowed m mem m.owned.length s) (hi : i < m.size) (hname : name ∈ m.owns i) :
    (s.ports (m.portOf name)).name = name ∧ (s.ports (m.portOf name)).endpoint = mem.endpoint (m.portOf name) :=
  ⟨(h.toPorted.port_eq hi hname).1, h.endpoints _ (List.idxOf_lt_length_of_mem (Manifest.mem_owned.2 ⟨i, hi, hname⟩))⟩

theorem grantOwned_post (hi : i < m.size) (hj : j < (m.owns i).length)
    (h : Granted m mem (flat (m.grantRow mem) i ++ (m.grantRow mem i).take j) s ∧ s.slot = kSlotFirstDeclared + j) :
    Post (fun _ s => Granted m mem (flat (m.grantRow mem) i ++ (m.grantRow mem i).take (j + 1)) s ∧
      s.slot = kSlotFirstDeclared + (j + 1)) (fun _ => ¬ m.Buildable) (grantOwned i j s) := by
  obtain ⟨h, hslot⟩ := h
  have hname : (m.owns i)[j]? = some (m.owns i)[j] := List.getElem?_eq_getElem hj
  have hlt := Manifest.lengths_lt hi
  obtain ⟨hport, hendpoint⟩ := h.toEndowed.port_eq hi (List.getElem_mem hj)
  have hplace : s.grantOffset i + j = offset (m.grantRow mem) i + j := by rw [h.grantOffset i hi, Manifest.offset_grantRow]
  have hgrants := h.grants.place (Manifest.grantRow_own hname)
  simp only [grantOwned, modify_run, Post, h.ownOffset i hi, ← Manifest.portOf_eq h.once hi hname, hport, hendpoint, hplace, hslot]
  refine ⟨{ h with grants := hgrants }, ?_⟩
  rw [kSlotFirstDeclared, Nat.mod_eq_of_lt (by omega)]
  omega

theorem grantNeeded_post (hi : i < m.size) (hj : j < (m.needs i).length)
    (h : Granted m mem (flat (m.grantRow mem) i ++ (m.grantRow mem i).take ((m.owns i).length + j)) s ∧
      s.slot = kSlotFirstDeclared + (m.owns i).length + j) :
    Post (fun _ s => Granted m mem (flat (m.grantRow mem) i ++ (m.grantRow mem i).take ((m.owns i).length + (j + 1))) s ∧
      s.slot = kSlotFirstDeclared + (m.owns i).length + (j + 1)) (fun _ => ¬ m.Buildable) (grantNeeded i j s) := by
  obtain ⟨h, hslot⟩ := h
  have hname : (m.needs i)[j]? = some (m.needs i)[j] := List.getElem?_eq_getElem hj
  have hlt := Manifest.lengths_lt hi
  have hsize := m.size_lt
  obtain ⟨k, hk, -, howns⟩ := h.served i hi _ (List.getElem_mem hj)
  obtain ⟨hport, hendpoint⟩ := h.toEndowed.port_eq hk howns
  have hneed : s.needPort (offset m.needs i + j) = m.portOf (m.needs i)[j] := by
    have hrow : (m.needRow i)[j]? = some (m.portOf (m.needs i)[j]) := by rw [Manifest.needRow, List.getElem?_map, hname]; rfl
    rw [← Manifest.offset_needRow]
    exact h.needPort.row hi hrow
  have hplace : s.grantOffset i + s.ownCount i + j = offset (m.grantRow mem) i + ((m.owns i).length + j) := by
    rw [h.grantOffset i hi, h.ownCount i hi, Manifest.offset_grantRow]
    omega
  have hgrants := h.grants.place (Manifest.grantRow_need hname)
  simp only [grantNeeded, modify_run, Post, h.needOffset i hi, hneed, hport, hendpoint, hplace, hslot,
    Nat.mod_eq_of_lt (show i + 1 < 2 ^ 32 by omega)]
  refine ⟨{ h with grants := hgrants }, ?_⟩
  rw [kSlotFirstDeclared, Nat.mod_eq_of_lt (by omega)]
  omega

theorem grantEntry_post (hi : i < m.size) (h : Granted m mem (flat (m.grantRow mem) i) s) :
    Post (fun _ => Granted m mem (flat (m.grantRow mem) (i + 1))) (fun _ => ¬ m.Buildable) (grantEntry i s) := by
  simp only [grantEntry, modify_bind_run, get_bind_run, h.ownCount i hi, h.needCount i hi]
  refine Post.bind (Post.forRange (fun j s => Granted m mem (flat (m.grantRow mem) i ++ (m.grantRow mem i).take j) s ∧
    s.slot = kSlotFirstDeclared + j) ⟨?_, rfl⟩ fun j hj s hs => grantOwned_post hi hj hs) fun _ s hs => ?_
  · rw [List.take_zero, List.append_nil]
    exact { h with }
  · refine (Post.forRange (fun j s => Granted m mem (flat (m.grantRow mem) i ++
      (m.grantRow mem i).take ((m.owns i).length + j)) s ∧ s.slot = kSlotFirstDeclared + (m.owns i).length + j) hs
      fun j hj s hs => grantNeeded_post hi hj hs).mono (fun _ s' hs' => ?_) fun _ hb => hb
    rw [← flat_take_all (Manifest.length_grantRow mem i)]
    exact hs'.1

theorem grants_post (h : Endowed m mem m.owned.length s) :
    Post (fun _ => Granted m mem (flat (m.grantRow mem) m.size)) (fun _ => ¬ m.Buildable) (forRange m.size grantEntry s) :=
  Post.forRange (fun i => Granted m mem (flat (m.grantRow mem) i)) { h with grants := .nil } fun _ hi _ hs => grantEntry_post hi hs

/-! ## The graph -/

/-- What a graph that was built says of its manifest. -/
structure Describes (m : Manifest) (mem : Memory) (g : PortGraph) : Prop where
  perm : ((List.range m.size).map g.order).Perm (List.range m.size)
  before : ∀ i < m.size, ∀ k < m.size, ∀ name ∈ m.needs i, name ∈ m.owns k →
    ∃ a b, a < b ∧ b < m.size ∧ g.order a = k ∧ g.order b = i
  portCount : g.portCount = m.owned.length
  ports : ∀ i < m.size, ∀ name ∈ m.owns i,
    g.ports (m.portOf name) = ⟨name, i, mem.endpoint (m.portOf name)⟩ ∧ m.portOf name < g.portCount
  endpoints : ∀ p < g.portCount, (g.ports p).endpoint ≠ 0 ∧
    ∀ q < g.portCount, (g.ports q).endpoint = (g.ports p).endpoint → q = p
  grants : ∀ i < m.size, g.grantsOf i = m.ownGrants mem i ++ m.needGrants mem i
  callers : ∀ i < m.size, ∀ grant ∈ m.needGrants mem i, grant.badge % 2 ^ 63 = i + 1
  /-- Only a port's owner is given its receiving half. -/
  receives : ∀ i < m.size, ∀ grant ∈ g.grantsOf i, grant.rights.read = true →
    ∀ p < g.portCount, grant.capability = (g.ports p).endpoint → (g.ports p).owner = i

theorem Granted.grantsOf (h : Granted m mem (flat (m.grantRow mem) m.size) s) (hi : i < m.size) :
    s.grantsOf i = m.grantRow mem i := by
  rw [PortGraph.grantsOf, h.ownCount i hi, h.needCount i hi, h.grantOffset i hi, ← Manifest.offset_grantRow mem, ← Manifest.length_grantRow mem]
  refine List.ext_getElem (by simp) fun j hj hj' => ?_
  rw [List.getElem_map, List.getElem_range]
  exact h.grants.row hi (List.getElem?_eq_getElem hj')

theorem Granted.ports_eq (h : Granted m mem (flat (m.grantRow mem) m.size) s) (hi : i < m.size) (hname : name ∈ m.owns i) :
    s.ports (m.portOf name) = ⟨name, i, mem.endpoint (m.portOf name)⟩ ∧ m.portOf name < m.owned.length := by
  obtain ⟨hn, ho⟩ := h.toPorted.port_eq hi hname
  obtain ⟨-, he⟩ := h.toEndowed.port_eq hi hname
  refine ⟨?_, List.idxOf_lt_length_of_mem (Manifest.mem_owned.2 ⟨i, hi, hname⟩)⟩
  rcases hport : s.ports (m.portOf name) with ⟨portName, owner, endpoint⟩
  rw [hport] at hn ho he
  rw [Port.mk.injEq]
  exact ⟨hn, ho, he⟩

theorem Granted.receives (hfresh : Function.Injective mem.endpoint) (h : Granted m mem (flat (m.grantRow mem) m.size) s)
    (hi : i < m.size) {grant : PortGrant} (hgrant : grant ∈ m.grantRow mem i) (hread : grant.rights.read = true) {p : ℕ}
    (hp : p < m.owned.length) (hsame : grant.capability = (s.ports p).endpoint) : (s.ports p).owner = i := by
  rw [h.endpoints p hp] at hsame
  rcases List.mem_append.1 hgrant with hown | hneed
  · obtain ⟨j, hj, rfl⟩ := List.mem_mapIdx.1 hown
    obtain rfl : m.portOf (m.owns i)[j] = p := hfresh hsame
    rw [(h.ports_eq hi (List.getElem_mem hj)).1]
  · obtain ⟨j, hj, rfl⟩ := List.mem_mapIdx.1 hneed
    exact absurd (hread.symm.trans (rightsFor_read _).2) (by decide)

theorem Manifest.callers (hi : i < m.size) {grant : PortGrant} (hgrant : grant ∈ m.needGrants mem i) :
    grant.badge % 2 ^ 63 = i + 1 := by
  have hsize := m.size_lt
  obtain ⟨j, hj, rfl⟩ := List.mem_mapIdx.1 hgrant
  exact callerBadgeFor_mod _ (by omega)

theorem Granted.describes (halloc : ∀ p, mem.endpoint p ≠ 0) (hfresh : Function.Injective mem.endpoint)
    (h : Granted m mem (flat (m.grantRow mem) m.size) s) : Describes m mem s.toPortGraph := by
  have hcount : s.portCount = m.owned.length := h.portCount
  refine ⟨h.ordered.perm, fun i hi k hk name hname howns => h.ordered.before ⟨hi, hk, name, hname, howns⟩, hcount,
    fun i hi name hname => ?_, fun p hp => ?_, fun i hi => h.grantsOf hi, fun i hi grant => Manifest.callers hi,
    fun i hi grant hgrant hread p hp hsame => ?_⟩
  · rw [hcount]
    exact h.ports_eq hi hname
  · rw [hcount] at hp ⊢
    rw [h.endpoints p hp]
    refine ⟨halloc p, fun q hq hsame => ?_⟩
    rw [h.endpoints q hq] at hsame
    exact hfresh hsame
  · rw [hcount] at hp
    rw [h.grantsOf hi] at hgrant
    exact h.receives hfresh hi hgrant hread hp hsame

theorem build_post (m : Manifest) (harena : ∀ k, mem.arena k = true) (halloc : ∀ p, mem.endpoint p ≠ 0) (s : Building) :
    Post (fun _ s => Granted m mem (flat (m.grantRow mem) m.size) s ∧ m.Buildable) (fun _ => ¬ m.Buildable) (build m mem s) := by
  simp only [build, modify_bind_run]
  refine Post.bind (refuseIf_post (Q := fun _ s' => s'.entryCount = m.size ∧ 0 < m.size) (fun hzero hb => ?_) fun hsome => ⟨rfl, ?_⟩) ?_
  · have hpos := hb.entries
    rw [beq_iff_eq] at hzero
    omega
  · rw [beq_eq_false_iff_ne] at hsome
    omega
  rintro _ s ⟨hentries, hpos⟩
  refine Post.bind (refuseIf_post (Q := fun _ s' => s'.entryCount = m.size) (s := s) (fun hnone => ?_) fun _ => hentries) ?_
  · simp [harena] at hnone
  intro _ s hs
  rw [modify_bind_run]
  refine Post.bind (count_post (m := m) hs ⟨rfl, rfl, rfl⟩) ?_
  rintro _ s ⟨hcounted, htotals⟩
  simp only [get_bind_run]
  refine Post.bind (refuseIf_post (Q := fun _ s' => s = s' ∧ m.owned ≠ []) (s := s) (fun hzero hb => ?_) fun hsome => ⟨rfl, ?_⟩) ?_
  · obtain ⟨i, hi, hne⟩ := hb.ports
    obtain ⟨name, hname⟩ := List.exists_mem_of_ne_nil _ hne
    have hlen := List.length_pos_of_mem (Manifest.mem_owned.2 ⟨i, hi, hname⟩)
    rw [beq_iff_eq, htotals.owns] at hzero
    exact absurd hzero (Nat.ne_of_gt hlen)
  · rintro hnil
    rw [beq_eq_false_iff_ne, htotals.owns] at hsome
    exact hsome (congrArg List.length hnil)
  rintro _ _ ⟨rfl, hports⟩
  refine Post.bind (refuseIf_post (Q := fun _ s' => s = s') (s := s) (fun hnone => ?_) fun _ => rfl) ?_
  · simp [harena] at hnone
  rintro _ _ rfl
  refine Post.bind (fill_post hcounted) fun _ s' hfilled => ?_
  rw [modify_bind_run]
  refine Post.bind (declare_post (s := { s' with portCount := s.ownsTotal }) { hfilled with } htotals.owns) fun _ s hdeclared => ?_
  refine Post.bind (resolve_post hdeclared.ported) ?_
  rintro _ s ⟨hresolved, hserved⟩
  refine Post.bind (refuseIf_post (Q := fun _ s' => s = s') (s := s) (fun hnone => ?_) fun _ => rfl) ?_
  · simp [harena] at hnone
  rintro _ _ rfl
  rw [modify_bind_run]
  refine Post.bind (place_post (s := { s with placed := fun _ => false }) { hresolved with served := hserved } rfl) fun _ s hplaced => ?_
  have hcount : s.portCount = m.owned.length := hplaced.portCount
  simp only [get_bind_run, hcount]
  refine Post.bind (endpoints_post halloc hplaced) fun _ s hendowed => ?_
  refine (grants_post hendowed).mono (fun _ s hgranted => ⟨hgranted, ?_⟩) fun _ hb => hb
  obtain ⟨name, hname⟩ := List.exists_mem_of_ne_nil _ hports
  obtain ⟨i, hi, howns⟩ := Manifest.mem_owned.1 hname
  exact ⟨hpos, ⟨i, hi, List.ne_nil_of_mem howns⟩, hgranted.once, hgranted.served, hgranted.ordered.acyclic⟩

/-- **The port graph is built exactly when it can be**, and describes its manifest. -/
theorem build_iff (m : Manifest) (mem : Memory) (harena : ∀ k, mem.arena k = true) (halloc : ∀ p, mem.endpoint p ≠ 0)
    (hfresh : Function.Injective mem.endpoint) (s : Building) :
    ((build m mem s).1 = some () ↔ m.Buildable) ∧
      ((build m mem s).1 = some () → Describes m mem (build m mem s).2.toPortGraph) := by
  have hpost := build_post m harena halloc s
  rcases hr : build m mem s with ⟨_ | u, s'⟩ <;> rw [hr] at hpost
  · exact ⟨iff_of_false (by simp) hpost, by simp⟩
  · exact ⟨iff_of_true rfl hpost.2, fun _ => hpost.1.describes halloc hfresh⟩

/-- Two services that own a port each, of which the first needs the second's. -/
def sampleManifest : Manifest :=
  ⟨[⟨"vfs.namespace, con.stream".toList, "mem.main".toList⟩, ⟨"mem.main".toList, []⟩], by decide, by decide⟩

theorem build_iff_sample :
    ((build sampleManifest ⟨fun _ => true, fun p => p + 1⟩ .start).1 = some () ↔ sampleManifest.Buildable) ∧
      ((build sampleManifest ⟨fun _ => true, fun p => p + 1⟩ .start).1 = some () →
        Describes sampleManifest ⟨fun _ => true, fun p => p + 1⟩
          (build sampleManifest ⟨fun _ => true, fun p => p + 1⟩ .start).2.toPortGraph) :=
  build_iff sampleManifest _ (fun _ => rfl) (fun p => Nat.succ_ne_zero p) (fun _ _ h => Nat.succ.inj h) .start

end Aegir.Director
