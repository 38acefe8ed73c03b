/-
  The arrays of the graph: counted, filled and checked.
-/
import Aegir.Director.Ports
import Aegir.Lib.Acyclic
import Aegir.Lib.Flat

namespace Aegir.Director

open Aegir.Lib Aegir.Lib.Fallible

/-! ## What can be built -/

namespace Manifest

variable (m : Manifest)

def owns (i : ℕ) : List Name := names (m.entry i).owns

def needs (i : ℕ) : List Name := names (m.entry i).needs

def owned : List Name := flat m.owns m.size

def portOf (name : Name) : ℕ := m.owned.idxOf name

/-- Entry `i` needs a port of entry `k`. -/
def Needs (i k : ℕ) : Prop := i < m.size ∧ k < m.size ∧ ∃ name ∈ m.needs i, name ∈ m.owns k

structure Buildable : Prop where
  entries : 0 < m.size
  ports : ∃ i < m.size, m.owns i ≠ []
  once : m.owned.Nodup
  served : ∀ i < m.size, ∀ name ∈ m.needs i, ∃ k < m.size, k ≠ i ∧ name ∈ m.owns k
  acyclic : Acyclic m.Needs

variable {m} {i j n : ℕ} {name : Name}

theorem entry_eq (h : i < m.entries.length) : m.entry i = m.entries[i] := by
  rw [entry, List.getD_eq_getElem?_getD, List.getElem?_eq_getElem h, Option.getD_some]

theorem offset_le_sum (h : n ≤ m.size) :
    offset m.owns n + offset m.needs n ≤ ((m.entries.take n).map fun e => e.owns.length + e.needs.length).sum := by
  induction n with
  | zero => simp
  | succ n ih =>
    have hn : n < m.entries.length := h
    have hprev := ih (by omega)
    have howns := length_names_le (m.entry n).owns
    have hneeds := length_names_le (m.entry n).needs
    rw [entry_eq hn] at howns hneeds
    rw [offset_succ, offset_succ, List.take_succ_eq_append_getElem hn, List.map_append, List.sum_append, owns, needs,
      entry_eq hn]
    simp only [List.map_cons, List.map_nil, List.sum_cons, List.sum_nil]
    omega

theorem offset_lt (h : n ≤ m.size) : offset m.owns n + offset m.needs n < 2 ^ 32 := by
  have hle := offset_le_sum h
  have hlt := m.length
  rw [← List.take_append_drop n m.entries, List.map_append, List.sum_append] at hlt
  omega

theorem lengths_lt (h : i < m.size) : (m.owns i).length + (m.needs i).length < 2 ^ 32 := by
  have hle := offset_lt (m := m) (n := i + 1) h
  rw [offset_succ, offset_succ] at hle
  omega

theorem size_lt (m : Manifest) : m.size < 2 ^ 32 := m.count

theorem mem_owned : name ∈ m.owned ↔ ∃ i < m.size, name ∈ m.owns i := mem_flat

theorem portOf_eq (honce : m.owned.Nodup) (hi : i < m.size) (hj : (m.owns i)[j]? = some name) :
    m.portOf name = offset m.owns i + j := by
  have hlt := (List.getElem?_eq_some_iff.1 hj).1
  have hat : m.owned[offset m.owns i + j]? = some name := (getElem?_flat hi hlt).trans hj
  obtain ⟨hplace, rfl⟩ := List.getElem?_eq_some_iff.1 hat
  exact honce.idxOf_getElem _ hplace

end Manifest

/-! ## Refusals -/

section
variable {R : Prop} {Q : Unit → Building → Prop} {c : Bool} {what : String} {s : Building}

theorem refuse_post (h : R) : Post Q (fun _ => R) (refuse what s) := h

theorem refuseIf_post (hrefused : c = true → R) (hpassed : c = false → Q () s) :
    Post Q (fun _ => R) (refuseIf c what s) := by
  cases c with
  | true => exact hrefused rfl
  | false => exact hpassed rfl

end

/-! ## Counting -/

variable {m : Manifest} {n i j : ℕ} {s : Building}

/-- The offsets and counts of the first `n` entries. -/
structure Counted (m : Manifest) (n : ℕ) (s : Building) : Prop where
  entryCount : s.entryCount = m.size
  ownOffset : ∀ i < n, s.ownOffset i = offset m.owns i
  needOffset : ∀ i < n, s.needOffset i = offset m.needs i
  grantOffset : ∀ i < n, s.grantOffset i = offset m.owns i + offset m.needs i
  ownCount : ∀ i < n, s.ownCount i = (m.owns i).length
  needCount : ∀ i < n, s.needCount i = (m.needs i).length

structure Totals (m : Manifest) (n : ℕ) (s : Building) : Prop where
  owns : s.ownsTotal = offset m.owns n
  needs : s.needsTotal = offset m.needs n
  grants : s.grantsTotal = offset m.owns n + offset m.needs n

theorem forall_update {α : Type} {f g : ℕ → α} {a : α} (h : ∀ i < n, f i = g i) (ha : a = g n) :
    ∀ i < n + 1, Function.update f n a i = g i := by
  intro i hi
  by_cases hat : i = n
  · rw [hat, Function.update_self, ha]
  · rw [Function.update_of_ne hat, h i (by omega)]

theorem countEntry_post (hi : i < m.size) (h : Counted m i s ∧ Totals m i s) :
    Post (fun _ s => Counted m (i + 1) s ∧ Totals m (i + 1) s) (fun _ => ¬ m.Buildable) (countEntry m i s) := by
  obtain ⟨hcounted, htotals⟩ := h
  have hlt := Manifest.offset_lt (m := m) (n := i + 1) hi
  rw [offset_succ, offset_succ] at hlt
  have hown : (splitNames (m.entry i).owns 0 0 0 s.ownNames).1 = (m.owns i).length := by
    rw [(splitNames_eq _ _ _ _ _ (by change 0 + (m.owns i).length < 2 ^ 32; omega)).1, Nat.zero_add, Manifest.owns]
  have hneed : (splitNames (m.entry i).needs 0 0 0 s.needNames).1 = (m.needs i).length := by
    rw [(splitNames_eq _ _ _ _ _ (by change 0 + (m.needs i).length < 2 ^ 32; omega)).1, Nat.zero_add, Manifest.needs]
  simp only [countEntry, modify_run, Post, hown, hneed]
  refine ⟨⟨hcounted.entryCount, forall_update hcounted.ownOffset htotals.owns, forall_update hcounted.needOffset htotals.needs,
    forall_update hcounted.grantOffset htotals.grants, forall_update hcounted.ownCount rfl,
    forall_update hcounted.needCount rfl⟩, ?_, ?_, ?_⟩
  · show (s.ownsTotal + (m.owns i).length) % 2 ^ 32 = _
    rw [htotals.owns, offset_succ, Nat.mod_eq_of_lt (by omega)]
  · show (s.needsTotal + (m.needs i).length) % 2 ^ 32 = _
    rw [htotals.needs, offset_succ, Nat.mod_eq_of_lt (by omega)]
  · show (s.grantsTotal + ((m.owns i).length + (m.needs i).length) % 2 ^ 32) % 2 ^ 32 = _
    rw [htotals.grants, offset_succ, offset_succ, Nat.mod_eq_of_lt (by omega : (m.owns i).length + (m.needs i).length < _),
      Nat.mod_eq_of_lt (by omega)]
    omega

theorem count_post (h : s.entryCount = m.size) (htotals : Totals m 0 s) :
    Post (fun _ s => Counted m m.size s ∧ Totals m m.size s) (fun _ => ¬ m.Buildable) (forRange m.size (countEntry m) s) := by
  refine Post.forRange (fun i s => Counted m i s ∧ Totals m i s) ⟨⟨h, ?_, ?_, ?_, ?_, ?_⟩, htotals⟩ fun i hi s hs =>
    countEntry_post hi hs
  all_goals
    intro i hi
    omega

/-! ## Filling -/

theorem splitNames_fill (rows : ℕ → List Name) {text : Text} {out : ℕ → Name} (hrow : rows i = names text)
    (hlt : (names text).length < 2 ^ 32) (h : Holds out (flat rows i)) :
    (splitNames text (offset rows i) (rows i).length 0 out).1 = (rows i).length ∧
      Holds (splitNames text (offset rows i) (rows i).length 0 out).2 (flat rows (i + 1)) := by
  obtain ⟨hcount, hkept, hnew⟩ := splitNames_eq text (offset rows i) (rows i).length 0 out (by omega)
  refine ⟨by rw [hcount, Nat.zero_add, hrow], ?_⟩
  rw [flat_succ]
  refine h.append (fun p hp => hkept p (.inl hp)) fun k name hk => ?_
  have hlen := (List.getElem?_eq_some_iff.1 hk).1
  rw [hrow] at hk
  exact hnew k name hk (by omega)

structure Filled (m : Manifest) (n : ℕ) (s : Building) : Prop extends Counted m m.size s where
  ownNames : Holds s.ownNames (flat m.owns n)
  needNames : Holds s.needNames (flat m.needs n)

theorem fillEntry_post (hi : i < m.size) (h : Filled m i s) :
    Post (fun _ => Filled m (i + 1)) (fun _ => ¬ m.Buildable) (fillEntry m i s) := by
  have hlt := Manifest.lengths_lt hi
  have howns : Post (fun _ s' => Holds s'.ownNames (flat m.owns (i + 1)) ∧ ∃ out, s' = { s with ownNames := out })
      (fun _ => ¬ m.Buildable) (fillOwns m i s) := by
    obtain ⟨hcount, hholds⟩ := splitNames_fill m.owns rfl (by rw [← Manifest.owns]; omega) h.ownNames
    simp only [fillOwns, get_bind_run, modify_bind_run, h.ownOffset i hi, h.ownCount i hi]
    exact refuseIf_post (fun hne => absurd hcount (by simpa using hne)) fun _ => ⟨hholds, _, rfl⟩
  refine Post.bind howns fun _ s' hs' => ?_
  obtain ⟨hown, out, rfl⟩ := hs'
  obtain ⟨hcount, hholds⟩ := splitNames_fill m.needs rfl (by rw [← Manifest.needs]; omega) h.needNames
  simp only [fillNeeds, get_bind_run, modify_bind_run, h.needOffset i hi, h.needCount i hi]
  exact refuseIf_post (fun hne => absurd hcount (by simpa using hne)) fun _ =>
    { h with ownNames := hown, needNames := hholds }

theorem fill_post (h : Counted m m.size s) :
    Post (fun _ => Filled m m.size) (fun _ => ¬ m.Buildable) (forRange m.size (fillEntry m) s) :=
  Post.forRange (Filled m) { h with ownNames := .nil, needNames := .nil } fun _ hi _ hs => fillEntry_post hi hs

/-! ## One owner for each port -/

def Building.owned (s : Building) (p : ℕ) : Name × ℕ := ((s.ports p).name, (s.ports p).owner)

theorem Building.owned_update (s : Building) (p : ℕ) (port : Port) :
    Building.owned { s with ports := Function.update s.ports p port } = Function.update s.owned p (port.name, port.owner) := by
  funext q
  by_cases hq : q = p
  · subst hq
    simp [owned]
  · simp [owned, hq]

def Manifest.portRow (m : Manifest) (i : ℕ) : List (Name × ℕ) := (m.owns i).map fun name => (name, i)

theorem Manifest.map_fst_portRow : (m.portRow i).map Prod.fst = m.owns i := by
  simp [portRow, Function.comp_def]

theorem Manifest.map_fst_flat (n : ℕ) : (flat m.portRow n).map Prod.fst = flat m.owns n := by
  simp only [flat, List.map_flatMap, map_fst_portRow]

theorem Manifest.offset_portRow (n : ℕ) : offset m.portRow n = offset m.owns n := offset_map _

structure Declared (m : Manifest) (l : List (Name × ℕ)) (s : Building) : Prop extends Filled m m.size s where
  portCount : s.portCount = offset m.owns m.size
  ports : Holds s.owned l
  once : (l.map Prod.fst).Nodup

theorem Buildable.once_of_begun (h : m.Buildable) {l : List (Name × ℕ)} (hl : l <+: flat m.portRow m.size) :
    (l.map Prod.fst).Nodup := by
  have hsub := (hl.sublist.map Prod.fst)
  rw [Manifest.map_fst_flat] at hsub
  exact h.once.sublist hsub

theorem declarePort_post {l : List (Name × ℕ)} {name : Name} (hi : i < m.size) (hplace : l.length = offset m.owns i + j)
    (hname : (m.owns i)[j]? = some name) (hl : l ++ [(name, i)] <+: flat m.portRow m.size) (h : Declared m l s) :
    Post (fun _ => Declared m (l ++ [(name, i)])) (fun _ => ¬ m.Buildable) (declarePort i j s) := by
  have hat : s.ownNames l.length = name := hplace ▸ h.ownNames.row hi hname
  simp only [declarePort, get_bind_run, modify_bind_run, h.ownOffset i hi, ← hplace, hat]
  set s' : Building := { s with ports := Function.update s.ports l.length ⟨name, i, 0⟩ } with hs'
  have hports : Holds s'.owned (l ++ [(name, i)]) := by
    rw [hs', Building.owned_update]
    exact h.ports.snoc _
  have hpast : ∀ k (hk : k < l.length), (s'.ports k).name = (l[k]).1 := fun k hk =>
    congrArg Prod.fst (hports k _ ((List.getElem?_append_left hk).trans (List.getElem?_eq_getElem hk)))
  -- the ports before it are looked through
  have hloop : Post (fun _ s'' => s'' = s' ∧ ∀ k < l.length, (s'.ports k).name ≠ name) (fun _ => ¬ m.Buildable)
      (forRange l.length (fun k => refuseIf (sameName (s'.ports k).name name) "two services declare the same port") s') := by
    refine Post.forRange (fun k s'' => s'' = s' ∧ ∀ k' < k, (s'.ports k').name ≠ name) ⟨rfl, fun _ hk => absurd hk (by omega)⟩ ?_
    rintro k hk _ ⟨rfl, hne⟩
    refine refuseIf_post (fun hsame hb => ?_) fun hsame => ⟨rfl, fun k' hk' => ?_⟩
    · rw [sameName_iff, hpast k hk] at hsame
      have hnodup := Buildable.once_of_begun hb hl
      rw [List.map_append, List.nodup_append] at hnodup
      refine hnodup.2.2 _ (List.mem_map_of_mem (List.getElem_mem hk)) name ?_ hsame
      simp
    · by_cases hlast : k' = k
      · rw [hlast]
        intro heq
        rw [sameName_iff.2 heq] at hsame
        cases hsame
      · exact hne k' (by omega)
  refine hloop.mono ?_ fun _ hb => hb
  rintro _ _ ⟨rfl, hne⟩
  refine { h with ports := hports, once := ?_ }
  rw [List.map_append, List.nodup_append]
  refine ⟨h.once, by simp, fun a ha b hb hab => ?_⟩
  obtain ⟨k, hk, rfl⟩ := List.mem_iff_getElem.1 ha
  rw [List.length_map] at hk
  simp only [List.map_cons, List.map_nil, List.mem_singleton] at hb
  rw [List.getElem_map, ← hpast k hk] at hab
  exact hne k hk (hab.trans hb)

theorem declarePorts_post (hi : i < m.size) (h : Declared m (flat m.portRow i) s) :
    Post (fun _ => Declared m (flat m.portRow (i + 1))) (fun _ => ¬ m.Buildable) (declarePorts i s) := by
  simp only [declarePorts, get_bind_run, h.ownCount i hi]
  have hloop := Post.forRange (f := declarePort i) (n := (m.owns i).length) (E := fun _ => ¬ m.Buildable)
    (fun j => Declared m (flat m.portRow i ++ (m.portRow i).take j)) (s := s) (by simpa using h) ?_
  · rw [flat_take_all (List.length_map _)] at hloop
    exact hloop
  · intro j hj s hs
    have hname : (m.owns i)[j]? = some (m.owns i)[j] := List.getElem?_eq_getElem hj
    have hport : (m.portRow i)[j]? = some ((m.owns i)[j], i) := by rw [Manifest.portRow, List.getElem?_map, hname]; rfl
    have hplace := length_flat_take (Nat.le_of_lt (List.getElem?_eq_some_iff.1 hport).1)
    rw [Manifest.offset_portRow] at hplace
    rw [flat_take_succ hport]
    refine declarePort_post hi hplace hname ?_ hs
    rw [← flat_take_succ hport]
    exact flat_begun hi

theorem declare_post (h : Filled m m.size s) (hcount : s.portCount = offset m.owns m.size) :
    Post (fun _ => Declared m (flat m.portRow m.size)) (fun _ => ¬ m.Buildable) (forRange m.size declarePorts s) :=
  Post.forRange (fun i => Declared m (flat m.portRow i)) { h with portCount := hcount, ports := .nil, once := List.nodup_nil }
    fun _ hi _ hs => declarePorts_post hi hs

/-! ## Needs -/

/-- The ports all declared. -/
structure Ported (m : Manifest) (s : Building) : Prop extends Filled m m.size s where
  portCount : s.portCount = offset m.owns m.size
  ports : Holds s.owned (flat m.portRow m.size)
  once : m.owned.Nodup

theorem Declared.ported (h : Declared m (flat m.portRow m.size) s) : Ported m s :=
  { h with once := by rw [Manifest.owned, ← Manifest.map_fst_flat]; exact h.once }

namespace Ported

variable (h : Ported m s)
include h

theorem name_eq {p : ℕ} {name : Name} (hp : m.owned[p]? = some name) : (s.ports p).name = name := by
  rw [Manifest.owned, ← Manifest.map_fst_flat, List.getElem?_map, Option.map_eq_some_iff] at hp
  obtain ⟨port, hport, rfl⟩ := hp
  exact congrArg Prod.fst (h.ports p port hport)

theorem port_eq {name : Name} (hi : i < m.size) (hname : name ∈ m.owns i) :
    (s.ports (m.portOf name)).name = name ∧ (s.ports (m.portOf name)).owner = i := by
  obtain ⟨j, hj, rfl⟩ := List.mem_iff_getElem.1 hname
  have hplace := Manifest.portOf_eq h.once hi (List.getElem?_eq_getElem hj)
  have hport : (m.portRow i)[j]? = some ((m.owns i)[j], i) := by
    rw [Manifest.portRow, List.getElem?_map, List.getElem?_eq_getElem hj]
    rfl
  have hat := h.ports.row hi hport
  rw [Manifest.offset_portRow, ← hplace] at hat
  exact ⟨congrArg Prod.fst hat, congrArg Prod.snd hat⟩

theorem portIndex_eq (name : Name) : s.portIndex name = m.portOf name := by
  have hlen : m.owned.length = s.portCount := h.portCount.symm
  have hname : ∀ p (hp : p < m.owned.length), (s.ports p).name = m.owned[p] := fun p hp =>
    h.name_eq (List.getElem?_eq_getElem hp)
  rw [PortGraph.portIndex, ← hlen]
  cases hfind : (List.range m.owned.length).find? fun p => sameName (s.ports p).name name with
  | none =>
    have hnot : name ∉ m.owned := by
      intro hmem
      obtain ⟨p, hp, rfl⟩ := List.mem_iff_getElem.1 hmem
      have hne := List.find?_eq_none.1 hfind p (List.mem_range.2 hp)
      exact hne (sameName_iff.2 (hname p hp))
    exact (List.idxOf_eq_length hnot).symm
  | some p =>
    have hp : p < m.owned.length := List.mem_range.1 (List.mem_of_find?_eq_some hfind)
    have hsame := List.find?_some hfind
    rw [sameName_iff, hname p hp] at hsame
    subst hsame
    exact (h.once.idxOf_getElem p hp).symm

end Ported

structure Resolved (m : Manifest) (l : List ℕ) (s : Building) : Prop extends Ported m s where
  needPort : Holds s.needPort l

def Manifest.needRow (m : Manifest) (i : ℕ) : List ℕ := (m.needs i).map m.portOf

theorem Manifest.offset_needRow (n : ℕ) : offset m.needRow n = offset m.needs n := offset_map _

/-- Each need of the first `n` entries is served by another. -/
def Manifest.ServedTo (m : Manifest) (i j : ℕ) : Prop :=
  ∀ k name, k < j → (m.needs i)[k]? = some name → ∃ owner < m.size, owner ≠ i ∧ name ∈ m.owns owner

theorem resolveNeed_post (hi : i < m.size) (hj : j < (m.needs i).length)
    (h : Resolved m (flat m.needRow i ++ (m.needRow i).take j) s ∧ m.ServedTo i j) :
    Post (fun _ s => Resolved m (flat m.needRow i ++ (m.needRow i).take (j + 1)) s ∧ m.ServedTo i (j + 1))
      (fun _ => ¬ m.Buildable) (resolveNeed i j s) := by
  obtain ⟨h, hserved⟩ := h
  have hneed : (m.needs i)[j]? = some (m.needs i)[j] := List.getElem?_eq_getElem hj
  have hmem : (m.needs i)[j] ∈ m.needs i := List.getElem_mem hj
  have hat : s.needNames (offset m.needs i + j) = (m.needs i)[j] := h.needNames.row hi hneed
  have hplace : (m.needRow i)[j]? = some (m.portOf (m.needs i)[j]) := by rw [Manifest.needRow, List.getElem?_map, hneed]; rfl
  simp only [resolveNeed, get_bind_run, h.needOffset i hi, hat, h.portIndex_eq]
  refine Post.bind (refuseIf_post (Q := fun _ s' => s = s' ∧ (m.needs i)[j] ∈ m.owned) (s := s) (fun hnone hb => ?_) fun hsome => ⟨rfl, ?_⟩) ?_
  · obtain ⟨k, hk, -, howns⟩ := hb.served i hi _ hmem
    have hlt : m.portOf (m.needs i)[j] < m.owned.length := List.idxOf_lt_length_of_mem (Manifest.mem_owned.2 ⟨k, hk, howns⟩)
    rw [beq_iff_eq, h.portCount] at hnone
    exact absurd hnone (Nat.ne_of_lt hlt)
  · by_contra hnot
    rw [beq_eq_false_iff_ne, h.portCount] at hsome
    exact hsome (List.idxOf_eq_length hnot)
  rintro _ _ ⟨rfl, hknown⟩
  obtain ⟨owner, howner, howns⟩ := Manifest.mem_owned.1 hknown
  obtain ⟨-, hport⟩ := h.port_eq howner howns
  refine Post.bind (refuseIf_post (Q := fun _ s' => s = s' ∧ owner ≠ i) (s := s) (fun hself hb => ?_) fun hother => ⟨rfl, ?_⟩) ?_
  · obtain ⟨k, hk, hne, hkowns⟩ := hb.served i hi _ hmem
    rw [beq_iff_eq, (h.port_eq hk hkowns).2] at hself
    exact hne hself
  · rw [hport, beq_eq_false_iff_ne] at hother
    exact hother
  rintro _ _ ⟨rfl, hne⟩
  refine ⟨{ h with needPort := ?_ }, fun k name hk hname => ?_⟩
  · rw [← Manifest.offset_needRow]
    exact h.needPort.place hplace
  · by_cases hlast : k = j
    · subst hlast
      rw [hneed, Option.some.injEq] at hname
      subst hname
      exact ⟨owner, howner, hne, howns⟩
    · exact hserved k name (by omega) hname

theorem resolve_post (h : Ported m s) :
    Post (fun _ s => Resolved m (flat m.needRow m.size) s ∧
        ∀ i < m.size, ∀ name ∈ m.needs i, ∃ k < m.size, k ≠ i ∧ name ∈ m.owns k)
      (fun _ => ¬ m.Buildable) (forRange m.size resolveNeeds s) := by
  refine Post.forRange (fun n s => Resolved m (flat m.needRow n) s ∧
    ∀ i < n, ∀ name ∈ m.needs i, ∃ k < m.size, k ≠ i ∧ name ∈ m.owns k) ⟨{ h with needPort := .nil }, fun i hi => absurd hi (by omega)⟩ ?_
  rintro i hi s ⟨hs, hserved⟩
  simp only [resolveNeeds, get_bind_run, hs.needCount i hi]
  refine (Post.forRange (E := fun _ => ¬ m.Buildable)
    (fun j s => Resolved m (flat m.needRow i ++ (m.needRow i).take j) s ∧ m.ServedTo i j) ⟨by simpa using hs, ?_⟩
    fun j hj s hs => resolveNeed_post hi hj hs).mono ?_ fun _ hb => hb
  · intro k name hk
    omega
  · rintro _ s' ⟨hs', hrow⟩
    rw [flat_take_all (List.length_map _)] at hs'
    refine ⟨hs', fun k hk name hname => ?_⟩
    by_cases hlast : k = i
    · subst hlast
      obtain ⟨j, hj, rfl⟩ := List.mem_iff_getElem.1 hname
      exact hrow j _ hj (List.getElem?_eq_getElem hj)
    · exact hserved k (by omega) name hname

end Aegir.Director
