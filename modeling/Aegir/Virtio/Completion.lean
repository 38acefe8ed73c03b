/-
  A request is answered by its own completion, where none is left behind.
-/
import Aegir.Virtio.Queue

namespace Aegir.Virtio

variable {q : Queue} {s s' : St} {a : Act} {r : Request} {page page' : Page} {rest : List Store}

structure Answered (q : Queue) (s : St) : Prop where
  /-- What was reported done was done for that very request. -/
  own : ∀ report ∈ s.reports, report.completed = true → report.status = 0 →
    ∃ r, s.requests[report.serial]? = some r ∧ ⟨report.serial, q.op r, 0⟩ ∈ s.performed
  /-- An entry of the ring moved the data of its own request, of no other. -/
  kept : ∀ p ∈ s.performed, ∃ r, s.requests[p.serial]? = some r ∧ p.op = q.op r

/-- A request begins when the device has finished with those before it. -/
def Caught (s : St) : Act → Prop
  | .start _ => s.page .usedIdx = s.page .availIdx
  | _ => True

/-! ## Reading the chain -/

def Cell.Chained : Cell → Prop
  | .desc _ _ | .header _ | .segment _ => True
  | _ => False

theorem read_congr (h : ∀ cell : Cell, cell.Chained → page cell = page' cell) (head : ℕ) : page.read head = page'.read head := by
  have hdesc : ∀ i word, page (.desc i word) = page' (.desc i word) := fun i word => h _ trivial
  have hheader : ∀ word, page (.header word) = page' (.header word) := fun word => h _ trivial
  have hsegment : ∀ word, page (.segment word) = page' (.segment word) := fun word => h _ trivial
  simp only [Page.read, Page.next, hdesc, hheader, hsegment]
  rfl

theorem read_update {cell : Cell} (h : ¬ cell.Chained) (value head : ℕ) :
    Page.read (Function.update page cell value) head = page.read head := by
  refine read_congr (fun cell' hcell' => ?_) head
  have hne : cell' ≠ cell := by
    rintro rfl
    exact h hcell'
  exact Function.update_of_ne hne value page

/-- Stores before the index: they leave the indices, and name no head but zero. -/
def Plain (store : Store) : Prop :=
  store.1 ≠ .availIdx ∧ store.1 ≠ .usedIdx ∧ ∀ i, store.1 = .availRing i → store.2 = 0

/-- The stores of a request but the last. -/
def Queue.body (q : Queue) (nextAvail : ℕ) (r : Request) : List Store :=
  Queue.headerStores r ++ (.status, 0xff) :: ((q.chain r).mapIdx fun i buf => Queue.descStores 3 i buf).flatten ++
    [(.availFlags, 0), (.availRing (nextAvail % q.size), 0)]

theorem stores_eq (nextAvail : ℕ) (r : Request) :
    q.stores nextAvail r = q.body nextAvail r ++ [(.availIdx, (nextAvail + 1) % 2 ^ 16)] := by
  simp [Queue.stores, Queue.publishStores, Queue.body, Queue.chain]

theorem plain_body (nextAvail : ℕ) (r : Request) : ∀ store ∈ q.body nextAvail r, Plain store := by
  obtain ⟨_ | _ | _, -⟩ := r <;>
    simp [Queue.body, Queue.headerStores, Queue.chain, Queue.descStores, Plain]

theorem body_read (nextAvail : ℕ) (r : Request) (page : Page) : (page.apply (q.body nextAvail r)).read 0 = q.op r := by
  obtain ⟨_ | _ | _, -⟩ := r <;>
    simp [Queue.body, Queue.headerStores, Queue.chain, Queue.descStores, Queue.dataBuf, Page.apply, Page.read, Page.next,
      Queue.op, BlkType.code, kDescNext, kDescWrite, Nat.mod_add_div]

theorem body_status (nextAvail : ℕ) (r : Request) (page : Page) : page.apply (q.body nextAvail r) .status = 0xff := by
  obtain ⟨_ | _ | _, -⟩ := r <;>
    simp [Queue.body, Queue.headerStores, Queue.chain, Queue.descStores, Page.apply]

/-! ## The invariant -/

/-- The driver stores a request, and the device has none. -/
structure Preparing (q : Queue) (s : St) (r : Request) (rest : List Store) : Prop where
  phase : s.phase = .storing (rest ++ [(.availIdx, s.requests.length % 2 ^ 16)])
  last : s.requests.getLast? = some r
  plain : ∀ store ∈ rest, Plain store
  read : (s.page.apply rest).read 0 = q.op r
  status : s.page.apply rest .status = 0xff
  device : s.device = .idle
  taken : s.taken + 1 = s.requests.length
  nextAvail : s.nextAvail = s.taken % 2 ^ 16
  availIdx : s.page .availIdx = s.taken % 2 ^ 16
  usedIdx : s.page .usedIdx = s.taken % 2 ^ 16

/-- The device is at the last request. -/
structure Busy (taken usedIdx : ℕ) (requests : List Request) : Prop where
  taken : taken = requests.length
  pos : 0 < requests.length
  usedIdx : usedIdx = (requests.length - 1) % 2 ^ 16

/-- How far the device is. -/
def AtWork (q : Queue) (taken usedIdx : ℕ) (requests : List Request) (performed : List Performed) : DevicePhase → Prop
  | .idle => (taken = requests.length ∨ taken + 1 = requests.length) ∧ usedIdx = taken % 2 ^ 16
  | .took head => Busy taken usedIdx requests ∧ head = 0
  | .fetched op => Busy taken usedIdx requests ∧ ∀ r, requests.getLast? = some r → op = q.op r
  | .done op status => Busy taken usedIdx requests ∧ (∀ r, requests.getLast? = some r → op = q.op r) ∧
      ⟨requests.length - 1, op, status⟩ ∈ performed
  | .answered => Busy taken usedIdx requests

/-- What the next request finds in `nextAvail`. -/
def Phase.next (nextAvail : ℕ) : Phase → ℕ
  | .storing _ => (nextAvail + 1) % 2 ^ 16
  | _ => nextAvail

/-- Every request is published, and the device has at most the last to do. -/
structure Settled (q : Queue) (s : St) : Prop where
  phase : ∀ store todo, s.phase ≠ .storing (store :: todo)
  nextAvail : s.phase.next s.nextAvail = s.requests.length % 2 ^ 16
  availIdx : s.page .availIdx = s.requests.length % 2 ^ 16
  read : ∀ r, s.requests.getLast? = some r → s.page.read 0 = q.op r
  status : s.page .status = 0 → ∀ r, s.requests.getLast? = some r → ⟨s.requests.length - 1, q.op r, 0⟩ ∈ s.performed
  device : AtWork q s.taken (s.page .usedIdx) s.requests s.performed s.device

structure Inv (q : Queue) (s : St) : Prop extends Answered q s where
  asked : s.phase = .idle ∨ s.requests ≠ []
  rings : ∀ i, s.page (.availRing i) = 0
  side : (∃ r rest, Preparing q s r rest) ∨ Settled q s

theorem getElem?_last {requests : List Request} (h : requests.getLast? = some r) : requests[requests.length - 1]? = some r := by
  rw [← List.getLast?_eq_getElem?, h]

theorem Inv.start : Inv q .start := by
  refine ⟨⟨?_, ?_⟩, .inl rfl, fun _ => rfl, .inr ⟨?_, rfl, rfl, ?_, ?_, .inl rfl, rfl⟩⟩
  · intro report hreport
    cases hreport
  · intro p hp
    cases hp
  · intro store todo h
    cases h
  · intro r h
    cases h
  · intro _ r h
    cases h

theorem Inv.settled (h : Inv q s) (hphase : ∀ store todo, s.phase ≠ .storing (store :: todo)) : Settled q s := by
  rcases h.side with ⟨r, rest, hprep⟩ | hsettled
  · exfalso
    cases rest with
    | nil => exact hphase _ _ hprep.phase
    | cons store rest => exact hphase _ _ hprep.phase
  · exact hsettled

/-! ## The driver's steps -/

theorem start_inv (h : Inv q s) (hphase : s.phase = .idle) (hcaught : s.page .usedIdx = s.page .availIdx) :
    Inv q { s with phase := .storing (q.stores s.nextAvail r), requests := s.requests ++ [r] } := by
  have hsettled := h.settled (by simp [hphase])
  have hnext : s.nextAvail = s.requests.length % 2 ^ 16 := by
    have hnext := hsettled.nextAvail
    rwa [hphase] at hnext
  -- the device is idle and has taken all
  have hidle : s.device = .idle ∧ s.taken = s.requests.length := by
    have hdevice := hsettled.device
    rw [hsettled.availIdx] at hcaught
    have hnot : ¬ Busy s.taken (s.page .usedIdx) s.requests := by
      intro hbusy
      have hused := hbusy.usedIdx
      have hpos := hbusy.pos
      omega
    cases hd : s.device with
    | idle =>
      rw [hd] at hdevice
      obtain ⟨htaken, hused⟩ := hdevice
      exact ⟨rfl, by omega⟩
    | took head => rw [hd] at hdevice; exact absurd hdevice.1 hnot
    | fetched op => rw [hd] at hdevice; exact absurd hdevice.1 hnot
    | done op status => rw [hd] at hdevice; exact absurd hdevice.1 hnot
    | answered => rw [hd] at hdevice; exact absurd hdevice hnot
  have hpush : ∀ {k : ℕ} {r' : Request}, s.requests[k]? = some r' → (s.requests ++ [r])[k]? = some r' := by
    intro k r' hk
    exact (List.getElem?_append_left (List.getElem?_eq_some_iff.1 hk).1).trans hk
  refine ⟨⟨fun report hreport hdone hzero => ?_, fun p hp => ?_⟩, .inr (by simp), h.rings, .inl ⟨r, q.body s.nextAvail r, ?_⟩⟩
  · obtain ⟨r', hr', hmem⟩ := h.own report hreport hdone hzero
    exact ⟨r', hpush hr', hmem⟩
  · obtain ⟨r', hr', hop⟩ := h.kept p hp
    exact ⟨r', hpush hr', hop⟩
  · refine ⟨?_, List.getLast?_concat, plain_body _ _, body_read _ _ _, body_status _ _ _, hidle.1, ?_, ?_, ?_, ?_⟩
    · show Phase.storing _ = _
      rw [stores_eq, hnext, List.length_append, List.length_singleton, Nat.mod_add_mod]
    · simp [hidle.2]
    · rw [hidle.2]
      exact hnext
    · rw [hidle.2]
      exact hsettled.availIdx
    · rw [hidle.2]
      exact hcaught.trans hsettled.availIdx

theorem store_inv {cell : Cell} {value : ℕ} {todo : List Store} (h : Inv q s) (hphase : s.phase = .storing ((cell, value) :: todo)) :
    Inv q { s with page := Function.update s.page cell value, phase := .storing todo } := by
  have hasked : s.requests ≠ [] := by
    refine h.asked.resolve_left ?_
    simp [hphase]
  obtain ⟨r, rest, hprep⟩ | hsettled := h.side
  swap
  · exact absurd hphase (hsettled.phase _ _)
  have htodo : (cell, value) :: todo = rest ++ [(.availIdx, s.requests.length % 2 ^ 16)] :=
    Phase.storing.inj (hphase.symm.trans hprep.phase)
  cases rest with
  | nil =>
    -- the index: the request is published
    obtain ⟨hstore, rfl⟩ := List.cons.inj htodo
    obtain ⟨rfl, rfl⟩ := Prod.mk.inj hstore
    refine ⟨⟨h.own, h.kept⟩, .inr hasked, fun i => ?_, .inr ⟨?_, ?_, ?_, fun r' hr' => ?_, fun hzero => ?_, ?_⟩⟩
    · simpa using h.rings i
    · intro store todo hs
      cases hs
    · show (s.nextAvail + 1) % 2 ^ 16 = s.requests.length % 2 ^ 16
      rw [hprep.nextAvail, ← hprep.taken, Nat.mod_add_mod]
    · show Function.update s.page .availIdx (s.requests.length % 2 ^ 16) .availIdx = s.requests.length % 2 ^ 16
      rw [Function.update_self]
    · obtain rfl := Option.some.inj (hprep.last.symm.trans hr')
      exact (read_update (by simp [Cell.Chained]) _ _).trans hprep.read
    · have hstatus : s.page .status = 0xff := hprep.status
      have hzero : s.page .status = 0 := hzero
      omega
    · show AtWork q s.taken (Function.update s.page .availIdx (s.requests.length % 2 ^ 16) .usedIdx) s.requests s.performed s.device
      rw [hprep.device]
      exact ⟨.inr hprep.taken, by simpa using hprep.usedIdx⟩
  | cons store rest =>
    obtain ⟨rfl, rfl⟩ := List.cons.inj htodo
    obtain ⟨havail, hused, hring⟩ := hprep.plain (cell, value) List.mem_cons_self
    refine ⟨⟨h.own, h.kept⟩, .inr hasked, fun i => ?_, .inl ⟨r, rest, rfl, hprep.last, ?_, hprep.read, hprep.status,
      hprep.device, hprep.taken, hprep.nextAvail, ?_, ?_⟩⟩
    · show Function.update s.page cell value (.availRing i) = 0
      by_cases hat : cell = .availRing i
      · rw [hat, Function.update_self]
        exact hring i hat
      · rw [Function.update_of_ne (Ne.symm hat)]
        exact h.rings i
    · exact fun store hstore => hprep.plain store (List.mem_cons_of_mem _ hstore)
    · exact (Function.update_of_ne (Ne.symm havail) _ _).trans hprep.availIdx
    · exact (Function.update_of_ne (Ne.symm hused) _ _).trans hprep.usedIdx

theorem phase_inv {phase : Phase} {nextAvail lastUsed : ℕ} (h : Inv q s) (hasked : s.requests ≠ [])
    (hold : ∀ store todo, s.phase ≠ .storing (store :: todo)) (hnew : ∀ todo, phase ≠ .storing todo)
    (hnext : nextAvail = s.phase.next s.nextAvail) : Inv q { s with phase, nextAvail, lastUsed } := by
  have hsettled := h.settled hold
  refine { h with asked := .inr hasked, side := .inr { hsettled with phase := fun store todo => hnew _, nextAvail := ?_ } }
  have hphase : phase.next nextAvail = nextAvail := by
    cases phase with
    | storing todo => exact absurd rfl (hnew todo)
    | _ => rfl
  exact hphase.trans (hnext.trans hsettled.nextAvail)

theorem finish_inv {completed : Bool} (h : Inv q s) (hphase : s.phase = .harvested completed) :
    Inv q { s with reports := s.reports ++ [⟨s.requests.length - 1, completed, s.page .status⟩], phase := .idle } := by
  have hsettled := h.settled (by simp [hphase])
  have hasked : s.requests ≠ [] := h.asked.resolve_left (by simp [hphase])
  have hnext := hsettled.nextAvail
  rw [hphase] at hnext
  refine { h with own := fun report hreport hdone hzero => ?_, asked := .inl rfl, side := .inr { hsettled with phase := nofun, nextAvail := hnext } }
  rcases List.mem_append.1 hreport with hold | hlast
  · exact h.own report hold hdone hzero
  · rw [List.mem_singleton] at hlast
    subst hlast
    have hr := List.getLast?_eq_some_getLast hasked
    exact ⟨_, getElem?_last hr, hsettled.status hzero _ hr⟩

theorem driver_inv (h : Inv q s) (hcaught : Caught s a) (hstep : driverStep q s a = some s') : Inv q s' := by
  cases hphase : s.phase with
  | idle =>
    cases a <;> simp only [driverStep, hphase, reduceCtorEq, Option.some.injEq] at hstep
    subst hstep
    exact start_inv h hphase hcaught
  | storing todo =>
    rcases todo with _ | ⟨⟨cell, value⟩, todo⟩ <;>
      cases a <;> simp only [driverStep, hphase, reduceCtorEq, Option.some.injEq] at hstep <;> subst hstep
    · have hasked : s.requests ≠ [] := h.asked.resolve_left (by simp [hphase])
      exact phase_inv h hasked (by simp [hphase]) (fun _ hnew => by cases hnew) (by rw [hphase]; rfl)
    · exact store_inv h hphase
  | waiting left =>
    have hasked : s.requests ≠ [] := h.asked.resolve_left (by simp [hphase])
    have hkept : ∀ phase : Phase, (∀ todo, phase ≠ .storing todo) → Inv q { s with phase } := fun phase hnew =>
      phase_inv h hasked (by simp [hphase]) hnew (by rw [hphase]; rfl)
    cases a <;> simp only [driverStep, hphase, reduceCtorEq] at hstep
    split at hstep
    · cases hstep
      exact hkept _ fun _ hnew => by cases hnew
    · split at hstep
      · cases hstep
        exact h
      · cases left <;> cases hstep <;> exact hkept _ fun _ hnew => by cases hnew
  | harvesting =>
    have hasked : s.requests ≠ [] := h.asked.resolve_left (by simp [hphase])
    cases a <;> simp only [driverStep, hphase, reduceCtorEq] at hstep
    split at hstep <;> cases hstep <;> exact phase_inv h hasked (by simp [hphase]) (fun _ hnew => by cases hnew) (by rw [hphase]; rfl)
  | harvested completed =>
    cases a <;> simp only [driverStep, hphase, reduceCtorEq, Option.some.injEq] at hstep
    subst hstep
    exact finish_inv h hphase

/-! ## The device's steps -/

theorem Preparing.deviceStep (h : Preparing q s r rest) : Virtio.deviceStep q s a = none := by
  cases a <;> simp only [Virtio.deviceStep, h.device]
  rw [if_pos h.availIdx]

theorem Answered.perform {op : Op} (status : ℕ) (h : Answered q s) (hbusy : Busy s.taken (s.page .usedIdx) s.requests)
    (hop : ∀ r, s.requests.getLast? = some r → op = q.op r) :
    Answered q { s with device := .done op status, performed := s.performed ++ [⟨s.taken - 1, op, status⟩] } := by
  refine ⟨fun report hreport hdone hzero => ?_, fun p hp => ?_⟩
  · obtain ⟨r, hr, hmem⟩ := h.own report hreport hdone hzero
    exact ⟨r, hr, List.mem_append_left _ hmem⟩
  · rcases List.mem_append.1 hp with hold | hnew
    · exact h.kept p hold
    · rw [List.mem_singleton] at hnew
      subst hnew
      obtain ⟨r, hr⟩ : ∃ r, s.requests.getLast? = some r :=
      ⟨_, List.getLast?_eq_some_getLast (List.length_pos_iff.1 hbusy.pos)⟩
      have hlast := getElem?_last hr
      rw [← hbusy.taken] at hlast
      exact ⟨_, hlast, hop _ hr⟩

theorem device_inv (h : Inv q s) (hstep : deviceStep q s a = some s') : Inv q s' := by
  obtain ⟨r, rest, hprep⟩ | hsettled := h.side
  · rw [hprep.deviceStep] at hstep
    cases hstep
  have hwork := hsettled.device
  cases hdevice : s.device with
  | idle =>
    rw [hdevice] at hwork
    obtain ⟨htaken, hused⟩ := hwork
    cases a <;> simp only [deviceStep, hdevice, reduceCtorEq] at hstep
    split at hstep
    · cases hstep
    · rename_i havail
      cases hstep
      have hone : s.taken + 1 = s.requests.length := by
        refine htaken.resolve_left fun hall => havail ?_
        rw [hall]
        exact hsettled.availIdx
      have hbusy : Busy (s.taken + 1) (s.page .usedIdx) s.requests := by
        refine ⟨hone, by rw [← hone]; exact Nat.succ_pos _, ?_⟩
        rw [← hone, Nat.add_sub_cancel]
        exact hused
      exact { h with side := .inr { hsettled with device := ⟨hbusy, h.rings _⟩ } }
  | took head =>
    rw [hdevice] at hwork
    obtain ⟨hbusy, rfl⟩ := hwork
    cases a <;> simp only [deviceStep, hdevice, reduceCtorEq, Option.some.injEq] at hstep
    subst hstep
    exact { h with side := .inr { hsettled with device := ⟨hbusy, hsettled.read⟩ } }
  | fetched op =>
    rw [hdevice] at hwork
    obtain ⟨hbusy, hop⟩ := hwork
    cases a <;> simp only [deviceStep, hdevice, reduceCtorEq, Option.some.injEq] at hstep
    subst hstep
    have hanswered := h.toAnswered.perform ‹ℕ› hbusy hop
    refine { h with toAnswered := hanswered, side := .inr { hsettled with status := fun hzero r hr => ?_, device := ⟨hbusy, hop, ?_⟩ } }
    · exact List.mem_append_left _ (hsettled.status hzero r hr)
    · refine List.mem_append_right _ ?_
      rw [hbusy.taken]
      exact List.mem_singleton_self _
  | done op status =>
    rw [hdevice] at hwork
    obtain ⟨hbusy, hop, hmem⟩ := hwork
    cases a <;> simp only [deviceStep, hdevice, reduceCtorEq, Option.some.injEq] at hstep
    subst hstep
    refine { h with
      rings := fun i => by simpa using h.rings i
      side := .inr { hsettled with
        availIdx := by simpa using hsettled.availIdx
        read := fun r hr => (read_update (by simp [Cell.Chained]) _ _).trans (hsettled.read r hr)
        status := fun hzero r hr => ?_
        device := ?_ } }
    · have hzero : Function.update s.page .status status .status = 0 := hzero
      rw [Function.update_self] at hzero
      rw [← hop r hr, ← hzero]
      exact hmem
    · show Busy s.taken (Function.update s.page .status status .usedIdx) s.requests
      simpa using hbusy
  | answered =>
    rw [hdevice] at hwork
    cases a <;> simp only [deviceStep, hdevice, reduceCtorEq, Option.some.injEq] at hstep
    subst hstep
    refine { h with
      rings := fun i => by simpa using h.rings i
      side := .inr { hsettled with
        availIdx := by simpa using hsettled.availIdx
        read := fun r hr => ?_
        status := fun hzero r hr => hsettled.status (by simpa using hzero) r hr
        device := ⟨.inl hwork.taken, ?_⟩ } }
    · refine Eq.trans ?_ (hsettled.read r hr)
      rw [read_update (by simp [Cell.Chained]), read_update (by simp [Cell.Chained]), read_update (by simp [Cell.Chained])]
    · have hdone : (s.page .usedIdx + 1) % 2 ^ 16 = s.taken % 2 ^ 16 := by
        rw [hwork.usedIdx, Nat.mod_add_mod, hwork.taken, Nat.sub_add_cancel hwork.pos]
      simp only [Function.update_self]
      exact hdone

/-! ## Runs -/

theorem step_inv (h : Inv q s) (hcaught : Caught s a) (hstep : step q s a = some s') : Inv q s' := by
  unfold step at hstep
  split at hstep
  all_goals
    first
    | exact driver_inv h hcaught hstep
    | exact device_inv h hstep

/-- **A request is answered by its own completion** in every run that begins a request only when
    the device has finished with those before it. -/
theorem reaches_answered (q : Queue) {s : St} (h : Reaches q Caught s) : Answered q s := by
  have hinv : Inv q s := by
    induction h with
    | start => exact .start
    | step _ hcaught hstep ih => exact step_inv ih hcaught hstep
  exact hinv.toAnswered

/-! ## A request left behind -/

def sampleQueue : Queue := ⟨0x80000000, 128, false, by decide⟩

theorem one_sector_lt : 1 < 2 ^ 32 := by decide

def sampleRead (sector data : ℕ) (hsector : sector < 2 ^ 64) (hdata : data < 2 ^ 64) : Request :=
  ⟨.In, sector, data, 1, hsector, hdata, one_sector_lt⟩

def firstRead : Request := sampleRead 0 0x90000000 (by decide) (by decide)

def secondRead : Request := sampleRead 8 0xa0000000 (by decide) (by decide)

def publishRead : List Act := List.replicate 20 .store ++ [.notify]

def answerRead : List Act := [.take, .fetch, .perform 0, .answer, .complete 512]

def St.begin (q : Queue) (r : Request) : St :=
  { St.start with phase := .storing (q.stores 0 r), requests := [r] }

theorem reaches_answered_sample : ∃ s, run sampleQueue (publishRead ++ answerRead ++ [.look, .harvest, .finish])
    (.begin sampleQueue firstRead) = some s ∧ s.reports = [⟨0, true, 0⟩] ∧ Answered sampleQueue s := by
  obtain ⟨s, hrun⟩ := Option.isSome_iff_exists.1 (show (run sampleQueue (publishRead ++ answerRead ++ [.look, .harvest, .finish])
    (.begin sampleQueue firstRead)).isSome = true by decide)
  have hreports : ∀ s, run sampleQueue (publishRead ++ answerRead ++ [.look, .harvest, .finish])
      (.begin sampleQueue firstRead) = some s → s.reports = [⟨0, true, 0⟩] := by decide
  have hbegin : Reaches sampleQueue Caught (.begin sampleQueue firstRead) := .step (a := .start firstRead) .start rfl rfl
  refine ⟨s, hrun, hreports s hrun, reaches_answered sampleQueue (hbegin.run (fun a ha s => ?_) hrun)⟩
  cases a with
  | start r => simp [publishRead, answerRead] at ha
  | _ => trivial

/-- The first read, up to the wait; the device has read its chain. -/
def fetched : St := (run sampleQueue (publishRead ++ [.take, .fetch]) (.begin sampleQueue firstRead)).get (by decide)

/-- The wait runs out, and the second read meets the first's completion. -/
def secondRun : List Act :=
  [.look, .harvest, .finish, .start secondRead] ++ publishRead ++ [.perform 0, .answer, .complete 512, .look, .harvest, .finish]

/-- A wait is given up, and the next read is answered by the first's completion. -/
theorem late_completion : ¬ ∀ (q : Queue) (s : St), Reaches q (fun _ _ => True) s → Answered q s := by
  intro h
  have hbegin : Reaches sampleQueue (fun _ _ => True) (.begin sampleQueue firstRead) :=
    .step (a := .start firstRead) .start trivial rfl
  have hfetched : Reaches sampleQueue (fun _ _ => True) fetched := hbegin.run (fun _ _ _ => trivial) (Option.some_get _).symm
  have hwaits : fetched = { fetched with phase := .waiting (0 + (kSpins + 1)) } := by
    have hphase : fetched.phase = .waiting (0 + (kSpins + 1)) := by decide
    rw [← hphase]
  rw [hwaits] at hfetched
  have hlooked := hfetched.run (fun _ _ _ => trivial) (run_looks rfl (by decide) (kSpins + 1) 0)
  obtain ⟨s, hs⟩ := Option.isSome_iff_exists.1
    (show (run sampleQueue secondRun { fetched with phase := .waiting 0 }).isSome = true by decide)
  have hends : ∀ s, run sampleQueue secondRun { fetched with phase := .waiting 0 } = some s →
      ⟨1, true, 0⟩ ∈ s.reports ∧ ∀ p ∈ s.performed, p.serial = 0 := by decide
  obtain ⟨hreport, hserial⟩ := hends s hs
  obtain ⟨r, -, hmem⟩ := (h sampleQueue s (hlooked.run (fun _ _ _ => trivial) hs)).own _ hreport rfl rfl
  have hone : (1 : ℕ) = 0 := hserial _ hmem
  exact absurd hone (by decide)

end Aegir.Virtio
