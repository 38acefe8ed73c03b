/-
  One space, one owner: what the two ends of a window hand out.
-/
import Aegir.Mem.Scratch

namespace Aegir.Mem

open Aegir.Lib

namespace Window

/-- A call on the window. -/
inductive Op where
  | map (frame : ℕ) (as : List Alloc)
  | mapLarge (frame : ℕ) (as : List Alloc)
  | mapAt (address frame bits : ℕ) (as : List Alloc)
  | unmap (frame : ℕ)
  | reserve (pages : ℕ)
  | release (base pages : ℕ)

def step (w : Window) : Op → Window
  | .map frame as => (w.map frame as).2
  | .mapLarge frame as => (w.mapLarge frame as).2
  | .mapAt address frame bits as => (w.mapAt address frame bits as).2.1
  | .unmap frame => w.unmap frame
  | .reserve pages => (w.reserve pages).2
  | .release base pages => w.release base pages

/-- What the calls have handed out is exclusive: the reserved runs lie in the window,
    and no address is in two of the reserved runs and the streamed pages. -/
structure Exclusive (w : Window) : Prop where
  within : ∀ r ∈ w.reserved, w.scratch.base ≤ r.base ∧ r.stop ≤ w.scratch.limit
  apart : (w.reserved ++ w.streamed.map Streamed.extent).Pairwise Extent.Apart

/-! ## The condition -/

/-- How many node pages the allocator's answers make it ask for. -/
def nodePages (as : List Alloc) : ℕ :=
  (as.flatMap fun a => a.growths ++ a.freed).countP fun g => g.frame ≠ 0

/-- Whether a small page is mapped at `address`. -/
def occupied (v : VSpace) (address : ℕ) : Bool :=
  v.leaves.any fun l => decide (l.bits = pageBits ∧ l.address / kPage = address / kPage)

/-- How many of the `n` pages from `address` on are occupied before one that is not. -/
def occupiedRun (v : VSpace) : ℕ → ℕ → ℕ
  | 0, _ => 0
  | n + 1, address => if occupied v address then occupiedRun v n (address + kPage) + 1 else 0

/-- The window ends below `2 ^ 64` once it has grown to hold `need`. -/
def GrowsTo (s : Scratch) (need : ℕ) : Prop := s.limit + (need - s.high) + kLargePage ≤ 2 ^ 64

/-- The call neither grows the window over a reserved run, nor maps a page without room
    for the node pages reserved meanwhile, nor steps back over a page that streams. -/
def Safe (w : Window) : Op → Prop
  | .map _ as =>
    w.scratch.next + (occupiedRun w.vspace kMaxWindowSkip w.scratch.next + 1 + nodePages as) * kPage
        ≤ w.scratch.high ∨
      nodePages as = 0 ∧ (w.scratch.mayGrow = false ∨ w.reserved = [] ∧
        GrowsTo w.scratch (w.scratch.next + (kMaxWindowSkip + 1) * kPage))
  | .mapLarge _ as =>
    largeNext w.scratch + kLargePage + nodePages as * kPage ≤ w.scratch.high ∨
      nodePages as = 0 ∧ (w.scratch.mayGrow = false ∨ w.reserved = [] ∧
        GrowsTo w.scratch (largeNext w.scratch + kLargePage))
  | .mapAt _ _ _ as =>
    w.scratch.mayGrow = false ∨ nodePages as = 0 ∨
      w.scratch.next + nodePages as * kPage ≤ w.scratch.high
  | .unmap frame =>
    frame = w.scratch.lastCap → ∀ p ∈ w.streamed, p.frame ≠ frame →
      p.extent.stop + kPage ≤ w.scratch.next
  | .reserve pages =>
    w.scratch.mayGrow = false ∨ w.scratch.next + pages * kPage ≤ w.scratch.high ∨
      w.reserved = [] ∧ GrowsTo w.scratch (w.scratch.next + pages * kPage)
  | .release _ _ => True

def Legal (w : Window) : Op → Prop
  | .release base pages => (⟨base, pages * kPage⟩ : Extent) ∈ w.reserved
  | _ => True

/-- The window as it is set up: adopted, or the root task's own. -/
inductive Fresh : Window → Prop where
  | adopted {base limit : ℕ} {s : Scratch} (v : VSpace) (h : Scratch.adopt base limit = some s)
      (hl : limit + 2 ^ 44 ≤ 2 ^ 64) : Fresh ⟨s, v, [], []⟩
  | initialised (tables : Bool) (start : ℕ) (v : VSpace) (hl : start + 2 ^ 22 ≤ 2 ^ 64) :
      Fresh ⟨Scratch.initialise tables start, v, [], []⟩

/-- `w'` is reached from `w` by calls that are all legal and safe where they are made. -/
inductive Run : Window → Window → Prop where
  | nil (w : Window) : Run w w
  | cons {w w' : Window} (op : Op) (hl : Legal w op) (hs : Safe w op) (h : Run (w.step op) w') :
      Run w w'

/-! ## The invariant -/

/-- The streamed pages end below both cursors, the reserved runs lie above the reservation
    cursor. -/
structure Inv (w : Window) : Prop where
  base_next : w.scratch.base ≤ w.scratch.next
  base_high : w.scratch.base ≤ w.scratch.high
  high_limit : w.scratch.high ≤ w.scratch.limit
  last : w.scratch.lastCap ≠ 0 → w.scratch.base + kPage ≤ w.scratch.next
  reserved : ∀ r ∈ w.reserved, w.scratch.high ≤ r.base ∧ r.stop ≤ w.scratch.limit
  runs : w.reserved.Pairwise Extent.Apart
  streamed : ∀ p ∈ w.streamed, p.extent.stop ≤ w.scratch.next ∧ p.extent.stop ≤ w.scratch.high
  pages : (w.streamed.map Streamed.extent).Pairwise Extent.Apart

theorem Inv.exclusive {w : Window} (h : Inv w) : Exclusive w := by
  refine ⟨fun r hr => ⟨h.base_high.trans (h.reserved r hr).1, (h.reserved r hr).2⟩, ?_⟩
  rw [List.pairwise_append]
  refine ⟨h.runs, h.pages, fun r hr e he => ?_⟩
  obtain ⟨p, hp, rfl⟩ := List.mem_map.1 he
  exact (Extent.apart_of_le ((h.streamed p hp).2.trans (h.reserved r hr).1)).symm

theorem Fresh.inv {w : Window} (h : Fresh w) : Inv w := by
  cases h with
  | @adopted base limit s v h hl =>
    unfold Scratch.adopt at h
    split_ifs at h with hb
    cases h
    exact ⟨le_rfl, by simp only; omega, le_rfl, fun h => absurd rfl h, by simp, List.Pairwise.nil, by simp,
      List.Pairwise.nil⟩
  | initialised tables start v hl =>
    exact ⟨le_rfl, Nat.le_add_right _ _, le_rfl, fun h => absurd rfl h, by simp, List.Pairwise.nil, by simp,
      List.Pairwise.nil⟩

/-! ## Reserving -/

section
variable {w w' w'' : Window}

theorem le_turns (need : ℕ) : need ≤ Scratch.turns need * kLargePage := by
  have h := Nat.lt_div_mul_add (a := need) kLargePage_pos
  rw [Scratch.turns, Nat.add_mul, Nat.one_mul]
  exact h.le

theorem growReserve_spec (need : ℕ) : ∀ (n : ℕ) (s : Scratch), need ≤ s.high + n * kLargePage →
    ∃ k, Scratch.growReserve need n s =
      { s with limit := s.limit + k, high := s.high + k } ∧ need ≤ s.high + k := by
  intro n
  induction n with
  | zero => intro s h; exact ⟨0, rfl, by omega⟩
  | succ n ih =>
    intro s h
    rw [Scratch.growReserve]
    split_ifs with hn
    · exact ⟨0, rfl, hn⟩
    · rw [Nat.add_mul, Nat.one_mul] at h
      obtain ⟨k, hk, hle⟩ := ih { s with limit := s.limit + kLargePage, high := s.high + kLargePage }
        (by simp only; omega)
      refine ⟨kLargePage + k, ?_, by simp only at hle; omega⟩
      rw [hk]
      simp only [Nat.add_assoc]

theorem growMap_spec (need : ℕ) : ∀ (n : ℕ) (s : Scratch), s.high ≤ s.limit →
    need ≤ s.high + n * kLargePage →
    ∃ limit high, Scratch.growMap need n s = { s with limit := limit, high := high } ∧
      need ≤ high ∧ s.high ≤ high ∧ s.limit ≤ limit ∧ high ≤ limit := by
  intro n
  induction n with
  | zero => intro s hs h; exact ⟨s.limit, s.high, rfl, by omega, le_rfl, le_rfl, hs⟩
  | succ n ih =>
    intro s hs h
    rw [Scratch.growMap]
    split_ifs with hn
    · exact ⟨s.limit, s.high, rfl, hn, le_rfl, le_rfl, hs⟩
    · rw [Nat.add_mul, Nat.one_mul] at h
      obtain ⟨limit, high, hk, h₁, h₂, h₃, h₄⟩ :=
        ih { s with limit := s.limit + kLargePage, high := s.limit + kLargePage } le_rfl
          (by simp only; omega)
      simp only at h₂ h₃
      exact ⟨limit, high, hk, h₁, by omega, by omega, h₄⟩

/-- The window with the run of `bytes` bytes below the reservation cursor taken. -/
def took (w : Window) (at_ bytes : ℕ) : Window :=
  { w with scratch := { w.scratch with high := at_ }, reserved := ⟨at_, bytes⟩ :: w.reserved }

theorem Inv.took (h : Inv w) {at_ bytes : ℕ} (hb : at_ + bytes = w.scratch.high)
    (hn : w.scratch.next ≤ at_) : Inv (w.took at_ bytes) where
  base_next := h.base_next
  base_high := h.base_next.trans hn
  high_limit := by have := h.high_limit; simp only [Window.took]; omega
  last := h.last
  reserved := by
    intro r hr
    rcases List.mem_cons.1 hr with rfl | hr
    · exact ⟨le_rfl, by have := h.high_limit; simp only [Extent.stop, Window.took]; omega⟩
    · have := h.reserved r hr
      exact ⟨by simp only [Window.took]; omega, this.2⟩
  runs := by
    refine List.pairwise_cons.2 ⟨fun r hr => Extent.apart_of_le ?_, h.runs⟩
    have := (h.reserved r hr).1
    simp only [Extent.stop]
    omega
  streamed := by
    intro p hp
    have := h.streamed p hp
    exact ⟨this.1, this.1.trans hn⟩
  pages := h.pages

theorem Inv.grown (h : Inv w) (hr : w.reserved = []) {limit high : ℕ} (h₁ : w.scratch.high ≤ high)
    (h₂ : high ≤ limit) :
    Inv { w with scratch := { w.scratch with limit := limit, high := high } } where
  base_next := h.base_next
  base_high := h.base_high.trans h₁
  high_limit := h₂
  last := h.last
  reserved := by simp [hr]
  runs := h.runs
  streamed := fun p hp => ⟨(h.streamed p hp).1, (h.streamed p hp).2.trans h₁⟩
  pages := h.pages

theorem reserve_of_le {pages : ℕ} (h : w.scratch.next + pages * kPage ≤ w.scratch.high) :
    ∃ at_, w.reserve pages = (some at_, w.took at_ (pages * kPage)) ∧
      at_ + pages * kPage = w.scratch.high ∧ w.scratch.next ≤ at_ := by
  refine ⟨w.scratch.high - pages * kPage, ?_, by omega, by omega⟩
  unfold Window.reserve Scratch.reserve
  rw [if_pos h]
  rfl

theorem reserve_of_lt {pages : ℕ} (h : w.scratch.high < w.scratch.next + pages * kPage)
    (hg : w.scratch.mayGrow = false) : w.reserve pages = (none, w) := by
  unfold Window.reserve Scratch.reserve
  rw [if_neg (by omega), hg]
  rfl

theorem Inv.reserve (h : Inv w) {pages : ℕ} (hs : Safe w (.reserve pages)) :
    Inv (w.reserve pages).2 := by
  by_cases hb : w.scratch.next + pages * kPage ≤ w.scratch.high
  · obtain ⟨at_, hr, hat, hn⟩ := reserve_of_le hb
    rw [hr]
    exact h.took hat hn
  · by_cases hg : w.scratch.mayGrow = true
    · obtain ⟨k, hk, hle⟩ := growReserve_spec (w.scratch.next + pages * kPage) _ w.scratch
        ((le_turns _).trans (Nat.le_add_left _ _))
      have hr : w.reserved = [] := by
        rcases hs with hs | hs | ⟨hr, -⟩
        · rw [hg] at hs; cases hs
        · exact absurd hs hb
        · exact hr
      have hgrown := h.grown hr (Nat.le_add_right _ k) (Nat.add_le_add_right h.high_limit k)
      unfold Window.reserve Scratch.reserve
      dsimp only
      rw [if_neg hb, if_pos hg, hk]
      exact hgrown.took (Nat.sub_add_cancel (by simp only; omega)) (by simp only; omega)
    · rw [reserve_of_lt (by omega) (by simpa using hg)]
      exact h

theorem Inv.release (h : Inv w) {base pages : ℕ} (hl : Legal w (.release base pages)) :
    Inv (w.release base pages) := by
  have hbase : w.scratch.high ≤ base := (h.reserved _ hl).1
  have hsame : w.scratch.release base pages = w.scratch := by
    unfold Scratch.release
    split_ifs with he
    · rw [show base = w.scratch.high by omega]
    · rfl
  unfold Window.release
  rw [hsame]
  exact ⟨h.base_next, h.base_high, h.high_limit, h.last,
    fun r hr => h.reserved r (List.mem_of_mem_erase hr), h.runs.sublist List.erase_sublist,
    h.streamed, h.pages⟩

theorem Inv.moved (h : Inv w) {next : ℕ} {v : VSpace} {pages : List Streamed} (hb : w.scratch.base ≤ next)
    (hsub : pages.Sublist w.streamed) (hp : ∀ p ∈ pages, p.extent.stop ≤ next) :
    Inv ⟨{ w.scratch with next := next, lastCap := 0 }, v, w.reserved, pages⟩ :=
  ⟨hb, h.base_high, h.high_limit, fun h => absurd rfl h, h.reserved, h.runs,
    fun p hm => ⟨hp p hm, (h.streamed p (hsub.subset hm)).2⟩, h.pages.sublist (hsub.map _)⟩

theorem Inv.unmap (h : Inv w) {frame : ℕ} (hs : Safe w (.unmap frame)) : Inv (w.unmap frame) := by
  have hsub : (w.streamed.filter fun p => p.frame ≠ frame).Sublist w.streamed := List.filter_sublist
  unfold Window.unmap
  split_ifs with h0
  · exact h
  · by_cases hlast : frame = w.scratch.lastCap
    · rw [if_pos hlast]
      have hnext := h.last (by rw [← hlast]; exact h0)
      refine h.moved (Nat.le_sub_of_add_le hnext) hsub fun p hp => Nat.le_sub_of_add_le ?_
      have hp := List.mem_filter.1 hp
      exact hs hlast p hp.1 (by simpa using hp.2)
    · rw [if_neg hlast]
      exact ⟨h.base_next, h.base_high, h.high_limit, h.last, h.reserved, h.runs,
        fun p hp => h.streamed p (hsub.subset hp), h.pages.sublist (hsub.map _)⟩

/-! ## Node pages reserved meanwhile -/

/-- Only the kernel's side changed, and what `Scratch` reports of it. -/
structure SameEnds (w w' : Window) : Prop where
  base : w'.scratch.base = w.scratch.base
  next : w'.scratch.next = w.scratch.next
  limit : w'.scratch.limit = w.scratch.limit
  high : w'.scratch.high = w.scratch.high
  lastCap : w'.scratch.lastCap = w.scratch.lastCap
  mayGrow : w'.scratch.mayGrow = w.scratch.mayGrow
  reserved : w'.reserved = w.reserved
  streamed : w'.streamed = w.streamed

theorem SameEnds.refl (w : Window) : SameEnds w w := ⟨rfl, rfl, rfl, rfl, rfl, rfl, rfl, rfl⟩

theorem SameEnds.trans (h : SameEnds w w') (h' : SameEnds w' w'') : SameEnds w w'' :=
  ⟨h'.base.trans h.base, h'.next.trans h.next, h'.limit.trans h.limit, h'.high.trans h.high,
    h'.lastCap.trans h.lastCap, h'.mayGrow.trans h.mayGrow, h'.reserved.trans h.reserved,
    h'.streamed.trans h.streamed⟩

theorem SameEnds.inv (h : SameEnds w w') (hi : Inv w) : Inv w' := by
  obtain ⟨h₁, h₂, h₃, h₄, h₅, h₆, h₇, h₈⟩ := hi
  constructor
  all_goals simp only [h.base, h.next, h.limit, h.high, h.lastCap, h.reserved, h.streamed]
  all_goals assumption

theorem sameEnds_pageMap (w : Window) (frame bits address : ℕ) :
    SameEnds w (w.pageMap frame bits address).2 := ⟨rfl, rfl, rfl, rfl, rfl, rfl, rfl, rfl⟩

theorem sameEnds_pageTableMap (w : Window) (address : ℕ) : SameEnds w (w.pageTableMap address).2 :=
  ⟨rfl, rfl, rfl, rfl, rfl, rfl, rfl, rfl⟩

/-- The frames mapped since lie at `low` or above. -/
def MappedFrom (low : ℕ) (w w' : Window) : Prop :=
  ∀ l ∈ w'.vspace.leaves, l ∈ w.vspace.leaves ∨ low ≤ l.address

theorem MappedFrom.trans {low low' : ℕ} (h : MappedFrom low w w') (h' : MappedFrom low' w' w'')
    (hle : low' ≤ low) : MappedFrom low' w w'' := by
  intro l hl
  rcases h' l hl with hl | hl
  · rcases h l hl with hl | hl
    · exact Or.inl hl
    · exact Or.inr (hle.trans hl)
  · exact Or.inr hl

theorem mappedFrom_pageTableMap (w : Window) (low address : ℕ) :
    MappedFrom low w (w.pageTableMap address).2 := by
  intro l hl
  unfold Window.pageTableMap VSpace.pageTableMap at hl
  refine Or.inl ?_
  split_ifs at hl <;> exact hl

/-- A mapping adds the frame at its address, or changes nothing; it is refused with
    `seL4_DeleteFirst` only where a frame of its size is mapped. -/
theorem pageMap_cases (v : VSpace) (frame bits address : ℕ) :
    (∃ error, v.pageMap frame bits address = (error, v) ∧
      (error = .deleteFirst → v.ptBitsLeft address = bits ∧ v.taken address = true)) ∨
      v.pageMap frame bits address =
        (.noError, { v with leaves := ⟨frame, address, bits⟩ :: v.leaves }) := by
  unfold VSpace.pageMap
  by_cases h₁ : v.userTop < address + 2 ^ bits
  · rw [if_pos h₁]; exact Or.inl ⟨_, rfl, by simp⟩
  by_cases h₂ : address % 2 ^ bits ≠ 0
  · rw [if_neg h₁, if_pos h₂]; exact Or.inl ⟨_, rfl, by simp⟩
  by_cases h₃ : v.ptBitsLeft address ≠ bits
  · rw [if_neg h₁, if_neg h₂, if_pos h₃]; exact Or.inl ⟨_, rfl, by simp⟩
  rw [if_neg h₁, if_neg h₂, if_neg h₃]
  split
  · split_ifs
    · exact Or.inl ⟨_, rfl, by simp⟩
    · exact Or.inl ⟨_, rfl, by simp⟩
  · split_ifs with h₄
    · exact Or.inl ⟨_, rfl, fun _ => ⟨by simpa using h₃, h₄⟩⟩
    · exact Or.inr rfl

theorem mappedFrom_pageMap (w : Window) (low frame bits address : ℕ)
    (h : (w.pageMap frame bits address).1 = .noError → low ≤ address) :
    MappedFrom low w (w.pageMap frame bits address).2 := by
  intro l hl
  unfold Window.pageMap at h hl
  rcases pageMap_cases w.vspace frame bits address with ⟨e, he, -⟩ | he
  · rw [he] at hl
    exact Or.inl hl
  · rw [he] at h hl
    rcases List.mem_cons.1 hl with rfl | hl
    · exact Or.inr (h rfl)
    · exact Or.inl hl

theorem mapAtGrowing_spec (frame address : ℕ) : ∀ (n : ℕ) (error : Error) (w : Window) (tables : List ℕ),
    SameEnds w (mapAtGrowing frame address n error w tables).2 ∧
      MappedFrom address w (mapAtGrowing frame address n error w tables).2 := by
  intro n
  induction n with
  | zero =>
    intro error w tables
    unfold mapAtGrowing
    split_ifs <;> exact ⟨⟨rfl, rfl, rfl, rfl, rfl, rfl, rfl, rfl⟩, fun _ h => Or.inl h⟩
  | succ n ih =>
    intro error w tables
    unfold mapAtGrowing
    split_ifs with h₁ h₂
    · split
      · exact ⟨SameEnds.refl w, fun _ h => Or.inl h⟩
      · exact ⟨SameEnds.refl w, fun _ h => Or.inl h⟩
      · dsimp only
        have ht := sameEnds_pageTableMap w address
        have hl := mappedFrom_pageTableMap w address address
        split_ifs
        · obtain ⟨hs, hm⟩ := ih ((w.pageTableMap address).2.pageMap frame pageBits address).1
            ((w.pageTableMap address).2.pageMap frame pageBits address).2 ‹_›
          exact ⟨(ht.trans (sameEnds_pageMap _ _ _ _)).trans hs,
            (hl.trans (mappedFrom_pageMap _ _ _ _ _ fun _ => le_rfl) le_rfl).trans hm le_rfl⟩
        · exact ⟨ht, hl⟩
    · exact ⟨⟨rfl, rfl, rfl, rfl, rfl, rfl, rfl, rfl⟩, fun _ h => Or.inl h⟩
    · exact ⟨⟨rfl, rfl, rfl, rfl, rfl, rfl, rfl, rfl⟩, fun _ h => Or.inl h⟩

/-- What the allocator may do to the window while it is asked: reserve at most `n` pages
    from the top and map them.  The streaming end stays as it is. -/
structure Grew (n : ℕ) (w w' : Window) : Prop where
  inv : Inv w → Inv w'
  next : w'.scratch.next = w.scratch.next
  lastCap : w'.scratch.lastCap = w.scratch.lastCap
  mayGrow : w'.scratch.mayGrow = w.scratch.mayGrow
  streamed : w'.streamed = w.streamed
  high : w.scratch.high ≤ w'.scratch.high + n * kPage
  down : w'.scratch.high ≤ w.scratch.high
  none : n = 0 → w'.reserved = w.reserved

theorem SameEnds.grew (h : SameEnds w w') : Grew 0 w w' :=
  ⟨h.inv, h.next, h.lastCap, h.mayGrow, h.streamed, by rw [h.high]; omega, h.high.le, fun _ => h.reserved⟩

theorem Grew.trans {m n : ℕ} (h : Grew m w w') (h' : Grew n w' w'') : Grew (m + n) w w'' where
  inv := h'.inv ∘ h.inv
  next := h'.next.trans h.next
  lastCap := h'.lastCap.trans h.lastCap
  mayGrow := h'.mayGrow.trans h.mayGrow
  streamed := h'.streamed.trans h.streamed
  high := by
    have h₁ := h.high
    have h₂ := h'.high
    rw [Nat.add_mul]
    omega
  down := h'.down.trans h.down
  none := fun hz => (h'.none (by omega)).trans (h.none (by omega))

/-- There is room for `n` node pages, or the window does not grow for them. -/
def Fits (n : ℕ) (w : Window) : Prop :=
  w.scratch.mayGrow = false ∨ n = 0 ∨ w.scratch.next + n * kPage ≤ w.scratch.high

theorem Grew.fits {m n : ℕ} (h : Grew m w w') (hf : Fits (m + n) w) : Fits n w' := by
  unfold Fits at hf ⊢
  rw [h.mayGrow, h.next]
  have := h.high
  rw [Nat.add_mul] at hf
  rcases hf with hf | hf | hf
  · exact Or.inl hf
  · exact Or.inr (Or.inl (by omega))
  · exact Or.inr (Or.inr (by omega))

theorem growNodes_spec (w : Window) (g : Growth) {n : ℕ} (hn : g.frame ≠ 0 → n = 1) (hf : Fits n w) :
    Grew n w (w.growNodesFromWindow g) ∧
      MappedFrom (w.growNodesFromWindow g).scratch.high w (w.growNodesFromWindow g) := by
  have hself : Grew n w w :=
    ⟨id, rfl, rfl, rfl, rfl, Nat.le_add_right _ _, le_rfl, fun _ => rfl⟩
  unfold Window.growNodesFromWindow
  split_ifs with h0
  · exact ⟨hself, fun _ h => Or.inl h⟩
  · obtain rfl := hn h0
    by_cases hb : w.scratch.next + 1 * kPage ≤ w.scratch.high
    · obtain ⟨at_, hr, hat, hnext⟩ := reserve_of_le hb
      rw [hr]
      have htook : Grew 1 w (w.took at_ (1 * kPage)) :=
        ⟨fun h => h.took hat hnext, rfl, rfl, rfl, rfl, hat.ge, by simp only [Window.took]; omega,
          by simp⟩
      dsimp only
      split_ifs
      · obtain ⟨hs, hm⟩ := mapAtGrowing_spec g.frame at_ 4
          ((w.took at_ (1 * kPage)).pageMap g.frame pageBits at_).1
          ((w.took at_ (1 * kPage)).pageMap g.frame pageBits at_).2 g.tables
        have hmap := sameEnds_pageMap (w.took at_ (1 * kPage)) g.frame pageBits at_
        refine ⟨htook.trans (hmap.trans hs).grew, ?_⟩
        rw [(hmap.trans hs).high]
        have hlow := mappedFrom_pageMap (w.took at_ (1 * kPage)) at_ g.frame pageBits at_ fun _ => le_rfl
        exact hlow.trans hm le_rfl
      · exact ⟨htook, fun _ h => Or.inl h⟩
    · have hg : w.scratch.mayGrow = false := by
        rcases hf with hf | hf | hf
        · exact hf
        · cases hf
        · exact absurd hf hb
      rw [reserve_of_lt (by omega) hg]
      exact ⟨hself, fun _ h => Or.inl h⟩

theorem foldl_growths (gs : List Growth) : ∀ w, Fits (gs.countP fun g => g.frame ≠ 0) w →
    Grew (gs.countP fun g => g.frame ≠ 0) w (gs.foldl growNodesFromWindow w) ∧
      MappedFrom (gs.foldl growNodesFromWindow w).scratch.high w (gs.foldl growNodesFromWindow w) := by
  induction gs with
  | nil => intro w _; exact ⟨(SameEnds.refl w).grew, fun _ h => Or.inl h⟩
  | cons g gs ih =>
    intro w hf
    rw [List.countP_cons, Nat.add_comm] at hf ⊢
    obtain ⟨hg, hm⟩ := growNodes_spec w g (n := if decide (g.frame ≠ 0) = true then 1 else 0)
      (fun h => by simp [h]) (by
        rcases hf with hf | hf | hf
        · exact Or.inl hf
        · exact Or.inr (Or.inl (by omega))
        · rw [Nat.add_mul] at hf
          exact Or.inr (Or.inr (by omega)))
    obtain ⟨hg', hm'⟩ := ih _ (hg.fits hf)
    exact ⟨hg.trans hg', hm.trans hm' hg'.down⟩

theorem nodePages_cons (a : Alloc) (as : List Alloc) :
    nodePages (a :: as) = (a.growths.countP fun g => g.frame ≠ 0) +
      (a.freed.countP fun g => g.frame ≠ 0) + nodePages as := by
  simp only [nodePages, List.flatMap_cons, List.countP_append]

theorem Fits.mono {m n : ℕ} (h : Fits n w) (hle : m ≤ n) : Fits m w := by
  rcases h with h | h | h
  · exact Or.inl h
  · exact Or.inr (Or.inl (by omega))
  · have := Nat.mul_le_mul_right kPage hle
    exact Or.inr (Or.inr (by omega))

theorem allocObject_spec (w : Window) (as : List Alloc) (hf : Fits (nodePages as) w) :
    ∃ m, m + nodePages (w.allocObject as).2.2 ≤ nodePages as ∧ Grew m w (w.allocObject as).2.1 ∧
      MappedFrom (w.allocObject as).2.1.scratch.high w (w.allocObject as).2.1 := by
  cases as with
  | nil => exact ⟨0, by simp [allocObject], (SameEnds.refl w).grew, fun _ h => Or.inl h⟩
  | cons a as =>
    have hn := nodePages_cons a as
    obtain ⟨hg, hm⟩ := foldl_growths a.growths w (hf.mono (by omega))
    exact ⟨_, by simp only [allocObject]; omega, hg, hm⟩

/-- A frame of `2 ^ bits` bytes is mapped at `address`. -/
def Holds (w : Window) (bits address : ℕ) : Prop :=
  ∃ l ∈ w.vspace.leaves, l.bits = bits ∧ l.address / 2 ^ bits = address / 2 ^ bits

theorem holds_of_deleteFirst {frame bits address : ℕ}
    (h : (w.pageMap frame bits address).1 = .deleteFirst) :
    Holds (w.pageMap frame bits address).2 bits address := by
  unfold Window.pageMap at h ⊢
  rcases pageMap_cases w.vspace frame bits address with ⟨e, he, hd⟩ | he
  · rw [he] at h ⊢
    obtain ⟨hb, ht⟩ := hd h
    simp only [VSpace.taken, List.any_eq_true, decide_eq_true_eq] at ht
    obtain ⟨l, hl, hlb, hla⟩ := ht
    rw [hb] at hlb
    rw [hlb] at hla
    exact ⟨l, hl, hlb, hla⟩
  · rw [he] at h; cases h

theorem makeTables_noError (frame bits address n : ℕ) (w : Window) (as : List Alloc) :
    makeTables frame bits address n .noError w as = (some .noError, w, as) := by
  cases n <;> simp [makeTables]

theorem makeTables_spec (frame bits address : ℕ) : ∀ (n : ℕ) (error : Error) (w : Window) (as : List Alloc),
    Fits (nodePages as) w → (error = .deleteFirst → Holds w bits address) →
    ∃ m, m + nodePages (makeTables frame bits address n error w as).2.2 ≤ nodePages as ∧
      Grew m w (makeTables frame bits address n error w as).2.1 ∧
      ((makeTables frame bits address n error w as).1 = some .deleteFirst →
        Holds (makeTables frame bits address n error w as).2.1 bits address ∧
        MappedFrom (makeTables frame bits address n error w as).2.1.scratch.high w
          (makeTables frame bits address n error w as).2.1) := by
  intro n
  induction n with
  | zero =>
    intro error w as hf he
    unfold makeTables
    exact ⟨0, by simp, (SameEnds.refl w).grew, fun h => ⟨he (by simpa using h), fun _ h => Or.inl h⟩⟩
  | succ n ih =>
    intro error w as hf he
    unfold makeTables
    split_ifs with h₁
    · obtain ⟨m, hm, hg, hfar⟩ := allocObject_spec w as hf
      rcases hr : w.allocObject as with ⟨table, w₁, rest⟩
      rw [hr] at hm hg hfar
      dsimp only at hm hg hfar ⊢
      split_ifs with h₂ h₃
      · exact ⟨m, hm, hg, by simp⟩
      · have ht := sameEnds_pageTableMap w₁ address
        have hpm := sameEnds_pageMap (w₁.pageTableMap address).2 frame bits address
        have hg₂ : Grew m w ((w₁.pageTableMap address).2.pageMap frame bits address).2 :=
          hg.trans (ht.trans hpm).grew
        obtain ⟨m', hm', hg', hd⟩ := ih ((w₁.pageTableMap address).2.pageMap frame bits address).1
          ((w₁.pageTableMap address).2.pageMap frame bits address).2 rest
          (hg₂.fits (hf.mono hm)) holds_of_deleteFirst
        refine ⟨m + m', by omega, hg₂.trans hg', fun h => ⟨(hd h).1, ?_⟩⟩
        have hfar₂ : MappedFrom w₁.scratch.high w
            ((w₁.pageTableMap address).2.pageMap frame bits address).2 := by
          refine (hfar.trans (mappedFrom_pageTableMap w₁ _ address) le_rfl).trans
            (mappedFrom_pageMap _ _ _ _ _ fun hok => ?_) le_rfl
          rw [hok, makeTables_noError] at h
          cases h
        refine hfar₂.trans (hd h).2 ?_
        have := hg'.down
        rw [hpm.high, ht.high] at this
        exact this
      · exact ⟨m, hm, hg.trans (sameEnds_pageTableMap w₁ address).grew, by simp⟩
    · exact ⟨0, by simp, (SameEnds.refl w).grew, fun h => ⟨he (by simpa using h), fun _ h => Or.inl h⟩⟩

/-! ## Mapping -/

theorem occupiedRun_spec (v : VSpace) : ∀ n address, occupiedRun v n address = n ∨
    occupied v (address + occupiedRun v n address * kPage) = false := by
  intro n
  induction n with
  | zero => intro address; exact Or.inl rfl
  | succ n ih =>
    intro address
    unfold occupiedRun
    split_ifs with h
    · rcases ih (address + kPage) with hn | hn
      · exact Or.inl (by rw [hn])
      · refine Or.inr ?_
        rw [Nat.add_mul, Nat.one_mul, Nat.add_comm (_ * kPage), ← Nat.add_assoc]
        exact hn
    · refine Or.inr ?_
      rw [Nat.zero_mul, Nat.add_zero]
      simpa using h

theorem Inv.stream (h : Inv w) (frame : ℕ) {size : ℕ} (hs : w.scratch.next + size ≤ w.scratch.high) :
    Inv (w.stream frame w.scratch.next size) where
  base_next := h.base_next.trans (Nat.le_add_right _ _)
  base_high := h.base_high
  high_limit := h.high_limit
  last := fun hl => (h.last hl).trans (Nat.le_add_right _ _)
  reserved := h.reserved
  runs := h.runs
  streamed := by
    intro p hp
    rcases List.mem_cons.1 hp with rfl | hp
    · exact ⟨le_rfl, hs⟩
    · have := h.streamed p hp
      exact ⟨this.1.trans (Nat.le_add_right _ _), this.2⟩
  pages := by
    refine List.pairwise_cons.2 ⟨fun e he => ?_, h.pages⟩
    obtain ⟨p, hp, rfl⟩ := List.mem_map.1 he
    exact (Extent.apart_of_le (h.streamed p hp).1).symm

/-- The room a streaming call has: for its page, the pages it steps over and the node pages
    reserved meanwhile, or it makes none and does not grow the window over a run. -/
def Room (n : ℕ) (w : Window) (as : List Alloc) : Prop :=
  (∃ j, w.scratch.next + (j + 1 + nodePages as) * kPage ≤ w.scratch.high ∧
    (n ≤ j ∨ occupied w.vspace (w.scratch.next + j * kPage) = false)) ∨
  nodePages as = 0 ∧ (w.scratch.mayGrow = false ∨ w.reserved = [])

theorem Inv.roomMap (h : Inv w) {need : ℕ} {s : Scratch} (hr : w.scratch.roomMap need = some s)
    (hs : w.scratch.mayGrow = false ∨ need ≤ w.scratch.high ∨ w.reserved = []) :
    Inv { w with scratch := s } ∧ need ≤ s.high ∧ s.next = w.scratch.next ∧
      s.mayGrow = w.scratch.mayGrow ∧ (need ≤ w.scratch.high → s = w.scratch) := by
  unfold Scratch.roomMap at hr
  split_ifs at hr with hn hg
  · cases hr
    exact ⟨h, hn, rfl, rfl, fun _ => rfl⟩
  · cases hr
    obtain ⟨limit, high, hk, h₁, h₂, -, h₄⟩ := growMap_spec need _ w.scratch h.high_limit
      ((le_turns need).trans (Nat.le_add_left _ _))
    have hres : w.reserved = [] := by
      rcases hs with hs | hs | hs
      · rw [hg] at hs; cases hs
      · exact absurd hs hn
      · exact hs
    rw [hk]
    exact ⟨h.grown hres h₂ h₄, h₁, rfl, rfl, fun h => absurd h hn⟩

theorem occupied_of_holds {address : ℕ} (h : Holds w pageBits address) :
    occupied w.vspace address = true := by
  obtain ⟨l, hl, hb, ha⟩ := h
  simp only [occupied, List.any_eq_true, decide_eq_true_eq, kPage]
  exact ⟨l, hl, hb, ha⟩

theorem MappedFrom.occupied {low address : ℕ} (h : MappedFrom low w w') (ha : address + kPage ≤ low)
    (ho : occupied w'.vspace address = true) : occupied w.vspace address = true := by
  simp only [Window.occupied, List.any_eq_true, decide_eq_true_eq] at ho ⊢
  obtain ⟨l, hl, hb, hla⟩ := ho
  rcases h l hl with hl | hl
  · exact ⟨l, hl, hb, hla⟩
  · have h₁ := Nat.div_add_mod l.address kPage
    have h₂ := Nat.div_add_mod address kPage
    have h₃ := Nat.mod_lt l.address kPage_pos
    rw [hla] at h₁
    omega

theorem Inv.advance (h : Inv w) {next : ℕ} (hn : w.scratch.next ≤ next) :
    Inv { w with scratch := { w.scratch with next := next } } where
  base_next := h.base_next.trans hn
  base_high := h.base_high
  high_limit := h.high_limit
  last := fun hl => (h.last hl).trans hn
  reserved := h.reserved
  runs := h.runs
  streamed := fun p hp => ⟨(h.streamed p hp).1.trans hn, (h.streamed p hp).2⟩
  pages := h.pages

theorem Inv.setError (h : Inv w) (error : Error) : Inv (w.setError error) :=
  (show SameEnds w (w.setError error) from ⟨rfl, rfl, rfl, rfl, rfl, rfl, rfl, rfl⟩).inv h

/-- What one turn of the streaming loop leaves: the window `w` once the page at the cursor
    has been tried. -/
structure Tried (size : ℕ) (w w' : Window) (as rest : List Alloc) (m : ℕ) : Prop where
  inv : Inv w'
  next : w'.scratch.next = w.scratch.next
  mayGrow : w'.scratch.mayGrow = w.scratch.mayGrow
  left : m + nodePages rest ≤ nodePages as
  fits : w.scratch.next + size ≤ w'.scratch.high
  high : w.scratch.next + size ≤ w.scratch.high → w.scratch.high ≤ w'.scratch.high + m * kPage
  none : m = 0 → w'.reserved = w.reserved

theorem Room.skip {n m : ℕ} {as rest : List Alloc} (h : Room (n + 1) w as) (ht : Tried kPage w w' as rest m)
    (ho : occupied w'.vspace w.scratch.next = true) (hm : MappedFrom w'.scratch.high w w') :
    Room n { w' with scratch := { w'.scratch with next := w'.scratch.next + kPage } } rest := by
  have hleft := ht.left
  rcases h with ⟨j, hj, hocc⟩ | ⟨hz, hg⟩
  · refine Or.inl ?_
    have hpages := Nat.mul_le_mul_right kPage hleft
    simp only [Nat.add_mul, Nat.one_mul] at hj hpages
    have hhigh := ht.high (by omega)
    have hkeep : ∀ i, i ≤ j → occupied w'.vspace (w.scratch.next + i * kPage) = true →
        occupied w.vspace (w.scratch.next + i * kPage) = true := by
      intro i hi
      refine hm.occupied ?_
      have := Nat.mul_le_mul_right kPage hi
      omega
    obtain _ | j := j
    · have h0 := hkeep 0 le_rfl (by simpa using ho)
      rcases hocc with hocc | hocc
      · omega
      · rw [hocc] at h0; cases h0
    · refine ⟨j, ?_, ?_⟩
      · simp only [Nat.add_mul, Nat.one_mul, ht.next] at hj ⊢
        omega
      · rcases hocc with hocc | hocc
        · exact Or.inl (by omega)
        · refine Or.inr (Bool.eq_false_iff.2 fun hnow => ?_)
          have heq : w.scratch.next + kPage + j * kPage = w.scratch.next + (j + 1) * kPage := by
            rw [Nat.add_mul, Nat.one_mul]
            omega
          simp only [ht.next, heq] at hnow
          rw [hkeep (j + 1) le_rfl hnow] at hocc
          cases hocc
  · refine Or.inr ⟨by omega, ?_⟩
    simp only [ht.mayGrow, ht.none (by omega)]
    exact hg

/-- The room for one page of `size` bytes at the cursor and the node pages reserved meanwhile,
    or it needs none and does not grow the window over a run. -/
def RoomFor (size : ℕ) (w : Window) (as : List Alloc) : Prop :=
  w.scratch.next + size + nodePages as * kPage ≤ w.scratch.high ∨
    nodePages as = 0 ∧ (w.scratch.mayGrow = false ∨ w.reserved = [])

theorem Room.roomFor {n : ℕ} {as : List Alloc} (h : Room n w as) : RoomFor kPage w as := by
  rcases h with ⟨j, hj, -⟩ | h
  · simp only [Nat.add_mul, Nat.one_mul] at hj
    exact Or.inl (by omega)
  · exact Or.inr h

/-- A frame tried at the cursor: only the allocator's node pages move the ends, and where
    the page turns out to be taken it is mapped. -/
theorem tryNext_spec {f b : ℕ} {as : List Alloc} {r : Option Error × Window × List Alloc}
    (hf : Fits (nodePages as) w) (hr : w.tryNext f b as = r) :
    ∃ m, m + nodePages r.2.2 ≤ nodePages as ∧ Grew m w r.2.1 ∧ (r.1 = some .deleteFirst →
      Holds r.2.1 b w.scratch.next ∧ MappedFrom r.2.1.scratch.high w r.2.1) := by
  unfold tryNext at hr
  subst hr
  have hmap := sameEnds_pageMap w f b w.scratch.next
  have hg₀ : Grew 0 w (w.pageMap f b w.scratch.next).2 := hmap.grew
  obtain ⟨m, hm, hg, hd⟩ := makeTables_spec f b w.scratch.next 4 (w.pageMap f b w.scratch.next).1
    (w.pageMap f b w.scratch.next).2 as (hg₀.fits (by rwa [Nat.zero_add])) holds_of_deleteFirst
  refine ⟨m, hm, ?_, fun h => ?_⟩
  · have hg' := hg₀.trans hg
    rwa [Nat.zero_add] at hg'
  · obtain ⟨hh, hfar⟩ := hd h
    refine ⟨hh, MappedFrom.trans ?_ hfar le_rfl⟩
    refine mappedFrom_pageMap w _ f b w.scratch.next fun hok => ?_
    rw [hok, makeTables_noError] at h
    cases h

theorem RoomFor.tried {size f b : ℕ} {as : List Alloc} {s : Scratch}
    {r : Option Error × Window × List Alloc} (hroom : RoomFor size w as) (h : Inv w)
    (hs : w.scratch.roomMap (w.scratch.next + size) = some s)
    (hr : ({ w with scratch := s } : Window).tryNext f b as = r) :
    s.next = w.scratch.next ∧ ∃ m, Tried size w r.2.1 as r.2.2 m ∧ (r.1 = some .deleteFirst →
      Holds r.2.1 b w.scratch.next ∧ MappedFrom r.2.1.scratch.high w r.2.1) := by
  have hfit : w.scratch.mayGrow = false ∨ w.scratch.next + size ≤ w.scratch.high ∨
      w.reserved = [] := by
    rcases hroom with hj | ⟨-, hg | hg⟩
    · exact Or.inr (Or.inl (by omega))
    · exact Or.inl hg
    · exact Or.inr (Or.inr hg)
  obtain ⟨hi, hneed, hnext, hmay, hsame⟩ := h.roomMap hs hfit
  have hfits : Fits (nodePages as) { w with scratch := s } := by
    rcases hroom with hj | ⟨hz, -⟩
    · have hhigh := congrArg Scratch.high (hsame (by omega))
      refine Or.inr (Or.inr ?_)
      simp only
      omega
    · exact Or.inr (Or.inl hz)
  obtain ⟨m, hm, hg, hd⟩ := tryNext_spec hfits hr
  have hhigh : s.high ≤ r.2.1.scratch.high + m * kPage := hg.high
  have hpages := Nat.mul_le_mul_right kPage (show m ≤ nodePages as by omega)
  refine ⟨hnext, m, ⟨hg.inv hi, hg.next.trans hnext, hg.mayGrow.trans hmay, hm, ?_, ?_, hg.none⟩,
    fun h => ?_⟩
  · rcases hroom with hj | ⟨hz, -⟩
    · have hh := congrArg Scratch.high (hsame (by omega))
      omega
    · obtain rfl : m = 0 := by omega
      omega
  · intro hle
    have hh := congrArg Scratch.high (hsame hle)
    omega
  · rw [← hnext]
    exact hd h

theorem Inv.mapFrom (frame : ℕ) : ∀ (n : ℕ) (w : Window) (as : List Alloc), Inv w →
    (∀ k, n = k + 1 → Room k w as) → Inv (mapFrom frame n w as).2 := by
  intro n
  induction n with
  | zero => intro w as h _; exact h.setError _
  | succ n ih =>
    intro w as h hroom
    replace hroom := hroom n rfl
    unfold Window.mapFrom
    rcases hs : w.scratch.roomMap (w.scratch.next + kPage) with _ | s
    · exact h
    dsimp only
    rcases hr : ({ w with scratch := s } : Window).tryNext frame pageBits as with ⟨_ | e, w₃, rest⟩
    · obtain ⟨-, m, ht, -⟩ := hroom.roomFor.tried h hs hr
      exact ht.inv
    · obtain ⟨haddr, m, ht, hd⟩ := hroom.roomFor.tried h hs hr
      dsimp only at ht hd ⊢
      split_ifs with h₁ h₂
      · obtain ⟨ho, hm⟩ := hd (congrArg some h₁)
        refine ih _ rest (ht.inv.advance (Nat.le_add_right _ _)) fun k hk => ?_
        subst hk
        exact hroom.skip ht (occupied_of_holds ho) hm
      · exact ht.inv.setError e
      · have hst := ht.inv.stream frame (by rw [ht.next]; exact ht.fits)
        rw [haddr, ← ht.next]
        exact ⟨hst.base_next, hst.base_high, hst.high_limit,
          fun _ => Nat.add_le_add_right ht.inv.base_next kPage, hst.reserved, hst.runs, hst.streamed,
          hst.pages⟩

theorem Inv.map (h : Inv w) {frame : ℕ} {as : List Alloc} (hs : Safe w (.map frame as)) :
    Inv (w.map frame as).2 := by
  unfold Window.map
  split_ifs
  · exact h
  refine Inv.mapFrom frame _ w as h fun k hk => ?_
  obtain rfl : k = kMaxWindowSkip := by omega
  rcases hs with hs | ⟨hz, hg⟩
  · refine Or.inl ⟨_, hs, ?_⟩
    rcases occupiedRun_spec w.vspace kMaxWindowSkip w.scratch.next with hn | hn
    · exact Or.inl hn.ge
    · exact Or.inr hn
  · exact Or.inr ⟨hz, hg.imp id And.left⟩

theorem le_alignLarge (value : ℕ) : value ≤ alignLarge value := by
  have hpos := kLargePage_pos
  have h := Nat.lt_div_mul_add (a := value + kLargePage - 1) hpos
  unfold alignLarge
  omega

theorem Tried.largeMapped {size m : ℕ} {as : List Alloc} {r : Option Error × Window × List Alloc}
    (frame : ℕ) (ht : Tried size w r.2.1 as r.2.2 m) : Inv (largeMapped size frame w.scratch.next r).2 := by
  rcases r with ⟨_ | e, w₃, rest⟩
  · exact ht.inv
  · have hfits := ht.fits
    have hnext := ht.next
    have hinv := ht.inv
    simp only at hfits hnext hinv
    simp only [Window.largeMapped]
    split_ifs
    · exact hinv.setError e
    · rw [← hnext] at hfits ⊢
      exact hinv.stream frame hfits

theorem Inv.mapLargeFrom {size frame : ℕ} {as : List Alloc} (hi : Inv w) (hroom : RoomFor size w as) :
    Inv (mapLargeFrom size frame w as).2 := by
  unfold Window.mapLargeFrom
  rcases hs : w.scratch.roomMap (w.scratch.next + size) with _ | s
  · exact hi
  · obtain ⟨haddr, m, ht, -⟩ := hroom.tried (f := frame) (b := largePageBits) hi hs rfl
    have h := ht.largeMapped frame
    rw [← haddr] at h
    exact h

theorem Inv.mapLargeAt (h : Inv w) {size frame next : ℕ} {as : List Alloc} (hn : w.scratch.next ≤ next)
    (hs : next + size + nodePages as * kPage ≤ w.scratch.high ∨
      nodePages as = 0 ∧ (w.scratch.mayGrow = false ∨ w.reserved = [])) :
    Inv (Window.mapLargeFrom size frame { w with scratch := { w.scratch with next := next } } as).2 :=
  (h.advance hn).mapLargeFrom hs

theorem Inv.mapLarge (h : Inv w) {frame : ℕ} {as : List Alloc} (hs : Safe w (.mapLarge frame as)) :
    Inv (w.mapLarge frame as).2 := by
  have hle : w.scratch.next ≤ largeNext w.scratch := by
    have halign := le_alignLarge w.scratch.next
    unfold largeNext
    omega
  unfold Window.mapLarge
  by_cases h0 : frame = 0
  · rw [if_pos h0]
    exact h
  · rw [if_neg h0]
    exact h.mapLargeAt hle (Or.imp_right (And.imp_right (Or.imp_right And.left)) hs)

theorem mapAtFrom_spec (frame bits address : ℕ) : ∀ (n : ℕ) (error : Error) (w : Window)
    (as : List Alloc), Fits (nodePages as) w →
    ∃ m, Grew m w (mapAtFrom frame bits address n error w as).2.1 := by
  intro n
  induction n with
  | zero =>
    intro error w as _
    unfold mapAtFrom
    split_ifs <;> exact ⟨0, SameEnds.grew ⟨rfl, rfl, rfl, rfl, rfl, rfl, rfl, rfl⟩⟩
  | succ n ih =>
    intro error w as hf
    unfold mapAtFrom
    split_ifs with h₁ h₂
    · cases as with
      | nil => exact ⟨0, (SameEnds.refl w).grew⟩
      | cons a as =>
        have hn := nodePages_cons a as
        obtain ⟨hg, -⟩ := foldl_growths a.growths w (hf.mono (by omega))
        dsimp only [allocObject, freeObject]
        split_ifs
        · exact ⟨_, hg⟩
        · -- the table was there already, and is given back
          have ht := hg.trans (sameEnds_pageTableMap (a.growths.foldl growNodesFromWindow w) address).grew
          obtain ⟨hg', -⟩ := foldl_growths a.freed _ (ht.fits (hf.mono (by omega)))
          have hp := (ht.trans hg').trans (sameEnds_pageMap _ frame bits address).grew
          obtain ⟨m, hm⟩ := ih _ _ as (hp.fits (hf.mono (by omega)))
          exact ⟨_, hp.trans hm⟩
        · have ht := hg.trans (sameEnds_pageTableMap (a.growths.foldl growNodesFromWindow w) address).grew
          have hp := ht.trans (sameEnds_pageMap _ frame bits address).grew
          obtain ⟨m, hm⟩ := ih _ _ as (hp.fits (hf.mono (by omega)))
          exact ⟨_, hp.trans hm⟩
        · exact ⟨_, hg.trans (sameEnds_pageTableMap _ address).grew⟩
    · exact ⟨0, SameEnds.grew ⟨rfl, rfl, rfl, rfl, rfl, rfl, rfl, rfl⟩⟩
    · exact ⟨0, SameEnds.grew ⟨rfl, rfl, rfl, rfl, rfl, rfl, rfl, rfl⟩⟩

theorem Inv.mapAt (h : Inv w) {address frame bits : ℕ} {as : List Alloc}
    (hs : Safe w (.mapAt address frame bits as)) : Inv (w.mapAt address frame bits as).2.1 := by
  unfold Window.mapAt
  split_ifs
  · have hp := (sameEnds_pageMap w frame bits address).grew
    have hf : Fits (0 + nodePages as) w := by rw [Nat.zero_add]; exact hs
    obtain ⟨m, hm⟩ := mapAtFrom_spec frame bits address 4 (w.pageMap frame bits address).1
      (w.pageMap frame bits address).2 as (hp.fits hf)
    exact hm.inv (hp.inv h)
  · exact h

/-! ## Runs -/

theorem Inv.step (h : Inv w) {op : Op} (hl : Legal w op) (hs : Safe w op) : Inv (w.step op) := by
  cases op with
  | map frame as => exact h.map hs
  | mapLarge frame as => exact h.mapLarge hs
  | mapAt address frame bits as => exact h.mapAt hs
  | unmap frame => exact h.unmap hs
  | reserve pages => exact h.reserve hs
  | release base pages => exact h.release hl

theorem Inv.run (h : Inv w) (hr : Run w w') : Inv w' := by
  induction hr with
  | nil => exact h
  | cons op hl hs _ ih => exact ih (h.step hl hs)

end

/-! ## A run under the streaming end -/

/-- A growable window at 0, in a space that has the page table of its gigabyte. -/
def grown : Window := ⟨Scratch.initialise true 0, ⟨2 ^ 38, [(1, 0)], []⟩, [], []⟩

theorem grown_fresh : Fresh grown := .initialised true 0 _ (by decide)

end Window

end Aegir.Mem
