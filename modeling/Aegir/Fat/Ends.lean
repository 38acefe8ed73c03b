/-
  Which of a FAT volume's loops end.
-/
import Aegir.Fat.Chains
import Aegir.Fat.Walks

namespace Aegir.Fat

open Aegir.Lib Aegir.Lib.Buf Aegir.Lib.Fallible

variable {σ ρ : Type} {m : Mount} {w w' : World} {c : ℕ} {s : σ}

theorem walk_cases {body : ℕ → σ → M ((ℕ × σ) ⊕ ρ)} (h : ∀ next s' w', 2 ≤ c → c < m.chainEoc →
      body c s w = (some (.inl (next, s')), w') → Halts (m.walkTurn body) (w', next, s')) :
    Halts (m.walkTurn body) (w, c, s) := by
  by_cases hend : c < 2 ∨ m.chainEoc ≤ c
  · exact .last (by rw [Mount.walkTurn, if_pos hend])
  rcases hbody : body c s w with ⟨_ | ⟨next, s'⟩ | r, w'⟩
  · exact .last (by rw [Mount.walkTurn, if_neg hend, hbody])
  · refine .step (by rw [Mount.walkTurn, if_neg hend, hbody]) (h next s' w' ?_ ?_ hbody)
    · omega
    · omega
  · exact .last (by rw [Mount.walkTurn, if_neg hend, hbody])

theorem walk_out {body : ℕ → σ → M ((ℕ × σ) ⊕ ρ)} (hend : c < 2 ∨ m.chainEoc ≤ c) : Halts (m.walkTurn body) (w, c, s) :=
  .last (by rw [Mount.walkTurn, if_pos hend])

/-! ## Freeing -/

theorem fatStore_frees (hfats : 0 < m.fats) (w : World) :
    Post (fun _ w' => m.entry w'.disk c = 0 ∧ ∀ c' < c, m.entry w'.disk c' = m.entry w.disk c') (fun _ => True)
      (m.fatStore c kFreeCluster w) := by
  have hv : m.Fits kFreeCluster := by
    unfold Mount.Fits
    split
    · decide
    · decide
  refine Post.bind ((fatLoad_post m c w).mono (fun _ _ h => h) fun _ _ => trivial) ?_
  rintro rel w₁ ⟨rfl, hq, hwindow⟩
  rw [edit_bind_run, modify_bind_run]
  have hcopies : Post (fun _ (w' : World) => w'.window = m.setNextIn c kFreeCluster w₁.window ∧
        ∀ c' ≤ c, m.entry w'.disk c' = if c' = c ∧ 0 < m.fats then 0 else m.entry w.disk c') (fun _ => True)
      (forRange m.fats (fun f => m.writeBack (m.fatStart + f * m.fatSectors + m.relOf c) 1)
        { w₁ with window := m.setNextIn c kFreeCluster w₁.window, fatWindowRel := none }) := by
    refine Post.forRange (fun f (w' : World) => w'.window = m.setNextIn c kFreeCluster w₁.window ∧
      ∀ c' ≤ c, m.entry w'.disk c' = if c' = c ∧ 0 < f then 0 else m.entry w.disk c') ⟨rfl, fun c' _ => ?_⟩
      fun f _ w' ⟨hwin, hentries⟩ => ?_
    · dsimp only
      rw [hq.disk, if_neg fun h => Nat.lt_irrefl 0 h.2]
    · refine (writeBack_post m _ 1 w').mono (fun _ w'' hwrote => ⟨hwrote.window.trans hwin, fun c' hc' => ?_⟩) fun _ _ => trivial
      have hle : m.relOf c' ≤ m.relOf c := Nat.div_le_div_right (Nat.mul_le_mul_right _ hc')
      rw [hwrote.disk, Nat.one_mul, hwin, Nat.add_assoc]
      by_cases hrel : m.relOf c' = f * m.fatSectors + m.relOf c
      · -- the copy is the sector that was read
        have hsame : m.relOf c' = m.relOf c := by omega
        rw [← hrel, hsame, entry_blit hsame, nextIn_stored hv hwindow hsame]
        simp [kFreeCluster]
      · have hpos : c' = c → 0 < f := by
          rintro rfl
          refine Nat.pos_of_ne_zero fun hf => hrel ?_
          rw [hf, Nat.zero_mul, Nat.zero_add]
        rw [entry_blit_ne hrel, hentries c' hc']
        by_cases hcc : c' = c
        · rw [if_pos ⟨hcc, hpos hcc⟩, if_pos ⟨hcc, Nat.succ_pos f⟩]
        · rw [if_neg fun h => hcc h.1, if_neg fun h => hcc h.1]
  refine hcopies.mono (fun _ w' ⟨_, hentries⟩ => ⟨?_, fun c' hc' => ?_⟩) fun _ h => h
  · rw [hentries c (Nat.le_refl c), if_pos ⟨rfl, hfats⟩]
  · rw [hentries c' (Nat.le_of_lt hc'), if_neg fun h => Nat.ne_of_lt hc' h.1]

theorem freeBody_post (hfats : 0 < m.fats) (w : World) :
    Post (fun r w' => r = .inl (m.entry w.disk c, ()) ∧ m.entry w'.disk c = 0 ∧
      ∀ c' < c, m.entry w'.disk c' = m.entry w.disk c') (fun _ => True) (m.freeBody c () w) := by
  refine Post.bind ((fatLoad_post m c w).mono (fun _ _ h => h) fun _ _ => trivial) ?_
  rintro rel w₁ ⟨rfl, hq, hwindow⟩
  rw [get_bind_run]
  refine Post.bind (fatStore_frees hfats w₁) fun _ w₂ hfreed => ?_
  rw [hq.disk] at hfreed
  exact ⟨by rw [← nextIn_eq hwindow]; rfl, hfreed⟩

theorem chainFree_halts (hfats : 0 < m.fats) (w : World) (c : ℕ) : Halts (m.walkTurn m.freeBody) (w, c, ()) := by
  have hwf : WellFounded fun x y : Fin m.chainEoc → ℕ => ∃ i, (∀ j, j < i → x j = y j) ∧ x i < y i :=
    Pi.Lex.wellFounded (· < ·) fun _ => wellFounded_lt
  generalize hx : (fun k : Fin m.chainEoc => m.entry w.disk k) = x
  induction x using hwf.induction generalizing w c with
  | _ x ih =>
    subst hx
    refine walk_cases fun next s' w' hlow hhigh hbody => ?_
    have hpost := freeBody_post (c := c) hfats w
    rw [hbody] at hpost
    obtain ⟨hnext, hzero, hbelow⟩ := hpost
    cases hnext
    by_cases hend : m.entry w.disk c < 2
    · exact walk_out (.inl hend)
    · refine ih _ ⟨⟨c, hhigh⟩, fun j hj => hbelow j hj, ?_⟩ w' _ rfl
      dsimp only
      omega

/-! ## Reading and counting -/

theorem readCluster_grows (offset got position : ℕ) (dest : List UInt8) (w : World) :
    Post (fun dest' _ => position + m.clusterBytes ≤ offset ∧ dest'.length = dest.length ∨
        offset < position + m.clusterBytes ∧
          dest'.length = dest.length + min (got - dest.length) (m.clusterBytes - (offset - position)))
      (fun _ => True) (m.readCluster offset got c position dest w) := by
  unfold Mount.readCluster
  split
  · next hin =>
    refine Post.bind (Post.of_some fun _ _ _ => trivial) fun _ w₁ _ => ?_
    rw [get_bind_run, pure_run]
    refine .inr ⟨hin, ?_⟩
    rw [List.length_append, length_bytes]
  · next hout => exact .inl ⟨by omega, rfl⟩

theorem readInto_halts (hpos : 0 < m.clusterBytes) (offset got : ℕ) (w : World) (c position : ℕ) (dest : List UInt8) :
    Halts (m.walkTurn (m.readBody offset got)) (w, c, position, dest) := by
  generalize hleft : got - dest.length + (offset - position) = left
  induction left using Nat.strong_induction_on generalizing w c position dest with
  | _ left ih =>
    refine walk_cases fun next s' w' _ _ hbody => ?_
    unfold Mount.readBody at hbody
    split at hbody
    · cases hbody
    next hmore =>
    have hgrows := readCluster_grows (m := m) (c := c) offset got position dest w
    obtain ⟨r, w₁, hread, hbody⟩ := bind_eq_some hbody
    obtain ⟨rfl, rfl⟩ : (m.readCluster offset got c position dest w).1 = r ∧
        (m.readCluster offset got c position dest w).2 = w₁ := by
      cases hread
      exact ⟨rfl, rfl⟩
    rcases hrun : m.readCluster offset got c position dest w with ⟨_ | dest', w₂⟩
    · rw [hrun] at hbody
      cases hbody
    · rw [hrun] at hbody hgrows
      dsimp only at hbody
      obtain ⟨r, w₃, -, hbody⟩ := bind_eq_some hbody
      cases r with
      | none => cases hbody
      | some =>
        cases hbody
        refine ih _ ?_ _ _ _ _ rfl
        rcases hgrows with ⟨hpass, hlength⟩ | ⟨htake, hlength⟩
        · rw [← hleft, hlength]
          dsimp only at hmore
          omega
        · rw [← hleft, hlength]
          dsimp only at hmore
          omega

theorem freeCount_halts (w : World) (c : ℕ) (held : Option ℕ) (free : ℕ) : Halts m.countTurn (w, c, held, free) := by
  generalize hleft : (2 + m.clusterCount) % 2 ^ 32 - c = left
  induction left using Nat.strong_induction_on generalizing w c held free with
  | _ left ih =>
    by_cases hend : (2 + m.clusterCount) % 2 ^ 32 ≤ c
    · exact .last (by rw [Mount.countTurn, if_pos hend])
    rcases hread : when (held ≠ some (m.relOf c)) (m.read (m.fatStart + m.relOf c) 1) w with ⟨_ | _, w'⟩
    · exact .last (by rw [Mount.countTurn, if_neg hend, hread])
    · exact .step (by rw [Mount.countTurn, if_neg hend, hread]) (ih _ (by omega) w' (c + 1) _ _ rfl)

/-! ## Directories -/

/-- The chain of a directory's first cluster comes to an end, in clusters of the volume. -/
def Mount.Ended (m : Mount) (d : Buf) (first : ℕ) : Prop :=
  ∃ cs, Chain (fun c => m.linked (m.entry d c)) (m.linked first) cs ∧ ∀ c ∈ cs, m.InRange c

def Mount.freeCount (m : Mount) (d : Buf) : ℕ := ((Finset.range (m.clusterCount + 2)).filter fun c => m.entry d c = 0).card

/-- How a walk goes on from a cluster: along its chain, out of it, or to a cluster that was free. -/
inductive Onward (m : Mount) (w : World) (c : ℕ) : ℕ → World → Prop
  | next {w' : World} (disk : w'.disk = w.disk) (coherent : m.Coherent w') : Onward m w c (m.entry w.disk c) w'
  | out {w' : World} : Onward m w c 0 w'
  | grown {w' : World} {fresh : ℕ} (range : m.InRange fresh) (mark : m.chainEoc ≤ m.entry w'.disk fresh)
      (free : m.freeCount w'.disk < m.freeCount w.disk) (coherent : m.Coherent w') : Onward m w c fresh w'

instance : IsPreorder World Quiet where
  refl := .refl
  trans _ _ _ h h' := ⟨h'.disk.trans h.disk, h'.fatWindow.trans h.fatWindow, h'.rel.trans h.rel, h'.hint.trans h.hint,
    h'.handle.trans h.handle⟩

instance (lba count : ℕ) : Fallible.Keeps Quiet (m.read lba count) := ⟨fun w => (read_post m lba count w).elim (fun _ _ h => h.1) fun _ h => h⟩

instance (step : σ → Place → Buf → σ ⊕ ρ) (sectors reads at_ : ℕ) (s : σ) : Fallible.Keeps Quiet (m.scanReads step sectors reads at_ s) := by
  induction reads generalizing at_ s with
  | zero => exact keeps_pure _
  | succ reads ih =>
    unfold Mount.scanReads
    with_reducible repeat' first | infer_instance | refine keeps_bind ?_ fun _ => ?_ | split

theorem dirWalk_halts {onward : ℕ → ℕ → M ℕ} (hs : m.Sound)
    (honward : ∀ c w, m.Coherent w → m.InRange c → Post (Onward m w c) (fun _ => True) (onward c (m.entry w.disk c) w))
    (step : σ → Place → Buf → σ ⊕ ρ) (sectors reads : ℕ) (s : ℕ × σ) (hw : m.Coherent w) (hended : m.Ended w.disk c) :
    Halts (m.walkTurn (m.dirBody step sectors reads onward)) (w, c, s) := by
  generalize hfree : m.freeCount w.disk = free
  induction free using Nat.strong_induction_on generalizing w c s with
  | _ free ihgrown =>
    obtain ⟨cs, hchain, hrange⟩ := hended
    induction cs generalizing w c s with
    | nil =>
      refine walk_out ?_
      by_contra hin
      have hzero : m.linked c = 0 := hchain
      rw [show m.linked c = c from if_neg hin] at hzero
      omega
    | cons a cs ih =>
      refine walk_cases fun next s' w' hlow hhigh hbody => ?_
      rw [show m.linked c = c from if_neg (by omega)] at hchain
      obtain ⟨rfl, -, hchain⟩ := hchain
      have hr := hrange c (List.mem_cons_self ..)
      obtain ⟨r, w₁, hscan, hbody⟩ := bind_eq_some hbody
      have hq₁ : Quiet w w₁ := by
        have hkeeps := Fallible.Keeps.keeps (R := Quiet) (m := m.scanReads step sectors reads (m.clusterSector c) s.2) w
        rw [hscan] at hkeeps
        exact hkeeps
      cases r with
      | inr r => cases hbody
      | inl s₁ =>
        obtain ⟨rel, w₂, hload, hbody⟩ := bind_eq_some hbody
        have hloaded := fatLoad_post m c w₁
        rw [hload] at hloaded
        obtain ⟨-, hq₂, hwindow⟩ := hloaded
        rw [get_bind_run] at hbody
        obtain ⟨next', w₃, hnext, hbody⟩ := bind_eq_some hbody
        cases hbody
        have hdisk : w₂.disk = w.disk := hq₂.disk.trans hq₁.disk
        rw [show m.windowNext w₂ c = m.entry w₂.disk c from by rw [hq₂.disk]; exact nextIn_eq hwindow] at hnext
        have hon := honward c w₂ (hq₂.coherent (hq₁.coherent hw)) hr
        rw [hnext] at hon
        cases hon with
        | next hsame hcoherent =>
          have hsame := hsame.trans hdisk
          rw [hdisk]
          rw [← hsame] at hchain hfree ⊢
          exact ih _ hcoherent hfree hchain fun c' hc' => hrange c' (List.mem_cons_of_mem _ hc')
        | out => exact walk_out (.inl (by decide))
        | grown hr' hmark hless hcoherent =>
          rw [hdisk, hfree] at hless
          refine ihgrown _ hless _ hcoherent ⟨[next], ?_, fun c' hc' => ?_⟩ rfl
          · rw [linked_of_range hs hr']
            exact ⟨rfl, by have := hr'.1; omega, linked_of_eoc hmark⟩
          · rwa [List.mem_singleton.1 hc']

theorem growChain_onward (hs : m.Sound) (hw : m.Coherent w) (hr : m.InRange c) :
    Post (Onward m w c) (fun _ => True) (m.growChain c (m.entry w.disk c) w) := by
  unfold Mount.growChain
  split
  · next hend =>
    have halloc := allocCluster_post hs hw
    rw [bind_run]
    unfold attempt
    rcases hrun : m.allocCluster w with ⟨_ | fresh, w₁⟩
    · exact .out
    rw [hrun] at halloc
    obtain ⟨htaken, hallocates⟩ := halloc
    have hfresh := htaken.range.1
    have hused : m.entry w.disk c ≠ 0 := by
      have hmarks := hs.marks
      omega
    have hne : fresh ≠ c := fun heq => hused (by rw [← heq, htaken.free])
    refine Post.bind ((fatStore_post hs hr.2 (fits_of_range hs htaken.range) w₁).mono (fun _ _ h => h) fun _ _ => trivial) ?_
    rintro - w₂ ⟨hstored, hset⟩
    have hmark : m.entry w₂.disk fresh = m.chainEocMark := (hstored.rest fresh htaken.range.2 hne).trans htaken.mark
    refine .grown htaken.range (by rw [hmark]; exact eoc_le_mark m) (Finset.card_lt_card ?_)
      (hstored.coherent hallocates.coherent)
    refine Finset.ssubset_iff_of_subset (fun k hk => ?_) |>.2 ⟨fresh, ?_, ?_⟩
    · obtain ⟨hlt, hzero⟩ := Finset.mem_filter.1 hk
      refine Finset.mem_filter.2 ⟨hlt, ?_⟩
      by_contra hk'
      have hkeeps := hallocates.grown.used k (Finset.mem_range.1 hlt) hk'
      by_cases hkc : k = c
      · rw [hkc, hset] at hzero
        omega
      · rw [hstored.rest k (Finset.mem_range.1 hlt) hkc, hkeeps] at hzero
        exact hk' hzero
    · exact Finset.mem_filter.2 ⟨Finset.mem_range.2 htaken.range.2, htaken.free⟩
    · intro hk
      have hzero := (Finset.mem_filter.1 hk).2
      have hlow := mark_le m
      omega
  · exact .next rfl hw

theorem dirWalk_settles {v : Layout} {dir : Dir} {onward : ℕ → ℕ → M ℕ} (hs : m.Sound)
    (honward : ∀ c w, m.Coherent w → m.InRange c → Post (Onward m w c) (fun _ => True) (onward c (m.entry w.disk c) w))
    (step : σ → Place → Buf → σ ⊕ ρ) (sectors reads : ℕ) (s : σ) (hw : m.Coherent w)
    (hended : dir.root = true ∨ m.Ended w.disk dir.cluster) :
    ∃ r, Settles (m.dirWalk v dir step sectors reads onward s w) r := by
  by_cases hroot : dir.root = true
  · exact ⟨_, .const fun fuel => by rw [Mount.dirWalk, if_pos hroot]⟩
  · obtain ⟨r, hr⟩ := dirWalk_halts hs honward step sectors reads (dir.cluster, s) hw (hended.resolve_left hroot)
    exact ⟨r, hr.congr fun fuel => by rw [Mount.dirWalk, if_neg hroot]⟩

/-! ## The volume -/

variable {sector : Buf} {v : Layout}

/-- A FAT32 volume whose root directory is one cluster of deleted slots that links to itself. -/
def cycleDisk : Buf
  | 12 => 2
  | 13 => 1
  | 14 => 1
  | 16 => 1
  | 36 => 1
  | 44 => 2
  | 510 => 0x55
  | 511 => 0xaa
  | 520 => 2
  | x => if 1024 ≤ x then 0xe5 else 0

def cycleLayout : Layout := ⟨⟨1, 1, 1, 1, 2, true⟩, 2, 2, 0⟩
def cycleGrant : Grant := ⟨100, 65536, false, 0, fun _ _ => false⟩
abbrev cycleMount : Mount := cycleLayout.mount cycleGrant
def cycleWorld : World := ⟨cycleDisk, 0, zero, zero, none, 2, ⟨0, 0, 0, 0, 0, 0, 0, false⟩⟩

theorem nextIn_read (d b : Buf) : m.nextIn (blit b 0 (slice d ((m.fatStart + m.relOf c) * kSectorBytes)) (1 * kSectorBytes)) c =
    m.entry d c :=
  nextIn_eq fun i hi => blit_of_mem (Nat.zero_le i) (by omega)

end Aegir.Fat
