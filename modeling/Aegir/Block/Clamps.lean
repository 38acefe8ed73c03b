/-
  The driver confines every badge to the range its manager recorded.
-/
import Aegir.Block.Driver

namespace Aegir.Block

open Aegir.Lib

variable {g : Geometry} {device : ℕ → Bool} {d : Driver} {calls : List Call} {call : Call} {s : Submission} {c : Clamp}

def Clamp.extent (c : Clamp) : Extent := ⟨c.first, c.sectors⟩

def Submission.extent (s : Submission) : Extent := ⟨s.sector, s.sectors⟩

/-- A clamp covers a request: its sectors, and where its data crosses. -/
structure Clamp.Covers (g : Geometry) (c : Clamp) (s : Submission) : Prop where
  badge : c.badge = s.badge
  sectors : s.extent.Within c.extent
  window : ∀ data ∈ s.data, data = c.windowPhysical ∧ s.sectors ≤ g.windowSectors

structure Confined (g : Geometry) (calls : List Call) (d : Driver) : Prop where
  inside : ∀ c ∈ d.clamps, c.extent.Within ⟨0, g.capacity⟩
  granted : ∀ c ∈ d.clamps, ∃ call ∈ calls, call.badge = 0 ∧ call.method = kMethodClamp ∧
    c = ⟨call.word 0, call.word 1, call.word 2, call.word 3⟩
  once : (d.clamps.map Clamp.badge).Nodup
  covered : ∀ s ∈ d.submitted, s.badge ≠ 0 → ∃ c ∈ d.clamps, c.Covers g s

/-- No sum of the words of a clamp or of a discard passes the end of the 64-bit range. -/
structure Call.Fits (g : Geometry) (call : Call) : Prop where
  clamp : call.method = kMethodClamp → call.word 1 + call.word 2 < 2 ^ 64
  discard : call.method = kMethodDiscard →
    call.word 0 + call.word 1 < 2 ^ 64 ∧ call.word 0 + g.align - 1 < 2 ^ 64

/-! ## Clamps -/

theorem findClamp_eq_some {badge : ℕ} (h : d.findClamp badge = some c) : c ∈ d.clamps ∧ c.badge = badge :=
  ⟨List.mem_of_find?_eq_some h, beq_iff_eq.1 (List.find?_some (p := fun clamp : Clamp => clamp.badge == badge) h)⟩

theorem Confined.start (clampFree clampEnd : ℕ) : Confined g [] (.start clampFree clampEnd) := by
  constructor <;> simp [Driver.start]

theorem Confined.mono {calls' : List Call} (h : Confined g calls d) (hsub : calls ⊆ calls') : Confined g calls' d := by
  refine { h with granted := fun c hc => ?_ }
  obtain ⟨call, hcall, hgrant⟩ := h.granted c hc
  exact ⟨call, hsub hcall, hgrant⟩

theorem Confined.sum_lt (h : Confined g calls d) (hc : c ∈ d.clamps) : c.first + c.sectors < 2 ^ 64 := by
  have hstop : c.first + c.sectors ≤ 0 + g.capacity := (h.inside c hc).2
  have hlt := g.capacity_lt
  omega

theorem Confined.allows (h : Confined g calls d) {badge first sectors : ℕ} (hlt : first + sectors < 2 ^ 64) (hbadge : badge ≠ 0)
    (hallows : d.clampAllowsRange badge first sectors g.capacity = true) :
    ∃ c, d.findClamp badge = some c ∧ Extent.Within ⟨first, sectors⟩ c.extent := by
  simp only [Driver.clampAllowsRange, if_neg hbadge] at hallows
  split at hallows
  · cases hallows
  · cases hfind : d.findClamp badge with
    | none => simp [hfind] at hallows
    | some c =>
      have hsum := h.sum_lt (findClamp_eq_some hfind).1
      simp only [hfind, Bool.and_eq_true, decide_eq_true_eq, Nat.mod_eq_of_lt hlt, Nat.mod_eq_of_lt hsum] at hallows
      exact ⟨c, rfl, hallows⟩

/-! ## Requests -/

theorem Confined.submit (h : Confined g calls d) (hs : s.badge ≠ 0 → ∃ c ∈ d.clamps, c.Covers g s) :
    Confined g calls (d.submit device s).2 := by
  refine { h with covered := fun s' hs' => ?_ }
  rcases List.mem_append.1 hs' with hold | hnew
  · exact h.covered s' hold
  · rw [List.mem_singleton] at hnew
    rw [hnew]
    exact hs

theorem transfer_confined (h : Confined g calls d) (type : BlkType) (badge : ℕ) {word : ℕ} (hword : word < 2 ^ 64) :
    Confined g calls (d.transfer g device type badge word).2 := by
  simp only [Driver.transfer]
  cases hallows : d.clampAllows badge (readFirst word) (readCount word) g.capacity g.windowSectors with
  | false => exact h
  | true =>
    rw [Driver.clampAllows, ite_eq_iff] at hallows
    obtain ⟨-, hfalse⟩ | ⟨hfits, hallows⟩ := hallows
    · cases hfalse
    have hlt : readFirst word + readCount word < 2 ^ 64 := by
      simp only [readFirst, readCount]
      omega
    have hsubmit : Confined g calls (d.submit device ⟨badge, type, readFirst word, readCount word,
        some (d.windowFor badge g.windowPhysical)⟩).2 := by
      refine h.submit fun hbadge => ?_
      obtain ⟨c, hfind, hwithin⟩ := h.allows hlt hbadge hallows
      obtain ⟨hc, hcbadge⟩ := findClamp_eq_some hfind
      refine ⟨c, hc, hcbadge, hwithin, fun data hdata => ⟨?_, Nat.not_lt.1 hfits⟩⟩
      rw [← Option.some.inj hdata, Driver.windowFor, if_neg hbadge, hfind]
    simp only [if_true]
    split <;> rename_i hr <;> rw [hr] at hsubmit <;> exact hsubmit

theorem discardChunks_confined {max : ℕ} (hmax : 0 < max) {badge begin stop done : ℕ} (h : Confined g calls d)
    (hrange : badge ≠ 0 → begin < stop → ∃ c ∈ d.clamps, c.badge = badge ∧ c.first ≤ begin ∧ stop ≤ c.first + c.sectors) :
    Confined g calls (Driver.discardChunks device hmax badge begin stop done d).2 := by
  have hone : ∀ {begin : ℕ} {d : Driver} (chunk : ℕ), Confined g calls d → begin < stop → chunk ≤ stop - begin →
      (badge ≠ 0 → begin < stop → ∃ c ∈ d.clamps, c.badge = badge ∧ c.first ≤ begin ∧ stop ≤ c.first + c.sectors) →
      Confined g calls (d.submit device ⟨badge, .Discard, begin, chunk, none⟩).2 := by
    intro begin d chunk h hlt hchunk hrange
    refine h.submit fun hbadge => ?_
    obtain ⟨c, hc, hcbadge, hfirst, hstop⟩ := hrange hbadge hlt
    refine ⟨c, hc, hcbadge, ⟨hfirst, ?_⟩, fun data hdata => nomatch hdata⟩
    show begin + chunk ≤ c.first + c.sectors
    omega
  have hle : ∀ {begin : ℕ}, (if max < stop - begin then max else stop - begin) ≤ stop - begin := by
    intro begin
    split <;> omega
  fun_induction Driver.discardChunks device hmax badge begin stop done d with
  | case1 begin done d hlt chunk d' hr ih =>
    have hd' := hone chunk h hlt hle hrange
    rw [hr] at hd'
    obtain ⟨-, rfl⟩ := Prod.mk.inj hr
    refine ih hd' fun hbadge _ => ?_
    obtain ⟨c, hc, hcbadge, hfirst, hstop⟩ := hrange hbadge hlt
    exact ⟨c, hc, hcbadge, by omega, hstop⟩
  | case2 begin done d hlt chunk d' hr =>
    have hd' := hone chunk h hlt hle hrange
    rw [hr] at hd'
    exact hd'
  | case3 begin done d hlt => exact h

theorem discardRange_confined (h : Confined g calls d) (badge : ℕ) {first asked : ℕ} (hlt : first + asked < 2 ^ 64)
    (halign : first + g.align - 1 < 2 ^ 64) : Confined g calls (d.discardRange g device badge first asked).2 := by
  unfold Driver.discardRange
  split
  · rename_i hdiscards
    split
    · rename_i hasked
      refine discardChunks_confined (g.max_pos hdiscards) h fun hbadge _ => ?_
      obtain ⟨c, hfind, hfirst, hstop⟩ := h.allows hlt hbadge hasked.2.2
      obtain ⟨hc, hcbadge⟩ := findClamp_eq_some hfind
      refine ⟨c, hc, hcbadge, Nat.le_trans hfirst ?_, Nat.le_trans ?_ hstop⟩
      · rw [Nat.mod_eq_of_lt halign]
        have hpos := g.align_pos
        have hdiv := Nat.div_add_mod (first + g.align - 1) g.align
        have hmod := Nat.mod_lt (first + g.align - 1) hpos
        rw [Nat.mul_comm] at hdiv
        show first ≤ _
        omega
      · rw [Nat.mod_eq_of_lt hlt]
        exact Nat.div_mul_le_self _ _
    · exact h
  · exact h

theorem grantClamp_confined (h : Confined g calls d) (hbadge : call.badge = 0) (hmethod : call.method = kMethodClamp)
    (hfits : call.word 1 + call.word 2 < 2 ^ 64) : Confined g (calls ++ [call]) (d.grantClamp g call).2 := by
  have hkept : Confined g (calls ++ [call]) d := h.mono (List.subset_append_left _ _)
  unfold Driver.grantClamp
  split
  · rename_i hwords
    have hrecord : Confined g (calls ++ [call]) (d.recordClamp ⟨call.word 0, call.word 1, call.word 2, call.word 3⟩).2 := by
      unfold Driver.recordClamp
      split
      · exact hkept
      · rename_i hnew
        rw [not_or, Bool.not_eq_true, Option.isSome_eq_false_iff, Option.isNone_iff_eq_none] at hnew
        refine ⟨fun c hc => ?_, fun c hc => ?_, ?_, fun s hs hsbadge => ?_⟩
        · rcases List.mem_cons.1 hc with rfl | hold
          · refine ⟨Nat.zero_le _, ?_⟩
            show call.word 1 + call.word 2 ≤ 0 + g.capacity
            rw [Nat.mod_eq_of_lt hfits] at hwords
            omega
          · exact hkept.inside c hold
        · rcases List.mem_cons.1 hc with rfl | hold
          · exact ⟨call, List.mem_append_right _ (List.mem_singleton_self call), hbadge, hmethod, rfl⟩
          · exact hkept.granted c hold
        · refine List.nodup_cons.2 ⟨fun hmem => ?_, h.once⟩
          obtain ⟨c, hc, hcbadge⟩ := List.mem_map.1 hmem
          exact List.find?_eq_none.1 hnew.1 c hc (beq_iff_eq.2 hcbadge)
        · obtain ⟨c, hc, hcovers⟩ := h.covered s hs hsbadge
          exact ⟨c, List.mem_cons_of_mem _ hc, hcovers⟩
    split <;> rename_i hr <;> rw [hr] at hrecord <;> exact hrecord
  · exact hkept

/-! ## Runs -/

theorem Call.word_lt (call : Call) (i : ℕ) : call.word i < 2 ^ 64 := UInt64.toNat_lt _

theorem serve_confined (h : Confined g calls d) (hfits : call.Fits g) :
    Confined g (calls ++ [call]) (d.serve g device call).2 := by
  have hkept : Confined g (calls ++ [call]) d := h.mono (List.subset_append_left _ _)
  simp only [Driver.serve]
  split_ifs with hidentify hread hwrite hcaps hdiscard hclamp
  · exact hkept
  · exact transfer_confined hkept .In call.badge (call.word_lt 0)
  · exact transfer_confined hkept .Out call.badge (call.word_lt 0)
  · exact hkept
  · obtain ⟨hsum, halign⟩ := hfits.discard hdiscard.1
    exact discardRange_confined hkept call.badge hsum halign
  · exact grantClamp_confined h hclamp.2.2 hclamp.1 (hfits.clamp hclamp.1)
  · exact hkept

/-- **Every badge is confined to its range** in every run whose sums do not wrap. -/
theorem run_confined (g : Geometry) (device : ℕ → Bool) (clampFree clampEnd : ℕ) (calls : List Call)
    (hfits : ∀ call ∈ calls, call.Fits g) : Confined g calls ((Driver.start clampFree clampEnd).run g device calls) := by
  have hrun : ∀ rest done d, Confined g done d → (∀ call ∈ rest, call.Fits g) → Confined g (done ++ rest) (d.run g device rest) := by
    intro rest
    induction rest with
    | nil =>
      intro done d hd _
      rw [List.append_nil]
      exact hd
    | cons call rest ih =>
      intro done d hd hrest
      have hserved : Confined g (done ++ [call]) (d.serve g device call).2 := serve_confined hd (hrest call List.mem_cons_self)
      have hstep := ih (done ++ [call]) _ hserved fun call' hcall' => hrest call' (List.mem_cons_of_mem _ hcall')
      rw [List.append_assoc] at hstep
      exact hstep
  exact hrun calls [] _ (.start clampFree clampEnd) hfits

/-- A device of a thousand sectors that discards in aligned eights. -/
def sampleGeometry : Geometry := ⟨1000, true, 64, 1, 8, 65536, 0x80000000, by decide, by decide, by decide⟩

theorem run_confined_sample : Confined sampleGeometry [⟨0, kMethodClamp, [7, 200, 100, 4096]⟩, ⟨7, kMethodDiscard, [200, 16]⟩]
    ((Driver.start 0 4096).run sampleGeometry (fun _ => true)
      [⟨0, kMethodClamp, [7, 200, 100, 4096]⟩, ⟨7, kMethodDiscard, [200, 16]⟩]) := by
  refine run_confined sampleGeometry (fun _ => true) 0 4096 _ fun call hcall => ?_
  simp only [List.mem_cons, List.not_mem_nil, or_false] at hcall
  rcases hcall with rfl | rfl
  · exact ⟨fun _ => by decide, fun hmethod => absurd hmethod (by decide)⟩
  · exact ⟨fun hmethod => absurd hmethod (by decide), fun _ => by decide⟩

/-- A discard whose sum wraps takes the sectors at the head of the device from whoever holds them. -/
theorem discard_escapes : ¬ ∀ (g : Geometry) (device : ℕ → Bool) (clampFree clampEnd : ℕ) (calls : List Call),
    Confined g calls ((Driver.start clampFree clampEnd).run g device calls) := by
  intro h
  have hrun := h sampleGeometry (fun _ => true) 0 4096
    [⟨0, kMethodClamp, [7, 200, 100, 4096]⟩, ⟨7, kMethodDiscard, [0xfffffffffffffffb, 100]⟩]
  obtain ⟨c, hc, hcovers⟩ := hrun.covered ⟨7, .Discard, 0, 64, none⟩ (by decide +kernel) (by decide)
  obtain ⟨call, hcall, -, -, rfl⟩ := hrun.granted c hc
  simp only [List.mem_cons, List.not_mem_nil, or_false] at hcall
  rcases hcall with rfl | rfl
  · exact absurd hcovers.sectors.1 (by decide)
  · exact absurd hcovers.badge (by decide)

end Aegir.Block
